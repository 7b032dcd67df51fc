import LintInference.Disk

/-!
# Running other programs

A host starts programs: what one reads, writes and leaves behind is the host's business. A program that cannot be
started is an error of the operating system; one that runs ends with a status or by a signal.
-/

namespace LintInference

/-- A program to be started. -/
structure Invocation where
  program : String
  arguments : List String := []
  /-- Variables for the program alone. -/
  environment : List (String × String) := []
  /-- The directory that it runs in, if it is not the working directory. -/
  directory : Option String := none
  input : Bytes := []

/-- How a program ends. -/
inductive Ending where
  | status (code : Nat)
  | signal
  deriving DecidableEq, Repr

/-- What came out of a run. -/
structure Execution where
  ending : Ending
  output : Bytes := []
  errors : Bytes := []
  /-- How many bytes of its input the program did not take. -/
  unread : Nat := 0

/-- What runs programs. A run may change files. -/
abbrev Host := Invocation → Disk → Except OsError Execution × Disk

namespace Execution

/-- How much input can be sent to a program that does not read it. -/
def pipeCapacity : Nat := 65536

/-- Did the program end before it had taken its input? -/
def brokePipe (e : Execution) : Bool := pipeCapacity < e.unread

/-- The error text without white space around it. -/
def errorText (e : Execution) : String := Text.trim (Text.ofBytesLossy e.errors)

end Execution

end LintInference
