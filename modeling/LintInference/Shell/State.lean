import LintInference.Entries
import LintInference.Shell.Fields
import LintInference.Shell.Tools

/-!
# The state of a running script

What a script has read, written, set and changed so far. What it writes is kept in chunks, each with the descriptor it
was written to, so that a redirection can sort them afterwards.

A subshell starts from the state of its parent; of what it does, the parent keeps the files and what was read
(`State.afterSubshell`).
-/

namespace LintInference.Shell

/-- Why a script, a function or a loop stops before its end. -/
inductive Stop where
  /-- The script ends. -/
  | exit
  /-- A signal ends it. -/
  | killed
  /-- The function ends. -/
  | leave
  /-- So many loops end. -/
  | endLoop (depth : Nat)
  /-- The loops inside the one with this depth end, and that one goes on with its next round. -/
  | nextRound (depth : Nat)
  deriving DecidableEq, Repr

/-- The state of a script. -/
structure State where
  disk : Disk
  /-- What is left of the standard input. -/
  input : Raw := []
  /-- What was written to which descriptor, the latest first. -/
  written : List (Nat × Raw) := []
  /-- The variables and their values. -/
  bindings : Entries Raw := []
  /-- The names of the variables that programs get to see. -/
  exported : List String := []
  functions : Entries Command := []
  /-- The name that the script was started by. -/
  name : Raw := []
  parameters : List Raw := []
  /-- The status of the last command. -/
  status : Nat := 0
  stop : Option Stop := none
  /-- Does a command that fails end the script? -/
  strict : Bool := false
  /-- Is the status of the commands under way looked at, so that a failure does not end the script? -/
  tested : Bool := false

namespace State

/-! ## Writing -/

/-- Writes to a descriptor. -/
def write (s : State) (descriptor : Nat) (t : Raw) : State :=
  if t.isEmpty then s else { s with written := (descriptor, t) :: s.written }

/-- What was written to a descriptor, in order. -/
def textOn (s : State) (descriptor : Nat) : Raw :=
  (s.written.reverse.filter (·.1 = descriptor)).flatMap (·.2)

/-- Complains about a command and has a status. -/
def complain (s : State) (line : Nat) (what : List String) (status : Nat) : State :=
  let words := what.flatMap fun w => ": ".toList ++ Raw.ofString w
  { s.write 2 (s.name ++ ": ".toList ++ Raw.ofString (ToString.toString line) ++ words ++ ['\n']) with status }

/-- The state after a tool or program. -/
def take (s : State) (o : Outcome) : State :=
  let s := (s.write 1 o.output).write 2 o.errors
  { s with status := o.status, input := o.rest, disk := { o.disk with workingDirectory := s.disk.workingDirectory } }

/-! ## Variables -/

/-- The number that a script takes for that of its process. -/
def processNumber : Raw := "4711".toList

/-- The value of a parameter or variable. -/
def value? (s : State) (name : String) : Option Raw :=
  match name with
  | "?" => some (Raw.ofString (ToString.toString s.status))
  | "#" => some (Raw.ofString (ToString.toString s.parameters.length))
  | "$" => some processNumber
  | "!" => none
  | "-" => some []
  | "0" => some s.name
  | "@" => if s.parameters.isEmpty then none else some (List.intercalate [' '] s.parameters)
  | "*" => if s.parameters.isEmpty then none else some (List.intercalate [' '] s.parameters)
  | "PWD" => (Entries.get? s.bindings name).or (some (Raw.ofString (Disk.pathOf s.disk.workingDirectory)))
  | _ =>
    match number? name.toList with
    | some n => s.parameters[n - 1]?
    | none => Entries.get? s.bindings name

/-- Sets a variable. -/
def assign (s : State) (name : String) (value : Raw) : State :=
  { s with bindings := Entries.put s.bindings name value }

/-- Takes a variable away. -/
def unset (s : State) (name : String) : State :=
  { s with bindings := s.bindings.filter (·.1 ≠ name), exported := s.exported.filter (· ≠ name) }

/-- Shows a variable to programs. -/
def publish (s : State) (name : String) : State :=
  if s.exported.contains name then s else { s with exported := s.exported ++ [name] }

/-- What programs get to see. -/
def environment (s : State) : Entries Raw := s.bindings.filter fun e => s.exported.contains e.1

/-- The characters that separate fields. -/
def separators (s : State) : Raw := (Entries.get? s.bindings "IFS").getD [' ', '\t', '\n']

/-- The words that a field stands for: the names in the working directory that it matches as a pattern, or else its
text. A name with a dot in front is matched only by a dot. -/
def namesFor (s : State) (f : Field) : List Raw :=
  if f.isPattern then
    let pattern := Glob.ofText (f.length + 1) f
    let names := (s.disk.namesIn s.disk.workingDirectory).map Raw.ofString
    let hidden := fun (name : Raw) => name.head? = some '.'
    let found := names.filter fun name => Glob.matches pattern name && (!hidden name || hidden f.text)
    if found.isEmpty then [f.text] else found
  else [f.text]

/-- Gives the named variables the values they have in `old`. -/
def restore (s old : State) (names : List String) : State :=
  names.foldl (fun s name =>
    match Entries.get? old.bindings name with
    | some v => s.assign name v
    | none => { s with bindings := s.bindings.filter (·.1 ≠ name) }) { s with exported := old.exported }

/-! ## Subshells -/

/-- The state in which a subshell starts; it has written nothing yet. -/
def subshell (s : State) : State := { s with written := [] }

/-- What a subshell leaves to its parent: files, what is left of the input, the status, and the end by a signal. -/
def afterSubshell (s sub : State) : State :=
  { s with
    disk := { sub.disk with workingDirectory := s.disk.workingDirectory }
    input := sub.input
    status := sub.status
    stop := if sub.stop = some .killed then some .killed else s.stop }

/-- Takes over what a subshell wrote to the descriptors that are not `kept` apart. -/
def takeWritten (s sub : State) (kept : Nat → Bool) : State :=
  { s with written := sub.written.filter (fun c => !kept c.1) ++ s.written }

end State

end LintInference.Shell
