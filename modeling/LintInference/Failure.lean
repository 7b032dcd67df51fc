import LintInference.Json.Cursor

/-!
# What can go wrong

A failure names its cause; the wording is in `Failure.message` alone. A failure is recoverable if it concerns the schema
of a single rule, so that a listing may go on with the next rule.
-/

namespace LintInference

/-- Why the operating system refuses. -/
inductive OsError where
  | notFound
  | permissionDenied
  | alreadyExists
  | notADirectory
  | isADirectory
  | brokenPipe
  | badExecutable
  | noSpace
  /-- The file is no text. -/
  | notText
  | other (message : String)
  deriving DecidableEq, Repr

/-- The words of the operating system. -/
def OsError.message : OsError → String
  | .notFound => "No such file or directory (os error 2)"
  | .permissionDenied => "Permission denied (os error 13)"
  | .alreadyExists => "File exists (os error 17)"
  | .notADirectory => "Not a directory (os error 20)"
  | .isADirectory => "Is a directory (os error 21)"
  | .brokenPipe => "Broken pipe (os error 32)"
  | .badExecutable => "Exec format error (os error 8)"
  | .noSpace => "No space left on device (os error 28)"
  | .notText => "stream did not contain valid UTF-8"
  | .other message => message

/-- Why an operation of the library fails. -/
inductive Failure where
  /-- The linter could not run, or its report could not be read. -/
  | linter (message : String)
  /-- No dialect version accepts the text. -/
  | undetectableDialect (lastTried : Nat)
  /-- A reference names a definition that is not there. -/
  | unresolvedReference (name : String)
  /-- A definition leads back to itself. -/
  | cyclicReference (name : String)
  /-- A registry could not be read, or does not know a rule. -/
  | registry (rule message : String)
  | configuration (message : String)
  | file (path : String) (cause : OsError)
  /-- A JSON text could not be read. -/
  | serialization (cause : Json.ReadError)
  deriving DecidableEq, Repr

namespace Failure

/-- The area that a failure belongs to. -/
inductive Kind where
  | linter
  | dialect
  | schema
  | registry
  | configuration
  | file
  | serialization
  deriving DecidableEq, Repr

/-- The area of a failure. -/
def kind : Failure → Kind
  | .linter _ => .linter
  | .undetectableDialect _ => .dialect
  | .unresolvedReference _ => .schema
  | .cyclicReference _ => .schema
  | .registry _ _ => .registry
  | .configuration _ => .configuration
  | .file _ _ => .file
  | .serialization _ => .serialization

/-- Is the failure confined to the schema of one rule? -/
def isRecoverable (f : Failure) : Bool :=
  match f.kind with
  | .schema => true
  | .registry => true
  | _ => false

/-- The words for a failure. -/
def message : Failure → String
  | .linter m => "Oracle error: " ++ m
  | .undetectableDialect v =>
    "Could not detect a dialect version that parses the sample (last tried: " ++ toString v ++ ")"
  | .unresolvedReference name => "Unresolved schema reference '" ++ name ++ "'"
  | .cyclicReference name => "Cyclic schema reference '" ++ name ++ "'"
  | .registry rule m => "Rule registry error for '" ++ rule ++ "': " ++ m
  | .configuration m => "Configuration error: " ++ m
  | .file path cause => "IO error for path '" ++ path ++ "': " ++ cause.message
  | .serialization cause => "Serialization error: " ++ cause.message

/-- The causes behind a failure that a full account repeats after its message. -/
def causes : Failure → List String
  | .file _ cause => [cause.message]
  | .serialization cause => [cause.message]
  | _ => []

/-- Goes on after a failure, without a value. -/
def goOn {α : Type} : Except Failure α → Option α
  | .ok v => some v
  | .error _ => none

end Failure

end LintInference
