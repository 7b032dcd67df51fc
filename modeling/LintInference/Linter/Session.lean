import LintInference.Failure
import LintInference.Options
import LintInference.Report

/-!
# Sessions with a linter

A linter is a black box with a state of its own: its answer to a call may depend on all that happened before. A session
is one conversation with it: the options that the next call runs under, the state of the linter, and the history of the
calls made and the progress reported.

`Engine` is what runs in a session. A failure ends the run; what it did to the session stays.
-/

namespace LintInference

/-- A question to a linter. -/
structure Call where
  text : String
  options : Options

/-- A linter with states of type `σ`. -/
structure Linter (σ : Type) where
  check : Call → σ → Except Failure Report × σ

/-- How far an inference has come. -/
structure Progress where
  /-- How many rules take part. -/
  total : Nat
  /-- How many of them are decided. -/
  completed : Nat
  /-- The rule that is tried next; none at the end. -/
  rule : Option String
  deriving DecidableEq, Repr

/-- What happens in a session. -/
inductive Event where
  | call (call : Call) (answer : Except Failure Report)
  | progress (progress : Progress)

/-- A conversation with a linter. -/
structure Session (σ : Type) where
  /-- What the next call runs under. -/
  options : Options
  /-- The state of the linter. -/
  state : σ
  /-- What has happened, the latest first. -/
  history : List Event := []

namespace Session

variable {σ : Type}

/-- The events in the order in which they happened. -/
def events (s : Session σ) : List Event := s.history.reverse

end Session

/-- A run within a session. -/
def Engine (σ α : Type) := Session σ → Except Failure α × Session σ

namespace Engine

variable {σ α β : Type}

/-- Does nothing and has a result. -/
def done (a : α) : Engine σ α := fun s => (.ok a, s)

/-- Runs one and then, if it does not fail, the other. -/
def andThen (m : Engine σ α) (f : α → Engine σ β) : Engine σ β := fun s =>
  match m s with
  | (.ok a, s) => f a s
  | (.error e, s) => (.error e, s)

instance : Monad (Engine σ) where
  pure := done
  bind := andThen

@[simp] theorem pure_apply (a : α) (s : Session σ) : (pure a : Engine σ α) s = (.ok a, s) := rfl

theorem bind_apply (m : Engine σ α) (f : α → Engine σ β) (s : Session σ) :
    (m >>= f) s = match m s with
      | (.ok a, s) => f a s
      | (.error e, s) => (.error e, s) := rfl

/-- Ends the run. -/
def fail (e : Failure) : Engine σ α := fun s => (.error e, s)

/-- A result that may be a failure. -/
def lift (r : Except Failure α) : Engine σ α := fun s => (r, s)

/-- The options of the session. -/
def options : Engine σ Options := fun s => (.ok s.options, s)

/-- Changes the options of the session. -/
def modify (f : Options → Options) : Engine σ Unit := fun s => (.ok (), { s with options := f s.options })

/-- Asks the linter about a text under the options of the session. -/
def ask (linter : Linter σ) (text : String) : Engine σ Report := fun s =>
  let call : Call := ⟨text, s.options⟩
  let (answer, state) := linter.check call s.state
  (answer, { s with state, history := .call call answer :: s.history })

/-- Reports progress. -/
def report (progress : Progress) : Engine σ Unit := fun s =>
  (.ok (), { s with history := .progress progress :: s.history })

/-- Runs with options of its own, from the most permissive ones, and puts those of the session back at the end. -/
def apart (m : Engine σ α) : Engine σ α := fun s =>
  let (r, s') := m { s with options := .initial }
  (r, { s' with options := s.options })

end Engine

end LintInference
