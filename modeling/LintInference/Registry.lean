import LintInference.Failure
import LintInference.Json.Reader
import LintInference.Schema.Basic

/-!
# Registries of rules

A registry names the rules that the linter knows and has the schema of each rule's options, as it was given. Rules are
listed in ascending order of their names.
-/

namespace LintInference

/-- The rules that the linter knows, with the schemas of their options. -/
structure Registry where
  schemas : Entries Json := []

namespace Registry

/-- How many rules are known. -/
def size (r : Registry) : Nat := r.schemas.length

/-- Is no rule known? -/
def isEmpty (r : Registry) : Bool := r.schemas.isEmpty

/-- Enters a rule. A rule that is known gets the new schema. -/
def insert (r : Registry) (rule : String) (schema : Json) : Registry := ⟨r.schemas.put rule schema⟩

/-- The names of the rules in ascending order. The order of characters is also that of their UTF-8 bytes. -/
def names (r : Registry) : List String := r.schemas.keys.mergeSort fun a b => decide (a ≤ b)

/-- The schema of a rule's options. -/
def schema (r : Registry) (rule : String) : Except Failure Schema :=
  match Entries.get? r.schemas rule with
  | some v => .ok (.ofJson v)
  | none => .error (.registry rule "unknown rule")

/-- Takes a dump of all schemas, an object with a schema for each rule. -/
def ofJson : Json → Except Failure Registry
  | .object entries => .ok ⟨entries⟩
  | _ => .error (.registry "*" "schema dump must be a JSON object keyed by rule name")

/-- Reads a dump of all schemas. -/
def read (text : String) : Except Failure Registry := do
  ofJson (← (Json.read text).mapError .serialization)

end Registry

end LintInference
