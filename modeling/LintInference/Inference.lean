import LintInference.Probe
import LintInference.Selection
import LintInference.Suggestion

/-!
# Inferring a configuration

An inference finds the grammar of a text and then, in ascending order of their names, a configuration for each rule that
takes part. Progress is reported before each rule and at the end.
-/

namespace LintInference

/-- The outcome of an inference, in the form of the linter's own configuration files. -/
structure Inferred where
  grammar : Grammar
  rules : Entries Candidate

namespace Inferred

/-- The configuration of a rule. -/
def rule? (i : Inferred) (name : String) : Option Candidate := Entries.get? i.rules name

/-- The rules that are turned off. -/
def disabled (i : Inferred) : List String := Entries.keys (i.rules.filter (·.2.isOff))

/-- The outcome as a value. -/
def toJson (i : Inferred) : Json := Options.pairToJson i.grammar i.rules

/-- The outcome as indented JSON. -/
def pretty (i : Inferred) : String := i.toJson.pretty

/-- Reads an outcome. -/
def read (text : String) : Except Json.ReadError Inferred := do
  let v ← (Options.pairShape "InferredConfig").read (Text.pieces text)
  return ((Options.pairOfRead? v).map fun (g, rules) => ⟨g, rules⟩).getD ⟨default, []⟩

end Inferred

namespace Inference

variable {σ : Type}

/-- The rules of a registry that take part, in order. -/
def selected (registry : Registry) (selection : Selection) : List String := registry.names.filter selection.includes

/-- Suggestions for the rules, one after the other; `completed` of `total` are decided. -/
def suggestEach (linter : Linter σ) (registry : Registry) (text : String) (total : Nat) :
    Nat → List String → Engine σ (Entries Candidate)
  | _, [] => return []
  | completed, rule :: rules => do
    Engine.report ⟨total, completed, some rule⟩
    let suggestion ← Suggestion.suggest linter registry text rule
    let others ← suggestEach linter registry text total (completed + 1) rules
    return (rule, suggestion) :: others

/-- Infers a configuration for a text. -/
def run (linter : Linter σ) (registry : Registry) (selection : Selection) (text : String) : Engine σ Inferred :=
  Engine.apart do
    let grammar ← Probe.grammar linter text
    let rules := selected registry selection
    let suggestions ← suggestEach linter registry text rules.length 0 rules
    Engine.modify Options.clearRules
    Engine.report ⟨rules.length, rules.length, none⟩
    return ⟨grammar, suggestions⟩

/-- Finds only the grammar of a text. -/
def probe (linter : Linter σ) (text : String) : Engine σ Grammar := Engine.apart (Probe.grammar linter text)

end Inference

end LintInference
