import LintInference.Linter.Session
import LintInference.Registry
import LintInference.Schema.Enumeration

/-!
# Suggesting the configuration of a rule

The candidates of a rule are tried one after the other, each as the only active rule, and the first one that the text
passes is suggested. If the text passes none, the rule is to be turned off.
-/

namespace LintInference.Suggestion

variable {σ : Type}

/-- Does the text pass a rule with the given configuration? -/
def passes (linter : Linter σ) (text rule : String) (c : Candidate) : Engine σ Bool := do
  Engine.modify (·.setOnlyRule rule c)
  let report ← Engine.ask linter text
  return report.firstUnitErrors == 0

/-- The first of the candidates that the text passes. -/
def firstPassing (linter : Linter σ) (text rule : String) : List Candidate → Engine σ (Option Candidate)
  | [] => return none
  | c :: cs => do
    if ← passes linter text rule c then return some c else firstPassing linter text rule cs

/-- The suggested configuration of a rule. -/
def suggest (linter : Linter σ) (registry : Registry) (text rule : String) : Engine σ Candidate := do
  let schema ← Engine.lift (registry.schema rule)
  let candidates ← Engine.lift schema.candidates
  return (← firstPassing linter text rule candidates).getD Candidate.off

end LintInference.Suggestion
