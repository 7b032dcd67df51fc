import LintInference.Candidate
import LintInference.Grammar

/-!
# Options of a linter call

A call of the linter runs under a grammar and a set of active rules.
-/

namespace LintInference

/-- What a linter call runs under. -/
structure Options where
  grammar : Grammar
  rules : Entries Candidate

namespace Options

/-- The most permissive grammar, and no rules. -/
def initial : Options := ⟨.permissive, []⟩

instance : Inhabited Options := ⟨initial⟩

/-- Makes one rule the only active one. -/
def setOnlyRule (o : Options) (rule : String) (c : Candidate) : Options := { o with rules := [(rule, c)] }

/-- Leaves no rule active. -/
def clearRules (o : Options) : Options := { o with rules := [] }

/-- Turns a feature of the grammar on or off. -/
def setFeature (o : Options) (f : Feature) (on : Bool) : Options := { o with grammar := o.grammar.setFeature f on }

/-! ## JSON -/

/-- A grammar and the configuration of rules, the form that the linter reads too. -/
def pairToJson (g : Grammar) (rules : Entries Candidate) : Json :=
  .object [("parserOptions", g.toJson), ("rules", .object (Entries.mapValues Candidate.toJson rules))]

open Json.Shape (field) in
/-- What a reader of a grammar with rules wants; messages use the name. -/
def pairShape (name : String) : Json.Shape :=
  .record name [field "parserOptions" Grammar.shape, field "rules" (.map (.list .any))]

/-- The grammar and the rules in what a reader has read. -/
def pairOfRead? : Json → Option (Grammar × Entries Candidate)
  | .array [grammar, .object rules] => do
    return (← Grammar.ofRead? grammar, rules.map fun e => (e.1, e.2.asArray?.getD []))
  | _ => none

/-- Options as a value. -/
def toJson (o : Options) : Json := pairToJson o.grammar o.rules

/-- Options as compact JSON. -/
def text (o : Options) : String := o.toJson.compact

/-- Reads options from a text. -/
def read (text : String) : Except Json.ReadError Options := do
  let v ← (pairShape "EngineOptions").read (Text.pieces text)
  return ((pairOfRead? v).map fun (g, rules) => ⟨g, rules⟩).getD initial

end Options

end LintInference
