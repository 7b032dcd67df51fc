import LintInference.Linter.Session

/-!
# Probing for the grammar

The probes find the least that the parser has to accept for a text: each feature is turned off unless the text needs it,
then versions of the language are tried from the oldest to the newest, for scripts first and then for modules. No rules
are active during a probe. What a probe finds is left in the options of the session.
-/

namespace LintInference.Probe

variable {σ : Type}

/-- Does the text need a feature? It does if the linter reports errors without it; then the feature is turned on again
and the linter asked once more. -/
def feature (linter : Linter σ) (text : String) (f : Feature) : Engine σ Bool := do
  Engine.modify Options.clearRules
  Engine.modify (·.setFeature f false)
  let report ← Engine.ask linter text
  if report.hasErrors then
    Engine.modify (·.setFeature f true)
    let _ ← Engine.ask linter text
  return report.hasErrors

/-- Does the text need JSX? -/
def jsx (linter : Linter σ) (text : String) : Engine σ Bool := feature linter text .jsx

/-- Does the text return outside of functions? -/
def globalReturn (linter : Linter σ) (text : String) : Engine σ Bool := feature linter text .globalReturn

/-- Does the text need rest and spread properties? -/
def objectRestSpread (linter : Linter σ) (text : String) : Engine σ Bool := feature linter text .objectRestSpread

/-- A version of the language, for scripts or for modules. -/
abbrev Dialect := UInt32 × SourceType

/-- The versions that a script can be written in, the oldest first. -/
def scriptVersions : List UInt32 := [3, 5, 6, 7, 8]

/-- The versions that know modules, the oldest first. -/
def moduleVersions : List UInt32 := [6, 7, 8]

/-- The dialects in the order in which they are tried. -/
def dialects : List Dialect := scriptVersions.map (·, .script) ++ moduleVersions.map (·, .module)

/-- The options with another dialect. -/
def setDialect (d : Dialect) (o : Options) : Options :=
  { o with grammar := { o.grammar with version := d.1, sourceType := d.2 } }

/-- The first of the dialects in which the linter reports no errors. -/
def firstDialect (linter : Linter σ) (text : String) : List Dialect → Engine σ Dialect
  | [] => do Engine.fail (.undetectableDialect (← Engine.options).grammar.version.toNat)
  | d :: ds => do
    Engine.modify (setDialect d)
    let report ← Engine.ask linter text
    if report.hasErrors then firstDialect linter text ds else return d

/-- The oldest dialect that the text is written in. -/
def dialect (linter : Linter σ) (text : String) : Engine σ Dialect := do
  Engine.modify Options.clearRules
  firstDialect linter text dialects

/-- The grammar that the text needs. -/
def grammar (linter : Linter σ) (text : String) : Engine σ Grammar := do
  let _ ← jsx linter text
  let _ ← globalReturn linter text
  let _ ← objectRestSpread linter text
  let _ ← dialect linter text
  return (← Engine.options).grammar

end LintInference.Probe
