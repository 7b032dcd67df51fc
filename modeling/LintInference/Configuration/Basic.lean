import LintInference.Json.Shape
import LintInference.Selection

/-!
# Configurations

A configuration has sections, and a section has fields; each may be missing. Written as JSON, a section that is missing
is left out, while a missing field of a section is `null`.

What a run needs is settled from a configuration with defaults for all that it leaves open.
-/

namespace LintInference

/-- How to reach the linter. -/
structure LinterSection where
  /-- The program to run. -/
  command : Option String := none
  /-- The arguments that come first. -/
  args : Option (List String) := none
  /-- The program that dumps the schemas of the rules. -/
  node : Option String := none
  workingDirectory : Option String := none
  /-- A file with the schemas of the rules. -/
  schemas : Option String := none
  deriving DecidableEq, Repr

/-- Which rules to infer. -/
structure SelectionSection where
  skipRules : Option (List String) := none
  onlyRules : Option (List String) := none
  deriving DecidableEq, Repr

/-- Where the outcome goes. -/
structure OutputSection where
  path : Option String := none
  overwrite : Option Bool := none
  deriving DecidableEq, Repr

/-- A configuration. -/
structure Configuration where
  /-- A reference to the schema of configurations, for editors. -/
  schema : Option String := none
  linter : Option LinterSection := none
  selection : Option SelectionSection := none
  output : Option OutputSection := none
  deriving DecidableEq, Repr

/-! ## JSON -/

namespace Json

/-- Texts, or `null` for none. -/
def ofTexts? (l : Option (List String)) : Json := l.elim .null .ofTexts

/-- A list of texts. -/
def asTexts? (v : Json) : Option (List String) := v.asArray?.map fun vs => vs.filterMap asString?

end Json

namespace LinterSection

/-- The section as a value. -/
def toJson (s : LinterSection) : Json :=
  .object [("command", .ofText? s.command), ("args", .ofTexts? s.args), ("node", .ofText? s.node),
    ("workingDirectory", .ofText? s.workingDirectory), ("schemas", .ofText? s.schemas)]

open Json.Shape (optionalField) in
/-- What a reader of the section wants. -/
def shape : Json.Shape :=
  .record "EslintConfiguration" [optionalField "command" .text, optionalField "args" (.list .text),
    optionalField "node" .text, optionalField "workingDirectory" .text, optionalField "schemas" .text]

/-- The section in what a reader has read. -/
def ofRead? : Json → Option LinterSection
  | .array [command, args, node, workingDirectory, schemas] =>
    some ⟨command.asString?, args.asTexts?, node.asString?, workingDirectory.asString?, schemas.asString?⟩
  | _ => none

end LinterSection

namespace SelectionSection

/-- The section as a value. -/
def toJson (s : SelectionSection) : Json :=
  .object [("skipRules", .ofTexts? s.skipRules), ("onlyRules", .ofTexts? s.onlyRules)]

open Json.Shape (optionalField) in
/-- What a reader of the section wants. -/
def shape : Json.Shape :=
  .record "InferenceConfiguration" [optionalField "skipRules" (.list .text), optionalField "onlyRules" (.list .text)]

/-- The section in what a reader has read. -/
def ofRead? : Json → Option SelectionSection
  | .array [skipRules, onlyRules] => some ⟨skipRules.asTexts?, onlyRules.asTexts?⟩
  | _ => none

end SelectionSection

namespace OutputSection

/-- The section as a value. -/
def toJson (s : OutputSection) : Json :=
  .object [("path", .ofText? s.path), ("overwrite", s.overwrite.elim .null .bool)]

open Json.Shape (optionalField) in
/-- What a reader of the section wants. -/
def shape : Json.Shape :=
  .record "OutputConfiguration" [optionalField "path" .text, optionalField "overwrite" .flag]

/-- The section in what a reader has read. -/
def ofRead? : Json → Option OutputSection
  | .array [path, overwrite] => some ⟨path.asString?, overwrite.asBool?⟩
  | _ => none

end OutputSection

namespace Configuration

/-- An entry for a value that is there. -/
def givenEntry {α : Type} (name : String) (toJson : α → Json) : Option α → List (String × Json)
  | none => []
  | some a => [(name, toJson a)]

/-- A configuration as a value. -/
def toJson (c : Configuration) : Json :=
  .object (givenEntry "$schema" .string c.schema ++ givenEntry "eslint" LinterSection.toJson c.linter ++
    givenEntry "inference" SelectionSection.toJson c.selection ++ givenEntry "output" OutputSection.toJson c.output)

open Json.Shape (optionalField) in
/-- What a reader of configurations wants. -/
def shape : Json.Shape :=
  .record "KataConfig" [optionalField "$schema" .text, optionalField "eslint" LinterSection.shape,
    optionalField "inference" SelectionSection.shape, optionalField "output" OutputSection.shape]

/-- The configuration in what a reader has read. -/
def ofRead? : Json → Option Configuration
  | .array [schema, linter, selection, output] =>
    some ⟨schema.asString?, LinterSection.ofRead? linter, SelectionSection.ofRead? selection,
      OutputSection.ofRead? output⟩
  | _ => none

/-- Reads a configuration written as JSON. -/
def ofJsonText (text : String) : Except Json.ReadError Configuration := do
  return (ofRead? (← shape.read (Text.pieces text))).getD {}

end Configuration

/-! ## Settings -/

/-- How the linter is run. -/
structure LinterSettings where
  command : String := "npx"
  args : List String := ["--no-install", "eslint"]
  node : String := "node"
  workingDirectory : Option String := none
  deriving DecidableEq, Repr

namespace Configuration

/-- The rules that take part. -/
def selectionSettings (c : Configuration) : Selection :=
  ⟨(c.selection.bind (·.skipRules)).getD Selection.usuallySkipped, c.selection.bind (·.onlyRules)⟩

/-- How the linter is run. -/
def linterSettings (c : Configuration) : LinterSettings :=
  let initial : LinterSettings := {}
  ⟨(c.linter.bind (·.command)).getD initial.command, (c.linter.bind (·.args)).getD initial.args,
    (c.linter.bind (·.node)).getD initial.node, c.linter.bind (·.workingDirectory)⟩

/-- The file with the schemas of the rules, if there is one. -/
def schemasPath? (c : Configuration) : Option String := c.linter.bind (·.schemas)

/-- Where the outcome goes. -/
def outputPath (c : Configuration) : String := (c.output.bind (·.path)).getD ".eslintrc"

/-- May the outcome replace a file? -/
def overwrite (c : Configuration) : Bool := (c.output.bind (·.overwrite)).getD false

end Configuration

end LintInference
