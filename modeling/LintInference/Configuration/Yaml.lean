import LintInference.Configuration.Basic
import LintInference.Yaml.Node

/-!
# Configurations in YAML

A section is a mapping whose keys are scalars; keys that a section does not know are passed over, and one that it knows
comes once. Whatever way a scalar is written, it is a text where a text is wanted. A field is left open by a scalar
without quotes that is empty or says null.
-/

namespace LintInference

namespace Yaml

/-- The words for no value. -/
def isNullWord (s : String) : Bool := ["null", "Null", "NULL", "~"].contains s

/-- The tag of the type of no value. -/
def nullTag : String := "tag:yaml.org,2002:null"

/-- The tag of truth values. -/
def boolTag : String := "tag:yaml.org,2002:bool"

namespace Node

/-- A text: any scalar. -/
def asText? : Node → Option String
  | .scalar _ _ text => some text
  | _ => none

/-- A truth value: a scalar without quotes, or a block tagged as one. -/
def asFlag? : Node → Option Bool
  | .scalar tag style text =>
    if style = .plain ∨ (style = .literal ∧ tag = some boolTag) then
      if ["true", "True", "TRUE"].contains text then some true
      else if ["false", "False", "FALSE"].contains text then some false
      else none
    else none
  | _ => none

/-- A list of texts; nothing at all is an empty list. -/
def asTexts? : Node → Option (List String)
  | .sequence items => items.mapM asText?
  | .scalar _ .plain "" => some []
  | _ => none

/-- Is a field with this value left open? A value tagged as none has to say so. -/
def isOpen? : Node → Option Bool
  | .scalar tag .plain text =>
    match tag with
    | none => some (text.isEmpty || isNullWord text)
    | some t => if t = nullTag then if isNullWord text then some true else none else some false
  | .endless => none
  | _ => some false

/-- A value of the right type, unless it is left open. -/
def optional {α : Type} (read : Node → Option α) (v : Node) : Option (Option α) := do
  if ← isOpen? v then some none else (read v).map some

/-- The values of the known keys of a mapping. -/
def fields? (names : List String) : List (Node × Node) → Option (Entries Node)
  | [] => some []
  | (k, v) :: es => do
    let k ← asText? k
    let others ← fields? names es
    if names.contains k then if (Entries.get? others k).isSome then none else some ((k, v) :: others)
    else some others

/-- The known fields of a section; nothing at all is a section without fields. -/
def section? (names : List String) : Node → Option (Entries Node)
  | .mapping entries => fields? names entries
  | .scalar _ .plain "" => some []
  | _ => none

/-- A field that may be missing. -/
def field? {α : Type} (fields : Entries Node) (name : String) (read : Node → Option α) : Option (Option α) :=
  match Entries.get? fields name with
  | none => some none
  | some v => optional read v

end Node

end Yaml

open Yaml (Node)
open Yaml.Node (asText? asFlag? asTexts? section? field?)

/-- The section that a node writes. -/
def LinterSection.ofYaml? (v : Node) : Option LinterSection := do
  let fields ← section? ["command", "args", "node", "workingDirectory", "schemas"] v
  return ⟨← field? fields "command" asText?, ← field? fields "args" asTexts?, ← field? fields "node" asText?,
    ← field? fields "workingDirectory" asText?, ← field? fields "schemas" asText?⟩

/-- The section that a node writes. -/
def SelectionSection.ofYaml? (v : Node) : Option SelectionSection := do
  let fields ← section? ["skipRules", "onlyRules"] v
  return ⟨← field? fields "skipRules" asTexts?, ← field? fields "onlyRules" asTexts?⟩

/-- The section that a node writes. -/
def OutputSection.ofYaml? (v : Node) : Option OutputSection := do
  let fields ← section? ["path", "overwrite"] v
  return ⟨← field? fields "path" asText?, ← field? fields "overwrite" asFlag?⟩

/-- The configuration that a node writes. -/
def Configuration.ofYaml? (v : Node) : Option Configuration := do
  let fields ← section? ["$schema", "eslint", "inference", "output"] v
  return ⟨← field? fields "$schema" asText?, ← field? fields "eslint" LinterSection.ofYaml?,
    ← field? fields "inference" SelectionSection.ofYaml?, ← field? fields "output" OutputSection.ofYaml?⟩

/-- Reads a configuration written in YAML. -/
def Configuration.ofYamlText? (text : String) : Option Configuration := (Node.read text).bind ofYaml?

end LintInference
