import LintInference.Configuration.Basic
import LintInference.Toml.Reader

/-!
# Configurations in TOML

A section is a table, or an array with a value for each of its fields. What a section does not know is passed over.
-/

namespace LintInference

namespace Toml

/-- A text. -/
def asText? : Toml → Option String
  | .text s => some s
  | _ => none

/-- A truth value. -/
def asFlag? : Toml → Option Bool
  | .flag b => some b
  | _ => none

/-- A list of texts. -/
def asTexts? : Toml → Option (List String)
  | .array items => items.mapM asText?
  | _ => none

/-- The values of fields, where they are given. -/
def fields? (names : List String) : Toml → Option (List (Option Toml))
  | .table entries => some (names.map (Entries.get? entries))
  | .array items => if names.length ≤ items.length then some ((items.take names.length).map some) else none
  | _ => none

/-- A field that may be missing, but has the right type if it is there. -/
def optional {α : Type} (read : Toml → Option α) : Option Toml → Option (Option α)
  | none => some none
  | some v => (read v).map some

end Toml

open Toml (asText? asFlag? asTexts? fields? optional)

/-- The section that a value writes. -/
def LinterSection.ofToml? (v : Toml) : Option LinterSection := do
  match ← fields? ["command", "args", "node", "workingDirectory", "schemas"] v with
  | [command, args, node, workingDirectory, schemas] =>
    return ⟨← optional asText? command, ← optional asTexts? args, ← optional asText? node,
      ← optional asText? workingDirectory, ← optional asText? schemas⟩
  | _ => none

/-- The section that a value writes. -/
def SelectionSection.ofToml? (v : Toml) : Option SelectionSection := do
  match ← fields? ["skipRules", "onlyRules"] v with
  | [skipRules, onlyRules] => return ⟨← optional asTexts? skipRules, ← optional asTexts? onlyRules⟩
  | _ => none

/-- The section that a value writes. -/
def OutputSection.ofToml? (v : Toml) : Option OutputSection := do
  match ← fields? ["path", "overwrite"] v with
  | [path, overwrite] => return ⟨← optional asText? path, ← optional asFlag? overwrite⟩
  | _ => none

/-- The configuration that a value writes. -/
def Configuration.ofToml? (v : Toml) : Option Configuration := do
  match ← fields? ["$schema", "eslint", "inference", "output"] v with
  | [schema, linter, selection, output] =>
    return ⟨← optional asText? schema, ← optional LinterSection.ofToml? linter,
      ← optional SelectionSection.ofToml? selection, ← optional OutputSection.ofToml? output⟩
  | _ => none

/-- Reads a configuration written in TOML. -/
def Configuration.ofTomlText? (text : String) : Option Configuration := (Toml.read text).bind ofToml?

end LintInference
