import LintInference.Configuration.Basic

/-!
# Layers of configuration

`a.merge b` is `a` with `b` for what `a` leaves open. Sections are merged field by field; the lists of rules to skip are
put together, each new name once.
-/

namespace LintInference

/-- Puts a name at the end of a list that does not have it. -/
def addName (names : List String) (name : String) : List String := if name ∈ names then names else names ++ [name]

/-- A list of names, followed by those of another that it does not have. -/
def union (names others : List String) : List String := others.foldl addName names

/-- Merges two values that may be missing. -/
def mergeOption {α : Type} (merge : α → α → α) : Option α → Option α → Option α
  | some a, some b => some (merge a b)
  | some a, none => some a
  | none, b => b

namespace LinterSection

/-- The section, with another for what it leaves open. -/
def merge (a b : LinterSection) : LinterSection :=
  ⟨a.command.or b.command, a.args.or b.args, a.node.or b.node, a.workingDirectory.or b.workingDirectory,
    a.schemas.or b.schemas⟩

end LinterSection

namespace SelectionSection

/-- The section, with another for what it leaves open; what either skips is skipped. -/
def merge (a b : SelectionSection) : SelectionSection :=
  ⟨mergeOption union a.skipRules b.skipRules, a.onlyRules.or b.onlyRules⟩

end SelectionSection

namespace OutputSection

/-- The section, with another for what it leaves open. -/
def merge (a b : OutputSection) : OutputSection := ⟨a.path.or b.path, a.overwrite.or b.overwrite⟩

end OutputSection

namespace Configuration

/-- The configuration, with another for what it leaves open. -/
def merge (a b : Configuration) : Configuration :=
  ⟨a.schema.or b.schema, mergeOption LinterSection.merge a.linter b.linter,
    mergeOption SelectionSection.merge a.selection b.selection, mergeOption OutputSection.merge a.output b.output⟩

end Configuration

end LintInference
