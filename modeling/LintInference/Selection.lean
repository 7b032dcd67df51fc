/-!
# Which rules take part

A run skips the rules of one list and, if there is a list of the only rules wanted, all rules that are not on it.
-/

namespace LintInference

/-- Which rules take part in a run. -/
structure Selection where
  skip : List String
  /-- The only rules to take part; all, if there is no such list. -/
  only : Option (List String)
  deriving DecidableEq, Repr

namespace Selection

/-- The rules that are skipped unless a configuration says otherwise. -/
def usuallySkipped : List String := ["comma-dangle", "no-multi-spaces", "max-len"]

/-- The selection without any configuration. -/
def initial : Selection := ⟨usuallySkipped, none⟩

instance : Inhabited Selection := ⟨initial⟩

/-- Does a rule take part? -/
def includes (s : Selection) (rule : String) : Bool :=
  !s.skip.contains rule && (s.only.elim true fun only => only.contains rule)

end Selection

end LintInference
