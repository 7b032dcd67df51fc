import LintInference.Json.Shape

/-!
# Grammar profiles

A grammar is what the parser is asked to accept: a version of the language, a script or a module, and optional features.
-/

namespace LintInference

/-- The goal of parsing. -/
inductive SourceType where
  | script
  | module
  deriving DecidableEq, Repr

namespace SourceType

/-- The word for it. -/
def word : SourceType → String
  | .script => "script"
  | .module => "module"

/-- What a word stands for. -/
def ofWord? (s : String) : Option SourceType :=
  if s = "script" then some .script else if s = "module" then some .module else none

/-- All words, in the order of messages. -/
def words : List String := [word .script, word .module]

end SourceType

/-- Optional features of the language. -/
inductive Feature where
  | globalReturn
  | impliedStrict
  | jsx
  | objectRestSpread
  deriving DecidableEq, Repr

namespace Feature

/-- All features, in the order of a fresh profile. -/
def all : List Feature := [.globalReturn, .impliedStrict, .jsx, .objectRestSpread]

/-- The flag that the parser knows the feature by. -/
def flag : Feature → String
  | .globalReturn => "globalReturn"
  | .impliedStrict => "impliedStrict"
  | .jsx => "jsx"
  | .objectRestSpread => "experimentalObjectRestSpread"

/-- The feature behind a flag. -/
def ofFlag? (s : String) : Option Feature := all.find? (·.flag = s)

end Feature

/-- What the parser is asked to accept. -/
structure Grammar where
  version : UInt32
  sourceType : SourceType
  /-- The flags that are set one way or the other, known to this library or not. -/
  features : Entries Bool
  deriving DecidableEq, Repr

namespace Grammar

/-- The newest version that is known. -/
def latestVersion : UInt32 := 8

/-- The most permissive grammar: the newest version, a module, every feature on. -/
def permissive : Grammar := ⟨latestVersion, .module, Feature.all.map fun f => (f.flag, true)⟩

instance : Inhabited Grammar := ⟨permissive⟩

/-- Is a feature on? A flag that is not set is off. -/
def has (g : Grammar) (f : Feature) : Bool := (Entries.get? g.features f.flag).getD false

/-- The grammar with a feature turned on or off. -/
def setFeature (g : Grammar) (f : Feature) (on : Bool) : Grammar := { g with features := g.features.put f.flag on }

@[simp] theorem has_setFeature_self (g : Grammar) (f : Feature) (on : Bool) : (g.setFeature f on).has f = on := by
  simp [has, setFeature]

@[simp] theorem setFeature_setFeature_self (g : Grammar) (f : Feature) (on on' : Bool) :
    (g.setFeature f on).setFeature f on' = g.setFeature f on' := by
  simp [setFeature]

theorem flag_ne {f f' : Feature} (h : f ≠ f') : f.flag ≠ f'.flag := by
  cases f <;> cases f' <;> simp_all [Feature.flag]

theorem has_setFeature_of_ne (g : Grammar) {f f' : Feature} (on : Bool) (h : f' ≠ f) :
    (g.setFeature f on).has f' = g.has f' := by
  simp [has, setFeature, Entries.get?_put_of_ne _ _ (flag_ne h)]

/-! ## JSON -/

/-- A grammar as a value. -/
def toJson (g : Grammar) : Json :=
  .object [("ecmaVersion", .ofNat g.version.toNat), ("sourceType", .string g.sourceType.word),
    ("ecmaFeatures", .object (Entries.mapValues Json.bool g.features))]

open Json.Shape (field) in
/-- What a reader of grammars wants. -/
def shape : Json.Shape :=
  .record "ParserOptions" [field "ecmaVersion" .word, field "sourceType" (.choice SourceType.words),
    field "ecmaFeatures" (.map .flag)]

/-- The grammar in what a reader has read. -/
def ofRead? : Json → Option Grammar
  | .array [version, sourceType, .object features] => do
    let version ← version.asNat?
    let sourceType ← sourceType.asString?.bind SourceType.ofWord?
    return ⟨.ofNat version, sourceType, features.map fun e => (e.1, e.2.asBool?.getD false)⟩
  | _ => none

end Grammar

end LintInference
