import LintInference.Entries
import LintInference.Decimal.Binary64

/-!
# JSON values

Objects are entries in order of arrival, and whole numbers are apart from numbers with a fraction or an exponent.
`Json.same` is equality of values: the order of an object's entries does not count, the form of a number does.
-/

namespace LintInference

/-- A number: a whole number between -2^63 and 2^64-1, or a binary64 number. -/
inductive Json.Number where
  | int (value : Int)
  | float (value : Binary64)
  deriving DecidableEq, Repr

/-- A JSON value. An object read from a text has each name once. -/
inductive Json where
  | null
  | bool (value : Bool)
  | number (value : Json.Number)
  | string (value : String)
  | array (items : List Json)
  | object (entries : List (String × Json))
  deriving Repr

namespace Json

instance : Inhabited Json := ⟨.null⟩

/-- Whole numbers equal whole numbers only; the two zeros of the other kind are equal. -/
def Number.same : Number → Number → Bool
  | .int a, .int b => a == b
  | .float a, .float b => a.same b
  | _, _ => false

mutual

/-- Equality of values. Two objects are equal if they have the same names with equal values, in whatever order. -/
def same : Json → Json → Bool
  | .null, .null => true
  | .bool a, .bool b => a == b
  | .number a, .number b => a.same b
  | .string a, .string b => a == b
  | .array as, .array bs => sameItems as bs
  | .object as, .object bs => as.length == bs.length && sameEntries as bs
  | _, _ => false

/-- Equality of items, place by place. -/
def sameItems : List Json → List Json → Bool
  | [], [] => true
  | a :: as, b :: bs => same a b && sameItems as bs
  | _, _ => false

/-- Is every entry of the first list found in the second with an equal value? -/
def sameEntries : List (String × Json) → List (String × Json) → Bool
  | [], _ => true
  | (k, a) :: as, bs =>
    (match Entries.get? bs k with
      | some b => same a b
      | none => false) && sameEntries as bs

end

/-! ## Views of a value -/

/-- The text of a string. -/
def asString? : Json → Option String
  | .string s => some s
  | _ => none

/-- The items of an array. -/
def asArray? : Json → Option (List Json)
  | .array items => some items
  | _ => none

/-- The entries of an object. -/
def asObject? : Json → Option (List (String × Json))
  | .object entries => some entries
  | _ => none

/-- A truth value. -/
def asBool? : Json → Option Bool
  | .bool b => some b
  | _ => none

/-- A whole number that is not negative. -/
def asNat? : Json → Option Nat
  | .number (.int (.ofNat n)) => some n
  | _ => none

/-- The whole number `n` as a value. -/
def ofNat (n : Nat) : Json := .number (.int n)

/-- A text, or `null` for none. -/
def ofText? (s : Option String) : Json := s.elim .null .string

/-- A list of texts. -/
def ofTexts (l : List String) : Json := .array (l.map .string)

end Json

end LintInference
