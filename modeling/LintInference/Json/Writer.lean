import LintInference.Json.Basic
import LintInference.Decimal.Shortest

/-!
# Writing JSON

`Json.compact` writes a value without blanks. `Json.pretty` puts every item and entry on a line of its own, indented by
two blanks a level, and writes empty arrays and objects as brackets only. Numbers with a fraction have the fewest digits
that read back.
-/

namespace LintInference.Json

/-! ## Strings -/

/-- The digit of a value below 16, in lower case. -/
def hexDigit (n : Nat) : Char := if n < 10 then Char.ofNat (48 + n) else Char.ofNat (87 + n)

/-- A character inside a string: quote, backslash and control characters are escaped, all else stands for itself. -/
def escapeChar (c : Char) : List Char :=
  if c = '"' then ['\\', '"']
  else if c = '\\' then ['\\', '\\']
  else if c = '\n' then ['\\', 'n']
  else if c = '\r' then ['\\', 'r']
  else if c = '\t' then ['\\', 't']
  else if c.toNat = 8 then ['\\', 'b']
  else if c.toNat = 12 then ['\\', 'f']
  else if c.toNat < 32 then ['\\', 'u', '0', '0', hexDigit (c.toNat / 16), hexDigit (c.toNat % 16)]
  else [c]

/-- The characters of a string between its quotes. -/
def escape (s : List Char) : List Char := s.flatMap escapeChar

/-- A string in quotes. -/
def quote (s : String) : List Char := '"' :: (escape s.toList ++ ['"'])

/-! ## Numbers -/

/-- Numbers whose leading digit stands at 10^-5 to 10^15 are written out; others have one digit before the point and an
exponent with its sign. -/
def floatText (x : Binary64) : String :=
  let d := x.shortest
  let digits := toString d.digits
  let lead := d.exponent + digits.length - 1
  let body :=
    if -5 ≤ lead && lead ≤ 15 then
      if 0 ≤ d.exponent then digits ++ String.ofList (List.replicate d.exponent.toNat '0') ++ ".0"
      else if 0 ≤ lead then
        let cut := (lead + 1).toNat
        (digits.take cut).toString ++ "." ++ (digits.drop cut).toString
      else "0." ++ String.ofList (List.replicate (-lead - 1).toNat '0') ++ digits
    else
      let fraction := (digits.drop 1).toString
      let mantissa := (digits.take 1).toString ++ (if fraction.isEmpty then "" else "." ++ fraction)
      mantissa ++ (if 0 ≤ lead then "e+" ++ toString lead else "e" ++ toString lead)
  if x.isNegative then "-" ++ body else body

/-- The text of a whole number. -/
def intText (n : Int) : String :=
  match n with
  | .ofNat m => toString m
  | .negSucc m => "-" ++ toString (m + 1)

/-- The text of a number. -/
def Number.text : Number → List Char
  | .int n => (intText n).toList
  | .float x => (floatText x).toList

/-! ## Values -/

/-- The text of a value that holds no other value. -/
def atomText : Json → List Char
  | .null => "null".toList
  | .bool true => "true".toList
  | .bool false => "false".toList
  | .number n => n.text
  | .string s => quote s
  | .array _ => ['[', ']']
  | .object _ => ['{', '}']

mutual

/-- The characters of a value without blanks. -/
def compactChars : Json → List Char
  | .array [] => ['[', ']']
  | .array (v :: vs) => '[' :: (compactChars v ++ compactItems vs)
  | .object [] => ['{', '}']
  | .object ((k, v) :: es) => '{' :: (quote k ++ ':' :: (compactChars v ++ compactEntries es))
  | v => atomText v

/-- The further items of an array, each after its comma, and the closing bracket. -/
def compactItems : List Json → List Char
  | [] => [']']
  | v :: vs => ',' :: (compactChars v ++ compactItems vs)

/-- The further entries of an object, each after its comma, and the closing brace. -/
def compactEntries : List (String × Json) → List Char
  | [] => ['}']
  | (k, v) :: es => ',' :: (quote k ++ ':' :: (compactChars v ++ compactEntries es))

end

/-- The text of a value without blanks. -/
def compact (v : Json) : String := String.ofList (compactChars v)

/-- A line break and the blanks of a level. -/
def newline (level : Nat) : List Char := '\n' :: List.replicate (2 * level) ' '

mutual

/-- The characters of a value whose own line is indented by `level`. -/
def prettyChars (level : Nat) : Json → List Char
  | .array [] => ['[', ']']
  | .array (v :: vs) => '[' :: (newline (level + 1) ++ (prettyChars (level + 1) v ++ prettyItems level vs))
  | .object [] => ['{', '}']
  | .object ((k, v) :: es) =>
    '{' :: (newline (level + 1) ++ (quote k ++ ':' :: ' ' :: (prettyChars (level + 1) v ++ prettyEntries level es)))
  | v => atomText v

/-- The further items of an array that stands at `level`, and its closing bracket. -/
def prettyItems (level : Nat) : List Json → List Char
  | [] => newline level ++ [']']
  | v :: vs => ',' :: (newline (level + 1) ++ (prettyChars (level + 1) v ++ prettyItems level vs))

/-- The further entries of an object that stands at `level`, and its closing brace. -/
def prettyEntries (level : Nat) : List (String × Json) → List Char
  | [] => newline level ++ ['}']
  | (k, v) :: es =>
    ',' :: (newline (level + 1) ++ (quote k ++ ':' :: ' ' :: (prettyChars (level + 1) v ++ prettyEntries level es)))

end

/-- The text of a value, an item or entry a line. -/
def pretty (v : Json) : String := String.ofList (prettyChars 0 v)

end LintInference.Json
