import LintInference.Json.Basic
import LintInference.Json.Cursor
import LintInference.Json.Writer

/-!
# Words, numbers and strings of a JSON text

A number is read as the leading digits that fit 64 bits and a power of ten; digits that do not fit are dropped, those
before the point with a step of the exponent each. A whole number stays whole if no digit was dropped; every other
number is the significand as a binary64 number, multiplied or divided once by the power of ten.
-/

namespace LintInference.Json

open Text (Piece)

/-- Is the given character next? -/
def Cursor.isAt (c : Cursor) (x : Char) : Bool :=
  match c.rest with
  | .char y :: _ => y = x
  | _ => false

/-! ## Words -/

/-- Reads the letters of a word. -/
def readWord : List Char → Reader Unit
  | [], c => .ok ((), c)
  | w :: ws, c =>
    match c.rest with
    | [] => c.fail .endInValue
    | x :: _ => if x = .char w then readWord ws c.past else c.failAhead .expectedIdent

/-! ## Numbers -/

/-- The value of a decimal digit. -/
def digit? : Piece → Option Nat
  | .char x => if '0' ≤ x ∧ x ≤ '9' then some (x.toNat - 48) else none
  | .stray _ => none

/-- Reads digits from a place on, as many as there are. -/
def digitsFrom : List Piece → Place → List Nat × Cursor
  | [], p => ([], ⟨[], p⟩)
  | x :: r, p =>
    match digit? x with
    | some d => let (ds, c) := digitsFrom r (p.past x); (d :: ds, c)
    | none => ([], ⟨x :: r, p⟩)

/-- Reads digits, as many as there are. -/
def digits (c : Cursor) : List Nat × Cursor := digitsFrom c.rest c.place

/-- Appends digits to a number while it fits 64 bits; also gives how many were appended. -/
def absorb : Nat → List Nat → Nat × Nat
  | n, [] => (n, 0)
  | n, d :: ds =>
    if 10 * n + d < UInt64.size then let (m, k) := absorb (10 * n + d) ds; (m, k + 1) else (n, 0)

/-- The binary64 number for a power of ten that it has a number for. -/
def powerOfTen (n : Nat) : Float := Float.ofScientific 1 false n

/-- Divides by `10 ^ 308` repeatedly, until nothing is left of the number. -/
def shrink : Nat → Float → Float
  | 0, x => x
  | n + 1, x => if x == 0 then x else shrink n (x / powerOfTen 308)

/-- `significand * 10 ^ exponent`, unless it is too large. -/
def scaled? (significand : Nat) (exponent : Int) : Option Float :=
  let x := Float.ofNat significand
  if 0 ≤ exponent then
    if exponent ≤ 308 then
      let y := x * powerOfTen exponent.toNat
      if y.isInf then none else some y
    else if significand == 0 then some x else none
  else
    let e := exponent.natAbs
    let steps := (e - 1) / 308
    some (shrink steps x / powerOfTen (e - 308 * steps))

/-- The number with a sign, unless it is too large. -/
def signed? (negative : Bool) (significand : Nat) (exponent : Int) : Option Number :=
  (scaled? significand exponent).map fun x => .float (.ofFloat (if negative then -x else x))

/-- A whole number whose digits all fit: out of the range for its sign, and for minus zero, it is not kept whole. -/
def whole (negative : Bool) (significand : Nat) : Number :=
  if negative then
    if significand = 0 ∨ Nat.pow 2 63 < significand then .float (.ofFloat (-(Float.ofNat significand)))
    else .int (-(significand : Int))
  else .int significand

/-- The number with the given parts, or an error if it is too large. -/
def assemble (negative : Bool) (significand : Nat) (exponent : Int) (c : Cursor) : Except ReadError (Number × Cursor) :=
  match signed? negative significand exponent with
  | some n => .ok (n, c)
  | none => c.fail .numberOutOfRange

/-- The position of the digit, if any, with which the exponent leaves 31 bits. -/
def overflowAt : Nat → Nat → List Nat → Option Nat
  | _, _, [] => none
  | e, i, d :: ds => if 10 * e + d < Nat.pow 2 31 then overflowAt (10 * e + d) (i + 1) ds else some (i + 1)

/-- Reads an exponent; the cursor is past its letter. -/
def exponent (negative : Bool) (significand : Nat) (start : Int) (c : Cursor) :
    Except ReadError (Number × Cursor) :=
  let down := c.isAt '-'
  let c := if c.isAt '+' || down then c.past else c
  let (ds, after) := digits c
  match ds, c.rest with
  | [], [] => c.fail .endInValue
  | [], _ => c.failAhead .invalidNumber
  | ds, _ =>
    match overflowAt 0 0 ds with
    | some i =>
      if significand ≠ 0 ∧ down = false then .error ⟨.numberOutOfRange, ⟨c.place.line, c.place.column + i⟩⟩
      else .ok (.float (.ofFloat (if negative then -0.0 else 0.0)), after)
    | none =>
      let e : Int := (ds.foldl (fun n d => 10 * n + d) 0 : Nat)
      assemble negative significand (if down then start - e else start + e) after

/-- Reads what follows the whole part: nothing, a fraction, an exponent. -/
def afterWhole (negative : Bool) (significand dropped : Nat) (c : Cursor) : Except ReadError (Number × Cursor) :=
  if c.isAt '.' then
    let (fraction, after) := digits c.past
    match fraction, after.rest with
    | [], [] => after.fail .endInValue
    | [], _ => after.failAhead .invalidNumber
    | fraction, _ =>
      let (n, taken) := absorb significand fraction
      let e := (dropped : Int) - taken
      if after.isAt 'e' || after.isAt 'E' then exponent negative n e after.past else assemble negative n e after
  else if c.isAt 'e' || c.isAt 'E' then exponent negative significand dropped c.past
  else if dropped = 0 then .ok (whole negative significand, c)
  else assemble negative significand dropped c

/-- Reads a number; the cursor is past its sign. -/
def readNumber (negative : Bool) (c : Cursor) : Except ReadError (Number × Cursor) :=
  match digits c, c.rest with
  | ([], _), [] => c.fail .endInValue
  | ([], _), _ => c.failAhead .invalidNumber
  | ([0], after), _ => afterWhole negative 0 0 after
  | (0 :: _, _), _ => c.past.failAhead .invalidNumber
  | (ds, after), _ =>
    let (n, taken) := absorb 0 ds
    afterWhole negative n (ds.length - taken) after

/-! ## Strings -/

/-- The value of a hexadecimal digit. -/
def hexValue? : Piece → Option Nat
  | .char x =>
    if '0' ≤ x ∧ x ≤ '9' then some (x.toNat - 48)
    else if 'a' ≤ x ∧ x ≤ 'f' then some (x.toNat - 87)
    else if 'A' ≤ x ∧ x ≤ 'F' then some (x.toNat - 55)
    else none
  | .stray _ => none

/-- Four hexadecimal digits as a number. -/
def hexFour? : List Piece → Option (Nat × List Piece)
  | a :: b :: c :: d :: r => do
    let a ← hexValue? a
    let b ← hexValue? b
    let c ← hexValue? c
    let d ← hexValue? d
    return (((a * 16 + b) * 16 + c) * 16 + d, r)
  | _ => none

/-- Reads the four digits of an escape. They are taken as four bytes before they are looked at. -/
def hexEscape (c : Cursor) : Except ReadError (Nat × Cursor) :=
  match Cursor.placeAfter 4 c.rest c.place, hexFour? c.rest with
  | none, _ => .error ⟨.endInString, c.last⟩
  | some p, none => .error ⟨.invalidEscape, p⟩
  | some p, some (n, r) => .ok (n, ⟨r, p⟩)

/-- Reads an escape by number; a character beyond 16 bits takes two of them. -/
def numberedEscape (c : Cursor) : Except ReadError (Char × Cursor) := do
  let (n, c) ← hexEscape c
  if 0xDC00 ≤ n ∧ n ≤ 0xDFFF then c.fail .loneSurrogate
  else if n < 0xD800 ∨ 0xDBFF < n then return (Char.ofNat n, c)
  else if c.rest.isEmpty then c.fail .endInString
  else if c.isAt '\\' = false then c.failAhead .unexpectedEndOfEscape
  else
    let c := c.past
    if c.rest.isEmpty then c.fail .endInString
    else if c.isAt 'u' = false then c.failAhead .unexpectedEndOfEscape
    else
      let (m, c) ← hexEscape c.past
      if m < 0xDC00 ∨ 0xDFFF < m then c.fail .loneSurrogate
      else return (Char.ofNat (0x10000 + (n - 0xD800) * 0x400 + (m - 0xDC00)), c)

/-- The character that a letter stands for after a backslash. -/
def unescape? : Char → Option Char
  | '"' => some '"'
  | '\\' => some '\\'
  | '/' => some '/'
  | 'b' => some '\x08'
  | 'f' => some '\x0c'
  | 'n' => some '\n'
  | 'r' => some '\r'
  | 't' => some '\t'
  | _ => none

/-- Reads an escape; the cursor is past the backslash. -/
def escapeSequence (c : Cursor) : Except ReadError (Char × Cursor) :=
  match c.rest with
  | [] => c.fail .endInString
  | .stray _ :: _ => c.failAhead .invalidEscape
  | .char x :: _ =>
    if x = 'u' then numberedEscape c.past
    else
      match unescape? x with
      | some y => .ok (y, c.past)
      | none => c.failAhead .invalidEscape

/-- Reads a string up to its closing quote, with the characters so far in reverse. Stray bytes are refused at its
end. -/
def stringBody : Nat → List Char → Bool → Reader String
  | 0, _, _, c => c.fail .endInString
  | n + 1, acc, stray, c =>
    match c.rest with
    | [] => c.fail .endInString
    | .stray _ :: _ => stringBody n acc true c.past
    | .char x :: _ =>
      if x = '"' then
        if stray then c.fail .invalidCodePoint else .ok (String.ofList acc.reverse, c.past)
      else if x = '\\' then do
        let (y, c) ← escapeSequence c.past
        stringBody n (y :: acc) stray c
      else if x.toNat < 32 then c.past.fail .controlCharacter
      else stringBody n (x :: acc) stray c.past

/-- Reads a string; the cursor is past the opening quote. -/
def readString (fuel : Nat) : Reader String := stringBody fuel [] false

/-- Passes over the escape in a string that is not wanted: its number may be any. -/
def skipEscape (c : Cursor) : Except ReadError Cursor :=
  match c.rest with
  | [] => c.fail .endInString
  | .stray _ :: _ => c.failAhead .invalidEscape
  | .char x :: _ =>
    if x = 'u' then do
      let (_, c) ← hexEscape c.past
      return c
    else if (unescape? x).isSome then .ok c.past
    else c.failAhead .invalidEscape

/-- Passes over a string that is not wanted; the cursor is past the opening quote. -/
def skipString : Nat → Cursor → Except ReadError Cursor
  | 0, c => c.fail .endInString
  | n + 1, c =>
    match c.rest with
    | [] => c.fail .endInString
    | .stray _ :: _ => skipString n c.past
    | .char x :: _ =>
      if x = '"' then .ok c.past
      else if x = '\\' then do
        let c ← skipEscape c.past
        skipString n c
      else if x.toNat < 32 then c.fail .controlCharacter
      else skipString n c.past

end LintInference.Json
