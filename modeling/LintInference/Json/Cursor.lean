import LintInference.Text.Utf8
import LintInference.Text.Quoted

/-!
# Places in a JSON text, and what can be wrong there

A cursor is what is left of a text together with its place. Lines count from 1 and columns are the bytes of the line
that have been read, so a fault at a byte that was only looked at is reported one column further (`Cursor.ahead`).
-/

namespace LintInference.Json

open Text (Piece)

/-- A line and the number of its bytes that have been read. -/
structure Place where
  line : Nat
  column : Nat
  deriving DecidableEq, Repr

/-- The place after a piece. -/
def Place.past (p : Place) : Piece → Place
  | .char '\n' => ⟨p.line + 1, 0⟩
  | x => ⟨p.line, p.column + x.width⟩

/-- The place after the first byte of a piece. -/
def Place.pastByte (p : Place) : Piece → Place
  | .char '\n' => ⟨p.line + 1, 0⟩
  | _ => ⟨p.line, p.column + 1⟩

/-- What is left of a text, and where it starts. -/
structure Cursor where
  rest : List Piece
  place : Place
  deriving Repr

namespace Cursor

/-- The start of a text. -/
def start (text : List Piece) : Cursor := ⟨text, ⟨1, 0⟩⟩

/-- The place one byte further, or the place itself at the end. -/
def ahead (c : Cursor) : Place :=
  match c.rest with
  | [] => c.place
  | x :: _ => c.place.pastByte x

/-- The cursor past the next piece. -/
def past (c : Cursor) : Cursor :=
  match c.rest with
  | [] => c
  | x :: r => ⟨r, c.place.past x⟩

/-- The place at the end of the text. -/
def last (c : Cursor) : Place := c.rest.foldl Place.past c.place

/-- The four blanks of the format. -/
def isBlank : Piece → Bool
  | .char c => c = ' ' || c = '\n' || c = '\t' || c = '\r'
  | .stray _ => false

/-- Skips blanks from a place on. -/
def skip : List Piece → Place → Cursor
  | [], p => ⟨[], p⟩
  | x :: r, p => if isBlank x then skip r (p.past x) else ⟨x :: r, p⟩

/-- The cursor at the next piece that is no blank. -/
def skipBlanks (c : Cursor) : Cursor := skip c.rest c.place

/-- The place after the given number of bytes, if there are so many. -/
def placeAfter : Nat → List Piece → Place → Option Place
  | 0, _, p => some p
  | _ + 1, [], _ => none
  | n + 1, x :: r, p =>
    if x.width ≤ n + 1 then placeAfter (n + 1 - x.width) r (p.past x) else some ⟨p.line, p.column + (n + 1)⟩

end Cursor

/-! ## Faults -/

/-- What was found where something else was wanted. -/
inductive Found where
  | null
  | bool (value : Bool)
  | int (value : Int)
  | float (text : String)
  | string (value : String)
  | sequence
  | map
  deriving DecidableEq, Repr

/-- The words for what was found. -/
def Found.describe : Found → String
  | .null => "null"
  | .bool true => "boolean `true`"
  | .bool false => "boolean `false`"
  | .int n => "integer `" ++ toString n ++ "`"
  | .float text => "floating point `" ++ text ++ "`"
  | .string s => "string " ++ Text.quoted s
  | .sequence => "sequence"
  | .map => "map"

/-- Why a text is not read. -/
inductive Fault where
  | endInList
  | endInObject
  | endInString
  | endInValue
  | expectedColon
  | expectedCommaOrBracket
  | expectedCommaOrBrace
  | expectedIdent
  | expectedValue
  | keyNotString
  | invalidEscape
  | invalidNumber
  | numberOutOfRange
  | invalidCodePoint
  | controlCharacter
  | loneSurrogate
  | unexpectedEndOfEscape
  | trailingComma
  | trailingCharacters
  | tooDeep
  | wrongType (found : Found) (expected : String)
  | wrongValue (found : Found) (expected : String)
  | wrongLength (length : Nat) (expected : String)
  | missingField (name : String)
  | duplicateField (name : String)
  | unknownVariant (name : String) (expected : List String)
  deriving DecidableEq, Repr

/-- The alternatives of a message: one, two, or a list. -/
def alternatives : List String → String
  | [] => "there are no variants"
  | [a] => "expected `" ++ a ++ "`"
  | [a, b] => "expected `" ++ a ++ "` or `" ++ b ++ "`"
  | l => "expected one of " ++ Text.joinWith ", " (l.map fun a => "`" ++ a ++ "`")

/-- The words for a fault. -/
def Fault.describe : Fault → String
  | .endInList => "EOF while parsing a list"
  | .endInObject => "EOF while parsing an object"
  | .endInString => "EOF while parsing a string"
  | .endInValue => "EOF while parsing a value"
  | .expectedColon => "expected `:`"
  | .expectedCommaOrBracket => "expected `,` or `]`"
  | .expectedCommaOrBrace => "expected `,` or `\x7d`"
  | .expectedIdent => "expected ident"
  | .expectedValue => "expected value"
  | .keyNotString => "key must be a string"
  | .invalidEscape => "invalid escape"
  | .invalidNumber => "invalid number"
  | .numberOutOfRange => "number out of range"
  | .invalidCodePoint => "invalid unicode code point"
  | .controlCharacter => "control character (\\u0000-\\u001F) found while parsing a string"
  | .loneSurrogate => "lone leading surrogate in hex escape"
  | .unexpectedEndOfEscape => "unexpected end of hex escape"
  | .trailingComma => "trailing comma"
  | .trailingCharacters => "trailing characters"
  | .tooDeep => "recursion limit exceeded"
  | .wrongType found expected => "invalid type: " ++ found.describe ++ ", expected " ++ expected
  | .wrongValue found expected => "invalid value: " ++ found.describe ++ ", expected " ++ expected
  | .wrongLength n expected => "invalid length " ++ toString n ++ ", expected " ++ expected
  | .missingField name => "missing field `" ++ name ++ "`"
  | .duplicateField name => "duplicate field `" ++ name ++ "`"
  | .unknownVariant name expected => "unknown variant `" ++ name ++ "`, " ++ alternatives expected

/-- A fault and its place. -/
structure ReadError where
  fault : Fault
  place : Place
  deriving DecidableEq, Repr

/-- The message of an error, with its place. -/
def ReadError.message (e : ReadError) : String :=
  e.fault.describe ++ " at line " ++ toString e.place.line ++ " column " ++ toString e.place.column

/-- A step of reading: a value and the cursor after it, or an error. -/
abbrev Reader (α : Type) := Cursor → Except ReadError (α × Cursor)

/-- An error where the cursor stands. -/
def Cursor.fail {α : Type} (c : Cursor) (f : Fault) : Except ReadError α := .error ⟨f, c.place⟩

/-- An error at the byte that the cursor stands before. -/
def Cursor.failAhead {α : Type} (c : Cursor) (f : Fault) : Except ReadError α := .error ⟨f, c.ahead⟩

end LintInference.Json
