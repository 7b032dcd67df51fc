/-!
# Text in bytes

A byte sequence is read as characters (`Piece.char`) and, where bytes belong to no character, as stray runs. A run is as
long as it could still have become a character, so `replaceStray` puts one U+FFFD for each run, and `ofBytes?` accepts
exactly the sequences without one.
-/

namespace LintInference

/-- Raw bytes, of a file or of a program's output. -/
abbrev Bytes := List UInt8

namespace Text

/-- A part of a byte sequence read as UTF-8: a character, or a run of `width` bytes that is part of none. -/
inductive Piece where
  | char (c : Char)
  | stray (width : Nat)
  deriving DecidableEq, Repr

/-- How many bytes the piece takes. -/
def Piece.width : Piece → Nat
  | .char c => c.utf8Size
  | .stray n => n

/-- The pieces of a text that is already characters. -/
def pieces (s : String) : List Piece := s.toList.map .char

/-- The bytes of a text. -/
def toBytes (s : String) : Bytes := s.toUTF8.toList

/-- Does the byte continue a character? -/
def isTail (b : UInt8) : Bool := 0x80 ≤ b && b ≤ 0xBF

/-- May `b` follow the first byte `a` of a character of three bytes? Overlong forms and surrogates are ruled out. -/
def fitsThree (a b : UInt8) : Bool :=
  if a == 0xE0 then 0xA0 ≤ b && b ≤ 0xBF else if a == 0xED then 0x80 ≤ b && b ≤ 0x9F else isTail b

/-- May `b` follow the first byte `a` of a character of four bytes? -/
def fitsFour (a b : UInt8) : Bool :=
  if a == 0xF0 then 0x90 ≤ b && b ≤ 0xBF else if a == 0xF4 then 0x80 ≤ b && b ≤ 0x8F else isTail b

/-- The character with the given high and low bits. -/
def assemble (lead : Nat) (tails : List UInt8) : Piece :=
  .char (Char.ofNat (tails.foldl (fun n b => n * 64 + b.toNat % 64) lead))

/-- Reads bytes as characters and stray runs. -/
def decode : Bytes → List Piece
  | [] => []
  | a :: r =>
    if a < 0x80 then .char (Char.ofNat a.toNat) :: decode r
    else if 0xC2 ≤ a && a ≤ 0xDF then
      match r with
      | b :: r' => if isTail b then assemble (a.toNat % 32) [b] :: decode r' else .stray 1 :: decode (b :: r')
      | [] => [.stray 1]
    else if 0xE0 ≤ a && a ≤ 0xEF then
      match r with
      | b :: r' =>
        if fitsThree a b then
          match r' with
          | c :: r'' =>
            if isTail c then assemble (a.toNat % 16) [b, c] :: decode r'' else .stray 2 :: decode (c :: r'')
          | [] => [.stray 2]
        else .stray 1 :: decode (b :: r')
      | [] => [.stray 1]
    else if 0xF0 ≤ a && a ≤ 0xF4 then
      match r with
      | b :: r' =>
        if fitsFour a b then
          match r' with
          | c :: r'' =>
            if isTail c then
              match r'' with
              | d :: r''' =>
                if isTail d then assemble (a.toNat % 8) [b, c, d] :: decode r''' else .stray 3 :: decode (d :: r''')
              | [] => [.stray 3]
            else .stray 2 :: decode (c :: r'')
          | [] => [.stray 2]
        else .stray 1 :: decode (b :: r')
      | [] => [.stray 1]
    else .stray 1 :: decode r

/-- The characters of the pieces, with U+FFFD for each stray run. -/
def replaceStray (ps : List Piece) : String :=
  String.ofList (ps.map fun | .char c => c | .stray _ => '\uFFFD')

/-- The text that the bytes spell, with U+FFFD for what is no character. -/
def ofBytesLossy (bytes : Bytes) : String := replaceStray (decode bytes)

/-- The characters of the pieces, if none is stray. -/
def charsOf? : List Piece → Option (List Char)
  | [] => some []
  | .char c :: ps => (charsOf? ps).map (c :: ·)
  | .stray _ :: _ => none

/-- The text that the bytes spell, if they are UTF-8. -/
def ofBytes? (bytes : Bytes) : Option String := (charsOf? (decode bytes)).map String.ofList

/-- Is the character white space? It is that of Unicode (property White_Space). -/
def isBlank (c : Char) : Bool :=
  let n := c.toNat
  (9 ≤ n && n ≤ 13) || n == 0x20 || n == 0x85 || n == 0xA0 || n == 0x1680 || (0x2000 ≤ n && n ≤ 0x200A) ||
    n == 0x2028 || n == 0x2029 || n == 0x202F || n == 0x205F || n == 0x3000

/-- Drops white space at both ends of a text. -/
def trim (s : String) : String :=
  String.ofList ((s.toList.dropWhile isBlank).reverse.dropWhile isBlank).reverse

/-- Joins texts with a separator between neighbours. -/
def joinWith (sep : String) (parts : List String) : String := sep.intercalate parts

end Text

end LintInference
