import LintInference.Json.Token

/-!
# Reading JSON

`Json.read` reads a text that holds one value; arrays and objects may be nested 127 deep. `Json.readBytes` reads the
output of a program, where bytes that are no characters are refused inside strings. Values that nobody asked for are
passed over by `skipValue`, which looks at less: numbers of any size and any depth will do.

Every loop carries the same bound, one more than the number of pieces of the text; since each of its rounds takes at
least one piece, the bound is never met.
-/

namespace LintInference.Json

open Text (Piece)

/-- How deep arrays and objects may be nested. -/
def maxDepth : Nat := 127

/-! ## The steps of arrays and objects -/

/-- Finds the next item of an array, or `none` at its closing bracket. -/
def nextItem (first : Bool) (c : Cursor) : Except ReadError (Option Cursor) :=
  let c := c.skipBlanks
  if c.rest.isEmpty then c.fail .endInList
  else if c.isAt ']' then .ok none
  else if first then .ok (some c)
  else if c.isAt ',' then
    let c := c.past.skipBlanks
    if c.rest.isEmpty then c.fail .endInValue
    else if c.isAt ']' then c.failAhead .trailingComma
    else .ok (some c)
  else c.failAhead .expectedCommaOrBracket

/-- Finds the next name of an object, or `none` at its closing brace. -/
def nextName (first : Bool) (c : Cursor) : Except ReadError (Option Cursor) :=
  let c := c.skipBlanks
  if c.rest.isEmpty then c.fail .endInObject
  else if c.isAt '}' then .ok none
  else if first then
    if c.isAt '"' then .ok (some c) else c.failAhead .keyNotString
  else if c.isAt ',' then
    let c := c.past.skipBlanks
    if c.rest.isEmpty then c.fail .endInValue
    else if c.isAt '"' then .ok (some c)
    else if c.isAt '}' then c.failAhead .trailingComma
    else c.failAhead .keyNotString
  else c.failAhead .expectedCommaOrBrace

/-- Passes the colon between a name and its value. -/
def colon (c : Cursor) : Except ReadError Cursor :=
  let c := c.skipBlanks
  if c.rest.isEmpty then c.fail .endInObject
  else if c.isAt ':' then .ok c.past
  else c.failAhead .expectedColon

/-- Reads the items of an array; the cursor is past the opening bracket, and ends past the closing one. -/
def items {α : Type} (item : Reader α) : Nat → Bool → Reader (List α)
  | 0, _, c => c.fail .endInList
  | n + 1, first, c => do
    match ← nextItem first c with
    | none => return ([], c.skipBlanks.past)
    | some c =>
      let (v, c) ← item c
      let (vs, c) ← items item n false c
      return (v :: vs, c)

/-- Reads the entries of an object; the cursor is past the opening brace, and ends past the closing one. -/
def entries {α : Type} (fuel : Nat) (item : Reader α) : Nat → Bool → Reader (List (String × α))
  | 0, _, c => c.fail .endInObject
  | n + 1, first, c => do
    match ← nextName first c with
    | none => return ([], c.skipBlanks.past)
    | some c =>
      let (k, c) ← readString fuel c.past
      let c ← colon c
      let (v, c) ← item c
      let (es, c) ← entries fuel item n false c
      return ((k, v) :: es, c)

/-! ## Values -/

/-- Reads a value whose parts are read by `nested`; without it, no further level is open. -/
def valueWith (fuel : Nat) (nested : Option (Reader Json)) : Reader Json := fun c => do
  let c := c.skipBlanks
  match c.rest with
  | [] => c.fail .endInValue
  | .stray _ :: _ => c.failAhead .expectedValue
  | .char x :: _ =>
    if x = 'n' then
      let (_, c) ← readWord ['u', 'l', 'l'] c.past
      return (.null, c)
    else if x = 't' then
      let (_, c) ← readWord ['r', 'u', 'e'] c.past
      return (.bool true, c)
    else if x = 'f' then
      let (_, c) ← readWord ['a', 'l', 's', 'e'] c.past
      return (.bool false, c)
    else if x = '-' then
      let (n, c) ← readNumber true c.past
      return (.number n, c)
    else if '0' ≤ x ∧ x ≤ '9' then
      let (n, c) ← readNumber false c
      return (.number n, c)
    else if x = '"' then
      let (s, c) ← readString fuel c.past
      return (.string s, c)
    else if x = '[' then
      match nested with
      | none => c.failAhead .tooDeep
      | some item =>
        let (vs, c) ← items item fuel true c.past
        return (.array vs, c)
    else if x = '{' then
      match nested with
      | none => c.failAhead .tooDeep
      | some item =>
        let (es, c) ← entries fuel item fuel true c.past
        return (.object (Entries.ofList es), c)
    else c.failAhead .expectedValue

/-- Reads a value with so many levels open. -/
def readValue (fuel : Nat) : Nat → Reader Json
  | 0 => valueWith fuel none
  | depth + 1 => valueWith fuel (some (readValue fuel depth))

/-! ## Values that are passed over -/

/-- Passes over the digits, fraction and exponent of a number. -/
def skipNumber (c : Cursor) : Except ReadError Cursor :=
  let exponentPart (c : Cursor) : Except ReadError Cursor :=
    if c.isAt 'e' || c.isAt 'E' then
      let c := c.past
      let c := if c.isAt '+' || c.isAt '-' then c.past else c
      match digits c with
      | ([], _) => c.failAhead .invalidNumber
      | (_, c) => .ok c
    else .ok c
  let fractionPart (c : Cursor) : Except ReadError Cursor :=
    if c.isAt '.' then
      match digits c.past with
      | ([], c) => c.failAhead .invalidNumber
      | (_, c) => exponentPart c
    else exponentPart c
  match digits c with
  | ([], _) => c.failAhead .invalidNumber
  | ([0], c) => fractionPart c
  | (0 :: _, _) => c.past.failAhead .invalidNumber
  | (_, c) => fractionPart c

mutual

/-- Passes over a value that nobody asked for. -/
def skipValue (fuel : Nat) : Nat → Cursor → Except ReadError Cursor
  | 0, c => c.fail .endInValue
  | n + 1, c => do
    let c := c.skipBlanks
    match c.rest with
    | [] => c.fail .endInValue
    | .stray _ :: _ => c.failAhead .expectedValue
    | .char x :: _ =>
      if x = 'n' then return (← readWord ['u', 'l', 'l'] c.past).2
      else if x = 't' then return (← readWord ['r', 'u', 'e'] c.past).2
      else if x = 'f' then return (← readWord ['a', 'l', 's', 'e'] c.past).2
      else if x = '-' then skipNumber c.past
      else if '0' ≤ x ∧ x ≤ '9' then skipNumber c
      else if x = '"' then skipString fuel c.past
      else if x = '[' then
        let c := c.past.skipBlanks
        if c.isAt ']' then return c.past
        else if c.rest.isEmpty then c.fail .endInList
        else skipItems fuel n c
      else if x = '{' then
        let c := c.past.skipBlanks
        if c.isAt '}' then return c.past
        else if c.rest.isEmpty then c.fail .endInObject
        else skipEntries fuel n c
      else c.failAhead .expectedValue

/-- Passes over items up to the closing bracket; the cursor is at an item. -/
def skipItems (fuel : Nat) : Nat → Cursor → Except ReadError Cursor
  | 0, c => c.fail .endInList
  | n + 1, c => do
    let c ← skipValue fuel n c
    let c := c.skipBlanks
    if c.isAt ',' then skipItems fuel n c.past
    else if c.isAt ']' then return c.past
    else if c.rest.isEmpty then c.fail .endInList
    else c.failAhead .expectedCommaOrBracket

/-- Passes over entries up to the closing brace; the cursor is at a name. -/
def skipEntries (fuel : Nat) : Nat → Cursor → Except ReadError Cursor
  | 0, c => c.fail .endInObject
  | n + 1, c => do
    let c := c.skipBlanks
    if c.rest.isEmpty then c.fail .endInObject
    else if c.isAt '"' = false then c.failAhead .keyNotString
    else
      let c ← skipString fuel c.past
      let c ← colon c
      let c ← skipValue fuel n c
      let c := c.skipBlanks
      if c.isAt ',' then skipEntries fuel n c.past
      else if c.isAt '}' then return c.past
      else if c.rest.isEmpty then c.fail .endInObject
      else c.failAhead .expectedCommaOrBrace

end

/-! ## Whole texts -/

/-- Reads a text that holds one thing and nothing after it but blanks. -/
def readAll {α : Type} (reader : Nat → Reader α) (text : List Piece) : Except ReadError α := do
  let (v, c) ← reader (2 * text.length + 2) (Cursor.start text)
  let c := c.skipBlanks
  if c.rest.isEmpty then return v else c.failAhead .trailingCharacters

/-- Reads a text that holds one value. -/
def read (text : String) : Except ReadError Json := readAll (fun fuel => readValue fuel maxDepth) (Text.pieces text)

end LintInference.Json
