import LintInference.Json.Reader

/-!
# Reading values of a known shape

A shape says what a reader wants: a text, a truth value, a record with named fields. A text is read against the shape
from left to right, so the first thing that does not fit, be it a wrong type or a misplaced character, is the error.

What is read comes in a normal form: a record is the array of its fields' values in the order of declaration, whichever
way it was written; fields that may be missing have their defaults.
-/

namespace LintInference.Json

open Text (Piece)

/-- What it means that a field of a record is missing. -/
inductive Presence where
  /-- The record is refused. -/
  | required
  /-- The field is `null`, if the record is written with names; where it is written by position, it is refused. -/
  | nullable
  /-- The field has a value of its own. -/
  | defaulted (value : Json)

/-- What a reader wants to find. -/
inductive Shape where
  | text
  | flag
  /-- A whole number from 0 to a limit, with the name of its type for messages. -/
  | natural (typeName : String) (limit : Nat)
  /-- Any value. -/
  | any
  /-- A value of the shape, or `null`. -/
  | optional (shape : Shape)
  | list (shape : Shape)
  | map (shape : Shape)
  /-- One of some words. -/
  | choice (words : List String)
  /-- Named fields. -/
  | record (name : String) (fields : List (String × Presence × Shape))

namespace Shape

/-- Whole numbers of 8 bits. -/
def byte : Shape := .natural "u8" (UInt8.size - 1)

/-- Whole numbers of 32 bits. -/
def word : Shape := .natural "u32" (UInt32.size - 1)

/-- Counts of 64 bits. -/
def count : Shape := .natural "usize" (UInt64.size - 1)

/-- A field that has to be there. -/
def field (name : String) (shape : Shape) : String × Presence × Shape := (name, .required, shape)

/-- A field that may be `null` or missing. -/
def optionalField (name : String) (shape : Shape) : String × Presence × Shape := (name, .nullable, .optional shape)

/-- A field with a default. -/
def fieldOr (name : String) (value : Json) (shape : Shape) : String × Presence × Shape :=
  (name, .defaulted value, shape)

end Shape

/-! ## Wrong types -/

/-- The error for a value that is not of the type wanted. What stands there is read first, arrays and objects apart. -/
def wrongType {α : Type} (fuel : Nat) (expected : String) (c : Cursor) : Except ReadError α := do
  match c.rest with
  | .char x :: _ =>
    if x = 'n' then
      let (_, c) ← readWord ['u', 'l', 'l'] c.past
      c.fail (.wrongType .null expected)
    else if x = 't' then
      let (_, c) ← readWord ['r', 'u', 'e'] c.past
      c.fail (.wrongType (.bool true) expected)
    else if x = 'f' then
      let (_, c) ← readWord ['a', 'l', 's', 'e'] c.past
      c.fail (.wrongType (.bool false) expected)
    else if x = '-' ∨ ('0' ≤ x ∧ x ≤ '9') then
      let (n, c) ← readNumber (x = '-') (if x = '-' then c.past else c)
      match n with
      | .int n => c.fail (.wrongType (.int n) expected)
      | .float y => c.fail (.wrongType (.float (floatText y)) expected)
    else if x = '"' then
      let (s, c) ← readString fuel c.past
      c.fail (.wrongType (.string s) expected)
    else if x = '[' then c.fail (.wrongType .sequence expected)
    else if x = '{' then c.fail (.wrongType .map expected)
    else c.failAhead .expectedValue
  | _ => c.failAhead .expectedValue

/-! ## Simple shapes -/

/-- Reads a text. -/
def readText (fuel : Nat) (expected : String) (c : Cursor) : Except ReadError (String × Cursor) :=
  let c := c.skipBlanks
  if c.rest.isEmpty then c.fail .endInValue
  else if c.isAt '"' then readString fuel c.past
  else wrongType fuel expected c

/-- Reads a truth value. -/
def readFlag (fuel : Nat) : Reader Json := fun c => do
  let c := c.skipBlanks
  if c.rest.isEmpty then c.fail .endInValue
  else if c.isAt 't' then
    let (_, c) ← readWord ['r', 'u', 'e'] c.past
    return (.bool true, c)
  else if c.isAt 'f' then
    let (_, c) ← readWord ['a', 'l', 's', 'e'] c.past
    return (.bool false, c)
  else wrongType fuel "a boolean" c

/-- Reads a whole number from 0 to a limit. -/
def readNatural (fuel : Nat) (typeName : String) (limit : Nat) : Reader Json := fun c => do
  let c := c.skipBlanks
  if c.rest.isEmpty then c.fail .endInValue
  else if c.isAt '-' || (c.rest.head?.bind digit?).isSome then
    let (n, c) ← readNumber (c.isAt '-') (if c.isAt '-' then c.past else c)
    match n with
    | .int n => if 0 ≤ n ∧ n ≤ limit then return (.number (.int n), c) else c.fail (.wrongValue (.int n) typeName)
    | .float x => c.fail (.wrongType (.float (floatText x)) typeName)
  else wrongType fuel typeName c

/-- Reads `null`, as the only thing that may stand for a word's content. -/
def readUnit (fuel : Nat) (c : Cursor) : Except ReadError Cursor := do
  let c := c.skipBlanks
  if c.rest.isEmpty then c.fail .endInValue
  else if c.isAt 'n' then return (← readWord ['u', 'l', 'l'] c.past).2
  else wrongType fuel "unit" c

/-- Reads one of some words. A word may also be the only name of an object, with the value `null`. -/
def readChoice (fuel : Nat) (words : List String) (depth : Nat) : Reader Json := fun c => do
  let wordAt (c : Cursor) : Except ReadError (String × Cursor) := do
    let (s, c) ← readText fuel "variant identifier" c
    if s ∈ words then return (s, c) else c.fail (.unknownVariant s words)
  let c := c.skipBlanks
  if c.rest.isEmpty then c.fail .endInValue
  else if c.isAt '"' then
    let (s, c) ← wordAt c
    return (.string s, c)
  else if c.isAt '{' then
    if depth = 0 then c.failAhead .tooDeep
    else
      let (s, c) ← wordAt c.past
      let c ← colon c
      let c ← readUnit fuel c
      let c := c.skipBlanks
      if c.rest.isEmpty then c.fail .endInObject
      else if c.isAt '}' then return (.string s, c.past)
      else c.fail .expectedValue
  else c.failAhead .expectedValue

/-! ## Lists, maps and records -/

/-- Reads a list; `item` reads at the next level. -/
def readList (fuel : Nat) (item : Nat → Reader Json) (depth : Nat) : Reader Json := fun c => do
  let c := c.skipBlanks
  if c.rest.isEmpty then c.fail .endInValue
  else if c.isAt '[' then
    match depth with
    | 0 => c.failAhead .tooDeep
    | depth + 1 =>
      let (vs, c) ← items (item depth) fuel true c.past
      return (.array vs, c)
  else wrongType fuel "a sequence" c

/-- Reads a map; `item` reads at the next level. -/
def readMap (fuel : Nat) (item : Nat → Reader Json) (depth : Nat) : Reader Json := fun c => do
  let c := c.skipBlanks
  if c.rest.isEmpty then c.fail .endInValue
  else if c.isAt '{' then
    match depth with
    | 0 => c.failAhead .tooDeep
    | depth + 1 =>
      let (es, c) ← entries fuel (item depth) fuel true c.past
      return (.object (Entries.ofList es), c)
  else wrongType fuel "a map" c

/-- A field of a record as a reader sees it. -/
structure Slot where
  name : String
  presence : Presence
  read : Nat → Reader Json

/-- The place after the closing character, if that is next; a record's own errors are reported there. -/
def placePast (close : Char) (c : Cursor) : Place :=
  let c := c.skipBlanks
  if c.isAt close then c.past.place else c.place

/-- Finds the closing bracket of an array of which no more is wanted. -/
def closeList (c : Cursor) : Except ReadError Cursor :=
  let c := c.skipBlanks
  if c.rest.isEmpty then c.fail .endInList
  else if c.isAt ']' then .ok c.past
  else if c.isAt ',' then
    let c := c.past.skipBlanks
    c.failAhead (if c.isAt ']' then .trailingComma else .trailingCharacters)
  else c.failAhead .trailingCharacters

/-- How a message names a record of so many fields. -/
def describeRecord (name : String) (size : Nat) : String :=
  "struct " ++ name ++ " with " ++ toString size ++ (if size = 1 then " element" else " elements")

/-- Reads the fields of a record from an array; `done` of them have been read. -/
def readPositional (expected : String) (depth : Nat) : List Slot → Nat → Reader (List Json)
  | [], _, c => return ([], ← closeList c)
  | slot :: slots, done, c => do
    match ← nextItem (done = 0) c with
    | none =>
      match slot.presence with
      | .defaulted v =>
        let (vs, c) ← readPositional expected depth slots done c
        return (v :: vs, c)
      | _ => .error ⟨.wrongLength done expected, placePast ']' c⟩
    | some c =>
      let (v, c) ← slot.read depth c
      let (vs, c) ← readPositional expected depth slots (done + 1) c
      return (v :: vs, c)

/-- Reads the fields of a record from an object, in whatever order they come; others are passed over. -/
def readNamed (fuel : Nat) (slots : List Slot) (depth : Nat) : Nat → Entries Json → Bool → Reader (Entries Json)
  | 0, _, _, c => c.fail .endInObject
  | n + 1, found, first, c => do
    match ← nextName first c with
    | none => return (found, c.skipBlanks)
    | some c =>
      let (k, c) ← readString fuel c.past
      match slots.find? (·.name = k) with
      | none =>
        let c ← colon c
        let c ← skipValue fuel fuel c
        readNamed fuel slots depth n found false c
      | some slot =>
        if (Entries.get? found k).isSome then .error ⟨.duplicateField k, placePast '}' c⟩
        else
          let c ← colon c
          let (v, c) ← slot.read depth c
          readNamed fuel slots depth n (found.put k v) false c

/-- The values of all fields, where those not found have their defaults; or the first field that has to be there. -/
def complete (found : Entries Json) : List Slot → Except String (List Json)
  | [] => .ok []
  | slot :: slots => do
    let v ←
      match Entries.get? found slot.name, slot.presence with
      | some v, _ => .ok v
      | none, .defaulted v => .ok v
      | none, .nullable => .ok .null
      | none, .required => .error slot.name
    return v :: (← complete found slots)

/-- Reads a record. -/
def readRecord (fuel : Nat) (name : String) (slots : List Slot) (depth : Nat) : Reader Json := fun c => do
  let c := c.skipBlanks
  if c.rest.isEmpty then c.fail .endInValue
  else if c.isAt '[' then
    match depth with
    | 0 => c.failAhead .tooDeep
    | depth + 1 =>
      let (vs, c) ← readPositional (describeRecord name slots.length) depth slots 0 c.past
      return (.array vs, c)
  else if c.isAt '{' then
    match depth with
    | 0 => c.failAhead .tooDeep
    | depth + 1 =>
      let (found, c) ← readNamed fuel slots depth fuel [] true c.past
      match complete found slots with
      | .ok vs => return (.array vs, c.past)
      | .error missing => .error ⟨.missingField missing, placePast '}' c⟩
  else wrongType fuel ("struct " ++ name) c

/-- Reads `null` or what the reader reads. -/
def readOptional (inner : Reader Json) : Reader Json := fun c => do
  let c := c.skipBlanks
  if c.isAt 'n' then
    let (_, c) ← readWord ['u', 'l', 'l'] c.past
    return (.null, c)
  else inner c

mutual

/-- The reader for a shape; it is told how many levels are open. -/
def Shape.reader (fuel : Nat) : Shape → Nat → Reader Json
  | .text => fun _ c => do
    let (s, c) ← readText fuel "a string" c
    return (.string s, c)
  | .flag => fun _ => readFlag fuel
  | .natural typeName limit => fun _ => readNatural fuel typeName limit
  | .any => readValue fuel
  | .optional shape => fun depth => readOptional (shape.reader fuel depth)
  | .list shape => readList fuel (shape.reader fuel)
  | .map shape => readMap fuel (shape.reader fuel)
  | .choice words => readChoice fuel words
  | .record name fields => readRecord fuel name (Shape.slots fuel fields)

/-- The fields of a record as a reader sees them. -/
def Shape.slots (fuel : Nat) : List (String × Presence × Shape) → List Slot
  | [] => []
  | (name, presence, shape) :: fields => ⟨name, presence, shape.reader fuel⟩ :: Shape.slots fuel fields

end

namespace Shape

variable (fuel : Nat) (shape : Shape)

@[simp] theorem reader_text (depth : Nat) (c : Cursor) : text.reader fuel depth c = (do
    let (s, c) ← readText fuel "a string" c
    return (.string s, c)) := rfl

@[simp] theorem reader_flag (depth : Nat) : flag.reader fuel depth = readFlag fuel := rfl

@[simp] theorem reader_natural (typeName : String) (limit depth : Nat) :
    (natural typeName limit).reader fuel depth = readNatural fuel typeName limit := rfl

@[simp] theorem reader_any : any.reader fuel = readValue fuel := rfl

@[simp] theorem reader_optional (depth : Nat) :
    (optional shape).reader fuel depth = readOptional (shape.reader fuel depth) := rfl

@[simp] theorem reader_list : (list shape).reader fuel = readList fuel (shape.reader fuel) := rfl

@[simp] theorem reader_map : (map shape).reader fuel = readMap fuel (shape.reader fuel) := rfl

@[simp] theorem reader_choice (words : List String) : (choice words).reader fuel = readChoice fuel words := rfl

@[simp] theorem reader_record (name : String) (fields : List (String × Presence × Shape)) :
    (record name fields).reader fuel = readRecord fuel name (slots fuel fields) := rfl

end Shape

/-- Reads a text of the given shape. -/
def Shape.read (shape : Shape) (text : List Piece) : Except ReadError Json :=
  readAll (fun fuel => shape.reader fuel maxDepth) text

end LintInference.Json
