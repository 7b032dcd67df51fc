import LintInference.Toml.Basic

/-!
# Reading TOML

`Toml.read` reads a document of TOML 1.1: line by line, a header or a key with its value. A document that breaks a rule
has no value; nothing is said about the place.

The scanners take the characters that are left and give what they found with the characters after it.
-/

namespace LintInference.Toml

/-- Takes characters from the front. -/
abbrev Scan (α : Type) := List Char → Option (α × List Char)

/-! ## Characters -/

/-- May the character stand in a comment? Control characters may not, but for the tab. -/
def isCommentChar (c : Char) : Bool := c = '\t' || (0x20 ≤ c.toNat && c.toNat ≠ 0x7F)

/-- A blank within a line. -/
def isSpace (c : Char) : Bool := c = ' ' || c = '\t'

/-- A character of a key without quotes. -/
def isBare (c : Char) : Bool := c.isAlphanum || c = '_' || c = '-'

/-- The value of a hexadecimal digit. -/
def hexValue? (c : Char) : Option Nat :=
  if c.isDigit then some (c.toNat - 48)
  else if 'a' ≤ c ∧ c ≤ 'f' then some (c.toNat - 87)
  else if 'A' ≤ c ∧ c ≤ 'F' then some (c.toNat - 55)
  else none

/-- Drops blanks within a line. -/
def skipSpaces (cs : List Char) : List Char := cs.dropWhile isSpace

/-- Drops a line break. -/
def lineBreak? : List Char → Option (List Char)
  | '\n' :: cs => some cs
  | '\r' :: '\n' :: cs => some cs
  | _ => none

/-- Drops a comment up to the end of its line. -/
def skipComment (cs : List Char) : List Char :=
  match cs with
  | '#' :: cs => cs.dropWhile isCommentChar
  | cs => cs

/-- Drops the rest of a line, which may only hold blanks and a comment. -/
def endOfLine? (cs : List Char) : Option (List Char) :=
  match skipComment (skipSpaces cs) with
  | [] => some []
  | cs => lineBreak? cs

/-- Drops blanks, comments and line breaks. -/
def skipLines : Nat → List Char → List Char
  | 0, cs => cs
  | n + 1, cs =>
    let cs := skipComment (skipSpaces cs)
    match lineBreak? cs with
    | some cs => skipLines n cs
    | none => cs

/-! ## Strings -/

/-- The character with the given number of hexadecimal digits. -/
def hexChar (digits : Nat) (cs : List Char) : Option (Char × List Char) := do
  let taken := cs.take digits
  if taken.length < digits then none
  else
    let n ← taken.foldlM (fun n c => (hexValue? c).map (n * 16 + ·)) 0
    if n < 0xD800 ∨ (0xDFFF < n ∧ n < 0x110000) then some (Char.ofNat n, cs.drop digits) else none

/-- The character that stands after a backslash for another one. -/
def escape (cs : List Char) : Option (Char × List Char) :=
  match cs with
  | 'b' :: cs => some ('\x08', cs)
  | 't' :: cs => some ('\t', cs)
  | 'n' :: cs => some ('\n', cs)
  | 'f' :: cs => some ('\x0c', cs)
  | 'r' :: cs => some ('\r', cs)
  | 'e' :: cs => some ('\x1b', cs)
  | '"' :: cs => some ('"', cs)
  | '\\' :: cs => some ('\\', cs)
  | 'x' :: cs => hexChar 2 cs
  | 'u' :: cs => hexChar 4 cs
  | 'U' :: cs => hexChar 8 cs
  | _ => none

/-- The rest of a string in double quotes on one line. -/
def basicString : Nat → List Char → Scan (List Char)
  | 0, _, _ => none
  | n + 1, done, cs =>
    match cs with
    | '"' :: cs => some (done.reverse, cs)
    | '\\' :: cs => do
      let (c, cs) ← escape cs
      basicString n (c :: done) cs
    | c :: cs => if isCommentChar c then basicString n (c :: done) cs else none
    | [] => none

/-- The rest of a string in single quotes on one line. -/
def literalString (cs : List Char) : Option (List Char × List Char) :=
  match cs.span (· ≠ '\'') with
  | (inside, _ :: cs) => if inside.all isCommentChar then some (inside, cs) else none
  | _ => none

/-- Three quotes end a string of several lines; up to two more before them belong to it. -/
def closing? (quote : Char) (cs : List Char) : Option (List Char × List Char) :=
  let n := (cs.takeWhile (· = quote)).length
  if n < 3 then none
  else
    let extra := min (n - 3) 2
    some (List.replicate extra quote, cs.drop (extra + 3))

/-- Drops what a backslash at the end of a line joins: all blanks and line breaks. -/
def joinLines : Nat → List Char → List Char
  | 0, cs => cs
  | n + 1, cs =>
    match lineBreak? (skipSpaces cs) with
    | some cs => joinLines n cs
    | none => skipSpaces cs

/-- The rest of a string of several lines. -/
def longString (quote : Char) (escapes : Bool) : Nat → List Char → Scan (List Char)
  | 0, _, _ => none
  | n + 1, done, cs =>
    match closing? quote cs with
    | some (extra, cs) => some (done.reverse ++ extra, cs)
    | none =>
      match cs with
      | '\r' :: '\n' :: cs => longString quote escapes n ('\n' :: '\r' :: done) cs
      | '\n' :: cs => longString quote escapes n ('\n' :: done) cs
      | c :: cs =>
        if c = '\\' ∧ escapes then
          match lineBreak? (skipSpaces cs) with
          | some cs => longString quote escapes n done (joinLines (cs.length + 1) cs)
          | none => do
            let (c, cs) ← escape cs
            longString quote escapes n (c :: done) cs
        else if isCommentChar c then longString quote escapes n (c :: done) cs
        else none
      | [] => none

/-- A string of any of the four kinds. -/
def string (cs : List Char) : Option (String × List Char) :=
  let found : Option (List Char × List Char) :=
    match cs with
    | '"' :: '"' :: '"' :: cs =>
      let cs := (lineBreak? cs).getD cs
      longString '"' true (cs.length + 1) [] cs
    | '\'' :: '\'' :: '\'' :: cs =>
      let cs := (lineBreak? cs).getD cs
      longString '\'' false (cs.length + 1) [] cs
    | '"' :: cs => basicString (cs.length + 1) [] cs
    | '\'' :: cs => literalString cs
    | _ => none
  found.map fun (inside, cs) => (String.ofList inside, cs)

/-! ## Keys -/

/-- One part of a key. -/
def keyPart (cs : List Char) : Option (String × List Char) :=
  match cs with
  | '"' :: rest => (basicString (rest.length + 1) [] rest).map fun (t, cs) => (String.ofList t, cs)
  | '\'' :: rest => (literalString rest).map fun (t, cs) => (String.ofList t, cs)
  | cs =>
    match cs.span isBare with
    | ([], _) => none
    | (t, cs) => some (String.ofList t, cs)

/-- A key: parts with dots between them. -/
def key : Nat → Scan (List String)
  | 0, _ => none
  | n + 1, cs => do
    let (part, cs) ← keyPart cs
    match skipSpaces cs with
    | '.' :: cs => do
      let (parts, cs) ← key n (skipSpaces cs)
      some (part :: parts, cs)
    | cs => some ([part], cs)

/-! ## Numbers, dates and words -/

/-- Digits with single underscores between them; there is at least one. -/
def groups? (isDigit : Char → Bool) (cs : List Char) : Option (List Char) :=
  let rec go : List Char → Bool → Option (List Char)
    | [], afterDigit => if afterDigit then some [] else none
    | c :: cs, afterDigit =>
      if c = '_' then if afterDigit then go cs false else none
      else if isDigit c then (go cs true).map (c :: ·)
      else none
  go cs false

/-- The number that digits write. -/
def ofDigits (base : Nat) (cs : List Char) : Nat := cs.foldl (fun n c => n * base + (hexValue? c).getD 0) 0

/-- Decimal digits without a leading zero. -/
def decimal? (cs : List Char) : Option Nat := do
  let digits ← groups? Char.isDigit cs
  if cs.head? = some '0' ∧ digits.length > 1 then none else some (ofDigits 10 digits)

/-- Digits in a base with a mark of its own. -/
def based? (cs : List Char) : Option Nat :=
  match cs with
  | '0' :: 'x' :: cs => (groups? (fun c => (hexValue? c).isSome) cs).map (ofDigits 16)
  | '0' :: 'o' :: cs => (groups? (fun c => '0' ≤ c && c ≤ '7') cs).map (ofDigits 8)
  | '0' :: 'b' :: cs => (groups? (fun c => c = '0' || c = '1') cs).map (ofDigits 2)
  | _ => none

/-- A sign at the front, and the rest. -/
def sign (cs : List Char) : Option Bool × List Char :=
  match cs with
  | '+' :: cs => (some false, cs)
  | '-' :: cs => (some true, cs)
  | cs => (none, cs)

/-- A whole number. -/
def integer? (cs : List Char) : Option Int :=
  match sign cs with
  | (none, cs) => ((based? cs).or (decimal? cs)).map Int.ofNat
  | (some negative, cs) => (decimal? cs).map fun n => if negative then -Int.ofNat n else Int.ofNat n

/-- Is it the exponent of a number? -/
def isExponent (cs : List Char) : Bool := (groups? Char.isDigit (sign cs).2).isSome

/-- Is it a number with a fraction or an exponent, an infinity or no number? -/
def isFloat (cs : List Char) : Bool :=
  let cs := (sign cs).2
  if cs = ['i', 'n', 'f'] ∨ cs = ['n', 'a', 'n'] then true
  else
    let (whole, rest) := cs.span fun c => c.isDigit || c = '_'
    (decimal? whole).isSome &&
      match rest with
      | '.' :: rest =>
        let (fraction, rest) := rest.span fun c => c.isDigit || c = '_'
        (groups? Char.isDigit fraction).isSome &&
          match rest with
          | [] => true
          | e :: rest => (e = 'e' || e = 'E') && isExponent rest
      | e :: rest => (e = 'e' || e = 'E') && isExponent rest
      | [] => false

/-- The digits of a number without its sign as one whole number, and the power of ten that goes with it. An infinity has
no digits. -/
def scientific (cs : List Char) : Nat × Int :=
  let (whole, rest) := ((sign cs).2.filter (· ≠ '_')).span Char.isDigit
  let (fraction, rest) := match rest with
    | '.' :: rest => rest.span Char.isDigit
    | rest => ([], rest)
  let exponent : Int := match sign (rest.drop 1) with
    | (some true, digits) => -Int.ofNat (ofDigits 10 digits)
    | (_, digits) => Int.ofNat (ofDigits 10 digits)
  (ofDigits 10 (whole ++ fraction), exponent - Int.ofNat fraction.length)

/-- Is the number `m * 10 ^ e` too large for a binary64? The least such number lies half way between the largest finite
one and the next power of two. -/
def overflows (m : Nat) (e : Int) : Bool :=
  let digits : Int := Int.ofNat (Nat.toDigits 10 m).length
  if m = 0 ∨ digits + e < 309 then false
  else if 309 < digits + e then true
  else (Nat.pow 2 1024 - Nat.pow 2 970) * Nat.pow 10 (-e).toNat ≤ m * Nat.pow 10 e.toNat

/-- The number written by exactly so many digits at the front. -/
def fixedDigits (n : Nat) (cs : List Char) : Option (Nat × List Char) :=
  let taken := cs.take n
  if taken.length = n ∧ taken.all Char.isDigit then some (ofDigits 10 taken, cs.drop n) else none

/-- The days of a month. -/
def daysIn (year month : Nat) : Nat :=
  if month = 2 then if year % 4 = 0 ∧ (year % 100 ≠ 0 ∨ year % 400 = 0) then 29 else 28
  else if month ∈ [4, 6, 9, 11] then 30 else 31

/-- Drops a date. -/
def date? (cs : List Char) : Option (List Char) := do
  match ← fixedDigits 4 cs with
  | (year, '-' :: cs) =>
    match ← fixedDigits 2 cs with
    | (month, '-' :: cs) => do
      let (day, cs) ← fixedDigits 2 cs
      if 1 ≤ month ∧ month ≤ 12 ∧ 1 ≤ day ∧ day ≤ daysIn year month then some cs else none
    | _ => none
  | _ => none

/-- Drops a fraction of a second. -/
def fraction? (cs : List Char) : Option (List Char) :=
  match cs with
  | '.' :: cs => if (cs.takeWhile Char.isDigit).isEmpty then none else some (cs.dropWhile Char.isDigit)
  | cs => some cs

/-- Drops a time of day; seconds may be left out. -/
def time? (cs : List Char) : Option (List Char) := do
  match ← fixedDigits 2 cs with
  | (hour, ':' :: cs) => do
    let (minute, cs) ← fixedDigits 2 cs
    if 23 < hour ∨ 59 < minute then none
    else
      match cs with
      | ':' :: cs => do
        let (second, cs) ← fixedDigits 2 cs
        if 60 < second then none else fraction? cs
      | cs => some cs
  | _ => none

/-- Drops the distance to universal time. -/
def offset? (cs : List Char) : Option (List Char) :=
  match cs with
  | [] => some []
  | c :: cs =>
    if c = 'Z' ∨ c = 'z' then some cs
    else if c = '+' ∨ c = '-' then
      match fixedDigits 2 cs with
      | some (hour, ':' :: cs) =>
        match fixedDigits 2 cs with
        | some (minute, cs) => if hour ≤ 23 ∧ minute ≤ 59 then some cs else none
        | none => none
      | _ => none
    else none

/-- Is it a date, a time or both? -/
def isMoment (cs : List Char) : Bool :=
  match date? cs with
  | some [] => true
  | some (c :: cs) =>
    (c = 'T' || c = 't' || c = ' ') && ((time? cs).bind offset?) == some []
  | none => time? cs == some []

/-- Whole numbers beyond these limits have no value. -/
def inRange (n : Int) : Bool := -(Nat.pow 2 127 : Nat) ≤ n && n < (Nat.pow 2 128 : Nat)

/-- The value that a word writes. -/
def word? (cs : List Char) : Option Toml :=
  if cs = ['t', 'r', 'u', 'e'] then some (.flag true)
  else if cs = ['f', 'a', 'l', 's', 'e'] then some (.flag false)
  else
    match integer? cs with
    | some n => if inRange n then some (.integer n) else none
    | none =>
      if isFloat cs then
        let (m, e) := scientific cs
        if overflows m e then none else some (.float (String.ofList cs))
      else if isMoment cs then some (.moment (String.ofList cs))
      else none

/-- A character of a word. -/
def isWordChar (c : Char) : Bool := c.isAlphanum || c = '_' || c = '-' || c = '+' || c = '.' || c = ':'

/-- Takes a word; a date may have a blank before its time. -/
def takeWord (cs : List Char) : List Char × List Char :=
  let (word, rest) := cs.span isWordChar
  match rest with
  | ' ' :: c :: rest' =>
    if (date? word) == some [] ∧ c.isDigit then
      let (time, rest) := (c :: rest').span isWordChar
      (word ++ ' ' :: time, rest)
    else (word, rest)
  | _ => (word, rest)

/-! ## Values -/

mutual

/-- A value. The number bounds the steps. -/
def value : Nat → Scan Toml
  | 0, _ => none
  | n + 1, cs =>
    match cs with
    | '"' :: _ => (string cs).map fun (t, cs) => (.text t, cs)
    | '\'' :: _ => (string cs).map fun (t, cs) => (.text t, cs)
    | '[' :: cs => (items n cs).map fun (vs, cs) => (.array vs, cs)
    | '\x7b' :: cs => (pairs n [] cs).map fun (t, cs) => (.table (finishEntries t), cs)
    | cs =>
      let (word, cs) := takeWord cs
      (word? word).map fun v => (v, cs)

/-- The items of an array after its bracket or a comma. -/
def items : Nat → Scan (List Toml)
  | 0, _ => none
  | n + 1, cs =>
    match skipLines (cs.length + 1) cs with
    | ']' :: cs => some ([], cs)
    | cs => do
      let (v, cs) ← value n cs
      match skipLines (cs.length + 1) cs with
      | ']' :: cs => some ([v], cs)
      | ',' :: cs => do
        let (vs, cs) ← items n cs
        some (v :: vs, cs)
      | _ => none

/-- The entries of a table in braces after its brace or a comma. -/
def pairs : Nat → Table → Scan Table
  | 0, _, _ => none
  | n + 1, done, cs =>
    match skipLines (cs.length + 1) cs with
    | '\x7d' :: cs => some (done, cs)
    | cs => do
      let (names, cs) ← key (cs.length + 1) cs
      match skipSpaces cs with
      | '=' :: cs => do
        let (v, cs) ← value n (skipSpaces cs)
        let done ← Table.assign v names done
        match skipLines (cs.length + 1) cs with
        | '\x7d' :: cs => some (done, cs)
        | ',' :: cs => pairs n done cs
        | _ => none
      | _ => none

end

/-! ## Documents -/

/-- Drops the brackets that end a header. -/
def closeHeader? (double : Bool) (cs : List Char) : Option (List Char) :=
  match double, skipSpaces cs with
  | false, ']' :: cs => some cs
  | true, ']' :: ']' :: cs => some cs
  | _, _ => none

/-- The lines of a document. `header` names the table that is open, and `number` bounds the steps. -/
def lines : Nat → List String → Table → List Char → Option Table
  | 0, _, _, _ => none
  | n + 1, header, root, cs =>
    match skipLines (cs.length + 1) cs with
    | [] => some root
    | '[' :: cs => do
      let (double, cs) := match cs with
        | '[' :: cs => (true, cs)
        | cs => (false, cs)
      let (names, cs) ← key (cs.length + 1) (skipSpaces cs)
      let cs ← closeHeader? double cs
      let cs ← endOfLine? cs
      let last ← names.getLast?
      let root ← Table.through (if double then Table.openNext last else Table.openTable last) names.dropLast root
      lines n names root cs
    | cs => do
      let (names, cs) ← key (cs.length + 1) cs
      match skipSpaces cs with
      | '=' :: cs => do
        let (v, cs) ← value (2 * cs.length + 2) (skipSpaces cs)
        let cs ← endOfLine? cs
        let root ← Table.through (Table.assign v names) header root
        lines n header root cs
      | _ => none

/-- Reads a document. A byte order mark may come first. -/
def read (text : String) : Option Toml :=
  let cs := match text.toList with
    | '\uFEFF' :: cs => cs
    | cs => cs
  (lines (cs.length + 1) [] [] cs).map fun root => .table (finishEntries root)

end LintInference.Toml
