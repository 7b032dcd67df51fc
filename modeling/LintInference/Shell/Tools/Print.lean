import LintInference.Shell.Tool

/-!
# Tools that print their arguments

`echo` joins its arguments with blanks; `printf` fills them into the fields of a format, which is used again as long as
there are arguments left.
-/

namespace LintInference.Shell

/-! ## Escapes -/

/-- The character behind a backslash and a letter. -/
def letterEscape? (c : Char) : Option Char :=
  [('a', '\x07'), ('b', '\x08'), ('f', '\x0c'), ('n', '\n'), ('r', '\r'), ('t', '\t'), ('v', '\x0b'),
    ('\\', '\\')].lookup c

/-- A text with its escapes replaced; `zero` says that octal escapes begin with a zero. The flag says that the text is
to end here. -/
def unescape (zero : Bool) : Nat → Raw → Raw × Bool
  | 0, _ => ([], false)
  | n + 1, cs =>
    match cs with
    | [] => ([], false)
    | '\\' :: c :: rest =>
      if c = 'c' then ([], true)
      else
        let (taken, rest) : Raw × Raw :=
          match letterEscape? c with
          | some x => ([x], rest)
          | none =>
            if zero && c = '0' then
              let (v, rest) := octal 3 rest
              ([byte v], rest)
            else if !zero && ('0' ≤ c && c ≤ '7') then
              let (v, rest) := octal 3 (c :: rest)
              ([byte v], rest)
            else if !zero && c = '"' then ([c], rest)
            else (['\\', c], rest)
        let (others, ended) := unescape zero n rest
        (taken ++ others, ended)
    | c :: rest =>
      let (others, ended) := unescape zero n rest
      (c :: others, ended)

/-! ## Lines -/

/-- The arguments on a line, with blanks between them; `escapes` says whether escapes are replaced. -/
def echoLine (noEnd escapes : Bool) (args : List Raw) : Raw :=
  let line := List.intercalate [' '] args
  let (t, ended) := if escapes then unescape true (line.length + 1) line else (line, false)
  if noEnd || ended then t else t ++ ['\n']

/-- The `echo` of the shell, which replaces escapes. -/
def shellEcho : Tool := fun args input disk =>
  match args with
  | ['-', 'n'] :: args => { output := echoLine true true args, rest := input, disk }
  | args => { output := echoLine false true args, rest := input, disk }

/-- Writes its arguments; escapes are replaced on demand. -/
def echo : Tool := fun args input disk =>
  let isOption := fun (t : Raw) => t.head? = some '-' && t.length > 1 && (t.drop 1).all fun c => "neE".toList.contains c
  let letters := (args.takeWhile isOption).flatMap (·.drop 1)
  { output := echoLine (letters.contains 'n') (letters.contains 'e') (args.dropWhile isOption), rest := input, disk }

/-! ## Formats -/

/-- A field of a format: what to fill with, whether at the right, and how wide it is. -/
structure FieldForm where
  left : Bool := false
  zero : Bool := false
  width : Nat := 0
  precision : Option Nat := none

/-- A text in a field. -/
def FieldForm.fill (f : FieldForm) (t : Raw) : Raw :=
  let missing := f.width - t.length
  if f.left then t ++ List.replicate missing ' '
  else if f.zero then
    match t with
    | '-' :: t => '-' :: (List.replicate missing '0' ++ t)
    | t => List.replicate missing '0' ++ t
  else List.replicate missing ' ' ++ t

/-- Reads the form of a field and its letter. -/
def fieldForm : Nat → FieldForm → Raw → Option (FieldForm × Char × Raw)
  | 0, _, _ => none
  | n + 1, f, cs =>
    match cs with
    | '-' :: cs => fieldForm n { f with left := true } cs
    | '0' :: cs => fieldForm n { f with zero := true } cs
    | c :: rest =>
      if c.isDigit then
        let (digits, rest) := cs.span Char.isDigit
        fieldForm n { f with width := (number? digits).getD 0 } rest
      else if c = '.' then
        let (digits, rest) := rest.span Char.isDigit
        fieldForm n { f with precision := some ((number? digits).getD 0) } rest
      else if c = '+' || c = ' ' || c = '#' then fieldForm n f rest
      else some (f, c, rest)
    | [] => none

/-- A field filled from an argument. -/
def fieldText (f : FieldForm) (letter : Char) (arg : Raw) : Raw :=
  let shorten := fun (t : Raw) => match f.precision with
    | some p => t.take p
    | none => t
  let number := (integer? arg).getD 0
  match letter with
  | 's' => f.fill (shorten arg)
  | 'b' => f.fill (shorten (unescape true (arg.length + 1) arg).1)
  | 'c' => f.fill (arg.take 1)
  | 'x' => f.fill (Nat.toDigits 16 number.toNat)
  | 'o' => f.fill (Nat.toDigits 8 number.toNat)
  | _ => f.fill (Raw.ofString (ToString.toString number))

/-- A format used once: what it writes, and the arguments it leaves. The flag says that it used one. -/
def formatOnce : Nat → Raw → List Raw → Raw × List Raw × Bool
  | 0, _, args => ([], args, false)
  | n + 1, cs, args =>
    match cs with
    | [] => ([], args, false)
    | '%' :: '%' :: cs =>
      let (t, args, used) := formatOnce n cs args
      ('%' :: t, args, used)
    | '%' :: cs =>
      match fieldForm (cs.length + 1) {} cs with
      | some (f, letter, cs) =>
        let (t, rest, _) := formatOnce n cs (args.drop 1)
        (fieldText f letter (args.headD []) ++ t, rest, true)
      | none => (['%'], args, false)
    | '\\' :: c :: cs =>
      let size := if '0' ≤ c && c ≤ '7' then ((c :: cs).take 3 |>.takeWhile fun c => '0' ≤ c && c ≤ '7').length else 1
      let (x, _) := unescape false 2 ('\\' :: (c :: cs).take size)
      let (t, args, used) := formatOnce n ((c :: cs).drop size) args
      (x ++ t, args, used)
    | c :: cs =>
      let (t, args, used) := formatOnce n cs args
      (c :: t, args, used)

/-- A format used until there are no arguments left. -/
def format : Nat → Raw → List Raw → Raw
  | 0, _, _ => []
  | n + 1, form, args =>
    let (t, rest, used) := formatOnce (form.length + 1) form args
    if used && !rest.isEmpty then t ++ format n form rest else t

/-- Writes its arguments by a format. -/
def printf : Tool := fun args input disk =>
  match args with
  | [] => { errors := complaint "printf" ["usage: printf format [arg ...]".toList], status := 2, rest := input, disk }
  | form :: args => { output := format (args.length + 1) form args, rest := input, disk }

end LintInference.Shell
