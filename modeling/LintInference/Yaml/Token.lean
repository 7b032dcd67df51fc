/-!
# Tokens of YAML

`Token.scan` cuts a text into tokens. Indentation shows as tokens that open and close blocks. A scalar that turns out to
be a key, because a colon follows on its line, gets the `key` token put in front of it later, so the scanner keeps for
each level of brackets the place of the scalar that could still become one.

The scanners take a state and give the state after what they took; a text that cannot be cut has no tokens.
-/

namespace LintInference.Yaml

/-- How a scalar is written. -/
inductive Style where
  | plain
  | quoted
  | literal
  | folded
  deriving DecidableEq, Repr

/-- A part of a YAML text. -/
inductive Token where
  /-- The version that the document asks for. -/
  | version (major minor : Nat)
  /-- A handle that stands for the beginning of tags. -/
  | tagDirective (handle expansion : String)
  | documentStart
  | documentEnd
  | blockSequenceStart
  | blockMappingStart
  | blockEnd
  | flowSequenceStart
  | flowSequenceEnd
  | flowMappingStart
  | flowMappingEnd
  | blockEntry
  | flowEntry
  | key
  | value
  | alias (name : String)
  | anchor (name : String)
  | tag (handle suffix : String)
  | scalar (style : Style) (text : String)
  deriving DecidableEq, Repr

/-! ## Characters -/

/-- A blank within a line. -/
def isBlank (c : Char) : Bool := c = ' ' || c = '\t'

/-- A character that ends a line. -/
def isBreak (c : Char) : Bool := c = '\n' || c = '\r' || c = '\u0085' || c = '\u2028' || c = '\u2029'

/-- Is a blank, a line break or the end next? -/
def atGap : List Char → Bool
  | [] => true
  | c :: _ => isBlank c || isBreak c

/-- Is a line break or the end next? -/
def atLineEnd : List Char → Bool
  | [] => true
  | c :: _ => isBreak c

/-- Is the character next? -/
def isNext (c : Char) : List Char → Bool
  | [] => false
  | d :: _ => d = c

/-- A character of names. -/
def isNameChar (c : Char) : Bool := c.isAlphanum || c = '_' || c = '-'

/-- A character of brackets and commas. -/
def isFlowIndicator (c : Char) : Bool := c = ',' || c = '[' || c = ']' || c = '\x7b' || c = '\x7d'

/-- May the character stand in a text at all? -/
def isAllowed (c : Char) : Bool :=
  let n := c.toNat
  n = 9 || n = 10 || n = 13 || (0x20 ≤ n && n ≤ 0x7E) || n = 0x85 || (0xA0 ≤ n && n ≤ 0xD7FF) ||
    (0xE000 ≤ n && n ≤ 0xFFFD) || 0x10000 ≤ n

/-! ## The state of the scanner -/

/-- A token that becomes a key if a colon follows. -/
structure PossibleKey where
  /-- How many tokens come before it. -/
  place : Nat
  index : Nat
  line : Nat
  column : Nat
  /-- Where only a key can stand, it has to become one. -/
  required : Bool

/-- What the scanner knows between two tokens. -/
structure State where
  rest : List Char
  index : Nat := 0
  line : Nat := 0
  column : Nat := 0
  /-- The column of the innermost block; one less than zero outside of all blocks. -/
  indent : Int := -1
  /-- The columns of the blocks around it. -/
  indents : List Int := []
  /-- May a key begin here? -/
  keyAllowed : Bool := true
  /-- The possible key of each level of brackets, the innermost first. -/
  keys : List (Option PossibleKey) := [none]
  /-- The tokens so far, the last one first. -/
  tokens : List Token := []

namespace State

/-- How many brackets are open. -/
def flowLevel (s : State) : Nat := s.keys.length - 1

/-- Are there open brackets? -/
def inFlow (s : State) : Bool := s.flowLevel != 0

/-- Steps over characters of a line. -/
def skip (s : State) (n : Nat) : State :=
  { s with rest := s.rest.drop n, index := s.index + n, column := s.column + n }

/-- Steps over all characters of a kind. -/
def skipWhile (s : State) (p : Char → Bool) : State := s.skip (s.rest.takeWhile p).length

/-- Steps over a line break. -/
def skipLine (s : State) : State :=
  match s.rest with
  | '\r' :: '\n' :: rest => { s with rest, index := s.index + 2, line := s.line + 1, column := 0 }
  | _ :: rest => { s with rest, index := s.index + 1, line := s.line + 1, column := 0 }
  | [] => s

/-- The line break that is next, as a part of a text. -/
def lineBreak (s : State) : List Char :=
  match s.rest with
  | '\u2028' :: _ => ['\u2028']
  | '\u2029' :: _ => ['\u2029']
  | [] => []
  | _ => ['\n']

/-- Adds a token. -/
def add (s : State) (t : Token) : State := { s with tokens := t :: s.tokens }

/-- Puts a token in front of those that came after the first ones. -/
def insert (s : State) (place : Nat) (t : Token) : State :=
  let later := s.tokens.length - place
  { s with tokens := s.tokens.take later ++ t :: s.tokens.drop later }

/-- Does a line with a mark of document boundaries begin here? -/
def atDocumentMark (s : State) : Bool :=
  s.column = 0 && match s.rest with
    | '-' :: '-' :: '-' :: rest => atGap rest
    | '.' :: '.' :: '.' :: rest => atGap rest
    | _ => false

/-- A possible key stays one on its line and for 1024 characters. -/
def dropStaleKeys (s : State) : Option State := do
  let keys ← s.keys.mapM fun k =>
    match k with
    | none => some none
    | some k =>
      if k.line < s.line ∨ k.index + 1024 < s.index then if k.required then none else some none
      else some (some k)
  some { s with keys }

/-- Gives up the possible key of the level. -/
def removeKey (s : State) : Option State :=
  match s.keys with
  | some k :: keys => if k.required then none else some { s with keys := none :: keys }
  | _ => some s

/-- Notes that the next token may become a key. -/
def saveKey (s : State) : Option State := do
  if s.keyAllowed then
    let s ← s.removeKey
    let key : PossibleKey :=
      ⟨s.tokens.length, s.index, s.line, s.column, !s.inFlow && s.indent == Int.ofNat s.column⟩
    some { s with keys := some key :: s.keys.drop 1 }
  else some s

/-- Ends the blocks that are indented more than a column. -/
def unroll (column : Int) : Nat → State → State
  | 0, s => s
  | n + 1, s =>
    if !s.inFlow && column < s.indent then
      unroll column n { s.add .blockEnd with indent := s.indents.headD (-1), indents := s.indents.drop 1 }
    else s

/-- Ends the blocks that are indented more than a column. -/
def endBlocks (s : State) (column : Int) : State := unroll column (s.indents.length + 1) s

/-- Begins a block at a column, unless one is there; the token goes to a place, or to the end. -/
def beginBlock (s : State) (column : Nat) (place : Option Nat) (t : Token) : State :=
  if !s.inFlow && s.indent < Int.ofNat column then
    let s := { s with indents := s.indent :: s.indents, indent := Int.ofNat column }
    match place with
    | some n => s.insert n t
    | none => s.add t
  else s

end State

open State

/-! ## Blanks, comments and line breaks -/

/-- Goes on to the next token. Tabs are blanks, but for places where a block could begin. -/
def toToken : Nat → State → State
  | 0, s => s
  | n + 1, s =>
    let s := if s.column = 0 && isNext '\uFEFF' s.rest then s.skip 1 else s
    let s := s.skipWhile fun c => c = ' ' || (c = '\t' && (s.inFlow || !s.keyAllowed))
    let s := if isNext '#' s.rest then s.skipWhile (!isBreak ·) else s
    if atLineEnd s.rest ∧ ¬ s.rest.isEmpty then
      let s := s.skipLine
      toToken n (if s.inFlow then s else { s with keyAllowed := true })
    else s

/-- Goes over the rest of a line that may only hold blanks and a comment. -/
def restOfLine (s : State) : Option State :=
  let s := s.skipWhile isBlank
  let s := if isNext '#' s.rest then s.skipWhile (!isBreak ·) else s
  if atLineEnd s.rest then some s.skipLine else none

/-! ## Numbers and characters of escapes -/

/-- The value of a hexadecimal digit. -/
def hexValue? (c : Char) : Option Nat :=
  if c.isDigit then some (c.toNat - 48)
  else if 'a' ≤ c ∧ c ≤ 'f' then some (c.toNat - 87)
  else if 'A' ≤ c ∧ c ≤ 'F' then some (c.toNat - 55)
  else none

/-- The character with the hexadecimal digits at the front. -/
def hexChar? (digits : Nat) (cs : List Char) : Option Char := do
  let taken := cs.take digits
  if taken.length < digits then none
  else
    let n ← taken.foldlM (fun n c => (hexValue? c).map (n * 16 + ·)) 0
    if n < 0xD800 ∨ (0xDFFF < n ∧ n < 0x110000) then some (Char.ofNat n) else none

/-- What an escape stands for, and its length without the backslash. -/
def escape? (cs : List Char) : Option (Char × Nat) :=
  match cs with
  | [] => none
  | c :: cs =>
    if c = 'x' then (hexChar? 2 cs).map (·, 3)
    else if c = 'u' then (hexChar? 4 cs).map (·, 5)
    else if c = 'U' then (hexChar? 8 cs).map (·, 9)
    else
      let simple : List (Char × Char) :=
        [('0', '\x00'), ('a', '\x07'), ('b', '\x08'), ('t', '\t'), ('\t', '\t'), ('n', '\n'), ('v', '\x0b'),
          ('f', '\x0c'), ('r', '\r'), ('e', '\x1b'), (' ', ' '), ('"', '"'), ('/', '/'), ('\\', '\\'),
          ('N', '\u0085'), ('_', '\u00a0'), ('L', '\u2028'), ('P', '\u2029')]
      (simple.lookup c).map (·, 1)

/-! ## Scalars -/

/-- Blanks between the parts of a scalar on one or several lines. -/
structure Gap where
  /-- The blanks, if they are on one line. -/
  blanks : List Char := []
  /-- Has there been a line break? -/
  broken : Bool := false
  /-- The first line break. -/
  first : List Char := []
  /-- The line breaks after it. -/
  others : List Char := []

/-- What a gap is in the text: a single line break becomes a blank, and of several the first one is dropped. -/
def Gap.text (g : Gap) : List Char :=
  if g.broken then
    if g.first = ['\n'] then if g.others.isEmpty then [' '] else g.others else g.first ++ g.others
  else g.blanks

/-- Takes a gap. `tabLimit` is the column that tabs may not stand before, after a line break. -/
def takeGap (tabLimit : Int) : Nat → Gap → State → Option (Gap × State)
  | 0, g, s => some (g, s)
  | n + 1, g, s =>
    match s.rest with
    | [] => some (g, s)
    | c :: _ =>
      if isBlank c then
        if g.broken ∧ c = '\t' ∧ Int.ofNat s.column < tabLimit then none
        else takeGap tabLimit n (if g.broken then g else { g with blanks := g.blanks ++ [c] }) (s.skip 1)
      else if isBreak c then
        let g := if g.broken then { g with others := g.others ++ s.lineBreak }
          else { g with blanks := [], broken := true, first := s.lineBreak }
        takeGap tabLimit n g s.skipLine
      else some (g, s)

/-- Takes the characters of a plain scalar up to a blank or its end. -/
def takePlain (inFlow : Bool) : Nat → List Char → State → Option (List Char × State)
  | 0, done, s => some (done, s)
  | n + 1, done, s =>
    match s.rest with
    | [] => some (done, s)
    | c :: rest =>
      if isBlank c || isBreak c then some (done, s)
      else if inFlow && c = ':' && (match rest with | d :: _ => isFlowIndicator d || d = '?' | [] => false) then none
      else if (c = ':' && atGap rest) || (inFlow && isFlowIndicator c) then some (done, s)
      else takePlain inFlow n (c :: done) (s.skip 1)

/-- Takes a plain scalar; `done` are its characters so far, the last one first. -/
def plain : Nat → List Char → Gap → State → Option (List Char × Gap × State)
  | 0, done, gap, s => some (done, gap, s)
  | n + 1, done, gap, s => do
    if s.atDocumentMark || isNext '#' s.rest then some (done, gap, s)
    else
      let before := s.rest.length
      let (taken, s) ← takePlain s.inFlow (s.rest.length + 1) [] s
      let (done, gap) :=
        if s.rest.length < before then (taken ++ gap.text.reverse ++ done, ({} : Gap)) else (done, gap)
      if atGap s.rest ∧ ¬ s.rest.isEmpty then
        let (gap, s) ← takeGap (s.indent + 1) (s.rest.length + 1) gap s
        if !s.inFlow && Int.ofNat s.column < s.indent + 1 then some (done, gap, s)
        else plain n done gap s
      else some (done, gap, s)

/-- Takes the characters of a quoted scalar up to a blank or its end. The flag says that an escaped line break was
met. -/
def takeQuoted (quote : Char) : Nat → List Char → State → Option (List Char × Bool × State)
  | 0, _, _ => none
  | n + 1, done, s =>
    match s.rest with
    | [] => some (done, false, s)
    | c :: rest =>
      if isBlank c || isBreak c then some (done, false, s)
      else if c = quote then
        if quote = '\'' && isNext '\'' rest then takeQuoted quote n ('\'' :: done) (s.skip 2)
        else some (done, false, s)
      else if c = '\\' ∧ quote = '"' then
        if atLineEnd rest ∧ ¬ rest.isEmpty then some (done, true, (s.skip 1).skipLine)
        else do
          let (x, size) ← escape? rest
          takeQuoted quote n (x :: done) (s.skip (size + 1))
      else takeQuoted quote n (c :: done) (s.skip 1)

/-- Takes the rest of a quoted scalar after its first quote. -/
def quoted (quote : Char) : Nat → List Char → State → Option (List Char × State)
  | 0, _, _ => none
  | n + 1, done, s => do
    if s.atDocumentMark || s.rest.isEmpty then none
    else
      let (done, broken, s) ← takeQuoted quote (s.rest.length + 1) done s
      if isNext quote s.rest then some (done.reverse, s.skip 1)
      else
        let (gap, s) ← takeGap (-1) (s.rest.length + 1) { broken } s
        quoted quote n (gap.text.reverse ++ done) s

/-- Takes the indentation and the empty lines before a line of a block scalar. An indentation of zero is not known yet,
and is then the largest one met. -/
def blockBreaks (indent : Nat) : Nat → Nat → List Char → State → Option (Nat × List Char × State)
  | 0, widest, breaks, s => some (widest, breaks, s)
  | n + 1, widest, breaks, s =>
    let spaces := (s.rest.takeWhile (· = ' ')).length
    let s := s.skip (if indent = 0 then spaces else min spaces (indent - s.column))
    let widest := max widest s.column
    if (indent = 0 ∨ s.column < indent) ∧ isNext '\t' s.rest then none
    else if atLineEnd s.rest ∧ ¬ s.rest.isEmpty then blockBreaks indent n widest (breaks ++ s.lineBreak) s.skipLine
    else some (widest, breaks, s)

/-- A block scalar between two lines. -/
structure BlockText where
  /-- The text so far, the last character first. -/
  done : List Char := []
  /-- The break after the last line. -/
  last : List Char := []
  /-- The breaks of the empty lines after it. -/
  empty : List Char := []
  /-- Does the last line begin with a blank? -/
  blank : Bool := false

/-- Takes the lines of a block scalar. -/
def blockLines (folded : Bool) (indent : Nat) : Nat → BlockText → State → Option (BlockText × State)
  | 0, t, s => some (t, s)
  | n + 1, t, s => do
    if s.column = indent ∧ ¬ s.rest.isEmpty then
      let blank := match s.rest with
        | c :: _ => isBlank c
        | [] => false
      let join :=
        if folded && t.last = ['\n'] && !t.blank && !blank then if t.empty.isEmpty then [' '] else [] else t.last
      let line := s.rest.takeWhile (!isBreak ·)
      let s := s.skip line.length
      let last := s.lineBreak
      let s := s.skipLine
      let (_, empty, s) ← blockBreaks indent (s.rest.length + 1) 0 [] s
      blockLines folded indent n ⟨line.reverse ++ (join ++ t.empty).reverse ++ t.done, last, empty, blank⟩ s
    else some (t, s)

/-- What happens to the line breaks at the end of a block scalar. -/
inductive Chomping where
  | strip
  | clip
  | keep
  deriving DecidableEq

/-- Takes the mark for the line breaks at the end. -/
def takeChomping (s : State) : Option Chomping × State :=
  match s.rest with
  | '+' :: _ => (some .keep, s.skip 1)
  | '-' :: _ => (some .strip, s.skip 1)
  | _ => (none, s)

/-- Takes the mark for the indentation; zero means that there is none. -/
def takeIncrement (s : State) : Option (Nat × State) :=
  match s.rest with
  | c :: _ =>
    if c.isDigit then if c = '0' then none else some (c.toNat - 48, s.skip 1)
    else some (0, s)
  | [] => some (0, s)

/-- Takes a block scalar after its indicator. -/
def blockScalar (folded : Bool) (s : State) : Option (String × State) := do
  let (before, s) := takeChomping s
  let (increment, s) ← takeIncrement s
  let (chomping, s) := match before with
    | some c => (c, s)
    | none =>
      let (c, s) := takeChomping s
      (c.getD .clip, s)
  let s ← restOfLine s
  let given := if increment = 0 then 0 else (max s.indent 0).toNat + increment
  let (widest, empty, s) ← blockBreaks given (s.rest.length + 1) 0 [] s
  let indent := if given = 0 then max widest (max (s.indent + 1).toNat 1) else given
  let (t, s) ← blockLines folded indent (s.rest.length + 1) { empty } s
  let tail := match chomping with
    | .strip => []
    | .clip => t.last
    | .keep => t.last ++ t.empty
  some (String.ofList (t.done.reverse ++ tail), s)

/-! ## Anchors, tags and directives -/

/-- Takes a name. -/
def takeName (s : State) : String × State :=
  let name := s.rest.takeWhile isNameChar
  (String.ofList name, s.skip name.length)

/-- Takes the name of an anchor or alias after its indicator. -/
def anchorName (s : State) : Option (String × State) :=
  let (name, s) := takeName s
  let ended := match s.rest with
    | [] => true
    | c :: _ => isBlank c || isBreak c || "?:,]\x7d%@\x60".toList.contains c
  if name.isEmpty || !ended then none else some (name, s)

/-- Takes a handle of tags. -/
def tagHandle (directive : Bool) (s : State) : Option (String × State) :=
  match s.rest with
  | '!' :: _ =>
    let (name, s) := takeName (s.skip 1)
    match s.rest with
    | '!' :: _ => some ("!" ++ name ++ "!", s.skip 1)
    | _ => if directive && !name.isEmpty then none else some ("!" ++ name, s)
  | _ => none

/-- Takes the characters of a tag. -/
def takeUri (verbatim : Bool) : Nat → List Char → State → Option (List Char × State)
  | 0, done, s => some (done.reverse, s)
  | n + 1, done, s =>
    match s.rest with
    | [] => some (done.reverse, s)
    | c :: rest =>
      if c = '%' then do
        let x ← hexChar? 2 rest
        takeUri verbatim n (x :: done) (s.skip 3)
      else if isNameChar c || ";/?:@&=+$.!~*'()".toList.contains c || (verbatim && ",[]".toList.contains c) then
        takeUri verbatim n (c :: done) (s.skip 1)
      else some (done.reverse, s)

/-- Takes a tag: its handle and what follows it. -/
def tag (s : State) : Option (String × String × State) := do
  let (handle, suffix, s) ←
    match s.rest with
    | '!' :: '<' :: _ => do
      let (uri, s) ← takeUri true (s.rest.length + 1) [] (s.skip 2)
      if uri.isEmpty || !isNext '>' s.rest then none else some ("", String.ofList uri, s.skip 1)
    | _ => do
      let (handle, after) ← tagHandle false s
      if handle.length ≥ 2 && handle.toList.getLast? = some '!' then
        let (uri, s) ← takeUri false (after.rest.length + 1) [] after
        if uri.isEmpty then none else some (handle, String.ofList uri, s)
      else
        let (uri, s) ← takeUri false (after.rest.length + 1) [] after
        let suffix := String.ofList (handle.toList.drop 1 ++ uri)
        some (if suffix.isEmpty then ("", "!", s) else ("!", suffix, s))
  if atGap s.rest || (s.inFlow && isNext ',' s.rest) then some (handle, suffix, s) else none

/-- Takes a number of a version. -/
def versionNumber (s : State) : Option (Nat × State) :=
  let digits := s.rest.takeWhile Char.isDigit
  if digits.isEmpty || 9 < digits.length then none
  else some (digits.foldl (fun n c => n * 10 + (c.toNat - 48)) 0, s.skip digits.length)

/-- Takes a directive after its indicator. -/
def directive (s : State) : Option (Token × State) := do
  let (name, s) := takeName s
  if name.isEmpty || !atGap s.rest then none
  else
    let s := s.skipWhile isBlank
    let (t, s) ←
      if name = "YAML" then do
        let (major, s) ← versionNumber s
        if !isNext '.' s.rest then none
        else
          let (minor, s) ← versionNumber (s.skip 1)
          some (Token.version major minor, s)
      else if name = "TAG" then do
        let (handle, s) ← tagHandle true s
        if !(s.rest.headD 'x' |> isBlank) then none
        else
          let s := s.skipWhile isBlank
          let (uri, s) ← takeUri true (s.rest.length + 1) [] s
          if uri.isEmpty || !atGap s.rest then none else some (Token.tagDirective handle (String.ofList uri), s)
      else none
    some (t, ← restOfLine s)

/-! ## Tokens -/

/-- Takes a bracket that opens. -/
def openFlow (s : State) (t : Token) : Option State := do
  let s ← s.saveKey
  some { (s.skip 1).add t with keys := none :: s.keys, keyAllowed := true }

/-- Takes a bracket that closes. -/
def closeFlow (s : State) (t : Token) : Option State := do
  let s ← s.removeKey
  some { (s.skip 1).add t with keys := if s.inFlow then s.keys.drop 1 else s.keys, keyAllowed := false }

/-- Takes the mark of a list item. -/
def blockEntry (s : State) : Option State := do
  if !s.inFlow && !s.keyAllowed then none
  else
    let s ← (s.beginBlock s.column none .blockSequenceStart).removeKey
    some { (s.skip 1).add .blockEntry with keyAllowed := true }

/-- Takes the mark of a key. -/
def keyMark (s : State) : Option State := do
  if !s.inFlow && !s.keyAllowed then none
  else
    let s ← (s.beginBlock s.column none .blockMappingStart).removeKey
    some { (s.skip 1).add .key with keyAllowed := !s.inFlow }

/-- Takes the colon before a value; what could be a key becomes one. -/
def valueMark (s : State) : Option State :=
  match s.keys with
  | some k :: keys =>
    let s := (s.insert k.place .key).beginBlock k.column (some k.place) .blockMappingStart
    some { (s.skip 1).add .value with keys := none :: keys, keyAllowed := false }
  | _ =>
    if !s.inFlow && !s.keyAllowed then none
    else
      let s := s.beginBlock s.column none .blockMappingStart
      some { (s.skip 1).add .value with keyAllowed := !s.inFlow }

/-- Takes something that may be a key, or begin one. -/
def takeSimple (s : State) (take : State → Option (Token × State)) : Option State := do
  let s ← s.saveKey
  let (t, s) ← take { s with keyAllowed := false }
  some (s.add t)

/-- May a plain scalar begin with these characters? -/
def beginsPlain (inFlow : Bool) (c : Char) (rest : List Char) : Bool :=
  !(isBlank c || isBreak c || "-?:,[]\x7b\x7d#&*!|>'\"%@\x60".toList.contains c) ||
    (c = '-' && !(match rest with | d :: _ => isBlank d | [] => false)) ||
    (!inFlow && (c = '?' || c = ':') && !atGap rest)

/-- Takes a plain scalar; one that ends with a line break leaves a place where a key may begin. -/
def plainScalar (s : State) : Option (Token × State) := do
  let (done, gap, s) ← plain (s.rest.length + 1) [] {} s
  some (.scalar .plain (String.ofList done.reverse), if gap.broken then { s with keyAllowed := true } else s)

/-- Takes the token that is next. -/
def step (s : State) : Option State :=
  match s.rest with
  | [] => some s
  | c :: rest =>
    if c = '%' ∧ s.column = 0 then do
      let s ← (s.endBlocks (-1)).removeKey
      let (t, s) ← directive { s.skip 1 with keyAllowed := false }
      some (s.add t)
    else if s.atDocumentMark then do
      let s ← (s.endBlocks (-1)).removeKey
      some { (s.skip 3).add (if c = '-' then .documentStart else .documentEnd) with keyAllowed := false }
    else if c = '[' then openFlow s .flowSequenceStart
    else if c = '\x7b' then openFlow s .flowMappingStart
    else if c = ']' then closeFlow s .flowSequenceEnd
    else if c = '\x7d' then closeFlow s .flowMappingEnd
    else if c = ',' then do
      let s ← s.removeKey
      some { (s.skip 1).add .flowEntry with keyAllowed := true }
    else if c = '-' ∧ atGap rest then blockEntry s
    else if c = '?' ∧ (s.inFlow ∨ atGap rest) then keyMark s
    else if c = ':' ∧ (s.inFlow ∨ atGap rest) then valueMark s
    else if c = '*' then takeSimple s fun s => (anchorName (s.skip 1)).map fun (n, s) => (.alias n, s)
    else if c = '&' then takeSimple s fun s => (anchorName (s.skip 1)).map fun (n, s) => (.anchor n, s)
    else if c = '!' then takeSimple s fun s => (tag s).map fun (handle, suffix, s) => (.tag handle suffix, s)
    else if (c = '|' ∨ c = '>') ∧ ¬ s.inFlow then do
      let s ← s.removeKey
      let (t, s) ← blockScalar (c = '>') { s.skip 1 with keyAllowed := true }
      some (s.add (.scalar (if c = '>' then .folded else .literal) t))
    else if c = '\'' ∨ c = '"' then
      takeSimple s fun s =>
        (quoted c (s.rest.length + 1) [] (s.skip 1)).map fun (t, s) => (.scalar .quoted (String.ofList t), s)
    else if beginsPlain s.inFlow c rest then takeSimple s plainScalar
    else none

/-- Takes all tokens; the number bounds the steps. -/
def steps : Nat → State → Option (List Token)
  | 0, _ => none
  | n + 1, s => do
    let s ← (toToken (s.rest.length + 1) s).dropStaleKeys
    let s := s.endBlocks s.column
    if s.rest.isEmpty then
      let s ← (s.endBlocks (-1)).removeKey
      some s.tokens.reverse
    else steps n (← step s)

/-- The tokens of a text. A byte order mark may come first. -/
def Token.scan (text : String) : Option (List Token) :=
  let cs := match text.toList with
    | '\uFEFF' :: cs => cs
    | cs => cs
  if cs.all isAllowed then steps (cs.length + 1) { rest := cs } else none

end LintInference.Yaml
