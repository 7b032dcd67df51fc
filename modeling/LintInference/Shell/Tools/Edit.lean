import LintInference.Shell.Regex
import LintInference.Shell.Tool

/-!
# The tool that edits lines

A script of editing commands is carried out for each line. A command may have an address, which says for which lines it
is; at the end of the script the line is written, unless that is left to the commands.
-/

namespace LintInference.Shell

/-! ## Scripts -/

/-- A line that an editing command is about. -/
inductive Anchor where
  | number (n : Nat)
  | lastLine
  | containing (r : Regex)

/-- Which lines an editing command is for. -/
inductive Address where
  | all
  | at (a : Anchor)
  /-- From a line to another one, both included. -/
  | between (first last : Anchor)

/-- What an editing command does. -/
inductive Edit where
  | substitute (r : Regex) (replacement : Raw) (all written : Bool)
  | exchange (old new : Raw)
  | print
  | printNumber
  | delete
  | quit

/-- An editing command; a negated one is for the lines that its address does not name. -/
structure EditCommand where
  address : Address
  negated : Bool
  edit : Edit

/-- The text up to a delimiter; a delimiter behind a backslash belongs to it. -/
def upTo (delimiter : Char) : Nat → Raw → Option (Raw × Raw)
  | 0, _ => none
  | n + 1, cs =>
    match cs with
    | [] => none
    | '\\' :: c :: cs => do
      let (t, rest) ← upTo delimiter n cs
      some (if c = delimiter && c ≠ '\\' then c :: t else '\\' :: c :: t, rest)
    | c :: cs =>
      if c = delimiter then some ([], cs)
      else do
        let (t, rest) ← upTo delimiter n cs
        some (c :: t, rest)

/-- Reads what a command is about, if that is given. -/
def anchor (extended : Bool) (cs : Raw) : Option (Option Anchor × Raw) :=
  match cs with
  | '$' :: cs => some (some .lastLine, cs)
  | '/' :: cs => do
    let (t, cs) ← upTo '/' (cs.length + 1) cs
    some (some (.containing (← Regex.read extended t)), cs)
  | cs =>
    match cs.span Char.isDigit with
    | ([], _) => some (none, cs)
    | (digits, cs) => some (some (.number ((number? digits).getD 0)), cs)

/-- Reads the address of a command. -/
def address (extended : Bool) (cs : Raw) : Option (Address × Raw) := do
  match ← anchor extended cs with
  | (none, cs) => some (.all, cs)
  | (some a, ',' :: cs) =>
    match ← anchor extended cs with
    | (some b, cs) => some (.between a b, cs)
    | (none, _) => none
  | (some a, cs) => some (.at a, cs)

/-- Reads what a command does. -/
def edit (extended : Bool) (cs : Raw) : Option (Edit × Raw) :=
  match cs with
  | 's' :: d :: cs => do
    let (t, cs) ← upTo d (cs.length + 1) cs
    let (replacement, cs) ← upTo d (cs.length + 1) cs
    let (flags, cs) := cs.span fun c => c.isAlphanum
    some (.substitute (← Regex.read extended t) replacement (flags.contains 'g') (flags.contains 'p'), cs)
  | 'y' :: d :: cs => do
    let (old, cs) ← upTo d (cs.length + 1) cs
    let (new, cs) ← upTo d (cs.length + 1) cs
    some (.exchange old new, cs)
  | 'p' :: cs => some (.print, cs)
  | '=' :: cs => some (.printNumber, cs)
  | 'd' :: cs => some (.delete, cs)
  | 'q' :: cs => some (.quit, cs)
  | _ => none

/-- Reads editing commands. -/
def editCommands (extended : Bool) : Nat → Raw → Option (List EditCommand)
  | 0, _ => none
  | n + 1, cs => do
    match cs.dropWhile fun c => c = ';' || c = '\n' || c = ' ' with
    | [] => some []
    | cs => do
      let (a, cs) ← address extended cs
      let cs := cs.dropWhile (· = ' ')
      let negated := cs.head? = some '!'
      let (e, cs) ← edit extended (if negated then cs.drop 1 else cs)
      some (⟨a, negated, e⟩ :: (← editCommands extended n cs))

/-! ## Lines -/

/-- The replacement of a match. -/
def replacementText (whole : Raw) (group : Nat → Raw) : Raw → Raw
  | [] => []
  | '\\' :: c :: cs =>
    (if c.isDigit then group (c.toNat - 48) else if c = 'n' then ['\n'] else [c]) ++ replacementText whole group cs
  | '&' :: cs => whole ++ replacementText whole group cs
  | c :: cs => c :: replacementText whole group cs

/-- The end of a line with matches replaced. The flag says that there was one. -/
def substitute (r : Regex) (replacement : Raw) (all : Bool) (line : Raw) (depth : Nat) : Nat → Raw → Raw × Bool
  | 0, cs => (cs, false)
  | n + 1, cs =>
    match Regex.matchFront line depth r cs with
    | some groups =>
      let whole := Regex.groupText line groups 0
      let t := replacementText whole (Regex.groupText line groups) replacement
      let rest := cs.drop whole.length
      if !all then (t ++ rest, true)
      else
        match whole, rest with
        | [], [] => (t, true)
        | [], c :: rest => (t ++ c :: (substitute r replacement all line depth n rest).1, true)
        | _, [] => (t, true)
        | _, rest => (t ++ (substitute r replacement all line depth n rest).1, true)
    | none =>
      match cs with
      | [] => ([], false)
      | c :: cs =>
        let (t, hit) := substitute r replacement all line depth n cs
        (c :: t, hit)

/-- A line under way: its number and text, and whether it is the last one. -/
structure EditedLine where
  number : Nat
  isLast : Bool
  text : Raw

/-- Is the line the one? -/
def Anchor.fits (l : EditedLine) : Anchor → Bool
  | .number n => n = l.number
  | .lastLine => l.isLast
  | .containing r => Regex.occursIn r l.text

/-- Is the line the end of a range that began before it? -/
def Anchor.ends (l : EditedLine) : Anchor → Bool
  | .number n => n ≤ l.number
  | a => a.fits l

/-- Is a command for the line? Whether the line belongs to the command's range, and whether that goes on, depends on
`inside`, which says that it began before. -/
def Address.fits (l : EditedLine) (inside : Bool) : Address → Bool × Bool
  | .all => (true, false)
  | .at a => (a.fits l, false)
  | .between first last =>
    if inside then (true, !last.ends l)
    else if first.fits l then
      let single := match last with
        | .number n => n ≤ l.number
        | _ => false
      (true, !single)
    else (false, false)

/-- Edits a line: its text if it is still there, what was written on the way, whether it is the last one to be edited,
and which ranges go on. -/
def editLine (l : EditedLine) : List (EditCommand × Bool) → Option Raw × List Raw × Bool × List Bool
  | [] => (some l.text, [], false, [])
  | (c, inside) :: cs =>
    let (hit, on) := c.address.fits l inside
    let others := cs.map (·.2)
    let goOn := fun (l : EditedLine) (first : List Raw) =>
      let (kept, written, quit, ranges) := editLine l cs
      (kept, first ++ written, quit, on :: ranges)
    if hit = c.negated then goOn l []
    else
      match c.edit with
      | .substitute r t all written =>
        let (text, hit) := substitute r t all l.text (Regex.patience l.text.length) (l.text.length + 1) l.text
        goOn { l with text } (if hit && written then [text] else [])
      | .exchange old new =>
        let text := l.text.map fun c => ((old.idxOf? c).bind (new[·]?)).getD c
        goOn { l with text } []
      | .print => goOn l [l.text]
      | .printNumber => goOn l [Raw.ofNat l.number]
      | .delete => (none, [], false, on :: others)
      | .quit => (some l.text, [], true, on :: others)

/-- Edits lines; each is written at the end unless `silent`. The flags say which ranges go on. -/
def editLines (silent : Bool) (cs : List EditCommand) : List Bool → Nat → List Raw → Raw
  | _, _, [] => []
  | ranges, number, l :: ls =>
    let (kept, written, quit, ranges) := editLine ⟨number, ls.isEmpty, chomp l⟩ (cs.zip ranges)
    let ended := if l.getLast? = some '\n' then ['\n'] else []
    let out := written.flatMap (· ++ ['\n']) ++
      match kept with
      | some t => if silent then [] else t ++ ended
      | none => []
    if quit then out else out ++ editLines silent cs ranges (number + 1) ls

/-- Edits the lines of files. -/
def sed : Tool :=
  .withOptions "sed" { plain := "nErsu".toList, valued := "e".toList } fun a input disk =>
    let (script, names) := if a.has 'e' then (List.intercalate ['\n'] (a.all 'e'), a.operands)
      else (a.operands.headD [], a.operands.drop 1)
    match editCommands (a.has 'E' || a.has 'r') (script.length + 1) script with
    | none =>
      { errors := complaint "sed" ["-e expression #1".toList, "unknown command".toList], status := 1, rest := input
        disk }
    | some cs =>
      let (t, errors, status, rest) := gather "sed" names input disk
      { output := editLines (a.has 'n') cs (cs.map fun _ => false) 1 (fullLines t), errors,
        status := if status ≠ 0 then 2 else 0, rest, disk }

end LintInference.Shell
