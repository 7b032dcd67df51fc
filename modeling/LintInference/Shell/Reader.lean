import LintInference.Shell.Syntax

/-!
# Reading shell scripts

`Script.read` reads the text of a script. A text that is no script has no commands; what is wrong with it is not said.
The readers take the characters that are left and give what they found with the characters after it; a number bounds
their steps.
-/

namespace LintInference.Shell

/-- Takes characters from the front. -/
abbrev Reader (α : Type) := Raw → Option (α × Raw)

/-! ## Characters and blanks -/

/-- A blank between words. -/
def isSpace (c : Char) : Bool := c = ' ' || c = '\t'

/-- A character that ends a word. -/
def isMeta (c : Char) : Bool := isSpace c || c = '\n' || ";&|<>()".toList.contains c

/-- The first character of a name. -/
def beginsName (c : Char) : Bool := c.isAlpha || c = '_'

/-- A character of a name. -/
def isNameChar (c : Char) : Bool := c.isAlphanum || c = '_'

/-- Drops blanks, joined lines and a comment. -/
def skipSpaces : Nat → Raw → Raw
  | 0, cs => cs
  | n + 1, cs =>
    match cs with
    | '\\' :: '\n' :: cs => skipSpaces n cs
    | '#' :: cs => cs.dropWhile (· ≠ '\n')
    | c :: rest => if isSpace c then skipSpaces n rest else cs
    | [] => []

/-- Drops blanks, comments and line ends. -/
def skipLines : Nat → Raw → Raw
  | 0, cs => cs
  | n + 1, cs =>
    match skipSpaces (cs.length + 1) cs with
    | '\n' :: cs => skipLines n cs
    | cs => cs

/-- Drops blanks. -/
def spaces (cs : Raw) : Raw := skipSpaces (cs.length + 1) cs

/-- Drops blanks and line ends. -/
def gaps (cs : Raw) : Raw := skipLines (cs.length + 1) cs

/-! ## Words and commands -/

/-- A plain character, joined to the plain text after it. -/
def addPlain (c : Char) : Word → Word
  | .plain t :: w => .plain (c :: t) :: w
  | w => .plain [c] :: w

/-- A quoted character, joined to the quoted text after it. -/
def addQuoted (c : Char) : Word → Word
  | .quoted t :: w => .quoted (c :: t) :: w
  | w => .quoted [c] :: w

/-- The text of a word that has neither quotes nor expansions. -/
def literal? : Word → Option Raw
  | [] => some []
  | [.plain t] => some t
  | _ => none

/-- The name at the front. -/
def takeName (cs : Raw) : Raw × Raw :=
  match cs with
  | c :: _ => if beginsName c then cs.span isNameChar else ([], cs)
  | [] => ([], [])

/-- The operator in braces after a name. -/
def alteration? (cs : Raw) : Option (Bool × Alteration × Raw) :=
  match cs with
  | ':' :: '-' :: cs => some (true, .orElse, cs)
  | ':' :: '+' :: cs => some (true, .instead, cs)
  | ':' :: '=' :: cs => some (true, .assign, cs)
  | '-' :: cs => some (false, .orElse, cs)
  | '+' :: cs => some (false, .instead, cs)
  | '=' :: cs => some (false, .assign, cs)
  | '#' :: '#' :: cs => some (false, .cutStartLongest, cs)
  | '#' :: cs => some (false, .cutStart, cs)
  | '%' :: '%' :: cs => some (false, .cutEndLongest, cs)
  | '%' :: cs => some (false, .cutEnd, cs)
  | _ => none

/-- The text up to an unescaped backquote, with its escapes taken away. -/
def backquoted : Nat → Raw → Option (Raw × Raw)
  | 0, _ => none
  | n + 1, cs =>
    match cs with
    | [] => none
    | '\x60' :: cs => some ([], cs)
    | '\\' :: c :: cs => do
      let (t, cs) ← backquoted n cs
      some (if c = '\x60' ∨ c = '\\' ∨ c = '$' then c :: t else '\\' :: c :: t, cs)
    | c :: cs => do
      let (t, cs) ← backquoted n cs
      some (c :: t, cs)

/-- A number of decimal digits. -/
def number? (cs : Raw) : Option Nat :=
  if cs.isEmpty || !cs.all Char.isDigit then none else some (cs.foldl (fun n c => n * 10 + (c.toNat - 48)) 0)

/-- Words that open or continue a compound command. -/
def isReserved (w : String) : Bool :=
  ["then", "else", "elif", "fi", "do", "done", "esac", "\x7d"].contains w

/-- The lines of a text, without their ends. -/
def linesOf : Raw → List Raw
  | [] => [[]]
  | c :: cs =>
    if c = '\n' then [] :: linesOf cs
    else
      match linesOf cs with
      | [] => [[c]]
      | l :: ls => (c :: l) :: ls

/-- The line of a script that has so many lines when this is what is left of it. -/
def lineAt (lines : Nat) (cs : Raw) : Nat := lines - cs.count '\n'

mutual

/-- What a dollar sign stands for; alone it stands for itself. -/
def expansion (lines : Nat) : Nat → Bool → Reader Part
  | 0, _, _ => none
  | n + 1, isQuoted, cs =>
    match cs with
    | '(' :: '(' :: cs => do
      let (w, cs) ← arithmeticWord lines n 0 cs
      some (.arithmetic w isQuoted, cs)
    | '(' :: cs => do
      let (script, cs) ← commands lines n cs
      match gaps cs with
      | ')' :: cs => some (.output script isQuoted, cs)
      | _ => none
    | '\x7b' :: '#' :: cs =>
      match takeName cs with
      | (name, '\x7d' :: cs) => some (.length (String.ofList name) isQuoted, cs)
      | _ => none
    | '\x7b' :: cs =>
      let (name, rest) := match takeName cs with
        | ([], c :: cs) => if c.isDigit then (c :: cs).span Char.isDigit else ([c], cs)
        | found => found
      match rest with
      | '\x7d' :: cs => some (.variable (String.ofList name) isQuoted, cs)
      | cs => do
        let (colon, how, cs) ← alteration? cs
        let (w, cs) ← bracedWord lines n isQuoted cs
        some (.altered (String.ofList name) colon how w isQuoted, cs)
    | c :: cs =>
      if beginsName c then
        let (name, cs) := (c :: cs).span isNameChar
        some (.variable (String.ofList name) isQuoted, cs)
      else if c.isDigit ∨ "@*#?$!-".toList.contains c then some (.variable (String.ofList [c]) isQuoted, cs)
      else some (if isQuoted then .quoted ['$'] else .plain ['$'], c :: cs)
    | [] => some (if isQuoted then .quoted ['$'] else .plain ['$'], [])

/-- The expression of an arithmetic expansion, up to two closing brackets. -/
def arithmeticWord (lines : Nat) : Nat → Nat → Reader Word
  | 0, _, _ => none
  | n + 1, depth, cs =>
    match cs with
    | [] => none
    | ')' :: ')' :: rest =>
      if depth = 0 then some ([], rest)
      else do
        let (w, cs) ← arithmeticWord lines n (depth - 1) (')' :: rest)
        some (addPlain ')' w, cs)
    | '$' :: cs => do
      let (p, cs) ← expansion lines n true cs
      let (w, cs) ← arithmeticWord lines n depth cs
      some (p :: w, cs)
    | c :: cs => do
      let depth := if c = '(' then depth + 1 else if c = ')' then depth - 1 else depth
      let (w, cs) ← arithmeticWord lines n depth cs
      some (addPlain c w, cs)

/-- The word in braces, up to the closing brace. -/
def bracedWord (lines : Nat) : Nat → Bool → Reader Word
  | 0, _, _ => none
  | n + 1, isQuoted, cs =>
    match cs with
    | [] => none
    | '\x7d' :: cs => some ([], cs)
    | _ => do
      let (p, cs) ← part lines n isQuoted cs
      let (w, cs) ← bracedWord lines n isQuoted cs
      some (p ++ w, cs)

/-- One character, quotation or expansion, as parts of a word. -/
def part (lines : Nat) : Nat → Bool → Reader Word
  | 0, _, _ => none
  | n + 1, isQuoted, cs =>
    match cs with
    | [] => none
    | '\\' :: '\n' :: cs => some ([], cs)
    | '\\' :: c :: cs =>
      if isQuoted && !"$\x60\"\\".toList.contains c then some ([.quoted ['\\', c]], cs) else some ([.quoted [c]], cs)
    | '$' :: cs => do
      let (p, cs) ← expansion lines n isQuoted cs
      some ([p], cs)
    | '\x60' :: cs => do
      let (inner, cs) ← backquoted (cs.length + 1) cs
      let (script, rest) ← commands lines n inner
      if (gaps rest).isEmpty then some ([.output script isQuoted], cs) else none
    | c :: cs =>
      if isQuoted then some ([.quoted [c]], cs)
      else if c = '\'' then
        match cs.span (· ≠ '\'') with
        | (t, _ :: cs) => some ([.quoted t], cs)
        | _ => none
      else if c = '"' then do
        let (w, cs) ← quotation lines n cs
        some (.quoted [] :: w, cs)
      else some ([.plain [c]], cs)

/-- The rest of a quotation in double quotes. -/
def quotation (lines : Nat) : Nat → Reader Word
  | 0, _ => none
  | n + 1, cs =>
    match cs with
    | [] => none
    | '"' :: cs => some ([], cs)
    | cs => do
      let (p, cs) ← part lines n true cs
      let (w, cs) ← quotation lines n cs
      some (match p with | [.quoted [c]] => (addQuoted c w, cs) | p => (p ++ w, cs))

/-- A word; one that has no parts is no word. -/
def word (lines : Nat) : Nat → Reader Word
  | 0, _ => none
  | n + 1, cs =>
    match cs with
    | [] => some ([], [])
    | c :: _ =>
      if isMeta c then some ([], cs)
      else do
        let (p, cs) ← part lines n false cs
        let (w, cs) ← word lines n cs
        some (match p with | [.plain [c]] => (addPlain c w, cs) | p => (p ++ w, cs))

/-- The redirection at the front, if there is one. -/
def redirection (lines : Nat) : Nat → Raw → Option (Option (Redirection × Raw))
  | 0, _ => none
  | n + 1, cs =>
    let (digits, rest) := cs.span Char.isDigit
    let given := number? digits
    match rest with
    | '>' :: '>' :: cs => target lines n cs fun w => .file (given.getD 1) .append w
    | '>' :: '&' :: cs => target lines n cs fun w => .copy (given.getD 1) w
    | '>' :: '|' :: cs => target lines n cs fun w => .file (given.getD 1) .write w
    | '>' :: cs => target lines n cs fun w => .file (given.getD 1) .write w
    | '<' :: '<' :: cs => do
      let (strip, cs) := match cs with
        | '-' :: cs => (true, cs)
        | cs => (false, cs)
      let (w, cs) ← word lines n (spaces cs)
      hereText lines n strip w cs
    | '<' :: '&' :: cs => target lines n cs fun w => .copy (given.getD 0) w
    | '<' :: cs => target lines n cs fun w => .file (given.getD 0) .read w
    | _ => some none

/-- The word that a redirection names. -/
def target (lines : Nat) : Nat → Raw → (Word → Redirection) → Option (Option (Redirection × Raw))
  | 0, _, _ => none
  | n + 1, cs, make => do
    let (w, cs) ← word lines n (spaces cs)
    if w.isEmpty then none else some (some (make w, cs))

/-- The text that the lines after this one hold, up to the line with the mark; the rest of this line stays. -/
def hereText (lines : Nat) : Nat → Bool → Word → Raw → Option (Option (Redirection × Raw))
  | 0, _, _, _ => none
  | n + 1, strip, mark, cs =>
    let name := mark.flatMap fun
      | .plain t => t
      | .quoted t => t
      | _ => []
    let keep := mark.all fun | .plain _ => true | _ => false
    let (line, rest) := cs.span (· ≠ '\n')
    let body := linesOf (rest.drop 1)
    let body := if strip then body.map fun l => l.dropWhile (· = '\t') else body
    let text := (body.takeWhile (· ≠ name)).flatMap (· ++ ['\n'])
    let after := (body.dropWhile (· ≠ name)).drop 1
    let left := line ++ ('\n' :: (List.intercalate ['\n'] after))
    if keep then do
      let (w, _) ← quotation lines n (text.flatMap (fun c => if c = '"' then ['\\', '"'] else [c]) ++ ['"'])
      some (some (.text w, left))
    else some (some (.text [.quoted text], left))

/-- Redirections, as many as there are. -/
def redirections (lines : Nat) : Nat → Reader (List Redirection)
  | 0, _ => none
  | n + 1, cs => do
    match ← redirection lines n (spaces cs) with
    | none => some ([], cs)
    | some (r, cs) => do
      let (rs, cs) ← redirections lines n cs
      some (r :: rs, cs)

/-- The rest of a simple command: assignments as long as there are no words, words and redirections. -/
def simple (lines : Nat) :
    Nat → Bool → Reader (List (String × Word) × List Word × List Redirection)
  | 0, _, _ => none
  | n + 1, begun, cs => do
    let cs := spaces cs
    match ← redirection lines n cs with
    | some (r, cs) => do
      let ((as, ws, rs), cs) ← simple lines n begun cs
      some ((as, ws, r :: rs), cs)
    | none =>
      match takeName cs with
      | (name@(_ :: _), '=' :: rest) =>
        if begun then simpleWord lines n cs
        else do
          let (w, cs) ← word lines n rest
          let ((as, ws, rs), cs) ← simple lines n false cs
          some (((String.ofList name, w) :: as, ws, rs), cs)
      | _ => simpleWord lines n cs

/-- A word of a simple command and what follows it. -/
def simpleWord (lines : Nat) : Nat → Reader (List (String × Word) × List Word × List Redirection)
  | 0, _ => none
  | n + 1, cs => do
    let (w, cs) ← word lines n cs
    if w.isEmpty then some (([], [], []), cs)
    else
      let ((as, ws, rs), cs) ← simple lines n true cs
      some ((as, w :: ws, rs), cs)

/-- The patterns of a branch, up to the bracket. -/
def patterns (lines : Nat) : Nat → Reader (List Word)
  | 0, _ => none
  | n + 1, cs => do
    let (w, cs) ← word lines n (spaces cs)
    match spaces cs with
    | '|' :: cs => do
      let (ws, cs) ← patterns lines n cs
      some (w :: ws, cs)
    | ')' :: cs => some ([w], cs)
    | _ => none

/-- The branches of a choice, up to its end. -/
def branches (lines : Nat) : Nat → Reader (List (List Word × List Command))
  | 0, _ => none
  | n + 1, cs => do
    let cs := gaps cs
    match ← keyword lines n "esac" cs with
    | some cs => some ([], cs)
    | none => do
      let cs := match cs with
        | '(' :: cs => cs
        | cs => cs
      let (ps, cs) ← patterns lines n cs
      let (body, cs) ← commands lines n cs
      match gaps cs with
      | ';' :: ';' :: cs => do
        let (bs, cs) ← branches lines n cs
        some ((ps, body) :: bs, cs)
      | cs => do
        let cs ← (← keyword lines n "esac" cs)
        some ([(ps, body)], cs)

/-- Drops a reserved word, if it is next. -/
def keyword (lines : Nat) : Nat → String → Raw → Option (Option Raw)
  | 0, _, _ => none
  | n + 1, expected, cs => do
    let (w, rest) ← word lines n (gaps cs)
    some (if literal? w = some expected.toList then some rest else none)

/-- The rest of a conditional after its first word. -/
def conditional (lines : Nat) : Nat → Reader Command
  | 0, _ => none
  | n + 1, cs => do
    let (test, cs) ← commands lines n cs
    let cs ← (← keyword lines n "then" cs)
    let (body, cs) ← commands lines n cs
    match ← keyword lines n "elif" cs with
    | some cs => do
      let (other, cs) ← conditional lines n cs
      some (.conditional test body [other], cs)
    | none =>
      match ← keyword lines n "else" cs with
      | some cs => do
        let (otherwise, cs) ← commands lines n cs
        let cs ← (← keyword lines n "fi" cs)
        some (.conditional test body otherwise, cs)
      | none => do
        let cs ← (← keyword lines n "fi" cs)
        some (.conditional test body [], cs)

/-- The body of a loop. -/
def loopBody (lines : Nat) : Nat → Reader (List Command)
  | 0, _ => none
  | n + 1, cs => do
    let cs := match spaces cs with
      | ';' :: cs => cs
      | cs => cs
    let cs ← (← keyword lines n "do" cs)
    let (body, cs) ← commands lines n cs
    let cs ← (← keyword lines n "done" cs)
    some (body, cs)

/-- The words of a loop, up to the end of the line. -/
def wordList (lines : Nat) : Nat → Reader (List Word)
  | 0, _ => none
  | n + 1, cs => do
    let (w, cs) ← word lines n (spaces cs)
    if w.isEmpty then some ([], cs)
    else
      let (ws, cs) ← wordList lines n cs
      some (w :: ws, cs)

/-- A compound command, a definition or a simple command, without what is redirected after a compound one. -/
def command (lines : Nat) : Nat → Reader Command
  | 0, _ => none
  | n + 1, cs =>
    match cs with
    | '(' :: cs => do
      let (body, cs) ← commands lines n cs
      match gaps cs with
      | ')' :: cs => finish lines n (.subshell body) cs
      | _ => none
    | cs => do
      let (w, rest) ← word lines n cs
      match (literal? w).map String.ofList with
      | some "\x7b" => do
        let (body, cs) ← commands lines n rest
        let cs ← (← keyword lines n "\x7d" cs)
        finish lines n (.group body) cs
      | some "if" => do
        let (c, cs) ← conditional lines n rest
        finish lines n c cs
      | some "while" => do
        let (test, cs) ← commands lines n rest
        let (body, cs) ← loopBody lines n cs
        finish lines n (.loop true test body) cs
      | some "until" => do
        let (test, cs) ← commands lines n rest
        let (body, cs) ← loopBody lines n cs
        finish lines n (.loop false test body) cs
      | some "for" => do
        let (name, cs) := takeName (spaces rest)
        match ← keyword lines n "in" cs with
        | some cs => do
          let (ws, cs) ← wordList lines n cs
          let (body, cs) ← loopBody lines n cs
          finish lines n (.each (String.ofList name) (some ws) body) cs
        | none => do
          let (body, cs) ← loopBody lines n cs
          finish lines n (.each (String.ofList name) none body) cs
      | some "case" => do
        let (subject, cs) ← word lines n (spaces rest)
        let cs ← (← keyword lines n "in" cs)
        let (bs, cs) ← branches lines n cs
        finish lines n (.choose subject bs) cs
      | found =>
        match found, spaces rest with
        | some name, '(' :: after =>
          match spaces after with
          | ')' :: after =>
            if name.isEmpty then none
            else do
              let (body, cs) ← command lines n (gaps after)
              some (.define name body, cs)
          | _ => none
        | _, _ => do
          let ((as, ws, rs), after) ← simple lines n false cs
          if as.isEmpty && ws.isEmpty && rs.isEmpty then none
          else
            let c := Command.simple (lineAt lines cs) as ws
            some (if rs.isEmpty then c else .redirected c rs, after)

/-- A compound command with the redirections after it. -/
def finish (lines : Nat) : Nat → Command → Reader Command
  | 0, _, _ => none
  | n + 1, c, cs => do
    let (rs, cs) ← redirections lines n cs
    some (if rs.isEmpty then c else .redirected c rs, cs)

/-- The commands of a pipeline after the first one. -/
def piped (lines : Nat) : Nat → Reader (List Command)
  | 0, _ => none
  | n + 1, cs =>
    match spaces cs with
    | '|' :: '|' :: _ => some ([], cs)
    | '|' :: cs => do
      let (c, cs) ← command lines n (gaps cs)
      let (others, cs) ← piped lines n cs
      some (c :: others, cs)
    | _ => some ([], cs)

/-- A pipeline. -/
def pipeline (lines : Nat) : Nat → Reader Command
  | 0, _ => none
  | n + 1, cs => do
    match ← word lines n cs with
    | ([.plain ['!']], rest) => do
      let (c, cs) ← pipeline lines n (spaces rest)
      some (.negate c, cs)
    | _ => do
      let (c, cs) ← command lines n cs
      let (others, cs) ← piped lines n cs
      some (if others.isEmpty then c else .pipeline (c :: others), cs)

/-- Pipelines joined to the one before. -/
def joined (lines : Nat) : Nat → Command → Reader Command
  | 0, _, _ => none
  | n + 1, first, cs =>
    match spaces cs with
    | '&' :: '&' :: cs => do
      let (c, cs) ← pipeline lines n (gaps cs)
      joined lines n (.both first c) cs
    | '|' :: '|' :: cs => do
      let (c, cs) ← pipeline lines n (gaps cs)
      joined lines n (.either first c) cs
    | _ => some (first, cs)

/-- Commands up to a bracket, a reserved word that ends them, or the end. -/
def commands (lines : Nat) : Nat → Reader (List Command)
  | 0, _ => none
  | n + 1, cs =>
    match gaps cs with
    | [] => some ([], [])
    | ')' :: cs => some ([], ')' :: cs)
    | ';' :: ';' :: cs => some ([], ';' :: ';' :: cs)
    | cs => do
      let (w, _) ← word lines n cs
      if (literal? w).any fun t => isReserved (String.ofList t) then some ([], cs)
      else
        let (first, cs) ← pipeline lines n cs
        let (c, cs) ← joined lines n first cs
        match spaces cs with
        | ';' :: ';' :: cs => some ([c], ';' :: ';' :: cs)
        | ';' :: cs => do
          let (others, cs) ← commands lines n cs
          some (c :: others, cs)
        | '&' :: cs => do
          let (others, cs) ← commands lines n cs
          some (c :: others, cs)
        | '\n' :: cs => do
          let (others, cs) ← commands lines n cs
          some (c :: others, cs)
        | cs => some ([c], cs)

end

/-- The commands of a script. -/
def Script.read (text : Raw) : Option Script := do
  let (found, rest) ← commands (1 + text.count '\n') (8 * text.length + 64) text
  if (gaps rest).isEmpty then some found else none

end LintInference.Shell
