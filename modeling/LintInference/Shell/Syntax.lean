/-!
# Shell scripts

The commands of a script and the words that they are made of. A shell works on bytes; here a byte is the character with
its number, so a text of the shell has characters below 256 only.
-/

namespace LintInference.Shell

/-- Bytes, each as the character with its number. -/
abbrev Raw := List Char

/-- What `${name…word}` does with a value that may be missing. -/
inductive Alteration where
  /-- `-`: the word stands in for a missing value. -/
  | orElse
  /-- `+`: the word stands in for a value that is there. -/
  | instead
  /-- `=`: the word becomes the value if there is none. -/
  | assign
  /-- `#`: the shortest beginning that the word matches is cut off. -/
  | cutStart
  /-- `##`: the longest one is cut off. -/
  | cutStartLongest
  /-- `%`: the shortest end that the word matches is cut off. -/
  | cutEnd
  /-- `%%`: the longest one is cut off. -/
  | cutEndLongest
  deriving DecidableEq, Repr

/-- Where the bytes of a file descriptor go to, or come from, by a redirection. -/
inductive Mode where
  | read
  | write
  | append
  deriving DecidableEq, Repr

mutual

/-- A part of a word. -/
inductive Part where
  | plain (text : Raw)
  | quoted (text : Raw)
  /-- `$name` -/
  | variable (name : String) (quoted : Bool)
  /-- `${#name}` -/
  | length (name : String) (quoted : Bool)
  /-- `${name:-word}` and the like; with the colon, an empty value counts as missing. -/
  | altered (name : String) (colon : Bool) (how : Alteration) (word : List Part) (quoted : Bool)
  /-- `$(script)` -/
  | output (script : List Command) (quoted : Bool)
  /-- `$((expression))` -/
  | arithmetic (expression : List Part) (quoted : Bool)

/-- A redirection. -/
inductive Redirection where
  | file (descriptor : Nat) (mode : Mode) (path : List Part)
  | copy (descriptor : Nat) (source : List Part)
  | text (word : List Part)

/-- A command. -/
inductive Command where
  /-- Assignments and words, on a line of the script. -/
  | simple (line : Nat) (assignments : List (String × List Part)) (words : List (List Part))
  | redirected (command : Command) (redirections : List Redirection)
  | group (body : List Command)
  | subshell (body : List Command)
  | conditional (test body otherwise : List Command)
  /-- Repeats the body as long as the test succeeds or, the other way round, fails. -/
  | loop (whileTrue : Bool) (test body : List Command)
  /-- Runs the body for each word; without words, for each parameter. -/
  | each (name : String) (words : Option (List (List Part))) (body : List Command)
  /-- Runs the first branch that has a pattern for the word. -/
  | choose (word : List Part) (branches : List (List (List Part) × List Command))
  | define (name : String) (body : Command)
  | pipeline (commands : List Command)
  | negate (command : Command)
  | both (first second : Command)
  | either (first second : Command)

end

/-- A part of a command's words. -/
abbrev Word := List Part

/-- A list of commands. -/
abbrev Script := List Command

instance : Inhabited Command := ⟨.group []⟩

end LintInference.Shell
