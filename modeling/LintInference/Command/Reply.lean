import LintInference.Configuration.Loading
import LintInference.Elapsed
import LintInference.Inference

/-!
# Replies

What a command comes up with, and how it is shown. Texts are coloured by escape sequences unless a plain style is asked
for.
-/

namespace LintInference.Command

/-! ## Colours -/

/-- How texts are painted. -/
structure Style where
  plain : Bool

namespace Style

/-- A text with display attributes; after an end of attributes within the text they begin anew. -/
def paint (s : Style) (attributes text : String) : String :=
  if s.plain then text
  else
    let start := "\x1b[" ++ attributes ++ "m"
    let reset := "\x1b[0m"
    start ++ text.replace reset (reset ++ start) ++ reset

/-- Bold text. -/
def bold (s : Style) (text : String) : String := s.paint "1" text

/-- Text of lower intensity. -/
def dimmed (s : Style) (text : String) : String := s.paint "2" text

/-- Green text. -/
def green (s : Style) (text : String) : String := s.paint "32" text

/-- Yellow text. -/
def yellow (s : Style) (text : String) : String := s.paint "33" text

/-- Cyan text. -/
def cyan (s : Style) (text : String) : String := s.paint "36" text

/-- The mark of an error message. -/
def alarm (s : Style) (text : String) : String := s.paint "1;31" text

end Style

/-! ## Failures -/

/-- Why a command fails. -/
inductive Trouble where
  /-- A failure of the library, with what was tried. -/
  | failed (attempt : Option String) (cause : Failure)
  | unreadable (path : String) (cause : OsError)
  | uncreatable (path : String) (cause : OsError)
  | unwritable (path : String) (cause : OsError)
  /-- A configuration file is there already. -/
  | occupied (path : String)
  deriving DecidableEq, Repr

namespace Trouble

/-- What happened, followed by the causes behind it. -/
def chain : Trouble → List String
  | failed attempt cause => attempt.toList ++ cause.message :: cause.causes
  | unreadable path cause => ["Failed to read '" ++ path ++ "'", cause.message]
  | uncreatable path cause => ["Failed to create '" ++ path ++ "'", cause.message]
  | unwritable path cause => ["Failed to write '" ++ path ++ "'", cause.message]
  | occupied path => ["Configuration file '" ++ path ++ "' already exists. Use --force to overwrite."]

/-- The error message. -/
def message (t : Trouble) : String := Text.joinWith ": " t.chain

end Trouble

/-! ## Replies -/

/-- A rule in the listing of all rules. -/
structure Row where
  rule : String
  /-- How many candidates it has, if they can be listed. -/
  count : Option Nat
  skipped : Bool
  deriving DecidableEq, Repr

/-- The line of a rule. -/
def Row.text (r : Row) : String :=
  "  " ++ r.rule ++ " - " ++ r.count.elim "?" toString ++ " candidates" ++ if r.skipped then " (skipped)" else ""

/-- What a command comes up with. -/
inductive Reply where
  /-- An inferred configuration, to be printed. -/
  | inferred (i : Inferred)
  /-- An inferred configuration that was written to a file. -/
  | written (path : String) (i : Inferred)
  /-- Nothing was written, for there is something at the path. -/
  | present (path : String)
  | grammar (g : Grammar)
  | candidates (rule : String) (cs : List Candidate)
  | listing (rows : List Row)
  /-- A new configuration file. -/
  | created (path : String)
  | configuration (c : Configuration)
  /-- Lines as they are. -/
  | lines (ls : List String)

namespace Reply

/-- Lines with their ends. -/
def lay (ls : List String) : String := String.join (ls.map (· ++ "\n"))

/-- What is shown of a feature. -/
def featureLine (s : Style) (feature : String × Bool) : String :=
  "  " ++ feature.1 ++ ": " ++ if feature.2 then s.green "on" else s.dimmed "off"

/-- The account of an inference that took some milliseconds. -/
def summary (s : Style) (elapsed : Nat) (i : Inferred) : List String :=
  let off := i.disabled.length
  ["", s.bold "Summary:",
    "  Parser: ecmaVersion " ++ toString i.grammar.version ++ " (" ++ i.grammar.sourceType.word ++ ")",
    "  Rules: " ++ s.green (toString (i.rules.length - off)) ++ " enabled, " ++ s.yellow (toString off) ++ " off",
    "  Took: " ++ Elapsed.text elapsed]

/-- What goes to the standard output. -/
def output (s : Style) (elapsed : Nat) : Reply → String
  | inferred i => lay [i.pretty]
  | written path i => lay ((s.green "created" ++ " " ++ path) :: summary s elapsed i)
  | present _ => ""
  | grammar g =>
    lay ([s.bold "ecmaVersion:" ++ " " ++ toString g.version, s.bold "sourceType:" ++ " " ++ g.sourceType.word] ++
      g.features.map (featureLine s))
  | candidates _ cs => lay (cs.map Candidate.text)
  | listing rows =>
    lay (["Available Rules:", "================"] ++ rows.map Row.text ++
      ["", "Total: " ++ toString rows.length ++ " rules"])
  | created path => lay ["✅ Created configuration file: " ++ path]
  | configuration c => lay ["Configuration:", "==============", c.toJson.pretty]
  | lines ls => lay ls

/-- What goes to the error output. -/
def errors (s : Style) : Reply → String
  | present path => lay [path ++ " file already exists!"]
  | candidates rule cs =>
    lay [s.cyan "→" ++ " " ++ toString cs.length ++ " candidates for " ++ s.yellow rule]
  | _ => ""

end Reply

end LintInference.Command
