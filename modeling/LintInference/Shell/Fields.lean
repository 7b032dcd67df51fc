import LintInference.Shell.Pattern

/-!
# Fields

The parts of a word become fragments of text when they are expanded. Quoted text and what stands in the script itself
stay whole; what comes out of an expansion is split at separators. The fields that result are the words of a command.
-/

namespace LintInference.Shell

/-- A piece of an expanded word. -/
inductive Fragment where
  | quoted (t : Raw)
  | literal (t : Raw)
  | expanded (t : Raw)
  /-- The end of a field. -/
  | separator
  deriving Repr

/-- A field: its characters, and whether they are quoted. -/
abbrev Field := List (Char × Bool)

/-- The text of a field. -/
def Field.text (f : Field) : Raw := f.map (·.1)

/-- Is there a sign in the field that makes it a pattern? -/
def Field.isPattern (f : Field) : Bool := f.any fun (c, isQuoted) => !isQuoted && "*?[".toList.contains c

/-- A field that is being built, and the fields before it, the latest first. -/
structure Splitting where
  current : Option Field := none
  done : List Field := []

namespace Splitting

/-- Ends a field, if one has begun. -/
def close (s : Splitting) : Splitting :=
  match s.current with
  | some t => ⟨none, t :: s.done⟩
  | none => s

/-- Adds text to the field. -/
def extend (s : Splitting) (isQuoted : Bool) (t : Raw) : Splitting :=
  { s with current := some (s.current.getD [] ++ t.map (·, isQuoted)) }

/-- Is the character white space, several of which separate like one? -/
def isBlank (c : Char) : Bool := c = ' ' || c = '\t' || c = '\n'

/-- Adds text to the field and splits it at separators. White space only ends a field that has begun. -/
def split (separators : Raw) : Nat → Raw → Splitting → Splitting
  | 0, _, s => s
  | n + 1, cs, s =>
    match cs with
    | [] => s
    | c :: rest =>
      if separators.contains c then
        split separators n rest (if isBlank c then s.close else (s.extend false []).close)
      else
        let (t, rest) := cs.span (!separators.contains ·)
        split separators n rest (s.extend false t)
/-- Takes a fragment. -/
def add (separators : Raw) (s : Splitting) : Fragment → Splitting
  | .quoted t => s.extend true t
  | .literal t => if t.isEmpty then s else s.extend false t
  | .expanded t => s.split separators (t.length + 1) t
  | .separator => s.close

/-- The fields. -/
def fields (s : Splitting) : List Field := s.close.done.reverse

end Splitting

/-- The fields of fragments. -/
def fieldsOf (separators : Raw) (fs : List Fragment) : List Field :=
  (fs.foldl (Splitting.add separators) {}).fields

/-- The text of fragments that are not split. -/
def plainText (fs : List Fragment) : Raw :=
  fs.flatMap fun
    | .quoted t => t
    | .literal t => t
    | .expanded t => t
    | .separator => [' ']

/-- The pattern that fragments spell; what is quoted stands for itself. -/
def patternOf (fs : List Fragment) : List Glob :=
  let cs := fs.flatMap fun
    | .quoted t => t.map (·, true)
    | .literal t => t.map (·, false)
    | .expanded t => t.map (·, false)
    | .separator => [(' ', false)]
  Glob.ofText (cs.length + 1) cs

/-- A text without the beginning or the end that a pattern matches. -/
def cutMatch (how : Alteration) (pattern : List Glob) (t : Raw) : Raw :=
  let sizes := List.range (t.length + 1)
  let beginning := fun k => Glob.matches pattern (t.take k)
  let ending := fun k => Glob.matches pattern (t.drop (t.length - k))
  let hit := match how with
    | .cutStart => sizes.find? beginning
    | .cutStartLongest => sizes.reverse.find? beginning
    | .cutEnd => sizes.find? ending
    | .cutEndLongest => sizes.reverse.find? ending
    | _ => none
  match hit, how with
  | none, _ => t
  | some k, .cutStart => t.drop k
  | some k, .cutStartLongest => t.drop k
  | some k, _ => t.take (t.length - k)

end LintInference.Shell
