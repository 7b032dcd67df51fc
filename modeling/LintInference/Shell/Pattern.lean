import LintInference.Shell.Syntax

/-!
# Patterns

A pattern of the shell matches a whole text: a star is any text, a question mark any byte, and a set in square brackets
one of its bytes.
-/

namespace LintInference.Shell

/-! ## Sets of characters -/

/-- A set in square brackets: is it the complement, and which ranges does it have? -/
structure CharSet where
  negated : Bool
  ranges : List (Char × Char)
  deriving Repr

namespace CharSet

/-- Is the character in the set? -/
def has (s : CharSet) (c : Char) : Bool := s.negated != s.ranges.any fun (a, b) => a ≤ c && c ≤ b

/-- The ranges of a named class. -/
def ofName : String → List (Char × Char)
  | "digit" => [('0', '9')]
  | "alpha" => [('a', 'z'), ('A', 'Z')]
  | "alnum" => [('a', 'z'), ('A', 'Z'), ('0', '9')]
  | "upper" => [('A', 'Z')]
  | "lower" => [('a', 'z')]
  | "space" => [('\t', '\r'), (' ', ' ')]
  | "blank" => [('\t', '\t'), (' ', ' ')]
  | _ => []

/-- Reads the ranges up to the closing bracket; one that comes first is an ordinary character. -/
def takeRanges : Nat → Bool → List Char → Option (List (Char × Char) × List Char)
  | 0, _, _ => none
  | n + 1, first, cs =>
    match cs with
    | [] => none
    | '[' :: ':' :: rest =>
      let (name, rest) := rest.span (· ≠ ':')
      match rest with
      | ':' :: ']' :: rest => do
        let (rs, rest) ← takeRanges n false rest
        some (ofName (String.ofList name) ++ rs, rest)
      | _ => none
    | c :: rest =>
      if c = ']' && !first then some ([], rest)
      else
        match rest with
        | '-' :: d :: rest' =>
          if d = ']' then do
            let (rs, rest) ← takeRanges n false rest
            some ((c, c) :: rs, rest)
          else do
            let (rs, rest) ← takeRanges n false rest'
            some ((c, d) :: rs, rest)
        | _ => do
          let (rs, rest) ← takeRanges n false rest
          some ((c, c) :: rs, rest)

/-- Reads a set after its opening bracket. -/
def read (marks : List Char) (cs : List Char) : Option (CharSet × List Char) := do
  let (negated, cs) := match cs with
    | c :: rest => if marks.contains c then (true, rest) else (false, cs)
    | [] => (false, [])
  let (rs, cs) ← takeRanges (cs.length + 1) true cs
  some (⟨negated, rs⟩, cs)

end CharSet

/-! ## Patterns of the shell -/

/-- A part of a pattern. -/
inductive Glob where
  | char (c : Char)
  | one
  | any
  | set (s : CharSet)

/-- The pattern of a text; quoted characters stand for themselves. -/
def Glob.ofText : Nat → List (Char × Bool) → List Glob
  | 0, _ => []
  | n + 1, cs =>
    match cs with
    | [] => []
    | (c, true) :: cs => .char c :: ofText n cs
    | (c, false) :: cs =>
      if c = '*' then .any :: ofText n cs
      else if c = '?' then .one :: ofText n cs
      else if c = '[' then
        match CharSet.read ['!', '^'] (cs.map (·.1)) with
        | some (s, rest) => .set s :: ofText n (cs.drop (cs.length - rest.length))
        | none => .char c :: ofText n cs
      else .char c :: ofText n cs

/-- Does the pattern match the whole text? -/
def Glob.matches : List Glob → Raw → Bool
  | [], cs => cs.isEmpty
  | .any :: gs, [] => Glob.matches gs []
  | .any :: gs, c :: cs => Glob.matches gs (c :: cs) || Glob.matches (.any :: gs) cs
  | .one :: gs, _ :: cs => Glob.matches gs cs
  | .char g :: gs, c :: cs => g = c && Glob.matches gs cs
  | .set s :: gs, c :: cs => s.has c && Glob.matches gs cs
  | _ :: _, [] => false
termination_by gs cs => (gs.length, cs.length)

end LintInference.Shell
