import LintInference.Shell.Pattern

/-!
# Regular expressions

The expressions of the tools that search and edit lines. In a basic expression groups, branches and most repetitions are
written with backslashes; an extended one writes the same things without them (`Regex.basic` turns it into a basic one).

Matching tries to repeat as often as possible first, and branches in their order; the rest of the expression decides.
-/

namespace LintInference.Shell

/-- A part of a regular expression. -/
inductive Regex where
  | char (c : Char)
  | one
  | set (s : CharSet)
  /-- The beginning of the line. -/
  | start
  /-- The end of the line. -/
  | finish
  /-- One of some branches; what it matches is the text of the group. -/
  | group (number : Nat) (branches : List (List Regex))
  /-- The text of a group. -/
  | again (group : Nat)
  /-- Repetitions, at least so many and at most so many. -/
  | times (r : Regex) (least : Nat) (most : Option Nat)

namespace Regex

/-! ## Reading -/

/-- Repeats the last part read. A sign without anything to repeat stands for itself. -/
def repeatLast (sign : Char) (least : Nat) (most : Option Nat) : List Regex → List Regex
  | [] => [.char sign]
  | .start :: rs => .char sign :: .start :: rs
  | r :: rs => .times r least most :: rs

/-- The branches read so far, the last part of the last branch first. -/
structure Branches where
  done : List (List Regex) := []
  current : List Regex := []

namespace Branches

/-- Adds a part. -/
def add (b : Branches) (r : Regex) : Branches := { b with current := r :: b.current }

/-- Begins another branch. -/
def next (b : Branches) : Branches := ⟨b.current.reverse :: b.done, []⟩

/-- All branches. -/
def all (b : Branches) : List (List Regex) := b.next.done.reverse

end Branches

/-- Reads branches, up to the end or to the bracket that closes a group; `count` is the number of groups so far. -/
def branches : Nat → Bool → Nat → Branches → Raw → Option (List (List Regex) × Nat × Raw)
  | 0, _, _, _, _ => none
  | n + 1, inside, count, b, cs =>
    match cs with
    | [] => if inside then none else some (b.all, count, [])
    | '\\' :: c :: cs =>
      if c = '(' then do
        let (bs, count', cs) ← branches n true (count + 1) {} cs
        branches n inside count' (b.add (.group (count + 1) bs)) cs
      else if c = ')' then if inside then some (b.all, count, cs) else none
      else if c = '|' then branches n inside count b.next cs
      else if c = '+' then branches n inside count { b with current := repeatLast '+' 1 none b.current } cs
      else if c = '?' then branches n inside count { b with current := repeatLast '?' 0 (some 1) b.current } cs
      else if c.isDigit then branches n inside count (b.add (.again (c.toNat - 48))) cs
      else branches n inside count (b.add (.char (if c = 'n' then '\n' else if c = 't' then '\t' else c))) cs
    | '*' :: cs => branches n inside count { b with current := repeatLast '*' 0 none b.current } cs
    | '.' :: cs => branches n inside count (b.add .one) cs
    | '[' :: cs => do
      let (s, cs) ← CharSet.read ['^'] cs
      branches n inside count (b.add (.set s)) cs
    | '^' :: cs => branches n inside count (b.add (if b.current.isEmpty then .start else .char '^')) cs
    | '$' :: cs =>
      let last := match cs with
        | [] => true
        | '\\' :: c :: _ => c = ')' || c = '|'
        | _ => false
      branches n inside count (b.add (if last then .finish else .char '$')) cs
    | c :: cs => branches n inside count (b.add (.char c)) cs

/-- An extended expression as a basic one; `inSet` says that a set has begun. -/
def basic : Bool → Raw → Raw
  | _, [] => []
  | true, c :: cs => c :: basic (c ≠ ']') cs
  | false, '\\' :: c :: cs =>
    if "(\x7b)\x7d|+?".toList.contains c then c :: basic false cs else '\\' :: c :: basic false cs
  | false, '[' :: '^' :: ']' :: cs => '[' :: '^' :: ']' :: basic true cs
  | false, '[' :: ']' :: cs => '[' :: ']' :: basic true cs
  | false, '[' :: cs => '[' :: basic true cs
  | false, c :: cs => if "()|+?".toList.contains c then '\\' :: c :: basic false cs else c :: basic false cs

/-- Reads a regular expression. -/
def read (extended : Bool) (cs : Raw) : Option Regex := do
  let cs := if extended then basic false cs else cs
  let (bs, _) ← branches (cs.length + 1) false 0 {} cs
  some (.group 0 bs)

/-! ## Matching -/

/-- Where groups begin and end, as numbers of characters left. The latest comes first. -/
abbrev Groups := List (Nat × Nat × Nat)

/-- The text of a group within a line. -/
def groupText (line : Raw) (groups : Groups) (g : Nat) : Raw :=
  match groups.find? (·.1 = g) with
  | some (_, a, b) => (line.drop (line.length - a)).take (a - b)
  | none => []

/-- What is to match after a part. -/
abbrev Rest := Groups → Raw → Option Groups

mutual

/-- Matches a part at the front of `cs`, which is the end of `line`, so that the rest matches too. -/
def part (line : Raw) : Nat → Regex → Groups → Raw → Rest → Option Groups
  | 0, _, _, _, _ => none
  | n + 1, r, groups, cs, k =>
    match r, cs with
    | .char a, c :: cs => if a = c then k groups cs else none
    | .one, _ :: cs => k groups cs
    | .set s, c :: cs => if s.has c then k groups cs else none
    | .start, cs => if cs.length = line.length then k groups cs else none
    | .finish, cs => if cs.isEmpty then k groups cs else none
    | .again g, cs =>
      let t := groupText line groups g
      if t.isPrefixOf cs then k groups (cs.drop t.length) else none
    | .group g bs, cs => oneOf line n bs groups cs fun groups rest => k ((g, cs.length, rest.length) :: groups) rest
    | .times r least most, cs =>
      let more := if most = some 0 then none
        else part line n r groups cs fun groups rest =>
          if rest.length = cs.length then none
          else part line n (.times r (least - 1) (most.map (· - 1))) groups rest k
      more.or (if least = 0 then k groups cs else none)
    | _, [] => none

/-- Matches parts one after the other. -/
def sequence (line : Raw) : Nat → List Regex → Groups → Raw → Rest → Option Groups
  | 0, _, _, _, _ => none
  | _ + 1, [], groups, cs, k => k groups cs
  | n + 1, r :: rs, groups, cs, k => part line n r groups cs fun groups cs => sequence line n rs groups cs k

/-- Matches the first branch that does. -/
def oneOf (line : Raw) : Nat → List (List Regex) → Groups → Raw → Rest → Option Groups
  | 0, _, _, _, _ => none
  | _ + 1, [], _, _, _ => none
  | n + 1, b :: bs, groups, cs, k => (sequence line n b groups cs k).or (oneOf line n bs groups cs k)

end

/-- How deep a match may go that has so many characters before it. -/
def patience (size : Nat) : Nat := 4 * size + 1000

/-- Matches an expression at the front of `cs`, at most so deep: the groups, of which number zero is the whole match. -/
def matchFront (line : Raw) (depth : Nat) (r : Regex) (cs : Raw) : Option Groups :=
  part line depth r [] cs fun groups _ => some groups

/-- The first match in the end of a line: what is before it, and its groups. -/
def search (line : Raw) (depth : Nat) (r : Regex) : Raw → Option (Raw × Groups)
  | [] => (matchFront line depth r []).map fun groups => ([], groups)
  | c :: cs =>
    match matchFront line depth r (c :: cs) with
    | some groups => some ([], groups)
    | none => (search line depth r cs).map fun (t, groups) => (c :: t, groups)

/-- Does the expression match somewhere in the line? -/
def occursIn (r : Regex) (line : Raw) : Bool := (search line (patience line.length) r line).isSome

end Regex

end LintInference.Shell
