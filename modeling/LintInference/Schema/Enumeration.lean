import LintInference.Candidate
import LintInference.Schema.Resolution

/-!
# Enumerating a schema

`Schema.enumerate` lists every candidate that a schema admits, each starting with a candidate of the seed. The order is
fixed: literals and properties as declared, places from left to right, and of an object's properties the first changes
fastest. What contributes no values leaves the seed as it is.

A dictionary is resolved where it is met; as nothing of it is left in the result (`Schema.hasDefs_resolve`), that
happens once on the way down to a value, and the walk ends.

The objects are counted before they are made, in 64 bits (`combinationCount`). Of more objects than that only the first
are made, or none. There is room for every list here; a program stops where none can be reserved.
-/

namespace LintInference.Schema

/-! ## Objects, one property after the other -/

/-- A property with the values it can take. -/
abbrev Choice := String × List Json

/-- The next positions of wheels of the given sizes. The first wheel moves on, and each that has come round to its start
takes the next one with it. -/
def turn : List Nat → List Nat → List Nat
  | n :: ns, i :: is => if i + 1 < n then (i + 1) :: is else 0 :: turn ns is
  | _, is => is

/-- The entries that are on show when the wheels stand at the given positions. -/
def shown (choices : List Choice) (positions : List Nat) : List (String × Json) :=
  (choices.zip positions).filterMap fun (choice, i) => choice.2[i]?.map fun v => (choice.1, v)

/-- The objects on show during so many turns. -/
def rounds (choices : List Choice) : Nat → List Nat → List Json
  | 0, _ => []
  | n + 1, positions =>
    .object (shown choices positions) :: rounds choices n (turn (choices.map (·.2.length)) positions)

/-- How many objects are made: one for each way to choose. The count has 64 bits, and what goes beyond is lost. -/
def combinationCount (choices : List Choice) : Nat :=
  (choices.foldl (fun (count : UInt64) choice => count * choice.2.length.toUInt64) 1).toNat

/-- The objects with one value for each property, in order and as many as are counted; none if there is no property. -/
def combinations (choices : List Choice) : List Json :=
  if choices.isEmpty then [] else rounds choices (combinationCount choices) (choices.map fun _ => 0)

/-! ## Candidates -/

/-- Every candidate with every value, the value changing last. -/
def appendEach (seed : List Candidate) (values : List Json) : List Candidate :=
  values.flatMap fun v => seed.map (Candidate.extend · v)

/-- One, if there are dictionaries left to resolve. -/
def pending (hasDefs : Bool) : Nat := if hasDefs then 1 else 0

theorem pending_mono {a b : Bool} (h : a = true → b = true) : pending a ≤ pending b := by
  cases a <;> cases b <;> simp_all [pending]

mutual

/-- The candidates that a schema admits, for each way to go on from the seed. -/
def enumerate (s : Schema) (seed : List Candidate) : Except Failure (List Candidate) :=
  match s with
  | .defs definitions body =>
    match _h : resolve (.defs definitions body) with
    | .error e => .error e
    | .ok t => enumerate t seed
  | .sequence elements => enumerateEach elements seed
  | .positional items => enumerateEach items seed
  | .enumeration literals => .ok (appendEach seed literals)
  | .boolean => .ok (appendEach seed [.bool false, .bool true])
  | .uniform (.enumeration literals) => .ok (appendEach seed literals)
  | .uniform _ => .ok seed
  | .object properties => do
    match combinations (← choices properties) with
    | [] => return seed
    | objects => return appendEach seed objects
  | .anyOf branches => enumerateAny branches seed
  | .oneOf branches => enumerateAny branches seed
  | .ref _ => .ok seed
  | .unconstrained => .ok seed
termination_by (pending s.hasDefs, 2 * sizeOf s)
decreasing_by
  · exact .left _ _ (by simp [hasDefs, hasDefs_resolve _h, pending])
  all_goals exact lex_of_le (by simp [hasDefs]) (by simp +arith)

/-- The candidates that go through all the schemas in turn. -/
def enumerateEach (ss : List Schema) (seed : List Candidate) : Except Failure (List Candidate) :=
  match ss with
  | [] => .ok seed
  | s :: ss => do enumerateEach ss (← enumerate s seed)
termination_by (pending (hasDefsList ss), 2 * sizeOf ss)
decreasing_by
  all_goals exact lex_of_le (pending_mono fun h => by simp [hasDefsList, h]) (by simp +arith)

/-- The candidates of any of the schemas, branch after branch. -/
def enumerateAny (ss : List Schema) (seed : List Candidate) : Except Failure (List Candidate) :=
  match ss with
  | [] => .ok []
  | s :: ss => do return (← enumerate s seed) ++ (← enumerateAny ss seed)
termination_by (pending (hasDefsList ss), 2 * sizeOf ss)
decreasing_by
  all_goals exact lex_of_le (pending_mono fun h => by simp [hasDefsList, h]) (by simp +arith)

/-- The properties that have values, with their values. -/
def choices (properties : List (String × Schema)) : Except Failure (List Choice) :=
  match properties with
  | [] => .ok []
  | (name, s) :: properties => do
    let values ← propertyValues s
    let others ← choices properties
    return if values.isEmpty then others else (name, values) :: others
termination_by (pending (hasDefsEntries properties), 2 * sizeOf properties)
decreasing_by
  all_goals exact lex_of_le (pending_mono fun h => by simp [hasDefsEntries, h]) (by simp +arith)

/-- The values that a single property can take: every value of every candidate of its schema. A property that is itself
an object has none, and those of a union are those of its branches. -/
def propertyValues (s : Schema) : Except Failure (List Json) :=
  match s with
  | .defs definitions body =>
    match _h : resolve (.defs definitions body) with
    | .error e => .error e
    | .ok t => propertyValues t
  | .object _ => .ok []
  | .anyOf branches => anyPropertyValues branches
  | .oneOf branches => anyPropertyValues branches
  | s => do return (← enumerate s [[]]).flatten
termination_by (pending s.hasDefs, 2 * sizeOf s + 1)
decreasing_by
  · exact .left _ _ (by simp [hasDefs, hasDefs_resolve _h, pending])
  all_goals exact lex_of_le (by simp [hasDefs]) (by simp +arith)

/-- The values of a property of which any of the schemas may hold. -/
def anyPropertyValues (ss : List Schema) : Except Failure (List Json) :=
  match ss with
  | [] => .ok []
  | s :: ss => do return (← propertyValues s) ++ (← anyPropertyValues ss)
termination_by (pending (hasDefsList ss), 2 * sizeOf ss)
decreasing_by
  all_goals exact lex_of_le (pending_mono fun h => by simp [hasDefsList, h]) (by simp +arith)

end

/-- The candidates for a rule with the schema, each starting with the severity `"error"`. -/
def candidates (s : Schema) : Except Failure (List Candidate) := enumerate s [Candidate.error]

end LintInference.Schema
