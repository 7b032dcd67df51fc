import LintInference.Schema.Enumeration

/-!
# Enumerating within limits

Where a program runs, calls can be inside one another only so deep, and a list has room for only so many values.
`Schema.enumerateWithin` keeps to these limits: it comes to nothing where a program would be stopped, and what comes
otherwise is what `Schema.enumerate` gives.
-/

namespace LintInference.Schema

/-- What comes of a computation with a bound: nothing if the bound is too small. -/
abbrev Bounded (α : Type) := ExceptT Failure Option α

/-- For how many values a list can have room: their bytes, 72 for each value, are counted by a signed integer of 64
bits. -/
def capacity : Nat := 0x7FFFFFFFFFFFFFFF / 72

mutual

/-- The candidates that a schema admits, with at most so many calls inside one another. -/
def enumerateWithin : Nat → Schema → List Candidate → Bounded (List Candidate)
  | 0, _, _ => none
  | bound + 1, s, seed =>
    match s with
    | .defs definitions body => do
      let t ← (some (resolve (.defs definitions body)) : Bounded Schema)
      enumerateWithin bound t seed
    | .sequence elements => elements.foldlM (fun configs element => enumerateWithin bound element configs) seed
    | .positional items => items.foldlM (fun configs item => enumerateWithin bound item configs) seed
    | .enumeration literals => pure (appendEach seed literals)
    | .boolean => pure (appendEach seed [.bool false, .bool true])
    | .uniform (.enumeration literals) => enumerateWithin bound (.enumeration literals) seed
    | .uniform _ => pure seed
    | .object properties => do
      let objects ← objectsWithin bound properties
      return if objects = [] then seed else appendEach seed objects
    | .anyOf branches => branches.flatMapM fun branch => enumerateWithin bound branch seed
    | .oneOf branches => branches.flatMapM fun branch => enumerateWithin bound branch seed
    | .ref _ => pure seed
    | .unconstrained => pure seed

/-- The objects with a value for each property that has any, with at most so many calls inside one another. A list with
room for all of them is reserved first. -/
def objectsWithin : Nat → List (String × Schema) → Bounded (List Json)
  | 0, _ => none
  | bound + 1, properties => do
    let resolvable ← properties.flatMapM fun e => do
      let values ← propertyValuesWithin bound e.2
      return if values = [] then [] else [(e.1, values)]
    if capacity < combinationCount resolvable then none else pure (combinations resolvable)

/-- The values that a property can take, with at most so many calls inside one another. -/
def propertyValuesWithin : Nat → Schema → Bounded (List Json)
  | 0, _ => none
  | bound + 1, s =>
    match s with
    | .defs definitions body => do
      let t ← (some (resolve (.defs definitions body)) : Bounded Schema)
      propertyValuesWithin bound t
    | .object _ => pure []
    | .anyOf branches => branches.flatMapM (propertyValuesWithin bound)
    | .oneOf branches => branches.flatMapM (propertyValuesWithin bound)
    | s => do
      let candidates ← enumerateWithin bound s [[]]
      return candidates.flatten

end

end LintInference.Schema
