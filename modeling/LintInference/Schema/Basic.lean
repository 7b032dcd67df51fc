import LintInference.Json.Basic

/-!
# Options schemas

A rule describes its options by a schema. Of the schema language only those parts have a form of their own that can be
turned into values; everything else is `Schema.unconstrained`. `Schema.ofJson` reads a schema and never fails: what it
does not know contributes nothing.
-/

namespace LintInference

/-- A schema for the options of a rule. -/
inductive Schema where
  /-- One of some literal values. -/
  | enumeration (literals : List Json)
  /-- A truth value. -/
  | boolean
  /-- An object, with its properties in order of declaration. -/
  | object (properties : List (String × Schema))
  /-- An array with a schema for each place. -/
  | positional (items : List Schema)
  /-- An array with one schema for all its items. -/
  | uniform (item : Schema)
  | anyOf (branches : List Schema)
  | oneOf (branches : List Schema)
  /-- A list of options, one schema for each. -/
  | sequence (elements : List Schema)
  /-- A reference to a definition, by name. -/
  | ref (name : String)
  /-- A dictionary of definitions for the references in its body. -/
  | defs (definitions : List (String × Schema)) (body : Schema)
  /-- Anything that contributes no values. -/
  | unconstrained
  deriving Repr

namespace Schema

instance : Inhabited Schema := ⟨.unconstrained⟩

/-! ## Dictionaries inside a schema -/

mutual

/-- Is there a dictionary at a place that enumeration reaches? References and literals hold none. -/
def hasDefs : Schema → Bool
  | .defs _ _ => true
  | .object properties => hasDefsEntries properties
  | .uniform item => hasDefs item
  | .positional items => hasDefsList items
  | .anyOf branches => hasDefsList branches
  | .oneOf branches => hasDefsList branches
  | .sequence elements => hasDefsList elements
  | _ => false

/-- Does one of the schemas hold a dictionary? -/
def hasDefsList : List Schema → Bool
  | [] => false
  | s :: ss => hasDefs s || hasDefsList ss

/-- Does the schema of one of the entries hold a dictionary? -/
def hasDefsEntries : List (String × Schema) → Bool
  | [] => false
  | (_, s) :: es => hasDefs s || hasDefsEntries es

end

mutual

/-- The names that the dictionaries of a schema define, at any depth, definitions included. -/
def definedNames : Schema → List String
  | .defs definitions body => definedNamesDefinitions definitions ++ definedNames body
  | .object properties => definedNamesEntries properties
  | .uniform item => definedNames item
  | .positional items => definedNamesList items
  | .anyOf branches => definedNamesList branches
  | .oneOf branches => definedNamesList branches
  | .sequence elements => definedNamesList elements
  | _ => []

/-- The names defined in any of the schemas. -/
def definedNamesList : List Schema → List String
  | [] => []
  | s :: ss => definedNames s ++ definedNamesList ss

/-- The names defined in the schemas of the entries. -/
def definedNamesEntries : List (String × Schema) → List String
  | [] => []
  | (_, s) :: es => definedNames s ++ definedNamesEntries es

/-- The names of a dictionary and those defined inside its definitions. -/
def definedNamesDefinitions : List (String × Schema) → List String
  | [] => []
  | (name, s) :: es => name :: (definedNames s ++ definedNamesDefinitions es)

end

mutual

/-- Equality of schemas: properties and definitions in any order, literals as JSON values. -/
def same : Schema → Schema → Bool
  | .enumeration as, .enumeration bs => Json.sameItems as bs
  | .boolean, .boolean => true
  | .object as, .object bs => as.length == bs.length && sameEntries as bs
  | .positional as, .positional bs => sameList as bs
  | .uniform a, .uniform b => same a b
  | .anyOf as, .anyOf bs => sameList as bs
  | .oneOf as, .oneOf bs => sameList as bs
  | .sequence as, .sequence bs => sameList as bs
  | .ref a, .ref b => a == b
  | .defs as a, .defs bs b => as.length == bs.length && sameEntries as bs && same a b
  | .unconstrained, .unconstrained => true
  | _, _ => false

/-- Equality of schemas, place by place. -/
def sameList : List Schema → List Schema → Bool
  | [], [] => true
  | a :: as, b :: bs => same a b && sameList as bs
  | _, _ => false

/-- Is every entry of the first list found in the second with an equal schema? -/
def sameEntries : List (String × Schema) → List (String × Schema) → Bool
  | [], _ => true
  | (k, a) :: as, bs =>
    (match Entries.get? bs k with
      | some b => same a b
      | none => false) && sameEntries as bs

end

/-! ## Reading a schema -/

/-- The prefix that a reference may carry before the name of its definition. -/
def refPrefix : String := "#/defs/"

/-- The name that a reference stands for: what follows the prefix, or all of it. -/
def refName (reference : String) : String :=
  if refPrefix.toList.isPrefixOf reference.toList then String.ofList (reference.toList.drop refPrefix.toList.length)
  else reference

/-- The reference of a node. Either spelling of the keyword will do, and the first one whose value is a text counts. -/
def refOf? (node : List (String × Json)) : Option String :=
  (((Entries.get? node "$ref").bind Json.asString?).or ((Entries.get? node "$refs").bind Json.asString?)).map refName

/-- Are other properties than the declared ones allowed? Any value but `false` says so. -/
def allowsOthers (node : List (String × Json)) : Bool :=
  match Entries.get? node "additionalProperties" with
  | none => false
  | some (.bool false) => false
  | some _ => true

/-- Is this the schema of array items that have values of their own: an enumeration, or a reference to one? -/
def namesItems (node : List (String × Json)) : Bool :=
  (Entries.get? node "enum").isSome || (Entries.get? node "$ref").isSome || (Entries.get? node "$refs").isSome

/-- The parts of a node that are schemas themselves, read. A part is missing if the node has none of its kind. -/
structure Parts where
  /-- The definitions, if `defs` is an object. -/
  definitions : Option (List (String × Schema)) := none
  /-- The schemas of the places, if `items` is a list. -/
  places : Option (List Schema) := none
  /-- The schema of the items, if `items` is an object that names values. -/
  item : Option Schema := none
  /-- The properties, if `properties` is an object. -/
  properties : Option (List (String × Schema)) := none
  anyOf : Option (List Schema) := none
  oneOf : Option (List Schema) := none

/-- What a node means without its dictionary. The first keyword that applies decides: a reference, open properties, an
array, an enumeration, a truth value, an object, a union. -/
def ofParts (node : List (String × Json)) (parts : Parts) : Schema :=
  let type := (Entries.get? node "type").bind Json.asString?
  match refOf? node with
  | some name => .ref name
  | none =>
    if allowsOthers node then .unconstrained
    else
      let isArray := type = some "array"
      match (if isArray then parts.places else none), (if isArray then parts.item else none) with
      | some places, _ => .positional places
      | none, some item => .uniform item
      | none, none =>
        match (Entries.get? node "enum").bind Json.asArray? with
        | some literals => .enumeration literals
        | none =>
          if type = some "boolean" then .boolean
          else if type = some "object" then .object (parts.properties.getD [])
          else
            match parts.anyOf, parts.oneOf with
            | some branches, _ => .anyOf branches
            | none, some branches => .oneOf branches
            | none, none => .unconstrained

/-- What a node means: its body, under its dictionary if it has one. -/
def ofNode (node : List (String × Json)) (parts : Parts) : Schema :=
  match parts.definitions with
  | some definitions => .defs definitions (ofParts node parts)
  | none => ofParts node parts

mutual

/-- Reads a schema. A list of schemas is a sequence of options; an empty one asks for nothing. -/
def ofJson : Json → Schema
  | .array [] => .unconstrained
  | .array (v :: vs) => .sequence (ofJson v :: ofJsonList vs)
  | .object node => ofNode node (partsOf node)
  | _ => .unconstrained

/-- Reads schemas, one after the other. -/
def ofJsonList : List Json → List Schema
  | [] => []
  | v :: vs => ofJson v :: ofJsonList vs

/-- Reads named schemas, in order. -/
def ofJsonEntries : List (String × Json) → List (String × Schema)
  | [] => []
  | (name, v) :: es => (name, ofJson v) :: ofJsonEntries es

/-- Reads the parts of a node. An object has each name once; were a name repeated, its first entry would count. -/
def partsOf : List (String × Json) → Parts
  | [] => {}
  | (key, v) :: es =>
    let parts := partsOf es
    match key, v with
    | "defs", .object definitions => { parts with definitions := some (ofJsonEntries definitions) }
    | "defs", _ => { parts with definitions := none }
    | "items", .array items => { parts with places := some (ofJsonList items), item := none }
    | "items", .object node =>
      { parts with places := none, item := if namesItems node then some (ofNode node (partsOf node)) else none }
    | "items", _ => { parts with places := none, item := none }
    | "properties", .object properties => { parts with properties := some (ofJsonEntries properties) }
    | "properties", _ => { parts with properties := none }
    | "anyOf", .array branches => { parts with anyOf := some (ofJsonList branches) }
    | "anyOf", _ => { parts with anyOf := none }
    | "oneOf", .array branches => { parts with oneOf := some (ofJsonList branches) }
    | "oneOf", _ => { parts with oneOf := none }
    | _, _ => parts

end

end Schema

end LintInference
