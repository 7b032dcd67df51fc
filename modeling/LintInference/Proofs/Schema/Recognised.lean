import LintInference.Proofs.Entries
import LintInference.Proofs.Schema.Keywords

/-!
# Entries that no keyword names

A node is read by its keywords, so an entry under any other key has no effect. `Schema.recognised` takes all such entries
out of a value, at every place where a schema is read. The same form of object is a node in one place and a dictionary or
a literal in another: the names of definitions and properties are no keywords, and all of them stay, as do the literals
of an enumeration and all that stands where no schema is read.

What is left is read as the whole (`ofJson_recognised`), so values that differ only in entries that no keyword names are
read as the same schema (`ofJson_eq_of_recognised_eq`).
-/

namespace LintInference.Schema

/-! ## Taking entries out -/

/-- The keys that count in a node. -/
def keywords : List String :=
  ["defs", "$ref", "$refs", "additionalProperties", "type", "items", "enum", "properties", "anyOf", "oneOf"]

mutual

/-- The value at the place of a schema, less the entries that no keyword names. -/
def recognised : Json → Json
  | .array items => .array (recognisedList items)
  | .object node => .object (recognisedNode node)
  | v => v

/-- The values, all of them at places of schemas. -/
def recognisedList : List Json → List Json
  | [] => []
  | v :: vs => recognised v :: recognisedList vs

/-- Named values at places of schemas. No name is taken out. -/
def recognisedEntries : List (String × Json) → List (String × Json)
  | [] => []
  | (name, v) :: es => (name, recognised v) :: recognisedEntries es

/-- The entries of a node under keywords. -/
def recognisedNode : List (String × Json) → List (String × Json)
  | [] => []
  | (key, v) :: es =>
    if key ∈ keywords then (key, recognisedUnder key v) :: recognisedNode es else recognisedNode es

/-- The value of a keyword, with the schemas that the keyword takes from it. -/
def recognisedUnder (key : String) : Json → Json
  | .array items =>
    if key = "items" ∨ key = "anyOf" ∨ key = "oneOf" then .array (recognisedList items) else .array items
  | .object entries =>
    if key = "defs" ∨ key = "properties" then .object (recognisedEntries entries)
    else if key = "items" then .object (recognisedNode entries)
    else .object entries
  | v => v

end

/-! ## Looking keywords up -/

theorem get?_recognisedNode {key : String} (h : key ∈ keywords) (node : List (String × Json)) :
    Entries.get? (recognisedNode node) key = (Entries.get? node key).map (recognisedUnder key) := by
  induction node with
  | nil => rfl
  | cons e node ih =>
    obtain ⟨key', v⟩ := e
    by_cases hk : key' = key
    · subst hk
      rw [recognisedNode, if_pos h, Entries.get?, if_pos rfl, Entries.get?, if_pos rfl]
      rfl
    · rw [recognisedNode, Entries.get?, if_neg hk, ← ih]
      split
      · rw [Entries.get?, if_neg hk]
      · rfl

/-- Keywords that take no schema from their value. -/
theorem recognisedUnder_eq_self {key : String} (h : key ∈ ["$ref", "$refs", "additionalProperties", "type", "enum"])
    (v : Json) : recognisedUnder key v = v := by
  cases v with
  | array _ | object _ =>
    rw [recognisedUnder]
    simp only [List.mem_cons, List.not_mem_nil, or_false] at h
    rcases h with rfl | rfl | rfl | rfl | rfl <;> simp
  | null | bool _ | number _ | string _ => rfl

theorem get?_recognisedNode_eq {key : String} (h : key ∈ ["$ref", "$refs", "additionalProperties", "type", "enum"])
    (node : List (String × Json)) : Entries.get? (recognisedNode node) key = Entries.get? node key := by
  have hk : key ∈ keywords := by
    simp only [keywords, List.mem_cons, List.not_mem_nil, or_false] at h ⊢
    grind
  have hself : recognisedUnder key = id := funext (recognisedUnder_eq_self h)
  rw [get?_recognisedNode hk, hself, Option.map_id, id]

section Node

variable (node : List (String × Json))

theorem namesItems_recognisedNode : namesItems (recognisedNode node) = namesItems node := by
  simp [namesItems, get?_recognisedNode_eq]

theorem refOf?_recognisedNode : refOf? (recognisedNode node) = refOf? node := by
  simp [refOf?, get?_recognisedNode_eq]

theorem allowsOthers_recognisedNode : allowsOthers (recognisedNode node) = allowsOthers node := by
  simp [allowsOthers, get?_recognisedNode_eq]

/-- Of the keywords that take no schema from their value, none is lost. -/
theorem ofNode_recognisedNode (parts : Parts) : ofNode (recognisedNode node) parts = ofNode node parts := by
  have hparts : ofParts (recognisedNode node) parts = ofParts node parts := by
    rw [ofParts, ofParts, refOf?_recognisedNode, allowsOthers_recognisedNode, get?_recognisedNode_eq (by simp),
      get?_recognisedNode_eq (by simp)]
  rw [ofNode, ofNode, hparts]

end Node

/-! ## Reading what is left -/

section Parts

variable {key : String} {es : List (String × Json)}

theorem partsOf_cons_of_notMem (h : key ∉ keywords) (v : Json) : partsOf ((key, v) :: es) = partsOf es := by
  rw [partsOf.eq_def]
  dsimp only
  split <;> first | rfl | exact absurd (by simp [keywords]) h

/-- A value that holds no schema stays as it is. -/
theorem partsOf_recognisedNode_atom {v : Json} (hes : partsOf (recognisedNode es) = partsOf es)
    (hv : ∀ key, recognisedUnder key v = v) : partsOf (recognisedNode ((key, v) :: es)) = partsOf ((key, v) :: es) := by
  rw [recognisedNode, hv]
  split
  next =>
    rw [partsOf.eq_def, partsOf.eq_def ((key, v) :: es)]
    dsimp only
    rw [hes]
  next hk => rw [partsOf_cons_of_notMem hk, hes]

theorem partsOf_recognisedNode_array {items : List Json} (hes : partsOf (recognisedNode es) = partsOf es)
    (hitems : ofJsonList (recognisedList items) = ofJsonList items) :
    partsOf (recognisedNode ((key, .array items) :: es)) = partsOf ((key, .array items) :: es) := by
  rw [recognisedNode]
  split
  next hk =>
    simp only [keywords, List.mem_cons, List.not_mem_nil, or_false] at hk
    rcases hk with rfl | rfl | rfl | rfl | rfl | rfl | rfl | rfl | rfl | rfl <;>
      simp [recognisedUnder, partsOf, hes, hitems]
  next hk => rw [partsOf_cons_of_notMem hk, hes]

theorem partsOf_recognisedNode_object {entries : List (String × Json)}
    (hes : partsOf (recognisedNode es) = partsOf es)
    (hentries : ofJsonEntries (recognisedEntries entries) = ofJsonEntries entries)
    (hnode : partsOf (recognisedNode entries) = partsOf entries) :
    partsOf (recognisedNode ((key, .object entries) :: es)) = partsOf ((key, .object entries) :: es) := by
  rw [recognisedNode]
  split
  next hk =>
    simp only [keywords, List.mem_cons, List.not_mem_nil, or_false] at hk
    rcases hk with rfl | rfl | rfl | rfl | rfl | rfl | rfl | rfl | rfl | rfl <;>
      simp [recognisedUnder, partsOf, hes, hentries, hnode, namesItems_recognisedNode, ofNode_recognisedNode]
  next hk => rw [partsOf_cons_of_notMem hk, hes]

end Parts

mutual

theorem ofJson_recognised (v : Json) : ofJson (recognised v) = ofJson v :=
  match v with
  | .null | .bool _ | .number _ | .string _ => rfl
  | .array [] => rfl
  | .array (v :: vs) => by
    rw [recognised, recognisedList, ofJson, ofJson, ofJson_recognised v, ofJsonList_recognisedList vs]
  | .object node => by
    rw [recognised, ofJson, ofJson, ofNode_recognisedNode, partsOf_recognisedNode node]

theorem ofJsonList_recognisedList (vs : List Json) : ofJsonList (recognisedList vs) = ofJsonList vs :=
  match vs with
  | [] => rfl
  | v :: vs => by
    rw [recognisedList, ofJsonList, ofJsonList, ofJson_recognised v, ofJsonList_recognisedList vs]

theorem ofJsonEntries_recognisedEntries (es : List (String × Json)) :
    ofJsonEntries (recognisedEntries es) = ofJsonEntries es :=
  match es with
  | [] => rfl
  | (name, v) :: es => by
    rw [recognisedEntries, ofJsonEntries, ofJsonEntries, ofJson_recognised v, ofJsonEntries_recognisedEntries es]

theorem partsOf_recognisedNode (node : List (String × Json)) : partsOf (recognisedNode node) = partsOf node :=
  match node with
  | [] => rfl
  | (_, .array items) :: es =>
    partsOf_recognisedNode_array (partsOf_recognisedNode es) (ofJsonList_recognisedList items)
  | (_, .object entries) :: es =>
    partsOf_recognisedNode_object (partsOf_recognisedNode es) (ofJsonEntries_recognisedEntries entries)
      (partsOf_recognisedNode entries)
  | (_, .null) :: es | (_, .bool _) :: es | (_, .number _) :: es | (_, .string _) :: es =>
    partsOf_recognisedNode_atom (partsOf_recognisedNode es) fun _ => rfl

end

/-- Values that are the same but for entries that no keyword names are read as the same schema, with its properties and
definitions in the same order. -/
theorem ofJson_eq_of_recognised_eq {v w : Json} (h : recognised v = recognised w) : ofJson v = ofJson w :=
  calc
    ofJson v = ofJson (recognised v) := (ofJson_recognised v).symm
    _ = ofJson (recognised w) := congrArg ofJson h
    _ = ofJson w := ofJson_recognised w

/-- Entries come, go and change in four nodes: the whole, a definition, a property and the items of another. One property
is called like a keyword and the other is not, and both stay, as do the entries of the literals. -/
theorem ofJson_eq_of_recognised_eq_nested :
    let literals : Json := .array [.object [("title", .string "a"), ("type", .null)], .string "b"]
    let v : Json := .object [("title", .string "first"), ("type", .string "object"),
      ("defs", .object [("mode", .object [("enum", literals), ("default", .string "b")])]),
      ("properties", .object [("title", .object [("$ref", .string "#/defs/mode")]),
        ("type", .object [("type", .string "array"),
          ("items", .object [("minimum", .number (.int 1)), ("enum", literals), ("type", .string "string")])])])]
    let w : Json := .object [("type", .string "object"),
      ("defs", .object [("mode", .object [("description", .null), ("enum", literals)])]), ("required", .array [literals]),
      ("properties", .object [("title", .object [("$ref", .string "#/defs/mode"), ("$comment", v)]),
        ("type", .object [("type", .string "array"),
          ("items", .object [("minimum", .number (.int 2)), ("enum", literals), ("type", .string "string")])])])]
    recognised v = recognised w ∧ ofJson v = ofJson w := by
  intro literals v w
  have h : recognised v = recognised w := by rfl
  exact ⟨h, ofJson_eq_of_recognised_eq h⟩

end LintInference.Schema
