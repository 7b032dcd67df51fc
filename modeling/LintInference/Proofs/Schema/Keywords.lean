import LintInference.Schema.Basic

/-!
# The keywords of a node

A node is read by looking its keywords up: `partsOf_eq` gives each part of a node by the value under one keyword. So
what a node means does not depend on how its entries are arranged, as long as looking up gives the same.
-/

namespace LintInference.Schema

theorem ofJsonList_eq_map (vs : List Json) : ofJsonList vs = vs.map ofJson := by
  induction vs with
  | nil => rfl
  | cons v vs ih => rw [ofJsonList, ih, List.map_cons]

theorem ofJsonEntries_eq_mapValues (es : List (String × Json)) : ofJsonEntries es = Entries.mapValues ofJson es := by
  induction es with
  | nil => rfl
  | cons e es ih => rw [ofJsonEntries, ih, Entries.mapValues, Entries.mapValues, List.map_cons]

/-- The schema of the items, if it names values. -/
def itemOf? (node : List (String × Json)) : Option Schema :=
  if namesItems node then some (ofJson (.object node)) else none

/-- Each part comes from one keyword, and from the form of its value. -/
theorem partsOf_eq (node : List (String × Json)) :
    partsOf node =
      { definitions := ((Entries.get? node "defs").bind Json.asObject?).map ofJsonEntries
        places := ((Entries.get? node "items").bind Json.asArray?).map ofJsonList
        item := ((Entries.get? node "items").bind Json.asObject?).bind itemOf?
        properties := ((Entries.get? node "properties").bind Json.asObject?).map ofJsonEntries
        anyOf := ((Entries.get? node "anyOf").bind Json.asArray?).map ofJsonList
        oneOf := ((Entries.get? node "oneOf").bind Json.asArray?).map ofJsonList } := by
  induction node with
  | nil => rfl
  | cons e node ih =>
    obtain ⟨key, v⟩ := e
    rw [partsOf.eq_def]
    dsimp only
    split <;> simp_all [Entries.get?, Json.asObject?, Json.asArray?, itemOf?, ofJson]

end LintInference.Schema
