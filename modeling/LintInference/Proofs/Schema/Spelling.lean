import LintInference.Proofs.Json.Equality
import LintInference.Proofs.Schema.Keywords
import LintInference.Proofs.Schema.Nodes

/-!
# The schemas that can be written

Reading a schema never fails, and it does not reach every schema: what it gives has no sequence without elements, no
array whose items are a sequence, and no dictionary right over a dictionary or a sequence (`Schema.Regular`). Every
other schema is reached: `Schema.spell` writes one down that is read as it stands (`ofJson_spell`). So these three
conditions, at every place of a schema, say exactly what can be written (`exists_ofJson_eq_iff`).
-/

namespace LintInference

/-! ## Below a value -/

namespace Json

/-- The values right below a value. -/
def children : Json → List Json
  | .array items => items
  | .object entries => entries.map (·.2)
  | _ => []

/-- Induction with a hypothesis for the values right below. -/
@[elab_as_elim]
theorem childInduction {P : Json → Prop} (step : ∀ v, (∀ w ∈ v.children, P w) → P v) (v : Json) : P v := by
  refine @Json.rec P (fun items => ∀ w ∈ items, P w) (fun entries => ∀ w ∈ entries.map (·.2), P w) (fun e => P e.2)
    (step _ nofun) (fun _ => step _ nofun) (fun _ => step _ nofun) (fun _ => step _ nofun) (fun items h => step _ h)
    (fun entries h => step _ h) nofun (fun _ _ hw hws => List.forall_mem_cons.2 ⟨hw, hws⟩) nofun
    (fun _ _ he hes => List.forall_mem_cons.2 ⟨he, hes⟩) (fun _ _ h => h) v

/-- The second value stands one level or two levels below the first. A keyword takes its schemas from there. -/
def Holds (v w : Json) : Prop := w ∈ v.children ∨ ∃ x ∈ v.children, w ∈ x.children

theorem Distinct.of_mem_children {v w : Json} (h : v.Distinct) (hw : w ∈ v.children) : w.Distinct := by
  cases h with
  | null | bool _ | number _ | string _ => cases hw
  | array h => exact h w hw
  | object _ h =>
    obtain ⟨e, he, rfl⟩ := List.mem_map.1 hw
    exact h e he

theorem bind_asArray?_eq_some_iff {o : Option Json} {items : List Json} :
    o.bind asArray? = some items ↔ o = some (.array items) := by
  cases o with
  | none => simp
  | some v => cases v <;> simp [asArray?]

theorem bind_asObject?_eq_some_iff {o : Option Json} {entries : List (String × Json)} :
    o.bind asObject? = some entries ↔ o = some (.object entries) := by
  cases o with
  | none => simp
  | some v => cases v <;> simp [asObject?]

theorem mem_children_of_get? {node : List (String × Json)} {key : String} {v : Json}
    (h : Entries.get? node key = some v) : v ∈ (Json.object node).children :=
  List.mem_map.2 ⟨_, Entries.mem_of_get? h, rfl⟩

end Json

namespace Schema

/-! ## Conditions at every place -/

/-- The condition holds of the schema and of all that stand inside it. -/
def Everywhere (Q : Schema → Prop) (s : Schema) : Prop := ∀ u, s.Contains u → Q u

theorem everywhere_iff {Q : Schema → Prop} {s : Schema} :
    Everywhere Q s ↔ Q s ∧ ∀ u ∈ s.children, Everywhere Q u := by
  constructor
  · exact fun h => ⟨h s .refl, fun u hu v hv => h v (hv.of_mem_children hu)⟩
  · rintro ⟨hs, h⟩ v hv
    rcases contains_iff.1 hv with rfl | ⟨u, hu, hv⟩
    · exact hs
    · exact h u hu v hv

/-- Is this a list of options? -/
def isSequence : Schema → Bool
  | .sequence _ => true
  | _ => false

/-- Is this a dictionary over a body? -/
def isDictionary : Schema → Bool
  | .defs _ _ => true
  | _ => false

/-- What reading keeps to: a sequence has an element, the items of an array are no sequence, and the body of a
dictionary is neither a sequence nor a dictionary. -/
def Regular : Schema → Prop
  | .sequence elements => elements ≠ []
  | .uniform item => isSequence item = false
  | .defs _ body => isSequence body = false ∧ isDictionary body = false
  | _ => True

/-- Properties and definitions have each name once, and so have the objects among the literals. -/
def KeysOnce : Schema → Prop
  | .object properties => (Entries.keys properties).Nodup
  | .defs definitions _ => (Entries.keys definitions).Nodup
  | .enumeration literals => ∀ v ∈ literals, v.Distinct
  | _ => True

/-! ## What is read -/

/-- What a node without its dictionary can mean, given its parts. -/
inductive Means (node : List (String × Json)) (parts : Parts) : Schema → Prop where
  | ref (name : String) : Means node parts (.ref name)
  | unconstrained : Means node parts .unconstrained
  | positional {places : List Schema} : parts.places = some places → Means node parts (.positional places)
  | uniform {item : Schema} : parts.item = some item → Means node parts (.uniform item)
  | enumeration {literals : List Json} : (Entries.get? node "enum").bind Json.asArray? = some literals →
      Means node parts (.enumeration literals)
  | boolean : Means node parts .boolean
  | object : Means node parts (.object (parts.properties.getD []))
  | anyOf {branches : List Schema} : parts.anyOf = some branches → Means node parts (.anyOf branches)
  | oneOf {branches : List Schema} : parts.oneOf = some branches → Means node parts (.oneOf branches)

theorem ofParts_means (node : List (String × Json)) (parts : Parts) : Means node parts (ofParts node parts) := by
  have of_ite {α : Type} {p : Prop} [Decidable p] {x : Option α} {a : α} (h : (if p then x else none) = some a) :
      x = some a := by
    split at h
    · exact h
    · cases h
  rw [ofParts]
  split
  next name _ => exact .ref name
  next =>
    split
    next => exact .unconstrained
    next =>
      dsimp only
      split
      next h => exact .positional (of_ite h)
      next h => exact .uniform (of_ite h)
      next =>
        split
        next h => exact .enumeration h
        next =>
          split
          next => exact .boolean
          next =>
            split
            next => exact .object
            next =>
              split
              next h => exact .anyOf h
              next h => exact .oneOf h
              next => exact .unconstrained

theorem Means.no_sequence {node : List (String × Json)} {parts : Parts} {s : Schema} (h : Means node parts s) :
    isSequence s = false ∧ isDictionary s = false := by
  cases h <;> exact ⟨rfl, rfl⟩

/-- A node is read as its meaning, alone or under its dictionary. -/
theorem ofNode_cases (node : List (String × Json)) (parts : Parts) :
    (parts.definitions = none ∧ ofNode node parts = ofParts node parts) ∨
      ∃ definitions, parts.definitions = some definitions ∧
        ofNode node parts = .defs definitions (ofParts node parts) := by
  rw [ofNode]
  cases parts.definitions with
  | none => exact .inl ⟨rfl, rfl⟩
  | some definitions => exact .inr ⟨definitions, rfl, rfl⟩

theorem isSequence_ofNode (node : List (String × Json)) (parts : Parts) : isSequence (ofNode node parts) = false := by
  rcases ofNode_cases node parts with ⟨_, h⟩ | ⟨_, _, h⟩
  · rw [h]
    exact (ofParts_means node parts).no_sequence.1
  · rw [h]
    rfl

/-- All schemas among the parts of a node. -/
def Parts.all (parts : Parts) : List Schema :=
  (parts.definitions.getD []).map (·.2) ++ parts.places.getD [] ++ parts.item.toList ++
    (parts.properties.getD []).map (·.2) ++ parts.anyOf.getD [] ++ parts.oneOf.getD []

theorem Means.mem_all {node : List (String × Json)} {parts : Parts} {s u : Schema} (h : Means node parts s)
    (hu : u ∈ s.children) : u ∈ parts.all := by
  simp only [Parts.all, List.mem_append]
  cases h with
  | ref _ | unconstrained | enumeration _ | boolean => cases hu
  | positional h => exact .inl (.inl (.inl (.inl (.inr (h ▸ hu)))))
  | uniform h => exact .inl (.inl (.inl (.inr (h ▸ hu))))
  | object => exact .inl (.inl (.inr hu))
  | anyOf h => exact .inl (.inr (h ▸ hu))
  | oneOf h => exact .inr (h ▸ hu)

/-- The items of an array are read from a node, which is no sequence. -/
theorem exists_of_item {node : List (String × Json)} {item : Schema} (h : (partsOf node).item = some item) :
    ∃ fields, .object fields ∈ (Json.object node).children ∧ item = ofJson (.object fields) := by
  simp only [partsOf_eq] at h
  obtain ⟨fields, hfields, h⟩ := Option.bind_eq_some_iff.1 h
  rw [itemOf?] at h
  split at h
  · cases h
    exact ⟨fields, Json.mem_children_of_get? (Json.bind_asObject?_eq_some_iff.1 hfields), rfl⟩
  · cases h

/-- The parts of a node are read one or two levels below it. -/
theorem exists_of_mem_all {node : List (String × Json)} {u : Schema} (h : u ∈ (partsOf node).all) :
    ∃ w, (Json.object node).Holds w ∧ u = ofJson w := by
  have mem_getD {α : Type} {o : Option (List α)} {a : α} (ha : a ∈ o.getD []) : ∃ l, o = some l ∧ a ∈ l := by
    cases o with
    | none => cases ha
    | some l => exact ⟨l, rfl, ha⟩
  have list (key : String) (hu : u ∈ (((Entries.get? node key).bind Json.asArray?).map ofJsonList).getD []) :
      ∃ w, (Json.object node).Holds w ∧ u = ofJson w := by
    obtain ⟨_, hl, hu⟩ := mem_getD hu
    obtain ⟨items, hitems, rfl⟩ := Option.map_eq_some_iff.1 hl
    rw [ofJsonList_eq_map] at hu
    obtain ⟨w, hw, rfl⟩ := List.mem_map.1 hu
    exact ⟨w, .inr ⟨_, Json.mem_children_of_get? (Json.bind_asArray?_eq_some_iff.1 hitems), hw⟩, rfl⟩
  have entries (key : String)
      (hu : u ∈ ((((Entries.get? node key).bind Json.asObject?).map ofJsonEntries).getD []).map (·.2)) :
      ∃ w, (Json.object node).Holds w ∧ u = ofJson w := by
    obtain ⟨e, he, rfl⟩ := List.mem_map.1 hu
    obtain ⟨_, hl, he⟩ := mem_getD he
    obtain ⟨es, hes, rfl⟩ := Option.map_eq_some_iff.1 hl
    rw [ofJsonEntries_eq_mapValues] at he
    obtain ⟨f, hf, rfl⟩ := List.mem_map.1 he
    exact ⟨f.2, .inr ⟨_, Json.mem_children_of_get? (Json.bind_asObject?_eq_some_iff.1 hes), List.mem_map_of_mem hf⟩, rfl⟩
  have item (hu : u ∈ (partsOf node).item.toList) : ∃ w, (Json.object node).Holds w ∧ u = ofJson w := by
    obtain ⟨fields, hmem, rfl⟩ := exists_of_item (Option.mem_toList.1 hu)
    exact ⟨_, .inl hmem, rfl⟩
  simp only [Parts.all, List.mem_append] at h
  rcases h with ((((h | h) | h) | h) | h) | h
  · exact entries "defs" (by simpa only [partsOf_eq] using h)
  · exact list "items" (by simpa only [partsOf_eq] using h)
  · exact item h
  · exact entries "properties" (by simpa only [partsOf_eq] using h)
  · exact list "anyOf" (by simpa only [partsOf_eq] using h)
  · exact list "oneOf" (by simpa only [partsOf_eq] using h)

/-- A condition holds everywhere in what is read if it holds of each node that is read. The values may be restricted by
what passes on to the values right below. -/
theorem everywhere_ofJson {D : Json → Prop} {Q : Schema → Prop} (below : ∀ v w, D v → w ∈ v.children → D w)
    (unconstrained : Q .unconstrained) (sequence : ∀ s ss, Q (.sequence (s :: ss)))
    (node : ∀ node, D (.object node) → Q (ofParts node (partsOf node)))
    (dictionary : ∀ node definitions, D (.object node) → (partsOf node).definitions = some definitions →
      Q (.defs definitions (ofParts node (partsOf node)))) {v : Json} (hv : D v) : Everywhere Q (ofJson v) := by
  -- the hypothesis for the values right below is about those below them as well
  have both : (D v → Everywhere Q (ofJson v)) ∧ ∀ w ∈ v.children, D w → Everywhere Q (ofJson w) := by
    clear hv
    induction v using Json.childInduction with
    | step v ih =>
      refine ⟨fun hv => ?_, fun w hw => (ih w hw).1⟩
      have held (w : Json) (hw : v.Holds w) : Everywhere Q (ofJson w) := by
        rcases hw with hw | ⟨x, hx, hw⟩
        · exact (ih w hw).1 (below v w hv hw)
        · exact (ih x hx).2 w hw (below x w (below v x hv hx) hw)
      have leaf : Everywhere Q .unconstrained := everywhere_iff.2 ⟨unconstrained, nofun⟩
      cases v with
      | null | bool _ | number _ | string _ => exact leaf
      | array items =>
        cases items with
        | nil => exact leaf
        | cons w ws =>
          rw [ofJson, ofJsonList_eq_map, everywhere_iff]
          refine ⟨sequence _ _, fun u hu => ?_⟩
          obtain ⟨x, hx, rfl⟩ := List.mem_map.1 (show u ∈ (w :: ws).map ofJson from hu)
          exact held x (.inl hx)
      | object entries =>
        have all (u : Schema) (hu : u ∈ (partsOf entries).all) : Everywhere Q u := by
          obtain ⟨w, hw, rfl⟩ := exists_of_mem_all hu
          exact held w hw
        have body : Everywhere Q (ofParts entries (partsOf entries)) :=
          everywhere_iff.2 ⟨node entries hv, fun u hu => all u ((ofParts_means entries _).mem_all hu)⟩
        rw [ofJson]
        rcases ofNode_cases entries (partsOf entries) with ⟨_, h⟩ | ⟨definitions, hd, h⟩
        · rw [h]
          exact body
        · rw [h, everywhere_iff]
          refine ⟨dictionary entries definitions hv hd, fun u hu => ?_⟩
          rcases List.mem_cons.1 hu with rfl | hu
          · exact body
          · refine all u ?_
            simp only [Parts.all, List.mem_append, hd, Option.getD_some]
            exact .inl (.inl (.inl (.inl (.inl hu))))
  exact both.1 hv

theorem Means.regular {node : List (String × Json)} {s : Schema} (h : Means node (partsOf node) s) : Regular s := by
  cases h with
  | uniform h =>
    obtain ⟨fields, _, rfl⟩ := exists_of_item h
    rw [ofJson]
    exact isSequence_ofNode fields _
  | ref _ | unconstrained | positional _ | enumeration _ | boolean | object | anyOf _ | oneOf _ => exact trivial

/-- Whatever is read is regular. -/
theorem everywhere_regular_ofJson (v : Json) : Everywhere Regular (ofJson v) :=
  everywhere_ofJson (D := fun _ => True) (fun _ _ _ _ => trivial) trivial (fun _ _ => List.cons_ne_nil _ _)
    (fun node _ => (ofParts_means node _).regular) (fun node _ _ _ => (ofParts_means node _).no_sequence) trivial

theorem keys_ofJsonEntries (es : List (String × Json)) : Entries.keys (ofJsonEntries es) = Entries.keys es := by
  rw [ofJsonEntries_eq_mapValues, Entries.keys, Entries.mapValues, List.map_map]
  rfl

theorem Means.keysOnce {node : List (String × Json)} (hn : (Json.object node).Distinct) {s : Schema}
    (h : Means node (partsOf node) s) : KeysOnce s := by
  cases h with
  | enumeration h =>
    have hmem := Json.mem_children_of_get? (Json.bind_asArray?_eq_some_iff.1 h)
    exact fun v hv => (hn.of_mem_children hmem).of_mem_children hv
  | object =>
    show (Entries.keys ((partsOf node).properties.getD [])).Nodup
    simp only [partsOf_eq]
    cases h : (Entries.get? node "properties").bind Json.asObject? with
    | none => exact .nil
    | some es =>
      have hmem := Json.mem_children_of_get? (Json.bind_asObject?_eq_some_iff.1 h)
      rw [Option.map_some, Option.getD_some, keys_ofJsonEntries]
      exact (Json.distinct_object_iff.1 (hn.of_mem_children hmem)).1
  | ref _ | unconstrained | positional _ | uniform _ | boolean | anyOf _ | oneOf _ => exact trivial

/-- What is read from values with each name once has each name once. -/
theorem everywhere_keysOnce_ofJson {v : Json} (hv : v.Distinct) : Everywhere KeysOnce (ofJson v) := by
  refine everywhere_ofJson (fun _ _ h => h.of_mem_children) trivial (fun _ _ => trivial)
    (fun node hn => (ofParts_means node _).keysOnce hn) (fun node definitions hn hd => ?_) hv
  simp only [partsOf_eq] at hd
  obtain ⟨es, hes, rfl⟩ := Option.map_eq_some_iff.1 hd
  have hmem := Json.mem_children_of_get? (Json.bind_asObject?_eq_some_iff.1 hes)
  show (Entries.keys (ofJsonEntries es)).Nodup
  rw [keys_ofJsonEntries]
  exact (Json.distinct_object_iff.1 (hn.of_mem_children hmem)).1

/-! ## What can be written -/

/-- A node with some keywords. Its reference is no text and counts for nothing, but with it the node can stand for the
items of an array. -/
def nodeWith (keywords : List (String × Json)) : Json := .object (("$ref", .null) :: keywords)

mutual

/-- Writes a schema down. The keywords of a dictionary's body stand beside its definitions. -/
def spell : Schema → Json
  | .enumeration literals => nodeWith [("enum", .array literals)]
  | .boolean => nodeWith [("type", .string "boolean")]
  | .object properties => nodeWith [("type", .string "object"), ("properties", .object (spellEntries properties))]
  | .positional items => nodeWith [("type", .string "array"), ("items", .array (spellList items))]
  | .uniform item => nodeWith [("type", .string "array"), ("items", spell item)]
  | .anyOf branches => nodeWith [("anyOf", .array (spellList branches))]
  | .oneOf branches => nodeWith [("oneOf", .array (spellList branches))]
  | .sequence elements => .array (spellList elements)
  | .ref name => .object [("$ref", .string (refPrefix ++ name))]
  | .defs definitions body => .object (("defs", .object (spellEntries definitions)) :: (spell body).asObject?.getD [])
  | .unconstrained => nodeWith []

/-- Writes schemas down, one after the other. -/
def spellList : List Schema → List Json
  | [] => []
  | s :: ss => spell s :: spellList ss

/-- Writes named schemas down, in order. -/
def spellEntries : List (String × Schema) → List (String × Json)
  | [] => []
  | (name, s) :: es => (name, spell s) :: spellEntries es

end

theorem refName_refPrefix_append (name : String) : refName (refPrefix ++ name) = name := by
  have hp : refPrefix.toList.isPrefixOf (refPrefix ++ name).toList = true := by
    rw [String.toList_append, List.isPrefixOf_iff_prefix]
    exact List.prefix_append _ _
  rw [refName, if_pos hp, String.toList_append, List.drop_left, String.ofList_toList]

theorem spellList_eq_map (ss : List Schema) : spellList ss = ss.map spell := by
  induction ss with
  | nil => rfl
  | cons s ss ih => rw [spellList, ih, List.map_cons]

theorem spellEntries_eq_mapValues (es : List (String × Schema)) : spellEntries es = Entries.mapValues spell es := by
  induction es with
  | nil => rfl
  | cons e es ih => rw [spellEntries, ih, Entries.mapValues, Entries.mapValues, List.map_cons]

theorem keys_spellEntries (es : List (String × Schema)) : Entries.keys (spellEntries es) = Entries.keys es := by
  rw [spellEntries_eq_mapValues, Entries.keys, Entries.mapValues, List.map_map]
  rfl

/-- All that is no sequence is written as a node that can stand for the items of an array, with definitions only for a
dictionary. -/
theorem exists_spell_eq {s : Schema} (hs : isSequence s = false) (hr : Regular s) :
    ∃ fields, spell s = .object fields ∧ namesItems fields = true ∧
      (isDictionary s = false → "defs" ∉ Entries.keys fields) := by
  have node {s : Schema} (hs : isSequence s = false) (hd : isDictionary s = false) :
      ∃ fields, spell s = .object fields ∧ namesItems fields = true ∧ "defs" ∉ Entries.keys fields := by
    cases s with
    | sequence _ => cases hs
    | defs _ _ => cases hd
    | enumeration _ | boolean | object _ | positional _ | uniform _ | anyOf _ | oneOf _ | ref _ | unconstrained =>
      rw [spell]
      exact ⟨_, rfl, by simp [namesItems, Entries.get?], by simp [Entries.keys]⟩
  cases hd : isDictionary s with
  | false =>
    obtain ⟨fields, hfields, hnames, hdefs⟩ := node hs hd
    exact ⟨fields, hfields, hnames, fun _ => hdefs⟩
  | true =>
    cases s with
    | defs definitions body =>
      obtain ⟨fields, hfields, hnames, _⟩ := node hr.1 hr.2
      refine ⟨("defs", .object (spellEntries definitions)) :: fields, ?_, ?_, fun h => Bool.noConfusion h⟩
      · rw [spell, hfields]
        rfl
      · simpa [namesItems, Entries.get?] using hnames
    | enumeration _ | boolean | object _ | positional _ | uniform _ | anyOf _ | oneOf _ | sequence _ | ref _
    | unconstrained => cases hd

/-! ### Reading what was written -/

theorem ofJson_enum (literals : List Json) : ofJson (nodeWith [("enum", .array literals)]) = .enumeration literals := by
  simp [nodeWith, ofJson, ofNode, ofParts, partsOf_eq, refOf?, allowsOthers, Entries.get?, Json.asString?, Json.asArray?]

theorem ofJson_type_boolean : ofJson (nodeWith [("type", .string "boolean")]) = .boolean := by
  simp [nodeWith, ofJson, ofNode, ofParts, partsOf_eq, refOf?, allowsOthers, Entries.get?, Json.asString?]

theorem ofJson_properties (es : List (String × Json)) :
    ofJson (nodeWith [("type", .string "object"), ("properties", .object es)]) = .object (ofJsonEntries es) := by
  simp [nodeWith, ofJson, ofNode, ofParts, partsOf_eq, refOf?, allowsOthers, Entries.get?, Json.asString?, Json.asObject?]

theorem ofJson_items (vs : List Json) :
    ofJson (nodeWith [("type", .string "array"), ("items", .array vs)]) = .positional (ofJsonList vs) := by
  simp [nodeWith, ofJson, ofNode, ofParts, partsOf_eq, refOf?, allowsOthers, Entries.get?, Json.asString?, Json.asArray?]

theorem ofJson_item {fields : List (String × Json)} (h : namesItems fields = true) :
    ofJson (nodeWith [("type", .string "array"), ("items", .object fields)]) = .uniform (ofJson (.object fields)) := by
  rw [nodeWith, ofJson, ofNode]
  simp [ofParts, partsOf_eq, refOf?, allowsOthers, Entries.get?, Json.asString?, Json.asArray?, Json.asObject?,
    itemOf?, h]

theorem ofJson_anyOf (vs : List Json) : ofJson (nodeWith [("anyOf", .array vs)]) = .anyOf (ofJsonList vs) := by
  simp [nodeWith, ofJson, ofNode, ofParts, partsOf_eq, refOf?, allowsOthers, Entries.get?, Json.asString?, Json.asArray?]

theorem ofJson_oneOf (vs : List Json) : ofJson (nodeWith [("oneOf", .array vs)]) = .oneOf (ofJsonList vs) := by
  simp [nodeWith, ofJson, ofNode, ofParts, partsOf_eq, refOf?, allowsOthers, Entries.get?, Json.asString?, Json.asArray?]

theorem ofJson_reference (name : String) : ofJson (.object [("$ref", .string (refPrefix ++ name))]) = .ref name := by
  simp [ofJson, ofNode, ofParts, partsOf_eq, refOf?, Entries.get?, Json.asString?, refName_refPrefix_append]

theorem ofJson_no_keywords : ofJson (nodeWith []) = .unconstrained := by
  simp [nodeWith, ofJson, ofNode, ofParts, partsOf_eq, refOf?, allowsOthers, Entries.get?, Json.asString?]

/-- What a node means without its dictionary does not depend on the definitions. -/
theorem ofParts_defs_cons (v : Json) (fields : List (String × Json)) (parts : Parts)
    (definitions : Option (List (String × Schema))) :
    ofParts (("defs", v) :: fields) { parts with definitions } = ofParts fields parts := by
  have hget (key : String) (hk : "defs" ≠ key) : Entries.get? (("defs", v) :: fields) key = Entries.get? fields key := by
    rw [Entries.get?, if_neg hk]
  rw [ofParts, ofParts, refOf?, refOf?, allowsOthers, allowsOthers, hget "$ref" (by decide), hget "$refs" (by decide),
    hget "additionalProperties" (by decide), hget "type" (by decide), hget "enum" (by decide)]

theorem ofJson_defs_cons (definitions : List (String × Json)) {fields : List (String × Json)}
    (h : "defs" ∉ Entries.keys fields) : ofJson (.object (("defs", .object definitions) :: fields)) =
      .defs (ofJsonEntries definitions) (ofJson (.object fields)) := by
  have hnone : Entries.get? fields "defs" = none := Entries.get?_eq_none h
  have hbody : ofJson (.object fields) = ofParts fields (partsOf fields) := by
    rw [ofJson, ofNode]
    simp only [partsOf_eq, hnone, Option.bind_none, Option.map_none]
  rw [hbody, ofJson, partsOf, ofNode]
  exact congrArg (Schema.defs _) (ofParts_defs_cons _ fields (partsOf fields) _)

theorem ofJsonList_spellList {ss : List Schema} (h : ∀ s ∈ ss, ofJson (spell s) = s) :
    ofJsonList (spellList ss) = ss := by
  rw [ofJsonList_eq_map, spellList_eq_map, List.map_map]
  exact (List.map_congr_left h).trans (List.map_id ss)

theorem ofJsonEntries_spellEntries {es : List (String × Schema)} (h : ∀ e ∈ es, ofJson (spell e.2) = e.2) :
    ofJsonEntries (spellEntries es) = es := by
  rw [ofJsonEntries_eq_mapValues, spellEntries_eq_mapValues, Entries.mapValues, Entries.mapValues, List.map_map]
  have hid : ∀ e ∈ es, (e.1, ofJson (spell e.2)) = id e := fun e he => Prod.ext rfl (h e he)
  exact (List.map_congr_left hid).trans (List.map_id es)

/-- A schema that is regular everywhere is read from what it is written as. -/
theorem ofJson_spell {t : Schema} (h : Everywhere Regular t) : ofJson (spell t) = t := by
  induction t using structuralInduction with
  | enumeration literals => rw [spell, ofJson_enum]
  | boolean => rw [spell, ofJson_type_boolean]
  | unconstrained => rw [spell, ofJson_no_keywords]
  | ref name => rw [spell, ofJson_reference]
  | object properties ih =>
    have hall := (everywhere_iff.1 h).2
    rw [spell, ofJson_properties, ofJsonEntries_spellEntries fun e he => ih e he (hall _ (List.mem_map_of_mem he))]
  | positional items ih =>
    rw [spell, ofJson_items, ofJsonList_spellList fun s hs => ih s hs ((everywhere_iff.1 h).2 s hs)]
  | anyOf branches ih =>
    rw [spell, ofJson_anyOf, ofJsonList_spellList fun s hs => ih s hs ((everywhere_iff.1 h).2 s hs)]
  | oneOf branches ih =>
    rw [spell, ofJson_oneOf, ofJsonList_spellList fun s hs => ih s hs ((everywhere_iff.1 h).2 s hs)]
  | sequence elements ih =>
    obtain ⟨hne, hall⟩ := everywhere_iff.1 h
    cases elements with
    | nil => exact absurd rfl hne
    | cons s ss =>
      rw [spell, spellList, ofJson, ih s List.mem_cons_self (hall s List.mem_cons_self),
        ofJsonList_spellList fun s hs => ih s (List.mem_cons_of_mem _ hs) (hall s (List.mem_cons_of_mem _ hs))]
  | uniform item ih =>
    obtain ⟨hregular, hall⟩ := everywhere_iff.1 h
    have hitem := hall item List.mem_cons_self
    obtain ⟨fields, hfields, hnames, _⟩ := exists_spell_eq hregular (everywhere_iff.1 hitem).1
    rw [spell, hfields, ofJson_item hnames, ← hfields, ih hitem]
  | defs definitions body ihs ih =>
    obtain ⟨⟨hs, hd⟩, hall⟩ := everywhere_iff.1 h
    have hbody := hall body List.mem_cons_self
    obtain ⟨fields, hfields, _, hdefs⟩ := exists_spell_eq hs (everywhere_iff.1 hbody).1
    have hread : ofJson (.object fields) = body := hfields ▸ ih hbody
    rw [spell, hfields]
    show ofJson (.object (_ :: fields)) = _
    rw [ofJson_defs_cons _ (hdefs hd), hread, ofJsonEntries_spellEntries fun e he =>
      ihs e he (hall _ (List.mem_cons_of_mem _ (List.mem_map_of_mem he)))]

theorem distinct_nodeWith {keywords : List (String × Json)} (hk : (Entries.keys (("$ref", Json.null) :: keywords)).Nodup)
    (h : ∀ e ∈ keywords, e.2.Distinct) : (nodeWith keywords).Distinct :=
  .object hk (List.forall_mem_cons.2 ⟨.null, h⟩)

/-- With each name once in the schema, each name stands once in what is written. -/
theorem distinct_spell {t : Schema} (hr : Everywhere Regular t) (hn : Everywhere KeysOnce t) : (spell t).Distinct := by
  have list {ss : List Schema} (h : ∀ s ∈ ss, (spell s).Distinct) : Json.Distinct (.array (spellList ss)) := by
    rw [spellList_eq_map]
    exact .array (List.forall_mem_map.2 h)
  have entries {es : List (String × Schema)} (hk : (Entries.keys es).Nodup) (h : ∀ e ∈ es, (spell e.2).Distinct) :
      Json.Distinct (.object (spellEntries es)) := by
    refine .object (by rwa [keys_spellEntries]) ?_
    rw [spellEntries_eq_mapValues]
    exact List.forall_mem_map.2 h
  -- a node has its one or two keywords once; what stands under them is left
  induction t using structuralInduction with
  | enumeration literals =>
    have hliterals : Json.Distinct (.array literals) := .array (everywhere_iff.1 hn).1
    rw [spell]
    exact distinct_nodeWith (by simp [Entries.keys]) (by simpa using hliterals)
  | boolean =>
    rw [spell]
    exact distinct_nodeWith (by simp [Entries.keys]) (by simpa using .string _)
  | object properties ih =>
    obtain ⟨hk, hall⟩ := everywhere_iff.1 hn
    have hentries := entries hk fun e he =>
      ih e he ((everywhere_iff.1 hr).2 _ (List.mem_map_of_mem he)) (hall _ (List.mem_map_of_mem he))
    rw [spell]
    exact distinct_nodeWith (by simp [Entries.keys]) (by simpa using ⟨.string _, hentries⟩)
  | positional items ih =>
    have hlist := list fun s hs => ih s hs ((everywhere_iff.1 hr).2 s hs) ((everywhere_iff.1 hn).2 s hs)
    rw [spell]
    exact distinct_nodeWith (by simp [Entries.keys]) (by simpa using ⟨.string _, hlist⟩)
  | uniform item ih =>
    have hitem := ih ((everywhere_iff.1 hr).2 item List.mem_cons_self) ((everywhere_iff.1 hn).2 item List.mem_cons_self)
    rw [spell]
    exact distinct_nodeWith (by simp [Entries.keys]) (by simpa using ⟨.string _, hitem⟩)
  | anyOf branches ih | oneOf branches ih =>
    have hlist := list fun s hs => ih s hs ((everywhere_iff.1 hr).2 s hs) ((everywhere_iff.1 hn).2 s hs)
    rw [spell]
    exact distinct_nodeWith (by simp [Entries.keys]) (by simpa using hlist)
  | sequence elements ih =>
    rw [spell]
    exact list fun s hs => ih s hs ((everywhere_iff.1 hr).2 s hs) ((everywhere_iff.1 hn).2 s hs)
  | ref name =>
    rw [spell]
    exact .object (List.nodup_singleton _) (List.forall_mem_singleton.2 (.string _))
  | defs definitions body ihs ih =>
    obtain ⟨⟨hs, hd⟩, hrall⟩ := everywhere_iff.1 hr
    obtain ⟨hk, hnall⟩ := everywhere_iff.1 hn
    have hdefinitions := entries hk fun e he =>
      ihs e he (hrall _ (List.mem_cons_of_mem _ (List.mem_map_of_mem he)))
        (hnall _ (List.mem_cons_of_mem _ (List.mem_map_of_mem he)))
    have hbody := ih (hrall body List.mem_cons_self) (hnall body List.mem_cons_self)
    obtain ⟨fields, hfields, _, hnone⟩ := exists_spell_eq hs (everywhere_iff.1 (hrall body List.mem_cons_self)).1
    rw [hfields, Json.distinct_object_iff] at hbody
    rw [spell, hfields]
    exact .object (List.nodup_cons.2 ⟨hnone hd, hbody.1⟩) (List.forall_mem_cons.2 ⟨hdefinitions, hbody.2⟩)
  | unconstrained =>
    rw [spell]
    exact distinct_nodeWith (List.nodup_singleton _) (List.forall_mem_nil _)

/-- What can be read from a value is what is regular everywhere. Read from values with each name once, it is what has
each name once besides. -/
theorem exists_ofJson_eq_iff (t : Schema) :
    ((∃ v, ofJson v = t) ↔ Everywhere Regular t) ∧
      ((∃ v : Json, v.Distinct ∧ ofJson v = t) ↔ Everywhere Regular t ∧ Everywhere KeysOnce t) := by
  refine ⟨⟨?_, fun h => ⟨spell t, ofJson_spell h⟩⟩, ?_, fun ⟨hr, hn⟩ => ⟨spell t, distinct_spell hr hn, ofJson_spell hr⟩⟩
  · rintro ⟨v, rfl⟩
    exact everywhere_regular_ofJson v
  · rintro ⟨v, hv, rfl⟩
    exact ⟨everywhere_regular_ofJson v, everywhere_keysOnce_ofJson hv⟩

end Schema

end LintInference
