import LintInference.Proofs.Schema.ResolvedForm
import Mathlib.Logic.Relation

/-!
# The schemas inside a schema

A schema is a reference, a dictionary over a body, or composed of parts (`Schema.parts`), of which a literal has none.
Resolution treats all composed schemas alike: it resolves the parts in order and puts the results in their places
(`resolveIn_composed`). So an induction over schemas has three cases (`kindInduction`).

`Schema.Contains` says that a schema stands somewhere inside another one, in its definitions or under its dictionaries
too. `Schema.at?` finds the schema at a place outside all dictionaries.
-/

namespace LintInference.Schema

/-! ## Three kinds of schemas -/

/-- The schemas that a schema is made of. Those of a dictionary are not among them. -/
def parts : Schema → List Schema
  | .object properties => properties.map (·.2)
  | .positional items => items
  | .uniform item => [item]
  | .anyOf branches => branches
  | .oneOf branches => branches
  | .sequence elements => elements
  | _ => []

/-- Is this neither a reference nor a dictionary? -/
def isComposed : Schema → Bool
  | .ref _ => false
  | .defs _ _ => false
  | _ => true

/-- The schema with other schemas in the places of its parts. -/
def withParts : Schema → List Schema → Schema
  | .object properties, ts => .object ((properties.map (·.1)).zip ts)
  | .positional _, ts => .positional ts
  | .uniform item, ts => .uniform (ts.headD item)
  | .anyOf _, ts => .anyOf ts
  | .oneOf _, ts => .oneOf ts
  | .sequence _, ts => .sequence ts
  | s, _ => s

theorem parts_withParts {s : Schema} {ts : List Schema} (hs : isComposed s = true) (h : ts.length = s.parts.length) :
    (s.withParts ts).parts = ts := by
  cases s with
  | ref _ | defs _ _ => cases hs
  | enumeration _ | boolean | unconstrained => exact (List.eq_nil_of_length_eq_zero h).symm
  | object properties =>
    have hl : ts.length ≤ (properties.map (·.1)).length := by simpa [parts] using Nat.le_of_eq h
    exact List.map_snd_zip hl
  | uniform item =>
    obtain ⟨t, rfl⟩ := List.length_eq_one_iff.1 h
    rfl
  | positional _ | anyOf _ | oneOf _ | sequence _ => rfl

theorem withParts_parts (s : Schema) : s.withParts s.parts = s := by
  cases s with
  | object properties => exact congrArg Schema.object (List.zip_of_prod rfl rfl).symm
  | enumeration _ | boolean | positional _ | uniform _ | anyOf _ | oneOf _ | sequence _ | ref _ | defs _ _
  | unconstrained => rfl

theorem isComposed_withParts (s : Schema) (ts : List Schema) : isComposed (s.withParts ts) = isComposed s := by
  cases s <;> rfl

/-- Induction over the three kinds of schemas. -/
@[elab_as_elim]
theorem kindInduction {P : Schema → Prop} (ref : ∀ name, P (.ref name))
    (defs : ∀ definitions body, (∀ e ∈ definitions, P e.2) → P body → P (.defs definitions body))
    (composed : ∀ s, isComposed s = true → (∀ u ∈ s.parts, P u) → P s) (s : Schema) : P s := by
  induction s using structuralInduction with
  | ref name => exact ref name
  | defs definitions body ihs ih => exact defs definitions body ihs ih
  | enumeration _ | boolean | unconstrained => exact composed _ rfl fun _ hu => absurd hu List.not_mem_nil
  | object properties ih => exact composed _ rfl (List.forall_mem_map.2 ih)
  | uniform item ih => exact composed _ rfl (List.forall_mem_singleton.2 ih)
  | positional _ ih | anyOf _ ih | oneOf _ ih | sequence _ ih => exact composed _ rfl ih

theorem resolveListIn_cons (scope : Scope) (s : Schema) (ss : List Schema) :
    resolveListIn scope (s :: ss) = (resolveIn scope s).bind fun t => (resolveListIn scope ss).map (t :: ·) := by
  rw [resolveListIn]
  cases resolveIn scope s with
  | error _ => rfl
  | ok t => cases resolveListIn scope ss <;> rfl

theorem resolveEntriesIn_eq (scope : Scope) (es : List (String × Schema)) :
    resolveEntriesIn scope es = (resolveListIn scope (es.map (·.2))).map ((es.map (·.1)).zip ·) := by
  induction es with
  | nil =>
    simp only [List.map_nil]
    rw [resolveEntriesIn, resolveListIn]
    rfl
  | cons e es ih =>
    obtain ⟨name, s⟩ := e
    simp only [List.map_cons]
    rw [resolveEntriesIn, resolveListIn_cons, ih]
    cases resolveIn scope s with
    | error _ => rfl
    | ok t => cases resolveListIn scope (es.map (·.2)) <;> rfl

/-- Resolving a composed schema is resolving its parts. -/
theorem resolveIn_composed {s : Schema} (hs : isComposed s = true) (scope : Scope) :
    resolveIn scope s = (resolveListIn scope s.parts).map s.withParts := by
  cases s with
  | ref _ | defs _ _ => cases hs
  | enumeration _ | boolean | unconstrained =>
    rw [resolveIn, parts, resolveListIn]
    rfl
    all_goals simp
  | object properties =>
    rw [resolveIn, resolveEntriesIn_eq, parts]
    cases resolveListIn scope (properties.map (·.2)) <;> rfl
  | uniform item =>
    rw [resolveIn, parts, resolveListIn, resolveListIn]
    cases resolveIn scope item <;> rfl
  | positional ss | anyOf ss | oneOf ss | sequence ss =>
    rw [resolveIn, parts]
    cases resolveListIn scope ss <;> rfl

theorem resolveIn_composed_ok_iff {s t : Schema} (hs : isComposed s = true) {scope : Scope} :
    resolveIn scope s = .ok t ↔
      ∃ ts, List.Forall₂ (fun u r => resolveIn scope u = .ok r) s.parts ts ∧ t = s.withParts ts := by
  rw [resolveIn_composed hs]
  simp only [← resolveListIn_ok_iff]
  cases resolveListIn scope s.parts <;> simp [Except.map, eq_comm]

theorem isComposed_of_mem_parts {s u : Schema} (h : u ∈ s.parts) : isComposed s = true := by
  cases s with
  | ref _ | defs _ _ => exact absurd h List.not_mem_nil
  | enumeration _ | boolean | object _ | positional _ | uniform _ | anyOf _ | oneOf _ | sequence _ | unconstrained => rfl

/-- In a schema that resolves, each part does. -/
theorem exists_ok_of_mem_parts {scope : Scope} {s t u : Schema} (h : resolveIn scope s = .ok t) (hu : u ∈ s.parts) :
    ∃ r, resolveIn scope u = .ok r := by
  obtain ⟨ts, hts, _⟩ := (resolveIn_composed_ok_iff (isComposed_of_mem_parts hu)).1 h
  obtain ⟨i, hi, rfl⟩ := List.getElem_of_mem hu
  exact ⟨_, hts.get hi (hts.length_eq ▸ hi)⟩

/-! ## What stands inside a schema -/

/-- The schemas right below a schema: its parts, or the body and the definitions of a dictionary. -/
def children : Schema → List Schema
  | .defs definitions body => body :: definitions.map (·.2)
  | s => s.parts

theorem children_composed {s : Schema} (hs : isComposed s = true) : s.children = s.parts := by
  cases s with
  | defs _ _ => cases hs
  | enumeration _ | boolean | object _ | positional _ | uniform _ | anyOf _ | oneOf _ | sequence _ | ref _
  | unconstrained => rfl

theorem mem_children_of_mem_parts {s u : Schema} (h : u ∈ s.parts) : u ∈ s.children := by
  cases s with
  | defs _ _ => exact absurd h List.not_mem_nil
  | enumeration _ | boolean | object _ | positional _ | uniform _ | anyOf _ | oneOf _ | sequence _ | ref _
  | unconstrained => exact h

/-- The second schema is the first one or stands somewhere inside it. -/
def Contains : Schema → Schema → Prop := Relation.ReflTransGen fun s u => u ∈ s.children

theorem contains_iff {s v : Schema} : s.Contains v ↔ s = v ∨ ∃ u ∈ s.children, u.Contains v :=
  Relation.ReflTransGen.cases_head_iff

theorem Contains.of_mem_children {s u v : Schema} (hu : u ∈ s.children) (h : u.Contains v) : s.Contains v := .head hu h

/-- Nowhere in the schema is a dictionary. -/
def DefsFree (s : Schema) : Prop := ∀ definitions body, ¬ s.Contains (.defs definitions body)

theorem hasDefs_composed {s : Schema} (hs : isComposed s = true) : hasDefs s = hasDefsList s.parts := by
  cases s with
  | ref _ | defs _ _ => cases hs
  | object properties =>
    rw [hasDefs, parts]
    induction properties with
    | nil => rfl
    | cons e properties ih => rw [hasDefsEntries, List.map_cons, hasDefsList, ih rfl]
  | uniform item => simp [hasDefs, parts, hasDefsList]
  | enumeration _ | boolean | unconstrained | positional _ | anyOf _ | oneOf _ | sequence _ => rfl

theorem hasDefs_eq_false_iff {s : Schema} : hasDefs s = false ↔ s.DefsFree := by
  induction s using kindInduction with
  | ref name =>
    refine iff_of_true rfl fun definitions body h => ?_
    rcases contains_iff.1 h with h | ⟨u, hu, _⟩
    · cases h
    · cases hu
  | defs definitions body _ _ => exact iff_of_false (by simp [hasDefs]) fun h => h definitions body .refl
  | composed s hs ih =>
    rw [hasDefs_composed hs, hasDefsList_eq_false]
    constructor
    · intro h definitions body hc
      rcases contains_iff.1 hc with rfl | ⟨u, hu, hc⟩
      · cases hs
      · rw [children_composed hs] at hu
        exact (ih u hu).1 (h u hu) definitions body hc
    · intro h u hu
      refine (ih u hu).2 fun definitions body hc => h definitions body ?_
      exact hc.of_mem_children (children_composed hs ▸ hu)

theorem mem_parts_of_mem_children {s u : Schema} (hs : s.DefsFree) (hu : u ∈ s.children) : u ∈ s.parts := by
  cases s with
  | defs definitions body => exact absurd .refl (hs definitions body)
  | enumeration _ | boolean | object _ | positional _ | uniform _ | anyOf _ | oneOf _ | sequence _ | ref _
  | unconstrained => exact hu

theorem DefsFree.of_mem_parts {s u : Schema} (h : s.DefsFree) (hu : u ∈ s.parts) : u.DefsFree :=
  fun definitions body hc => h definitions body (hc.of_mem_children (mem_children_of_mem_parts hu))

/-! ## Names that dictionaries define -/

theorem mem_definedNamesList {name : String} {ss : List Schema} :
    name ∈ definedNamesList ss ↔ ∃ s ∈ ss, name ∈ definedNames s := by
  induction ss with
  | nil => simp [definedNamesList]
  | cons s ss ih => simp [definedNamesList, ih]

theorem mem_definedNamesDefinitions {name : String} {definitions : List (String × Schema)} :
    name ∈ definedNamesDefinitions definitions ↔
      name ∈ Entries.keys definitions ∨ ∃ s ∈ definitions.map (·.2), name ∈ definedNames s := by
  induction definitions with
  | nil => simp [definedNamesDefinitions, Entries.keys]
  | cons e definitions ih =>
    simp only [definedNamesDefinitions, List.mem_cons, List.mem_append, ih, Entries.keys, List.map_cons,
      exists_eq_or_imp, or_assoc, or_left_comm]

theorem definedNames_composed {s : Schema} (hs : isComposed s = true) :
    definedNames s = definedNamesList s.parts := by
  cases s with
  | ref _ | defs _ _ => cases hs
  | object properties =>
    rw [definedNames, parts]
    induction properties with
    | nil => rfl
    | cons e properties ih => rw [definedNamesEntries, List.map_cons, definedNamesList, ih rfl]
  | uniform item => simp [definedNames, parts, definedNamesList]
  | enumeration _ | boolean | unconstrained | positional _ | anyOf _ | oneOf _ | sequence _ => rfl

/-- There is room for no more names in a part. -/
theorem room_of_mem_parts (scope : Scope) {s u : Schema} (hu : u ∈ s.parts) :
    scope.room (definedNames u) ≤ scope.room (definedNames s) := by
  refine scope.room_mono fun x hx => ?_
  rw [definedNames_composed (isComposed_of_mem_parts hu)]
  exact mem_definedNamesList.2 ⟨u, hu, hx⟩

/-- The defined names are the keys of the dictionaries that stand in the schema. -/
theorem mem_definedNames_iff {name : String} {s : Schema} :
    name ∈ definedNames s ↔ ∃ definitions body, s.Contains (.defs definitions body) ∧ name ∈ Entries.keys definitions := by
  induction s using kindInduction with
  | ref _ =>
    refine iff_of_false (by simp [definedNames]) ?_
    rintro ⟨definitions, body, hc, _⟩
    rcases contains_iff.1 hc with h | ⟨u, hu, _⟩
    · cases h
    · cases hu
  | defs definitions body ihs ih =>
    simp only [definedNames, List.mem_append, mem_definedNamesDefinitions]
    constructor
    · rintro ((h | ⟨s, hs, h⟩) | h)
      · exact ⟨definitions, body, .refl, h⟩
      · obtain ⟨e, he, rfl⟩ := List.mem_map.1 hs
        obtain ⟨ds, b, hc, h⟩ := (ihs e he).1 h
        exact ⟨ds, b, hc.of_mem_children (List.mem_cons_of_mem _ hs), h⟩
      · obtain ⟨ds, b, hc, h⟩ := ih.1 h
        exact ⟨ds, b, hc.of_mem_children List.mem_cons_self, h⟩
    · rintro ⟨ds, b, hc, h⟩
      rcases contains_iff.1 hc with hs | ⟨u, hu, hu'⟩
      · cases hs
        exact .inl (.inl h)
      · rcases List.mem_cons.1 hu with rfl | hu
        · exact .inr (ih.2 ⟨ds, b, hu', h⟩)
        · obtain ⟨e, he, rfl⟩ := List.mem_map.1 hu
          exact .inl (.inr ⟨e.2, hu, (ihs e he).2 ⟨ds, b, hu', h⟩⟩)
  | composed s hs ih =>
    rw [definedNames_composed hs, mem_definedNamesList]
    constructor
    · rintro ⟨u, hu, h⟩
      obtain ⟨ds, b, hc, h⟩ := (ih u hu).1 h
      exact ⟨ds, b, hc.of_mem_children (children_composed hs ▸ hu), h⟩
    · rintro ⟨ds, b, hc, h⟩
      rcases contains_iff.1 hc with rfl | ⟨u, hu, hc⟩
      · cases hs
      · rw [children_composed hs] at hu
        exact ⟨u, hu, (ih u hu).2 ⟨ds, b, hc, h⟩⟩

end LintInference.Schema
