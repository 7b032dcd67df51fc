import LintInference.Proofs.Schema.Suffixes

/-!
# When enumeration succeeds

Enumeration succeeds for every seed or for none (`exists_enumerate_iff`), and a list of schemas has candidates, or values,
exactly if each of the schemas has. So enumeration could only fail at a dictionary, and without dictionaries it succeeds
(`enumerates_of_hasDefs`).
-/

namespace LintInference.Schema

/-- The suffixes of the schema can be listed. -/
def Enumerates (s : Schema) : Prop := ∃ ws, enumerate s [[]] = .ok ws

/-- The values of a property with the schema can be listed. -/
def Valued (s : Schema) : Prop := ∃ vs, propertyValues s = .ok vs

theorem exists_enumerate_iff {s : Schema} (seed : List Candidate) :
    (∃ cs, enumerate s seed = .ok cs) ↔ Enumerates s := by
  simp [Enumerates, enumerate_eq_appendAll s seed, map_eq_ok_iff]

/-- A plain property takes the values of the suffixes. -/
theorem valued_iff_of_isPlain {s : Schema} (hs : isPlain s = true) : Valued s ↔ Enumerates s := by
  simp [Valued, Enumerates, propertyValues_of_isPlain hs, map_eq_ok_iff]

/-- Of two results in turn there is one exactly if there are both. -/
theorem exists_bind_map_eq_ok_iff {α β γ : Type} {x : Except Failure α} {y : Except Failure β} {f : α → β → γ} :
    (∃ c, (x.bind fun a => y.map (f a)) = .ok c) ↔ (∃ a, x = .ok a) ∧ ∃ b, y = .ok b := by
  cases x <;> cases y <;> simp [Except.bind, Except.map]

theorem exists_enumerateEach_iff {ss : List Schema} :
    (∃ ws, enumerateEach ss [[]] = .ok ws) ↔ ∀ s ∈ ss, Enumerates s := by
  induction ss with
  | nil => simp [enumerateEach]
  | cons s ss ih =>
    rw [List.forall_mem_cons, ← ih]
    constructor
    · rintro ⟨_, h⟩
      rw [enumerateEach_cons] at h
      obtain ⟨ws, hws, h⟩ := bind_eq_ok_iff.1 h
      rw [enumerateEach_eq_appendAll (fun t _ => enumerate_eq_appendAll t) ws] at h
      obtain ⟨ws', hws', _⟩ := map_eq_ok_iff.1 h
      exact ⟨⟨ws, hws⟩, ws', hws'⟩
    · rintro ⟨⟨ws, hws⟩, ws', hws'⟩
      exact ⟨_, enumerateEach_cons_ok hws hws'⟩

theorem exists_enumerateAny_iff {ss : List Schema} :
    (∃ ws, enumerateAny ss [[]] = .ok ws) ↔ ∀ s ∈ ss, Enumerates s := by
  induction ss with
  | nil => simp [enumerateAny]
  | cons s ss ih =>
    rw [List.forall_mem_cons, ← ih, enumerateAny_cons]
    exact exists_bind_map_eq_ok_iff

theorem exists_anyPropertyValues_iff {ss : List Schema} :
    (∃ vs, anyPropertyValues ss = .ok vs) ↔ ∀ s ∈ ss, Valued s := by
  induction ss with
  | nil => simp [anyPropertyValues]
  | cons s ss ih =>
    rw [List.forall_mem_cons, ← ih, anyPropertyValues_cons]
    exact exists_bind_map_eq_ok_iff

theorem exists_choices_iff {properties : List (String × Schema)} :
    (∃ cs, choices properties = .ok cs) ↔ ∀ e ∈ properties, Valued e.2 := by
  induction properties with
  | nil => simp [choices]
  | cons e properties ih =>
    rw [List.forall_mem_cons, ← ih, choices_cons]
    exact exists_bind_map_eq_ok_iff

/-! ## Constructor by constructor -/

theorem enumerates_object_iff {properties : List (String × Schema)} :
    Enumerates (.object properties) ↔ ∀ e ∈ properties, Valued e.2 := by
  rw [← exists_choices_iff, Enumerates, enumerate_object]
  simp [map_eq_ok_iff]

theorem valued_object (properties : List (String × Schema)) : Valued (.object properties) := ⟨[], by rw [propertyValues]⟩

theorem enumerates_listing_iff {f : List Schema → Schema} (hf : Listing f) {ss : List Schema} :
    Enumerates (f ss) ↔ ∀ s ∈ ss, Enumerates s := by
  cases hf with
  | positional | sequence => rw [Enumerates, enumerate, exists_enumerateEach_iff]
  | anyOf | oneOf => rw [Enumerates, enumerate, exists_enumerateAny_iff]

theorem valued_union_iff {ss : List Schema} :
    (Valued (.anyOf ss) ↔ ∀ s ∈ ss, Valued s) ∧ (Valued (.oneOf ss) ↔ ∀ s ∈ ss, Valued s) := by
  constructor
  all_goals rw [Valued, propertyValues, exists_anyPropertyValues_iff]

/-- An array of items of one kind has its literals, or leaves the seed as it is. -/
theorem enumerates_uniform (item : Schema) : Enumerates (.uniform item) := by
  rcases enumeration_or_ne item with ⟨literals, rfl⟩ | hne
  · exact ⟨_, by rw [enumerate]⟩
  · exact ⟨_, enumerate_uniform_of_ne _ hne⟩

/-- Without dictionaries there is nothing that could fail. -/
theorem enumerates_of_hasDefs {s : Schema} : hasDefs s = false → Enumerates s ∧ Valued s := by
  have plain {t : Schema} (ht : isPlain t = true) (h : Enumerates t) : Enumerates t ∧ Valued t :=
    ⟨h, (valued_iff_of_isPlain ht).2 h⟩
  induction s using structuralInduction with
  | enumeration _ | boolean | ref _ | unconstrained => exact fun _ => plain rfl ⟨_, by rw [enumerate]⟩
  | object properties ih =>
    intro hs
    have hvalued : ∀ e ∈ properties, Valued e.2 := fun e he => (ih e he (hasDefsEntries_eq_false.1 hs e he)).2
    exact ⟨enumerates_object_iff.2 hvalued, valued_object properties⟩
  | positional _ ih =>
    exact fun hs => plain rfl ((enumerates_listing_iff .positional).2 fun t ht =>
      (ih t ht (hasDefsList_eq_false.1 hs t ht)).1)
  | sequence _ ih =>
    exact fun hs => plain rfl ((enumerates_listing_iff .sequence).2 fun t ht =>
      (ih t ht (hasDefsList_eq_false.1 hs t ht)).1)
  | uniform item _ => exact fun _ => plain rfl (enumerates_uniform item)
  | anyOf _ ih | oneOf _ ih =>
    intro hs
    have hparts := fun t ht => ih t ht (hasDefsList_eq_false.1 hs t ht)
    rw [Enumerates, Valued, enumerate, propertyValues, exists_enumerateAny_iff, exists_anyPropertyValues_iff]
    exact ⟨fun t ht => (hparts t ht).1, fun t ht => (hparts t ht).2⟩
  | defs _ _ _ _ => intro hs; cases hs

/-- A dictionary fails only as its resolution does, as nothing is left in a resolved schema that could. -/
theorem enumerates_defs_iff {definitions : List (String × Schema)} {body : Schema} :
    Enumerates (.defs definitions body) ↔ ∃ t, resolve (.defs definitions body) = .ok t := by
  rw [Enumerates, enumerate_defs]
  constructor
  · rintro ⟨_, h⟩
    obtain ⟨t, ht, _⟩ := bind_eq_ok_iff.1 h
    exact ⟨t, ht⟩
  · rintro ⟨t, ht⟩
    obtain ⟨ws, hws⟩ := (enumerates_of_hasDefs (hasDefs_resolve ht)).1
    exact ⟨ws, by rw [ht]; exact hws⟩

theorem valued_defs_iff {definitions : List (String × Schema)} {body : Schema} :
    Valued (.defs definitions body) ↔ ∃ t, resolve (.defs definitions body) = .ok t := by
  rw [Valued, propertyValues_defs]
  constructor
  · rintro ⟨_, h⟩
    obtain ⟨t, ht, _⟩ := bind_eq_ok_iff.1 h
    exact ⟨t, ht⟩
  · rintro ⟨t, ht⟩
    obtain ⟨vs, hvs⟩ := (enumerates_of_hasDefs (hasDefs_resolve ht)).2
    exact ⟨vs, by rw [ht]; exact hvs⟩

theorem exists_enumerate_of_hasDefs {s : Schema} (hs : hasDefs s = false) (seed : List Candidate) :
    ∃ cs, enumerate s seed = .ok cs := (exists_enumerate_iff seed).2 (enumerates_of_hasDefs hs).1

theorem exists_propertyValues_of_hasDefs {s : Schema} (hs : hasDefs s = false) : ∃ vs, propertyValues s = .ok vs :=
  (enumerates_of_hasDefs hs).2

end LintInference.Schema
