import LintInference.Proofs.Schema.Alike
import LintInference.Proofs.Schema.Expansion

/-!
# The normal form

What resolution gives holds no dictionary and no reference from under one (`refFree_of_resolveIn`). The references that
are left are those outside all dictionaries, at their old places (`at?_of_resolve`). So resolving once more changes
nothing, and a schema is its own resolved form exactly if it holds no dictionary (`resolve_normalForm`).

A place is a list of numbers of parts, from the outside to the inside (`Schema.at?`). A dictionary has no parts, so
nothing under one is at a place.
-/

namespace LintInference.Schema

/-! ## Places -/

/-- The schema at a place: each number of the list leads to a part. -/
def at? (s : Schema) : List Nat → Option Schema
  | [] => some s
  | i :: path => s.parts[i]?.bind (at? · path)

theorem at?_cons_eq_some_iff {s v : Schema} {i : Nat} {path : List Nat} :
    s.at? (i :: path) = some v ↔ ∃ u, s.parts[i]? = some u ∧ u.at? path = some v := by
  simp [at?, Option.bind_eq_some_iff]

theorem contains_of_at? {s v : Schema} {path : List Nat} (h : s.at? path = some v) : s.Contains v := by
  induction path generalizing s with
  | nil =>
    cases h
    exact .refl
  | cons i path ih =>
    obtain ⟨u, hu, h⟩ := at?_cons_eq_some_iff.1 h
    have hmem : u ∈ s.parts := List.mem_of_getElem? hu
    exact (ih h).of_mem_children (mem_children_of_mem_parts hmem)

/-- Without dictionaries all that stands in a schema is at a place. -/
theorem exists_at?_of_contains {s v : Schema} (hs : s.DefsFree) (h : s.Contains v) : ∃ path, s.at? path = some v := by
  induction h using Relation.ReflTransGen.head_induction_on with
  | refl => exact ⟨[], rfl⟩
  | @head s u hu _ ih =>
    have hparts : u ∈ s.parts := mem_parts_of_mem_children hs hu
    obtain ⟨path, hpath⟩ := ih (hs.of_mem_parts hparts)
    obtain ⟨i, hi⟩ := List.mem_iff_getElem?.1 hparts
    exact ⟨i :: path, at?_cons_eq_some_iff.2 ⟨u, hi, hpath⟩⟩

/-! ## References -/

/-- Nowhere in the schema is a reference. -/
def RefFree (s : Schema) : Prop := ∀ name, ¬ s.Contains (.ref name)

theorem RefFree.of_parts {s : Schema} (hs : isComposed s = true) (h : ∀ u ∈ s.parts, u.RefFree) : s.RefFree := by
  intro name hc
  rcases contains_iff.1 hc with rfl | ⟨u, hu, hc⟩
  · cases hs
  · rw [children_composed hs] at hu
    exact h u hu name hc

theorem refFree_of_forall₂ {P : Schema → Schema → Prop} {ss ts : List Schema}
    (h : List.Forall₂ (fun s t => P s t ∧ t.RefFree) ss ts) : ∀ t ∈ ts, t.RefFree := by
  induction h with
  | nil => simp
  | cons h _ ih => exact List.forall_mem_cons.2 ⟨h.2, ih⟩

/-- Under a dictionary every reference is replaced. -/
theorem refFree_of_resolveIn {scope : Scope} {s t : Schema} (h : resolveIn scope s = .ok t)
    (hd : scope.dictionaries ≠ []) : t.RefFree := by
  induction h using resolvedInduction with
  | outside _ ho => exact absurd ho hd
  | ref _ _ ih => exact ih hd
  | defs _ ih => exact ih (List.cons_ne_nil _ _)
  | @composed scope s ts hs hts =>
    refine .of_parts ((isComposed_withParts s ts).trans hs) ?_
    rw [parts_withParts hs hts.length_eq.symm]
    exact refFree_of_forall₂ (hts.imp fun _ _ ⟨hr, ih⟩ => ⟨hr, ih hd⟩)

/-- The references of the resolved schema are those outside all dictionaries, at their places. -/
theorem at?_of_resolve {s t : Schema} (h : resolve s = .ok t) (path : List Nat) (name : String) :
    t.at? path = some (.ref name) ↔ s.at? path = some (.ref name) := by
  induction s using kindInduction generalizing t path with
  | ref name' =>
    rw [resolve_ref] at h
    cases h
    rfl
  | defs definitions body _ _ =>
    rw [resolve, resolveIn] at h
    have hr : t.RefFree := refFree_of_resolveIn h (List.cons_ne_nil _ _)
    refine iff_of_false (fun hp => hr name (contains_of_at? hp)) ?_
    cases path <;> simp [at?, parts]
  | composed s hs ih =>
    obtain ⟨ts, hts, rfl⟩ := (resolveIn_composed_ok_iff hs).1 h
    cases path with
    | nil =>
      -- a composed schema stays composed
      have ht : isComposed (s.withParts ts) = true := (isComposed_withParts s ts).trans hs
      refine iff_of_false (fun hp => ?_) fun hp => ?_
      · rw [Option.some.inj hp] at ht
        cases ht
      · rw [Option.some.inj hp] at hs
        cases hs
    | cons i path =>
      rw [at?, at?, parts_withParts hs hts.length_eq.symm]
      by_cases hi : i < s.parts.length
      · have hi' : i < ts.length := hts.length_eq ▸ hi
        rw [List.getElem?_eq_getElem hi, List.getElem?_eq_getElem hi']
        exact ih _ (List.getElem_mem hi) (hts.get hi hi') path
      · have hi' : ¬ i < ts.length := hts.length_eq ▸ hi
        rw [List.getElem?_eq_none (Nat.le_of_not_lt hi), List.getElem?_eq_none (Nat.le_of_not_lt hi')]

/-! ## Schemas that are their own resolved form -/

/-- Without dictionaries there is nothing to replace. -/
theorem resolve_of_hasDefs {s : Schema} (h : hasDefs s = false) : resolve s = .ok s := by
  induction s using kindInduction with
  | ref name => exact resolve_ref name
  | defs _ _ _ _ => cases h
  | composed s hs ih =>
    rw [hasDefs_composed hs, hasDefsList_eq_false] at h
    refine (resolveIn_composed_ok_iff hs).2 ⟨s.parts, ?_, (withParts_parts s).symm⟩
    exact List.forall₂_same.2 fun u hu => ih u hu (h u hu)

/-- A schema that equals one without dictionaries holds none. -/
theorem hasDefs_of_same {s t : Schema} (h : same s t = true) (ht : hasDefs t = false) : hasDefs s = false := by
  have list {ss ts : List Schema} (ih : ∀ s ∈ ss, ∀ {t}, same s t = true → hasDefs t = false → hasDefs s = false)
      (h : sameList ss ts = true) (ht : hasDefsList ts = false) : hasDefsList ss = false := by
    rw [hasDefsList_eq_false] at ht ⊢
    intro s hs
    obtain ⟨i, hi, rfl⟩ := List.getElem_of_mem hs
    have hall := sameList_iff.1 h
    have hi' : i < ts.length := hall.length_eq ▸ hi
    exact ih _ hs (hall.get hi hi') (ht _ (List.getElem_mem hi'))
  induction s using structuralInduction generalizing t with
  | enumeration _ | boolean | ref _ | unconstrained => rfl
  | object properties ih =>
    cases t with
    | object ts =>
      simp only [same, Bool.and_eq_true, sameEntries_iff] at h
      rw [hasDefs, hasDefsEntries_eq_false] at ht ⊢
      intro e he
      obtain ⟨u, hu, hsame⟩ := h.2 e he
      exact ih e he hsame (ht _ (Entries.mem_of_get? hu))
    | _ => simp [same] at h
  | uniform item ih =>
    cases t with
    | uniform u => exact ih h ht
    | _ => simp [same] at h
  | positional ss ih =>
    cases t with
    | positional ts => exact list ih h ht
    | _ => simp [same] at h
  | anyOf ss ih =>
    cases t with
    | anyOf ts => exact list ih h ht
    | _ => simp [same] at h
  | oneOf ss ih =>
    cases t with
    | oneOf ts => exact list ih h ht
    | _ => simp [same] at h
  | sequence ss ih =>
    cases t with
    | sequence ts => exact list ih h ht
    | _ => simp [same] at h
  | defs _ _ _ _ =>
    cases t with
    | defs _ _ => cases ht
    | _ => simp [same] at h

/-- The resolved schema holds no dictionary, so all of it is at places; its references are those of the schema outside all
dictionaries; and it resolves to itself. A schema holds no dictionary exactly if it is its own resolved form, and none
if it equals that form up to the order of names. -/
theorem resolve_normalForm (s : Schema) :
    (∀ t, resolve s = .ok t →
      t.DefsFree ∧ (∀ u, t.Contains u → ∃ path, t.at? path = some u) ∧
        (∀ path name, t.at? path = some (.ref name) ↔ s.at? path = some (.ref name)) ∧ resolve t = .ok t) ∧
      (hasDefs s = false ↔ resolve s = .ok s) ∧
      ∀ t, resolve s = .ok t → same s t = true → hasDefs s = false := by
  refine ⟨fun t ht => ?_, ⟨resolve_of_hasDefs, hasDefs_resolve⟩, ?same⟩
  case same => exact fun t ht hst => hasDefs_of_same hst (hasDefs_resolve ht)
  have hfree : t.DefsFree := hasDefs_eq_false_iff.1 (hasDefs_resolve ht)
  have hself : resolve t = .ok t := resolve_of_hasDefs (hasDefs_resolve ht)
  exact ⟨hfree, fun u hu => exists_at?_of_contains hfree hu, at?_of_resolve ht, hself⟩

/-- A reference outside all dictionaries beside one under a dictionary. -/
theorem resolve_normalForm_outside :
    let s : Schema := .sequence [.ref "a", .defs [("a", .uniform (.ref "b")), ("b", .boolean)] (.ref "a")]
    let t : Schema := .sequence [.ref "a", .uniform .boolean]
    resolve s = .ok t ∧ t.DefsFree ∧ resolve t = .ok t ∧
      ∀ path name, t.at? path = some (.ref name) ↔ s.at? path = some (.ref name) := by
  intro s t
  have h : resolve s = .ok t := by cbv
  obtain ⟨hfree, _, hrefs, hself⟩ := (resolve_normalForm s).1 t h
  exact ⟨h, hfree, hself, hrefs⟩

end LintInference.Schema
