import LintInference.Json.Basic
import LintInference.Proofs.Entries

/-!
# Equality of JSON values

`Json.same` is a test. For values whose objects have each name once (`Json.Distinct`, as all have that are read from a
text), it decides `Json.Alike`: the values are the same up to the order in which the entries of objects stand, at any
depth (`alike_of_same`, `same_of_alike`). This relation is symmetric, and each such value is alike to itself.
-/

namespace LintInference.Json

/-- Each object in the value has each name once. -/
inductive Distinct : Json → Prop where
  | null : Distinct .null
  | bool (b : Bool) : Distinct (.bool b)
  | number (n : Number) : Distinct (.number n)
  | string (s : String) : Distinct (.string s)
  | array {items : List Json} : (∀ v ∈ items, Distinct v) → Distinct (.array items)
  | object {entries : List (String × Json)} : (Entries.keys entries).Nodup → (∀ e ∈ entries, Distinct e.2) →
      Distinct (.object entries)

theorem distinct_array_iff {items : List Json} : Distinct (.array items) ↔ ∀ v ∈ items, Distinct v :=
  ⟨fun | .array h => h, .array⟩

theorem distinct_object_iff {entries : List (String × Json)} :
    Distinct (.object entries) ↔ (Entries.keys entries).Nodup ∧ ∀ e ∈ entries, Distinct e.2 :=
  ⟨fun | .object hn h => ⟨hn, h⟩, fun ⟨hn, h⟩ => .object hn h⟩

/-- The values are the same up to the order of entries, each object having each name once. -/
inductive Alike : Json → Json → Prop where
  | null : Alike .null .null
  | bool (b : Bool) : Alike (.bool b) (.bool b)
  | number {n m : Number} : n.same m = true → Alike (.number n) (.number m)
  | string (s : String) : Alike (.string s) (.string s)
  | array {as bs : List Json} : as.length = bs.length → (∀ p ∈ as.zip bs, Alike p.1 p.2) → Alike (.array as) (.array bs)
  | object {as cs bs : List (String × Json)} : (Entries.keys as).Nodup → as.Perm cs →
      Entries.keys cs = Entries.keys bs → (∀ p ∈ cs.zip bs, Alike p.1.2 p.2.2) → Alike (.object as) (.object bs)

theorem Alike.of_items {as bs : List Json} (h : List.Forall₂ Alike as bs) : Alike (.array as) (.array bs) :=
  .array h.length_eq fun _ hp => List.forall₂_zip h hp

theorem Alike.of_entries {as bs : List (String × Json)} (h : Entries.Alike Alike as bs) :
    Alike (.object as) (.object bs) := by
  obtain ⟨hn, cs, hp, hf⟩ := h
  obtain ⟨hk, hz⟩ := Entries.forall₂_entryAlike_iff.1 hf
  exact .object hn hp hk hz

/-- Induction with a hypothesis for the items of arrays and for the entries of objects. -/
@[elab_as_elim]
theorem Alike.induction {P : ∀ v w, Alike v w → Prop} (null : P _ _ .null) (bool : ∀ b, P _ _ (.bool b))
    (number : ∀ {n m : Number} (h : n.same m = true), P _ _ (.number h)) (string : ∀ s, P _ _ (.string s))
    (array : ∀ {as bs} (h : Alike (.array as) (.array bs)), List.Forall₂ (fun v w => ∃ h, P v w h) as bs → P _ _ h)
    (object : ∀ {as bs} (h : Alike (.object as) (.object bs)), Entries.Alike (fun v w => ∃ h, P v w h) as bs → P _ _ h)
    {v w : Json} (h : Alike v w) : P v w h := by
  induction h with
  | null => exact null
  | bool b => exact bool b
  | number h => exact number h
  | string s => exact string s
  | array hl h ih => exact array _ (List.forall₂_iff_zip.2 ⟨hl, fun hp => ⟨h _ hp, ih _ hp⟩⟩)
  | object hn hp hk h ih =>
    exact object _ ⟨hn, _, hp, Entries.forall₂_entryAlike_iff.2 ⟨hk, fun p hm => ⟨h p hm, ih p hm⟩⟩⟩

/-! ## The test decides -/

theorem sameItems_iff {as bs : List Json} :
    sameItems as bs = true ↔ List.Forall₂ (fun a b => same a b = true) as bs := by
  induction as generalizing bs with
  | nil => cases bs <;> simp [sameItems]
  | cons a as ih => cases bs <;> simp [sameItems, ih]

theorem sameEntries_iff {as bs : List (String × Json)} :
    sameEntries as bs = true ↔ ∀ e ∈ as, ∃ b, Entries.get? bs e.1 = some b ∧ same e.2 b = true := by
  induction as with
  | nil => simp [sameEntries]
  | cons e as ih =>
    simp only [sameEntries, Bool.and_eq_true, List.forall_mem_cons, ih]
    cases Entries.get? bs e.1 <;> simp

theorem same_object_iff {as bs : List (String × Json)} (hn : (Entries.keys as).Nodup) :
    same (.object as) (.object bs) = true ↔ Entries.Alike (fun a b => same a b = true) as bs := by
  rw [same, Bool.and_eq_true, beq_iff_eq, sameEntries_iff, Entries.alike_iff_get? hn]

/-- Values that pass the test are the same up to the order of entries. -/
theorem alike_of_same {v : Json} (hv : v.Distinct) : ∀ {w : Json}, same v w = true → Alike v w := by
  induction hv with
  | null =>
    intro w h
    cases w with
    | null => exact .null
    | _ => cases h
  | bool b =>
    intro w h
    cases w with
    | bool c => exact beq_iff_eq.1 h ▸ .bool b
    | _ => cases h
  | number n =>
    intro w h
    cases w with
    | number m => exact .number h
    | _ => cases h
  | string s =>
    intro w h
    cases w with
    | string t => exact beq_iff_eq.1 h ▸ .string s
    | _ => cases h
  | @array as _ ih =>
    intro w h
    cases w with
    | array bs =>
      rw [same, sameItems_iff] at h
      exact .of_items (((List.forall₂_and_left _ _).2 ⟨ih, h⟩).imp fun _ _ h => h.1 h.2)
    | _ => cases h
  | @object as hn _ ih =>
    intro w h
    cases w with
    | object bs =>
      obtain ⟨hl, h⟩ := (Entries.alike_iff_get? hn).1 ((same_object_iff hn).1 h)
      refine .of_entries ((Entries.alike_iff_get? hn).2 ⟨hl, fun e he => ?_⟩)
      obtain ⟨b, hb, hs⟩ := h e he
      exact ⟨b, hb, ih e he hs⟩
    | _ => cases h

theorem same_of_alike {v w : Json} (h : Alike v w) : same v w = true := by
  induction h using Alike.induction with
  | null => rfl
  | bool b => exact beq_self_eq_true b
  | number h => exact h
  | string s => exact beq_self_eq_true s
  | array _ h =>
    rw [same, sameItems_iff]
    exact h.imp fun _ _ ⟨_, h⟩ => h
  | object _ h => exact (same_object_iff h.nodup).2 (h.imp fun _ _ ⟨_, h⟩ => h)

/-! ## Reflexivity and symmetry -/

theorem Number.same_self (n : Number) : n.same n = true := by
  cases n with
  | int a => exact beq_self_eq_true a
  | float x => simp [Number.same, Binary64.same]

theorem Number.same_symm {n m : Number} (h : n.same m = true) : m.same n = true := by
  cases n with
  | int a =>
    cases m with
    | int b => exact beq_iff_eq.2 (beq_iff_eq.1 h).symm
    | float _ => cases h
  | float x =>
    cases m with
    | int _ => cases h
    | float y =>
      simp only [Number.same, Binary64.same, Bool.or_eq_true, Bool.and_eq_true, beq_iff_eq] at h ⊢
      exact h.imp Eq.symm And.symm

/-- A value is alike to itself if its objects have each name once. -/
theorem Alike.refl {v : Json} (hv : v.Distinct) : Alike v v := by
  induction hv with
  | null => exact .null
  | bool b => exact .bool b
  | number n => exact .number n.same_self
  | string s => exact .string s
  | array _ ih => exact .of_items (List.forall₂_same.2 ih)
  | object hn _ ih =>
    exact .of_entries ⟨hn, .of_forall₂ (List.forall₂_same.2 fun e he => ⟨rfl, ih e he⟩)⟩

theorem Alike.symm {v w : Json} (h : Alike v w) : Alike w v := by
  induction h using Alike.induction with
  | null => exact .null
  | bool b => exact .bool b
  | number h => exact .number (Number.same_symm h)
  | string s => exact .string s
  | array _ h => exact .of_items (h.imp fun _ _ ⟨_, h⟩ => h).flip
  | object _ h => exact .of_entries (h.symm fun _ _ ⟨_, h⟩ => h)

/-! ## Views of values that are alike -/

section Views

variable {v w : Json}

theorem Alike.asString?_eq (h : Alike v w) : v.asString? = w.asString? := by
  cases h <;> rfl

theorem Alike.rel_asArray? (h : Alike v w) : Option.Rel (List.Forall₂ Alike) v.asArray? w.asArray? := by
  cases h with
  | array hl h => exact .some (List.forall₂_iff_zip.2 ⟨hl, fun hp => h _ hp⟩)
  | _ => exact .none

end Views

end LintInference.Json
