import LintInference.Entries
import LintInference.Proofs.Rearrangement
import Mathlib.Data.List.Induction
import Mathlib.Data.List.Nodup

/-!
# Maps with each name once

A map that is built by `Entries.put` has each name once (`nodup_keys_ofList`). In such a map a name is looked up with
the value of its only entry, so the order of the entries is of no account (`get?_eq_of_perm`), nor is the order in which
they were entered (`ofList_perm`).

Two such maps are alike by a relation if they have the same names with related values, in whatever order
(`Entries.Alike`). That is to say that looking up a name gives related values (`alike_iff_get?`).
-/

namespace Option.Rel

variable {α β γ δ : Type} {R : α → β → Prop} {S : γ → δ → Prop} {x : Option α} {y : Option β}

theorem bind (h : Option.Rel R x y) {f : α → Option γ} {g : β → Option δ}
    (hfg : ∀ a b, R a b → Option.Rel S (f a) (g b)) : Option.Rel S (x.bind f) (y.bind g) := by
  cases h with
  | none => exact .none
  | some h => exact hfg _ _ h

theorem bind_eq (h : Option.Rel R x y) {f : α → Option γ} {g : β → Option γ} (hfg : ∀ a b, R a b → f a = g b) :
    x.bind f = y.bind g := by
  cases h with
  | none => rfl
  | some h => exact hfg _ _ h

theorem isSome_eq (h : Option.Rel R x y) : x.isSome = y.isSome := by
  cases h <;> rfl

/-- Both are there, with related values, or neither. -/
theorem some_or_none (h : Option.Rel R x y) :
    (∃ a b, x = Option.some a ∧ y = Option.some b ∧ R a b) ∨ (x = Option.none ∧ y = Option.none) := by
  cases h with
  | some h => exact .inl ⟨_, _, rfl, rfl, h⟩
  | none => exact .inr ⟨rfl, rfl⟩

end Option.Rel

namespace LintInference.Entries

variable {α : Type} {m m' : Entries α} {k : String} {v : α}

/-! ## Looking up -/

theorem mem_of_get? (h : get? m k = some v) : (k, v) ∈ m := by
  induction m with
  | nil => cases h
  | cons e m ih =>
    rw [get?] at h
    split at h
    next hk =>
      cases h
      exact hk ▸ List.mem_cons_self
    next => exact List.mem_cons_of_mem _ (ih h)

theorem mem_keys_of_mem {e : String × α} (h : e ∈ m) : e.1 ∈ keys m := List.mem_map_of_mem h

theorem get?_eq_none (h : k ∉ keys m) : get? m k = none :=
  Option.eq_none_iff_forall_ne_some.2 fun _ hv => h (mem_keys_of_mem (mem_of_get? hv))

theorem get?_eq_some_iff (h : (keys m).Nodup) : get? m k = some v ↔ (k, v) ∈ m := by
  refine ⟨mem_of_get?, fun hm => ?_⟩
  obtain ⟨w, hw, hmem⟩ := exists_get?_of_mem_keys (mem_keys_of_mem hm)
  have he : (k, w) = (k, v) := List.inj_on_of_nodup_map h hmem hm rfl
  cases he
  exact hw

theorem keys_perm (hp : m.Perm m') : (keys m).Perm (keys m') := hp.map _

theorem get?_eq_of_perm (h : (keys m).Nodup) (hp : m.Perm m') (k : String) : get? m k = get? m' k := by
  have h' : (keys m').Nodup := (keys_perm hp).nodup_iff.1 h
  refine Option.ext fun v => ?_
  rw [get?_eq_some_iff h, get?_eq_some_iff h', hp.mem_iff]

/-! ## Entering -/

theorem mem_keys_put {k' : String} : k' ∈ keys (put m k v) ↔ k' ∈ keys m ∨ k' = k := by
  by_cases hk : k ∈ keys m
  · rw [keys_put_of_mem m v hk]
    exact ⟨.inl, fun h => h.elim id fun he => he ▸ hk⟩
  · rw [keys_put_of_not_mem m v hk, List.mem_append, List.mem_singleton]

theorem nodup_keys_put (h : (keys m).Nodup) (k : String) (v : α) : (keys (put m k v)).Nodup := by
  by_cases hk : k ∈ keys m
  · rwa [keys_put_of_mem m v hk]
  · rw [keys_put_of_not_mem m v hk]
    exact List.nodup_append.2 ⟨h, List.nodup_singleton k, fun a ha b hb he => hk (List.mem_singleton.1 hb ▸ he ▸ ha)⟩

theorem mem_or_eq_of_mem_put {e : String × α} (h : e ∈ put m k v) : e ∈ m ∨ e = (k, v) := by
  induction m with
  | nil => exact .inr (List.mem_singleton.1 h)
  | cons f m ih =>
    rw [put] at h
    split at h
    next => exact (List.mem_cons.1 h).elim .inr fun hm => .inl (List.mem_cons_of_mem f hm)
    next =>
      rcases List.mem_cons.1 h with rfl | h
      · exact .inl List.mem_cons_self
      · exact (ih h).imp_left (List.mem_cons_of_mem f)

/-! ## Applying a function to every value -/

section MapValues

variable {β : Type}

@[simp] theorem keys_mapValues (f : α → β) (m : Entries α) : keys (mapValues f m) = keys m := List.map_map

/-- What undoes the function on values undoes it on maps. -/
theorem mapValues_mapValues_eq_self {f : α → β} {g : β → α} (h : ∀ a, g (f a) = a) (m : Entries α) :
    mapValues g (mapValues f m) = m := by
  induction m with
  | nil => rfl
  | cons e m ih => exact congrArg₂ List.cons (Prod.ext rfl (h e.2)) ih

end MapValues

/-! ## Leaving out names -/

section Filter

variable {p : String → Bool}

theorem keys_filter : keys (m.filter fun e => p e.1) = (keys m).filter p := List.filter_map.symm

/-- A name that stays is looked up as before. -/
theorem get?_filter (h : p k = true) : get? (m.filter fun e => p e.1) k = get? m k := by
  induction m with
  | nil => rfl
  | cons e m ih =>
    by_cases he : e.1 = k
    · rw [List.filter_cons_of_pos (he ▸ h), get?, get?, if_pos he, if_pos he]
    · rw [get?, if_neg he, ← ih, List.filter_cons]
      split
      next => rw [get?, if_neg he]
      next => rfl

/-- What is entered under a name that is left out is left out too. -/
theorem filter_put (h : p k = false) : ((put m k v).filter fun e => p e.1) = m.filter fun e => p e.1 := by
  induction m with
  | nil => simp [put, h]
  | cons e m ih =>
    by_cases he : e.1 = k
    · rw [put, if_pos he, List.filter_cons_of_neg (by simp [h]), List.filter_cons_of_neg (by simp [he, h])]
    · rw [put, if_neg he, List.filter_cons, List.filter_cons, ih]

end Filter

/-! ## Entering one after the other -/

theorem ofList_concat (l : List (String × α)) (e : String × α) : ofList (l ++ [e]) = put (ofList l) e.1 e.2 := by
  rw [ofList, List.foldl_append]
  rfl

theorem mem_keys_ofList {l : List (String × α)} : k ∈ keys (ofList l) ↔ k ∈ keys l := by
  induction l using List.reverseRecOn with
  | nil => rfl
  | append_singleton l e ih =>
    rw [ofList_concat, mem_keys_put, ih]
    simp [keys]

theorem nodup_keys_ofList (l : List (String × α)) : (keys (ofList l)).Nodup := by
  induction l using List.reverseRecOn with
  | nil => exact .nil
  | append_singleton l e ih =>
    rw [ofList_concat]
    exact nodup_keys_put ih e.1 e.2

theorem mem_of_mem_ofList {l : List (String × α)} {e : String × α} (h : e ∈ ofList l) : e ∈ l := by
  induction l using List.reverseRecOn with
  | nil => cases h
  | append_singleton l f ih =>
    rw [ofList_concat] at h
    rw [List.mem_append, List.mem_singleton]
    exact (mem_or_eq_of_mem_put h).imp_left ih

/-- A new name goes to the end. -/
theorem put_of_notMem_keys (h : k ∉ keys m) (v : α) : put m k v = m ++ [(k, v)] := by
  induction m with
  | nil => rfl
  | cons e m ih =>
    obtain ⟨he, hm⟩ := not_or.1 fun hor => h (List.mem_cons.2 hor)
    rw [put, if_neg (Ne.symm he), ih hm]
    rfl

/-- Entries that have each name once are entered as they are. -/
theorem ofList_eq_self {l : List (String × α)} (h : (keys l).Nodup) : ofList l = l := by
  induction l using List.reverseRecOn with
  | nil => rfl
  | append_singleton l e ih =>
    rw [keys, List.map_append, List.nodup_append] at h
    rw [ofList_concat, ih h.1]
    exact put_of_notMem_keys (fun hm => h.2.2 _ hm _ List.mem_cons_self rfl) e.2

/-- If no name is entered with two values, all that was entered is there. -/
theorem mem_ofList_iff {l : List (String × α)} (h : ∀ e ∈ l, ∀ f ∈ l, e.1 = f.1 → e.2 = f.2) {e : String × α} :
    e ∈ ofList l ↔ e ∈ l := by
  refine ⟨mem_of_mem_ofList, fun he => ?_⟩
  obtain ⟨v, _, hv⟩ := exists_get?_of_mem_keys (mem_keys_ofList.2 (mem_keys_of_mem he))
  have hval : e.2 = v := h e he (e.1, v) (mem_of_mem_ofList hv) rfl
  rwa [← hval] at hv

/-- Another order of entering gives another order of the entries, and no more. -/
theorem ofList_perm {l l' : List (String × α)} (hp : l.Perm l') (h : ∀ e ∈ l, ∀ f ∈ l, e.1 = f.1 → e.2 = f.2) :
    (ofList l).Perm (ofList l') := by
  have h' : ∀ e ∈ l', ∀ f ∈ l', e.1 = f.1 → e.2 = f.2 := fun e he f hf =>
    h e (hp.mem_iff.2 he) f (hp.mem_iff.2 hf)
  refine (List.perm_ext_iff_of_nodup (nodup_keys_ofList l).of_map (nodup_keys_ofList l').of_map).2 fun e => ?_
  rw [mem_ofList_iff h, mem_ofList_iff h', hp.mem_iff]

/-! ## Maps that are alike -/

section Alike

variable {β γ δ : Type} {R : α → β → Prop} {as : Entries α} {bs : Entries β}

/-- The same name with related values. -/
def EntryAlike (R : α → β → Prop) (e : String × α) (f : String × β) : Prop := e.1 = f.1 ∧ R e.2 f.2

/-- The maps have the same names, once each, and related values under each name. -/
structure Alike (R : α → β → Prop) (as : Entries α) (bs : Entries β) : Prop where
  nodup : (keys as).Nodup
  entries : Rearranged (EntryAlike R) as bs

theorem keys_eq_of_forall₂ (h : List.Forall₂ (EntryAlike R) as bs) : keys as = keys bs := by
  induction h with
  | nil => rfl
  | cons h _ ih => exact congrArg₂ _ h.1 ih

theorem forall₂_entryAlike_iff :
    List.Forall₂ (EntryAlike R) as bs ↔ keys as = keys bs ∧ ∀ p ∈ as.zip bs, R p.1.2 p.2.2 := by
  refine ⟨fun h => ⟨keys_eq_of_forall₂ h, fun p hp => (List.forall₂_zip h hp).2⟩, ?_⟩
  rintro ⟨hk, h⟩
  induction as generalizing bs with
  | nil =>
    rw [List.map_eq_nil_iff.1 hk.symm]
    exact .nil
  | cons e as ih =>
    cases bs with
    | nil => cases hk
    | cons f bs =>
      obtain ⟨hname, hk⟩ := List.cons.inj hk
      obtain ⟨hr, h⟩ := List.forall_mem_cons.1 h
      exact .cons ⟨hname, hr⟩ (ih hk h)

theorem rel_get?_of_forall₂ (h : List.Forall₂ (EntryAlike R) as bs) (k : String) :
    Option.Rel R (get? as k) (get? bs k) := by
  induction h with
  | nil => exact .none
  | @cons e f _ _ h _ ih =>
    rw [get?, get?, h.1]
    split
    next => exact .some h.2
    next => exact ih

namespace Alike

theorem nil : Alike R [] [] := ⟨.nil, .of_forall₂ .nil⟩

theorem nodup_right (h : Alike R as bs) : (keys bs).Nodup := by
  obtain ⟨hn, cs, hp, hf⟩ := h
  exact keys_eq_of_forall₂ hf ▸ (keys_perm hp).nodup_iff.1 hn

protected theorem symm {S : β → α → Prop} (hRS : ∀ a b, R a b → S b a) (h : Alike R as bs) : Alike S bs as :=
  ⟨h.nodup_right, h.entries.symm fun _ _ he => ⟨he.1.symm, hRS _ _ he.2⟩⟩

theorem imp {S : α → β → Prop} (hRS : ∀ a b, R a b → S a b) (h : Alike R as bs) : Alike S as bs :=
  ⟨h.nodup, h.entries.imp_of_mem fun _ _ _ he => ⟨he.1, hRS _ _ he.2⟩⟩

theorem mapValues {S : γ → δ → Prop} {f : α → γ} {g : β → δ} (hfg : ∀ a b, R a b → S (f a) (g b)) (h : Alike R as bs) :
    Alike S (Entries.mapValues f as) (Entries.mapValues g bs) := by
  refine ⟨?_, h.entries.map fun _ _ he => ⟨he.1, hfg _ _ he.2⟩⟩
  rw [keys, Entries.mapValues, List.map_map]
  exact h.nodup

/-- Looking up a name gives related values, or none on either side. -/
theorem rel_get? (h : Alike R as bs) (k : String) : Option.Rel R (get? as k) (get? bs k) := by
  obtain ⟨hn, cs, hp, hf⟩ := h
  rw [get?_eq_of_perm hn hp]
  exact rel_get?_of_forall₂ hf k

end Alike

/-- Entries with a counterpart each are those of some of the other map. -/
theorem exists_forall₂_of_get? (h : ∀ e ∈ as, ∃ b, get? bs e.1 = some b ∧ R e.2 b) :
    ∃ cs, List.Forall₂ (EntryAlike R) as cs ∧ cs ⊆ bs := by
  induction as with
  | nil => exact ⟨[], .nil, List.nil_subset bs⟩
  | cons e as ih =>
    obtain ⟨b, hb, hr⟩ := h e List.mem_cons_self
    obtain ⟨cs, hf, hsub⟩ := ih fun e he => h e (List.mem_cons_of_mem _ he)
    exact ⟨(e.1, b) :: cs, .cons ⟨rfl, hr⟩ hf, List.cons_subset.2 ⟨mem_of_get? hb, hsub⟩⟩

/-- Maps are alike if they are of one size and each entry of the first has its counterpart in the second. -/
theorem alike_iff_get? (hn : (keys as).Nodup) :
    Alike R as bs ↔ as.length = bs.length ∧ ∀ e ∈ as, ∃ b, get? bs e.1 = some b ∧ R e.2 b := by
  constructor
  · refine fun h => ⟨h.entries.length_eq, fun e he => ?_⟩
    have hrel := h.rel_get? e.1
    rw [(get?_eq_some_iff hn).2 he] at hrel
    cases hb : get? bs e.1 with
    | none =>
      rw [hb] at hrel
      cases hrel
    | some b =>
      rw [hb] at hrel
      exact ⟨b, rfl, Option.rel_some_some.1 hrel⟩
  · rintro ⟨hlen, h⟩
    obtain ⟨cs, hf, hsub⟩ := exists_forall₂_of_get? h
    have hcs : cs.Nodup := (keys_eq_of_forall₂ hf ▸ hn : (keys cs).Nodup).of_map
    have hp : cs.Perm bs := (List.subperm_of_subset hcs hsub).perm_of_length_le
      (Nat.le_of_eq (hlen.symm.trans hf.length_eq))
    exact ⟨hn, Rearranged.iff_forall₂_perm.2 ⟨cs, hf, hp⟩⟩

end Alike

end LintInference.Entries
