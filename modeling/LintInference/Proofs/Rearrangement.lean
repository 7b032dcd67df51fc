import Mathlib.Data.List.Permutation

/-!
# Lists that correspond in some order

`Rearranged R l m` says that the items of two lists correspond one to one by a relation, whatever their order. What is
done to all items of a list alike keeps this (`Rearranged.flatMap`, `Rearranged.filter`, `Rearranged.transport`). As the
relation may itself be about lists in some order, so are lists of lists.
-/

namespace LintInference

variable {α β γ δ : Type} {R : α → β → Prop} {S : γ → δ → Prop}

/-- Pairs of items can be gone through either way. -/
theorem flatMap_map_perm (l : List α) (m : List β) (f : α → β → γ) :
    (l.flatMap fun a => m.map (f a)).Perm (m.flatMap fun b => l.map (f · b)) := by
  induction l with
  | nil => simp
  | cons a l ih =>
    rw [List.flatMap_cons]
    exact (ih.append_left _).trans (List.map_append_flatMap_perm m (f a) _)

/-- If each item of the first list becomes another one, and the item at its place in the second can follow, then so do
the lists. -/
theorem forall₂_transport {P : α → γ → Prop} {Q : β → δ → Prop}
    (hstep : ∀ a b c, R a b → P a c → ∃ d, Q b d ∧ S c d) {l : List α} {m : List β} {l₁ : List γ}
    (h : List.Forall₂ R l m) (hl : List.Forall₂ P l l₁) : ∃ m₁, List.Forall₂ Q m m₁ ∧ List.Forall₂ S l₁ m₁ := by
  induction h generalizing l₁ with
  | nil =>
    cases hl
    exact ⟨[], .nil, .nil⟩
  | cons h _ ih =>
    cases hl with
    | cons hc hl =>
      obtain ⟨d, hd, hcd⟩ := hstep _ _ _ h hc
      obtain ⟨m₁, hm₁, hlm⟩ := ih hl
      exact ⟨d :: m₁, .cons hd hm₁, .cons hcd hlm⟩

/-- After some rearrangement of the first list, the lists are related item by item. -/
def Rearranged (R : α → β → Prop) (l : List α) (m : List β) : Prop := ∃ l', l.Perm l' ∧ List.Forall₂ R l' m

namespace Rearranged

theorem of_forall₂ {l : List α} {m : List β} (h : List.Forall₂ R l m) : Rearranged R l m := ⟨l, .refl l, h⟩

protected theorem refl (l : List α) : Rearranged Eq l l := of_forall₂ (List.forall₂_eq_eq_eq ▸ rfl)

/-- It is all the same which of the lists is rearranged. -/
theorem iff_forall₂_perm {l : List α} {m : List β} :
    Rearranged R l m ↔ ∃ m', List.Forall₂ R l m' ∧ m'.Perm m :=
  iff_of_eq (congrFun₂ List.forall₂_comp_perm_eq_perm_comp_forall₂ l m).symm

protected theorem symm {R' : β → α → Prop} (hR : ∀ a b, R a b → R' b a) {l : List α} {m : List β}
    (h : Rearranged R l m) : Rearranged R' m l := by
  obtain ⟨m', hf, hp⟩ := iff_forall₂_perm.1 h
  exact ⟨m', hp.symm, (hf.imp hR).flip⟩

theorem perm_left {l l' : List α} {m : List β} (hp : l.Perm l') (h : Rearranged R l' m) : Rearranged R l m := by
  obtain ⟨k, hk, hf⟩ := h
  exact ⟨k, hp.trans hk, hf⟩

/-- Two steps make one. -/
theorem comp {T : β → γ → Prop} {l : List α} {m : List β} {n : List γ} (h : Rearranged R l m)
    (h' : Rearranged T m n) : Rearranged (fun a c => ∃ b, R a b ∧ T b c) l n := by
  obtain ⟨l', hl, hf⟩ := h
  obtain ⟨n', hg, hn⟩ := iff_forall₂_perm.1 h'
  have hfg : List.Forall₂ (fun a c => ∃ b, R a b ∧ T b c) l' n' := by
    clear hl hn h'
    induction hf generalizing n' with
    | nil =>
      cases hg
      exact .nil
    | cons hab _ ih =>
      cases hg with
      | cons hbc hg => exact .cons ⟨_, hab, hbc⟩ (ih _ hg)
  exact perm_left hl (iff_forall₂_perm.2 ⟨n', hfg, hn⟩)

theorem length_eq {l : List α} {m : List β} (h : Rearranged R l m) : l.length = m.length := by
  obtain ⟨l', hp, hf⟩ := h
  exact hp.length_eq.trans hf.length_eq

theorem imp_of_mem {R' : α → β → Prop} {l : List α} {m : List β} (hR : ∀ a ∈ l, ∀ b, R a b → R' a b)
    (h : Rearranged R l m) : Rearranged R' l m := by
  obtain ⟨l', hp, hf⟩ := h
  have hmem : ∀ a ∈ l', ∀ b, R a b → R' a b := fun a ha => hR a (hp.mem_iff.2 ha)
  exact ⟨l', hp, ((List.forall₂_and_left _ _).2 ⟨hmem, hf⟩).imp fun a b h => h.1 b h.2⟩

protected theorem append {l l' : List α} {m m' : List β} (h : Rearranged R l m) (h' : Rearranged R l' m') :
    Rearranged R (l ++ l') (m ++ m') := by
  obtain ⟨k, hp, hf⟩ := h
  obtain ⟨k', hp', hf'⟩ := h'
  exact ⟨k ++ k', hp.append hp', List.rel_append hf hf'⟩

protected theorem flatMap {l : List α} {m : List β} {f : α → List γ} {g : β → List δ} (h : Rearranged R l m)
    (hfg : ∀ a b, R a b → Rearranged S (f a) (g b)) : Rearranged S (l.flatMap f) (m.flatMap g) := by
  obtain ⟨l', hp, hf⟩ := h
  have hl : Rearranged S (l'.flatMap f) (m.flatMap g) := by
    clear hp
    induction hf with
    | nil => exact of_forall₂ .nil
    | cons h _ ih => exact (hfg _ _ h).append ih
  exact perm_left (hp.flatMap_right f) hl

protected theorem map {l : List α} {m : List β} {f : α → γ} {g : β → δ} (h : Rearranged R l m)
    (hfg : ∀ a b, R a b → S (f a) (g b)) : Rearranged S (l.map f) (m.map g) := by
  obtain ⟨l', hp, hf⟩ := h
  exact ⟨l'.map f, hp.map f, List.rel_map (fun a b => hfg a b) hf⟩

protected theorem flatten {l : List (List α)} {m : List (List β)} (h : Rearranged (List.Forall₂ R) l m) :
    Rearranged R l.flatten m.flatten := by
  obtain ⟨l', hp, hf⟩ := h
  exact ⟨l'.flatten, hp.flatten, List.rel_flatten hf⟩

protected theorem filter {p : α → Bool} {q : β → Bool} (hpq : ∀ a b, R a b → (p a ↔ q b)) {l : List α} {m : List β}
    (h : Rearranged R l m) : Rearranged R (l.filter p) (m.filter q) := by
  obtain ⟨l', hp, hf⟩ := h
  exact ⟨l'.filter p, hp.filter p, List.rel_filter (fun a b => hpq a b) hf⟩

/-- What holds of every counterpart of an item holds of the whole second list. -/
theorem forall_mem {l : List α} {m : List β} (h : Rearranged R l m) {P : β → Prop}
    (hP : ∀ a ∈ l, ∀ b, R a b → P b) : ∀ b ∈ m, P b := by
  obtain ⟨l', hp, hf⟩ := h
  intro b hb
  obtain ⟨i, hi, rfl⟩ := List.getElem_of_mem hb
  have hi' : i < l'.length := hf.length_eq ▸ hi
  exact hP l'[i] (hp.mem_iff.2 (List.getElem_mem hi')) _ (hf.get hi' hi)

theorem perm_of_eq {l m : List α} (h : Rearranged Eq l m) : l.Perm m := by
  obtain ⟨l', hp, hf⟩ := h
  rw [List.forall₂_eq_eq_eq] at hf
  exact hf ▸ hp

/-- If each item of the first list becomes another one, and each item of the second can follow, then so do the lists. -/
theorem transport {P : α → γ → Prop} {Q : β → δ → Prop} (hstep : ∀ a b c, R a b → P a c → ∃ d, Q b d ∧ S c d)
    {l : List α} {m : List β} {l₁ : List γ} (h : Rearranged R l m) (hl : List.Forall₂ P l l₁) :
    ∃ m₁, List.Forall₂ Q m m₁ ∧ Rearranged S l₁ m₁ := by
  obtain ⟨l', hp, hf⟩ := h
  obtain ⟨k, hk, hkl⟩ := List.perm_comp_forall₂ hp.symm hl
  obtain ⟨m₁, hm₁, hkm⟩ := forall₂_transport hstep hf hk
  exact ⟨m₁, hm₁, k, hkl.symm, hkm⟩

end Rearranged

end LintInference
