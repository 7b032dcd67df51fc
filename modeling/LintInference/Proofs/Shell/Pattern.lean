import LintInference.Shell.Fields

/-!
# What patterns match

A part of a pattern stands for some texts (`Glob.Denotes`), and a pattern spells a text that is made of texts for its
parts (`Glob.Spells`). Matching goes through the text character by character, and tries a star with nothing before it
tries it with one character more. It finds out what the pattern spells (`Glob.matches_iff`).

What is quoted stands for itself: a quoted text as a pattern spells that text alone (`matches_patternOf_quoted`). Where
a pattern is cut off a text, it is the shortest or the longest part that the pattern spells (`cutMatch_cases`).
-/

namespace LintInference.Shell

namespace Glob

variable {g : Glob} {gs hs : List Glob} {t : Raw}

/-- The part stands for the text. -/
def Denotes : Glob → Raw → Prop
  | .char c, t => t = [c]
  | .one, t => ∃ c, t = [c]
  | .any, _ => True
  | .set s, t => ∃ c, s.has c = true ∧ t = [c]

/-- The text is made of texts for the parts. -/
inductive Spells : List Glob → Raw → Prop where
  | nil : Spells [] []
  | cons {g : Glob} {gs : List Glob} {t u : Raw} : g.Denotes t → Spells gs u → Spells (g :: gs) (t ++ u)

theorem spells_nil_iff : Spells [] t ↔ t = [] := by
  constructor
  · rintro ⟨⟩
    rfl
  · rintro rfl
    exact .nil

theorem spells_cons_iff : Spells (g :: gs) t ↔ ∃ u v, t = u ++ v ∧ g.Denotes u ∧ Spells gs v := by
  constructor
  · rintro ⟨⟩
    exact ⟨_, _, rfl, ‹_›, ‹_›⟩
  · rintro ⟨u, v, rfl, hu, hv⟩
    exact .cons hu hv

/-- One pattern after the other. -/
theorem spells_append_iff : Spells (gs ++ hs) t ↔ ∃ u v, t = u ++ v ∧ Spells gs u ∧ Spells hs v := by
  induction gs generalizing t with
  | nil =>
    simp only [List.nil_append, spells_nil_iff]
    constructor
    · exact fun h => ⟨[], t, rfl, rfl, h⟩
    · rintro ⟨_, v, rfl, rfl, hv⟩
      exact hv
  | cons g gs ih =>
    simp only [List.cons_append, spells_cons_iff, ih]
    constructor
    · rintro ⟨u, _, rfl, hu, v, w, rfl, hv, hw⟩
      exact ⟨u ++ v, w, (List.append_assoc u v w).symm, ⟨u, v, rfl, hu, hv⟩, hw⟩
    · rintro ⟨_, w, rfl, ⟨u, v, rfl, hu, hv⟩, hw⟩
      exact ⟨u, v ++ w, List.append_assoc u v w, hu, v, w, rfl, hv, hw⟩

/-! ## Matching -/

/-- A part that stands for single characters takes the first one. -/
theorem spells_single_iff {p : Char → Prop} (h : ∀ u, g.Denotes u ↔ ∃ c, p c ∧ u = [c]) (c : Char) :
    Spells (g :: gs) (c :: t) ↔ p c ∧ Spells gs t := by
  rw [spells_cons_iff]
  constructor
  · rintro ⟨u, v, huv, hu, hv⟩
    obtain ⟨d, hd, rfl⟩ := (h u).1 hu
    obtain ⟨rfl, rfl⟩ := List.cons.inj huv
    exact ⟨hd, hv⟩
  · rintro ⟨hc, ht⟩
    exact ⟨[c], t, rfl, (h [c]).2 ⟨c, hc, rfl⟩, ht⟩

theorem spells_any_nil_iff : Spells (.any :: gs) [] ↔ Spells gs [] := by
  rw [spells_cons_iff]
  constructor
  · rintro ⟨u, v, huv, -, hv⟩
    obtain ⟨rfl, rfl⟩ := List.append_eq_nil_iff.1 huv.symm
    exact hv
  · exact fun h => ⟨[], [], rfl, trivial, h⟩

/-- A star is nothing, or it goes on for another character. -/
theorem spells_any_cons_iff {c : Char} : Spells (.any :: gs) (c :: t) ↔ Spells gs (c :: t) ∨ Spells (.any :: gs) t := by
  simp only [spells_cons_iff]
  constructor
  · rintro ⟨u, v, huv, -, hv⟩
    cases u with
    | nil => exact .inl (huv ▸ hv)
    | cons d u =>
      obtain ⟨rfl, rfl⟩ := List.cons.inj huv
      exact .inr ⟨u, v, rfl, trivial, hv⟩
  · rintro (h | ⟨u, v, rfl, -, hv⟩)
    · exact ⟨[], c :: t, rfl, trivial, h⟩
    · exact ⟨c :: u, v, rfl, trivial, hv⟩

/-- Matching finds out whether the pattern spells the text. -/
theorem matches_iff (gs : List Glob) (t : Raw) : Glob.matches gs t = true ↔ Spells gs t := by
  induction gs, t using Glob.matches.induct with
  | case1 t => rw [Glob.matches, spells_nil_iff, List.isEmpty_iff]
  | case2 gs ih => rw [Glob.matches, ih, spells_any_nil_iff]
  | case3 gs c cs ih ih' => rw [Glob.matches, Bool.or_eq_true, ih, ih', spells_any_cons_iff]
  | case4 gs c cs ih =>
    have hone (u : Raw) : Denotes .one u ↔ ∃ c, True ∧ u = [c] := by simp [Denotes]
    rw [Glob.matches, ih, spells_single_iff hone, true_and]
  | case5 g gs c cs ih =>
    have hchar (u : Raw) : Denotes (.char g) u ↔ ∃ c, g = c ∧ u = [c] := by simp [Denotes]
    rw [Glob.matches, Bool.and_eq_true, ih, spells_single_iff hchar, decide_eq_true_iff]
  | case6 s gs c cs ih =>
    have hset (u : Raw) : Denotes (.set s) u ↔ ∃ c, s.has c = true ∧ u = [c] := by simp [Denotes]
    rw [Glob.matches, Bool.and_eq_true, ih, spells_single_iff hset]
  | case7 g gs hg =>
    cases g with
    | any => exact absurd rfl hg
    | one | char _ | set _ => simp [Glob.matches, spells_cons_iff, Denotes]

/-! ## Quoted texts -/

theorem ofText_quoted (t : Raw) {n : Nat} (h : t.length ≤ n) : ofText n (t.map (·, true)) = t.map .char := by
  induction t generalizing n with
  | nil => cases n <;> rfl
  | cons c t ih =>
    cases n with
    | zero => cases h
    | succ n => exact congrArg _ (ih (Nat.le_of_succ_le_succ h))

/-- Characters spell themselves. -/
theorem spells_chars_iff {u : Raw} : Spells (t.map .char) u ↔ u = t := by
  induction t generalizing u with
  | nil => exact spells_nil_iff
  | cons c t ih =>
    rw [List.map_cons, spells_cons_iff]
    simp [Denotes, ih]

end Glob

/-- A quoted text as a pattern matches that text alone. -/
theorem matches_patternOf_quoted (t u : Raw) : Glob.matches (patternOf [.quoted t]) u = true ↔ u = t := by
  have hpattern : patternOf [.quoted t] = t.map .char := by
    rw [patternOf, List.flatMap_singleton]
    exact Glob.ofText_quoted t (by simp)
  rw [hpattern, Glob.matches_iff, Glob.spells_chars_iff]

/-! ## Cutting -/

namespace Alteration

variable {how : Alteration} {t : Raw}

/-- What is cut off stands at the beginning of the text. -/
def AtStart : Alteration → Bool
  | .cutStart | .cutStartLongest => true
  | _ => false

/-- As little as possible is cut off. -/
def Shortest : Alteration → Bool
  | .cutStart | .cutEnd => true
  | _ => false

/-- The text is the part that is cut off and what is left of it. -/
def Splits (how : Alteration) (part left t : Raw) : Prop := t = if how.AtStart then part ++ left else left ++ part

/-- The first part is cut off rather than the other one. -/
def Prefers (how : Alteration) (part other : Raw) : Prop :=
  if how.Shortest then part.length ≤ other.length else other.length ≤ part.length

/-- The lengths of parts, as they are tried. -/
def sizes (how : Alteration) (t : Raw) : List Nat :=
  if how.Shortest then List.range (t.length + 1) else (List.range (t.length + 1)).reverse

/-- The part of a length. -/
def part (how : Alteration) (t : Raw) (k : Nat) : Raw := if how.AtStart then t.take k else t.drop (t.length - k)

/-- What is left without the part of a length. -/
def left (how : Alteration) (t : Raw) (k : Nat) : Raw := if how.AtStart then t.drop k else t.take (t.length - k)

theorem splits_part (k : Nat) : how.Splits (how.part t k) (how.left t k) t := by
  rw [Splits, part, left]
  split
  · exact (List.take_append_drop k t).symm
  · exact (List.take_append_drop _ t).symm

theorem mem_sizes {k : Nat} : k ∈ how.sizes t ↔ k ≤ t.length := by
  rw [sizes]
  split
  · rw [List.mem_range, Nat.lt_succ_iff]
  · rw [List.mem_reverse, List.mem_range, Nat.lt_succ_iff]

/-- A part is the one of its length. -/
theorem part_length {other left : Raw} (h : how.Splits other left t) :
    other.length ∈ how.sizes t ∧ how.part t other.length = other := by
  rw [mem_sizes, part]
  rw [Splits] at h
  split at h
  next hstart =>
    subst h
    rw [if_pos hstart, List.length_append]
    exact ⟨Nat.le_add_right _ _, List.take_left⟩
  next hstart =>
    subst h
    rw [if_neg hstart, List.length_append, Nat.add_sub_cancel]
    exact ⟨Nat.le_add_left _ _, List.drop_left⟩

theorem length_part {k : Nat} (h : k ≤ t.length) : (how.part t k).length = k := by
  rw [part]
  split
  · rw [List.length_take, Nat.min_eq_left h]
  · rw [List.length_drop, Nat.sub_sub_self h]

/-- The preferred parts are tried first. -/
theorem pairwise_prefers (how : Alteration) (t : Raw) :
    (how.sizes t).Pairwise fun j k => how.Prefers (how.part t j) (how.part t k) := by
  have horder : (how.sizes t).Pairwise fun j k => if how.Shortest then j ≤ k else k ≤ j := by
    rw [sizes]
    split
    next h => simpa only [h, if_true] using List.pairwise_le_range
    next h => simpa only [h, if_false, List.pairwise_reverse] using List.pairwise_le_range
  refine horder.imp_of_mem fun hj hk h => ?_
  rw [Prefers, length_part (mem_sizes.1 hj), length_part (mem_sizes.1 hk)]
  exact h

end Alteration

/-- What comes first in a list in order is found first. -/
theorem rel_of_find?_eq_some {α : Type} {R : α → α → Prop} {p : α → Bool} {as : List α} {a b : α}
    (hp : as.Pairwise R) (h : as.find? p = some a) (hb : b ∈ as) (hpb : p b = true) : a = b ∨ R a b := by
  obtain ⟨-, before, after, rfl, hbefore⟩ := List.find?_eq_some_iff_append.1 h
  rcases List.mem_append.1 hb with hb | hb
  · have hnot := hbefore b hb
    rw [hpb] at hnot
    cases hnot
  · rcases List.mem_cons.1 hb with rfl | hb
    · exact .inl rfl
    · exact .inr ((List.pairwise_cons.1 (List.pairwise_append.1 hp).2.1).1 b hb)

theorem cutMatch_eq {how : Alteration} (hhow : how ∈ [.cutStart, .cutStartLongest, .cutEnd, .cutEndLongest])
    (gs : List Glob) (t : Raw) :
    cutMatch how gs t = ((how.sizes t).find? fun k => Glob.matches gs (how.part t k)).elim t (how.left t) := by
  simp only [List.mem_cons, List.not_mem_nil, or_false] at hhow
  -- The four ways differ in the lengths and the parts that they try.
  rcases hhow with rfl | rfl | rfl | rfl
  all_goals
    unfold cutMatch
    simp only [Alteration.sizes, Alteration.part, Alteration.AtStart, Alteration.Shortest, if_true, Bool.false_eq_true,
      if_false]
    cases List.find? _ _ <;> rfl

/-- The text is cut at a part that the pattern spells, such that no other one is preferred. It stays whole only if there
is no such part. -/
theorem cutMatch_cases {how : Alteration} (hhow : how ∈ [.cutStart, .cutStartLongest, .cutEnd, .cutEndLongest])
    (gs : List Glob) (t : Raw) :
    (∃ part, how.Splits part (cutMatch how gs t) t ∧ Glob.Spells gs part ∧
      ∀ other left, how.Splits other left t → Glob.Spells gs other → how.Prefers part other) ∨
    cutMatch how gs t = t ∧ ∀ other left, how.Splits other left t → ¬ Glob.Spells gs other := by
  have htried {other left : Raw} (hother : how.Splits other left t) (hspells : Glob.Spells gs other) :
      Glob.matches gs (how.part t other.length) = true := by
    rw [(Alteration.part_length hother).2]
    exact (Glob.matches_iff gs other).2 hspells
  rw [cutMatch_eq hhow]
  cases hfind : (how.sizes t).find? fun k => Glob.matches gs (how.part t k) with
  | none =>
    refine .inr ⟨rfl, fun other left hother hspells => ?_⟩
    exact List.find?_eq_none.1 hfind _ (Alteration.part_length hother).1 (htried hother hspells)
  | some k =>
    have hmatches : Glob.matches gs (how.part t k) = true := (List.find?_eq_some_iff_append.1 hfind).1
    refine .inl ⟨how.part t k, Alteration.splits_part k, (Glob.matches_iff gs _).1 hmatches,
      fun other left hother hspells => ?_⟩
    obtain ⟨hmem, hpart⟩ := Alteration.part_length hother
    rcases rel_of_find?_eq_some (how.pairwise_prefers t) hfind hmem (htried hother hspells) with rfl | h
    · rw [hpart, Alteration.Prefers]
      split <;> exact Nat.le_refl _
    · rwa [hpart] at h

end LintInference.Shell
