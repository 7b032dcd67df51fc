import LintInference.Shell.Regex

/-!
# What regular expressions match

What a part of an expression may take off the front of a text is a relation (`Regex.Takes`): groups that were taken
before, the text, and the groups and the text that are left. Matching hands on to the rest of the expression whatever it
takes, so it succeeds only where the rest succeeds after something that the part may take (`Regex.part_sound`). A search
comes to the first place in a line where there is a match (`Regex.search_sound`).

How deep matching goes is bounded, so there may be more to take than it finds.
-/

namespace LintInference.Shell.Regex

variable {line cs rest : Raw} {groups groups' : Groups}

mutual

/-- The part may take what stands between the two texts, of which the second is the end of the first. -/
inductive Takes (line : Raw) : Regex → Groups → Raw → Groups → Raw → Prop where
  | char (c : Char) (groups : Groups) (cs : Raw) : Takes line (.char c) groups (c :: cs) groups cs
  | one (c : Char) (groups : Groups) (cs : Raw) : Takes line .one groups (c :: cs) groups cs
  | set {s : CharSet} {c : Char} (groups : Groups) (cs : Raw) : s.has c = true →
      Takes line (.set s) groups (c :: cs) groups cs
  | start {cs : Raw} (groups : Groups) : cs.length = line.length → Takes line .start groups cs groups cs
  | finish (groups : Groups) : Takes line .finish groups [] groups []
  | again (g : Nat) (groups : Groups) (cs : Raw) :
      Takes line (.again g) groups (groupText line groups g ++ cs) groups cs
  | group (g : Nat) {branch : List Regex} {branches : List (List Regex)} {groups groups' : Groups} {cs rest : Raw} :
      branch ∈ branches → TakesAll line branch groups cs groups' rest →
        Takes line (.group g branches) groups cs ((g, cs.length, rest.length) :: groups') rest
  | enough (r : Regex) (most : Option Nat) (groups : Groups) (cs : Raw) :
      Takes line (.times r 0 most) groups cs groups cs
  | more {r : Regex} {least : Nat} {most : Option Nat} {groups groups' groups'' : Groups} {cs cs' rest : Raw} :
      most ≠ some 0 → Takes line r groups cs groups' cs' →
        Takes line (.times r (least - 1) (most.map (· - 1))) groups' cs' groups'' rest →
          Takes line (.times r least most) groups cs groups'' rest

/-- The parts may take it, one after the other. -/
inductive TakesAll (line : Raw) : List Regex → Groups → Raw → Groups → Raw → Prop where
  | nil (groups : Groups) (cs : Raw) : TakesAll line [] groups cs groups cs
  | cons {r : Regex} {rs : List Regex} {groups groups' groups'' : Groups} {cs cs' rest : Raw} :
      Takes line r groups cs groups' cs' → TakesAll line rs groups' cs' groups'' rest →
        TakesAll line (r :: rs) groups cs groups'' rest

end

/-! ## Matching -/

/-- With a bound on the depth, matching a part succeeds only if the rest does after something that the part may take. -/
def SoundAt (n : Nat) : Prop :=
  (∀ line r groups cs k out, part line n r groups cs k = some out →
    ∃ groups' rest, Takes line r groups cs groups' rest ∧ k groups' rest = some out) ∧
  (∀ line rs groups cs k out, sequence line n rs groups cs k = some out →
    ∃ groups' rest, TakesAll line rs groups cs groups' rest ∧ k groups' rest = some out) ∧
  ∀ line bs groups cs k out, oneOf line n bs groups cs k = some out →
    ∃ b ∈ bs, ∃ groups' rest, TakesAll line b groups cs groups' rest ∧ k groups' rest = some out

theorem part_step {n : Nat} (ih : SoundAt n) {r : Regex} {k : Rest} {out : Groups}
    (h : part line (n + 1) r groups cs k = some out) :
    ∃ groups' rest, Takes line r groups cs groups' rest ∧ k groups' rest = some out := by
  obtain ⟨hpart, -, honeOf⟩ := ih
  cases r with
  | char c =>
    cases cs with
    | nil => simp [part] at h
    | cons d cs =>
      simp only [part] at h
      split at h
      next hc => exact ⟨groups, cs, hc ▸ .char c groups cs, h⟩
      next => cases h
  | one =>
    cases cs with
    | nil => simp [part] at h
    | cons c cs => exact ⟨groups, cs, .one c groups cs, by simpa [part] using h⟩
  | set s =>
    cases cs with
    | nil => simp [part] at h
    | cons c cs =>
      simp only [part] at h
      split at h
      next hc => exact ⟨groups, cs, .set groups cs hc, h⟩
      next => cases h
  | start =>
    simp only [part] at h
    split at h
    next hc => exact ⟨groups, cs, .start groups hc, h⟩
    next => cases h
  | finish =>
    simp only [part] at h
    split at h
    next hc =>
      obtain rfl := List.isEmpty_iff.1 hc
      exact ⟨groups, [], .finish groups, h⟩
    next => cases h
  | again g =>
    simp only [part] at h
    split at h
    next hc =>
      obtain ⟨rest, rfl⟩ := List.isPrefixOf_iff_prefix.1 hc
      exact ⟨groups, rest, .again g groups rest, by simpa using h⟩
    next => cases h
  | group g bs =>
    simp only [part] at h
    obtain ⟨b, hb, groups', rest, htakes, hk⟩ := honeOf _ _ _ _ _ _ h
    exact ⟨_, rest, .group g hb htakes, hk⟩
  | times r least most =>
    simp only [part, Option.or_eq_some_iff] at h
    rcases h with h | ⟨-, h⟩
    · split at h
      next => cases h
      next hmost =>
        obtain ⟨groups', cs', htakes, hmore⟩ := hpart _ _ _ _ _ _ h
        split at hmore
        next => cases hmore
        next =>
          obtain ⟨groups'', rest, htakes', hk⟩ := hpart _ _ _ _ _ _ hmore
          exact ⟨groups'', rest, .more hmost htakes htakes', hk⟩
    · split at h
      next hleast =>
        subst hleast
        exact ⟨groups, cs, .enough r most groups cs, h⟩
      next => cases h

theorem sequence_step {n : Nat} (ih : SoundAt n) {rs : List Regex} {k : Rest} {out : Groups}
    (h : sequence line (n + 1) rs groups cs k = some out) :
    ∃ groups' rest, TakesAll line rs groups cs groups' rest ∧ k groups' rest = some out := by
  obtain ⟨hpart, hsequence, -⟩ := ih
  cases rs with
  | nil => exact ⟨groups, cs, .nil groups cs, by simpa [sequence] using h⟩
  | cons r rs =>
    rw [sequence] at h
    obtain ⟨groups', cs', htakes, hrest⟩ := hpart _ _ _ _ _ _ h
    obtain ⟨groups'', rest, htakes', hk⟩ := hsequence _ _ _ _ _ _ hrest
    exact ⟨groups'', rest, .cons htakes htakes', hk⟩

theorem oneOf_step {n : Nat} (ih : SoundAt n) {bs : List (List Regex)} {k : Rest} {out : Groups}
    (h : oneOf line (n + 1) bs groups cs k = some out) :
    ∃ b ∈ bs, ∃ groups' rest, TakesAll line b groups cs groups' rest ∧ k groups' rest = some out := by
  obtain ⟨-, hsequence, honeOf⟩ := ih
  cases bs with
  | nil => simp [oneOf] at h
  | cons b bs =>
    rw [oneOf, Option.or_eq_some_iff] at h
    rcases h with h | ⟨-, h⟩
    · exact ⟨b, List.mem_cons_self, hsequence _ _ _ _ _ _ h⟩
    · obtain ⟨b', hb, htakes⟩ := honeOf _ _ _ _ _ _ h
      exact ⟨b', List.mem_cons_of_mem b hb, htakes⟩

/-- However deep matching may go. -/
theorem soundAt (n : Nat) : SoundAt n := by
  induction n with
  | zero => simp [SoundAt, part, sequence, oneOf]
  | succ n ih =>
    exact ⟨fun _ _ _ _ _ _ => part_step ih, fun _ _ _ _ _ _ => sequence_step ih, fun _ _ _ _ _ _ => oneOf_step ih⟩

/-- Matching a part succeeds only where the rest does after something that the part may take. -/
theorem part_sound {n : Nat} {r : Regex} {k : Rest} {out : Groups} (h : part line n r groups cs k = some out) :
    ∃ groups' rest, Takes line r groups cs groups' rest ∧ k groups' rest = some out :=
  (soundAt n).1 _ _ _ _ _ _ h

/-! ## Searching -/

/-- What is taken stands at the front. -/
theorem Takes.exists_append {r : Regex} (h : Takes line r groups cs groups' rest) : ∃ t, cs = t ++ rest := by
  induction h using Takes.rec (motive_2 := fun _ _ cs _ rest _ => ∃ t, cs = t ++ rest) with
  | char c groups cs | one c groups cs | set groups cs _ => exact ⟨[_], rfl⟩
  | start groups _ | finish groups | enough r most groups cs => exact ⟨[], rfl⟩
  | again g groups cs => exact ⟨_, rfl⟩
  | group g _ _ ih => exact ih
  | more _ _ _ ih ih' =>
    obtain ⟨t, rfl⟩ := ih
    obtain ⟨u, rfl⟩ := ih'
    exact ⟨t ++ u, (List.append_assoc t u _).symm⟩
  | nil groups cs => exact ⟨[], rfl⟩
  | cons _ _ ih ih' =>
    obtain ⟨t, rfl⟩ := ih
    obtain ⟨u, rfl⟩ := ih'
    exact ⟨t ++ u, (List.append_assoc t u _).symm⟩

/-- A search comes to the first place where matching succeeds, and there is a match from there on. -/
theorem search_sound {depth : Nat} {r : Regex} {t : Raw} (h : search line depth r cs = some (t, groups)) :
    ∃ u rest, cs = t ++ u ∧ Takes line r [] u groups rest ∧
      ∀ t' u', cs = t' ++ u' → t'.length < t.length → matchFront line depth r u' = none := by
  have hmatch {u : Raw} {groups : Groups} (h : matchFront line depth r u = some groups) :
      ∃ rest, Takes line r [] u groups rest := by
    obtain ⟨groups', rest, htakes, hk⟩ := part_sound h
    cases hk
    exact ⟨rest, htakes⟩
  induction cs generalizing t with
  | nil =>
    rw [search, Option.map_eq_some_iff] at h
    obtain ⟨groups', hfront, heq⟩ := h
    cases heq
    obtain ⟨rest, htakes⟩ := hmatch hfront
    exact ⟨[], rest, rfl, htakes, fun _ _ _ hlt => absurd hlt (Nat.not_lt_zero _)⟩
  | cons c cs ih =>
    rw [search] at h
    split at h
    next groups' hfront =>
      cases h
      obtain ⟨rest, htakes⟩ := hmatch hfront
      exact ⟨c :: cs, rest, rfl, htakes, fun _ _ _ hlt => absurd hlt (Nat.not_lt_zero _)⟩
    next hfront =>
      rw [Option.map_eq_some_iff] at h
      obtain ⟨⟨t, groups'⟩, hsearch, heq⟩ := h
      cases heq
      obtain ⟨u, rest, rfl, htakes, hfirst⟩ := ih hsearch
      refine ⟨u, rest, rfl, htakes, fun t' u' heq hlt => ?_⟩
      cases t' with
      | nil =>
        obtain rfl : c :: (t ++ u) = u' := heq
        exact hfront
      | cons d t' => exact hfirst t' u' (List.cons.inj heq).2 (Nat.lt_of_succ_lt_succ hlt)

end LintInference.Shell.Regex
