import LintInference.Configuration.Merge

/-!
# The laws of layers

Layers of configuration can be merged in any grouping, an empty layer changes nothing, and neither does a layer that is
laid over itself (`Layered`). These are the laws of the two ways in which a field is merged: the first value that is
given counts, or lists of names are put together. For the latter it matters that a name is looked for in all that was
put together before, so that names of an argument which are already there can be put in or left out beforehand
(`union_addName`).

Sections are merged field by field, and a section that is missing is a unit of its own, other than an empty one. The
laws hold for each section and for whole configurations (`Configuration.layered`).
-/

namespace LintInference

variable {α : Type}

/-- Merging is associative and idempotent, and the empty layer is its unit. -/
structure Layered (merge : α → α → α) (empty : α) : Prop where
  assoc : ∀ a b c, merge (merge a b) c = merge a (merge b c)
  empty_merge : ∀ a, merge empty a = a
  merge_empty : ∀ a, merge a empty = a
  merge_self : ∀ a, merge a a = a

theorem Layered.of_instances (merge : α → α → α) (empty : α) [h : Std.Associative merge]
    [Std.LawfulIdentity merge empty] [h' : Std.IdempotentOp merge] : Layered merge empty where
  assoc := h.assoc
  empty_merge := Std.LawfulLeftIdentity.left_id
  merge_empty := Std.LawfulRightIdentity.right_id
  merge_self := h'.idempotent

/-! ## Values that may be missing -/

/-- The first value that is given counts. -/
theorem layered_or : Layered (Option.or (α := α)) none := .of_instances _ _

theorem mergeOption_eq_merge (merge : α → α → α) : mergeOption merge = Option.merge merge := by
  funext a b
  cases a <;> cases b <;> rfl

/-- A unit is added, whether or not there is one. -/
theorem layered_mergeOption {merge : α → α → α} (hassoc : ∀ a b c, merge (merge a b) c = merge a (merge b c))
    (hself : ∀ a, merge a a = a) : Layered (mergeOption merge) none := by
  have : Std.Associative merge := ⟨hassoc⟩
  have : Std.IdempotentOp merge := ⟨hself⟩
  rw [mergeOption_eq_merge]
  exact .of_instances _ _

/-! ## Lists of names -/

theorem addName_of_mem {names : List String} {name : String} (h : name ∈ names) : addName names name = names :=
  if_pos h

theorem addName_of_not_mem {names : List String} {name : String} (h : name ∉ names) :
    addName names name = names ++ [name] := if_neg h

theorem mem_addName {names : List String} {name other : String} :
    other ∈ addName names name ↔ other ∈ names ∨ other = name := by
  by_cases h : name ∈ names
  · rw [addName_of_mem h]
    exact ⟨.inl, fun ho => ho.elim id fun he => he ▸ h⟩
  · rw [addName_of_not_mem h, List.mem_append, List.mem_singleton]

theorem union_cons (names : List String) (name : String) (others : List String) :
    union names (name :: others) = union (addName names name) others := rfl

theorem union_append (names others more : List String) :
    union names (others ++ more) = union (union names others) more := List.foldl_append

theorem mem_union {names others : List String} {name : String} :
    name ∈ union names others ↔ name ∈ names ∨ name ∈ others := by
  induction others generalizing names with
  | nil => simp [union]
  | cons other others ih => rw [union_cons, ih, mem_addName, List.mem_cons, or_assoc]

/-- Names that are all there already change nothing. -/
theorem union_eq_left {names others : List String} (h : others ⊆ names) : union names others = names := by
  induction others with
  | nil => rfl
  | cons other others ih =>
    obtain ⟨hother, hothers⟩ := List.cons_subset.1 h
    rw [union_cons, addName_of_mem hother, ih hothers]

/-- A name can be added to an argument or to the outcome. -/
theorem union_addName (names others : List String) (name : String) :
    union names (addName others name) = addName (union names others) name := by
  by_cases h : name ∈ others
  · rw [addName_of_mem h, addName_of_mem (mem_union.2 (.inr h))]
  · rw [addName_of_not_mem h, union_append]
    rfl

theorem union_assoc (names others more : List String) :
    union (union names others) more = union names (union others more) := by
  induction more generalizing others with
  | nil => rfl
  | cons name more ih => rw [union_cons, union_cons, ← union_addName, ih]

theorem union_self (names : List String) : union names names = names := union_eq_left (List.Subset.refl names)

/-- The first list stays as it is; of the other one, each name that is new comes once, in order of first occurrence. -/
theorem union_eq_append (names others : List String) :
    union names others = names ++ (others.filter (· ∉ names)).eraseDups := by
  induction others generalizing names with
  | nil => exact (List.append_nil names).symm
  | cons other others ih =>
    by_cases h : other ∈ names
    · rw [union_cons, addName_of_mem h, ih, List.filter_cons_of_neg (by simpa using h)]
    · have hfilter : others.filter (· ∉ names ++ [other]) = (others.filter (· ∉ names)).filter fun b => !b == other := by
        rw [List.filter_filter]
        refine List.filter_congr fun b _ => ?_
        by_cases hb : b = other <;> simp [hb]
      rw [union_cons, addName_of_not_mem h, ih, hfilter, List.filter_cons_of_pos (by simpa using h),
        List.eraseDups_cons, List.append_assoc, List.singleton_append]

/-- Lists may be missing; a missing one is not an empty one. -/
theorem layered_union : Layered (mergeOption union) none := layered_mergeOption union_assoc union_self

/-! ## Sections -/

theorem LinterSection.layered : Layered LinterSection.merge {} where
  assoc a b c := by simp only [merge, layered_or.assoc]
  empty_merge a := by simp only [merge, layered_or.empty_merge]
  merge_empty a := by simp only [merge, layered_or.merge_empty]
  merge_self a := by simp only [merge, layered_or.merge_self]

theorem SelectionSection.layered : Layered SelectionSection.merge {} where
  assoc a b c := by simp only [merge, layered_union.assoc, layered_or.assoc]
  empty_merge a := by simp only [merge, layered_union.empty_merge, layered_or.empty_merge]
  merge_empty a := by simp only [merge, layered_union.merge_empty, layered_or.merge_empty]
  merge_self a := by simp only [merge, layered_union.merge_self, layered_or.merge_self]

theorem OutputSection.layered : Layered OutputSection.merge {} where
  assoc a b c := by simp only [merge, layered_or.assoc]
  empty_merge a := by simp only [merge, layered_or.empty_merge]
  merge_empty a := by simp only [merge, layered_or.merge_empty]
  merge_self a := by simp only [merge, layered_or.merge_self]

namespace Configuration

theorem layered : Layered Configuration.merge {} := by
  have hlinter := layered_mergeOption LinterSection.layered.assoc LinterSection.layered.merge_self
  have hselection := layered_mergeOption SelectionSection.layered.assoc SelectionSection.layered.merge_self
  have houtput := layered_mergeOption OutputSection.layered.assoc OutputSection.layered.merge_self
  refine ⟨fun a b c => ?_, fun a => ?_, fun a => ?_, fun a => ?_⟩
  · simp only [merge, layered_or.assoc, hlinter.assoc, hselection.assoc, houtput.assoc]
  · simp only [merge, layered_or.empty_merge, hlinter.empty_merge, hselection.empty_merge, houtput.empty_merge]
  · simp only [merge, layered_or.merge_empty, hlinter.merge_empty, hselection.merge_empty, houtput.merge_empty]
  · simp only [merge, layered_or.merge_self, hlinter.merge_self, hselection.merge_self, houtput.merge_self]

/-- Configurations obey the laws of layers, and so does each kind of section on its own. -/
theorem layered_with_sections : Layered Configuration.merge {} ∧ Layered LinterSection.merge {} ∧
    Layered SelectionSection.merge {} ∧ Layered OutputSection.merge {} :=
  ⟨layered, LinterSection.layered, SelectionSection.layered, OutputSection.layered⟩

/-- Repeated names stay in the first layer and are dropped from the second; an empty section is there, and a missing one
is not. -/
example : Configuration.merge { selection := some { skipRules := some ["semi", "semi"] }, output := some {} }
      { selection := some { skipRules := some ["quotes", "semi", "quotes"] } } =
    { selection := some { skipRules := some ["semi", "semi", "quotes"] }, output := some {} } := by decide

end Configuration

end LintInference
