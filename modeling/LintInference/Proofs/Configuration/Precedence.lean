import LintInference.Proofs.Configuration.Layers

/-!
# Which layer counts

However many layers are merged, a field has the value of the first layer that sets it, and a section is there if some
layer has it. Only the rules to skip are put together: the first list stays as it is, and each further name comes once,
where it first occurs (`Configuration.settled_foldl`).

For the rules that take part this says that no layer brings back a rule that another one skips, that of the lists of the
only rules wanted the first one counts, and that the usual rules are skipped only if no layer says which ones are.
-/

namespace LintInference

variable {α β : Type}

/-! ## The first value -/

theorem findSome?_cons_eq_or (f : α → Option β) (a : α) (as : List α) :
    (a :: as).findSome? f = (f a).or (as.findSome? f) := by
  rw [List.findSome?_cons]
  cases f a <;> rfl

/-- If the first of two layers with a value counts, then so it does of all layers that are merged. -/
theorem foldl_eq_findSome? {merge : α → α → α} {f : α → Option β} (h : ∀ a b, f (merge a b) = (f a).or (f b)) (a : α)
    (as : List α) : f (as.foldl merge a) = (a :: as).findSome? f := by
  induction as generalizing a with
  | nil => rw [List.foldl_nil, findSome?_cons_eq_or, List.findSome?_nil, Option.or_none]
  | cons b as ih =>
    simp only [List.foldl_cons, ih, findSome?_cons_eq_or, h, Option.or_assoc]

/-- A field of a section for which the first value counts is such a field of the whole. -/
theorem bind_mergeOption {merge : α → α → α} {f : α → Option β} (h : ∀ a b, f (merge a b) = (f a).or (f b))
    (a b : Option α) : (mergeOption merge a b).bind f = (a.bind f).or (b.bind f) := by
  rcases a with _ | a <;> rcases b with _ | b
  · rfl
  · rfl
  · exact Option.or_none.symm
  · exact h a b

/-- A section is there if one of the two layers has it. -/
theorem isSome_mergeOption (merge : α → α → α) (a b : Option α) :
    (mergeOption merge a b).isSome = (a.isSome || b.isSome) := by
  cases a <;> cases b <;> rfl

theorem foldl_eq_any {merge : α → α → α} {p : α → Bool} (h : ∀ a b, p (merge a b) = (p a || p b)) (a : α)
    (as : List α) : p (as.foldl merge a) = (a :: as).any p := by
  induction as generalizing a with
  | nil => rw [List.foldl_nil, List.any_cons, List.any_nil, Bool.or_false]
  | cons b as ih => simp only [List.foldl_cons, ih, List.any_cons, h, Bool.or_assoc]

/-! ## Lists put together -/

/-- The first list and, after it, the names of the others that it does not have, each once where it first occurs. There
is no list if there is nothing to put together. -/
def accumulated : List (List String) → Option (List String)
  | [] => none
  | names :: later => some (names ++ (later.flatten.filter (· ∉ names)).eraseDups)

theorem accumulated_cons (names : List String) (later : List (List String)) :
    accumulated (names :: later) = some (union names later.flatten) := by
  rw [accumulated, union_eq_append]

/-- The first two lists can be put together beforehand. -/
theorem accumulated_union (names others : List String) (later : List (List String)) :
    accumulated (union names others :: later) = accumulated (names :: others :: later) := by
  rw [accumulated_cons, accumulated_cons, List.flatten_cons, union_append]

theorem mem_of_accumulated {lists : List (List String)} {names : List String} {name : String}
    (h : accumulated lists = some names) : name ∈ names ↔ ∃ l ∈ lists, name ∈ l := by
  cases lists with
  | nil => cases h
  | cons first later =>
    rw [accumulated_cons] at h
    cases h
    rw [mem_union, List.mem_flatten]
    simp

/-- Merged layers have the lists of all of them put together. -/
theorem foldl_eq_accumulated {merge : α → α → α} {f : α → Option (List String)}
    (h : ∀ a b, f (merge a b) = mergeOption union (f a) (f b)) (a : α) (as : List α) :
    f (as.foldl merge a) = accumulated ((a :: as).filterMap f) := by
  induction as generalizing a with
  | nil => cases hf : f a <;> simp [hf, accumulated]
  | cons b as ih =>
    rw [List.foldl_cons, ih, List.filterMap_cons, List.filterMap_cons, List.filterMap_cons, h]
    rcases f a with _ | names <;> rcases f b with _ | others
    · rfl
    · rfl
    · rfl
    · exact accumulated_union names others _

/-! ## Configurations -/

namespace Configuration

/-- The rules to skip, if the configuration says which. -/
def skipRules (c : Configuration) : Option (List String) := c.selection.bind (·.skipRules)

/-- The only rules wanted, if the configuration says which. -/
def onlyRules (c : Configuration) : Option (List String) := c.selection.bind (·.onlyRules)

/-- The configuration has of a field what the first layer has that sets it. -/
def FirstCounts (layers : List Configuration) (m : Configuration) (field : Configuration → Option β) : Prop :=
  field m = layers.findSome? field

/-- A section is there if some layer has it. -/
def SomeHas (layers : List Configuration) (m : Configuration) (part : Configuration → Option β) : Prop :=
  (part m).isSome = layers.any fun c => (part c).isSome

/-- What becomes of layers that are merged. -/
structure Settled (layers : List Configuration) (m : Configuration) : Prop where
  schema : FirstCounts layers m (·.schema)
  command : FirstCounts layers m (·.linter.bind (·.command))
  args : FirstCounts layers m (·.linter.bind (·.args))
  node : FirstCounts layers m (·.linter.bind (·.node))
  workingDirectory : FirstCounts layers m (·.linter.bind (·.workingDirectory))
  schemas : FirstCounts layers m (·.linter.bind (·.schemas))
  onlyRules : FirstCounts layers m (·.onlyRules)
  path : FirstCounts layers m (·.output.bind (·.path))
  overwrite : FirstCounts layers m (·.output.bind (·.overwrite))
  linter : SomeHas layers m (·.linter)
  selection : SomeHas layers m (·.selection)
  output : SomeHas layers m (·.output)
  /-- The rules to skip are put together. -/
  skipRules : m.skipRules = accumulated (layers.filterMap (·.skipRules))
  /-- A rule takes part unless a layer skips it; the usual rules are skipped if no layer says which ones are. Of the
  lists of the only rules wanted, the first one counts. -/
  includes : ∀ rule, m.selectionSettings.includes rule = true ↔
    (∀ c ∈ layers, ∀ names, c.skipRules = some names → rule ∉ names) ∧
    ((∀ c ∈ layers, c.skipRules = none) → rule ∉ Selection.usuallySkipped) ∧
    ∀ only, layers.findSome? (·.onlyRules) = some only → rule ∈ only

theorem includes_iff (c : Configuration) (rule : String) : c.selectionSettings.includes rule = true ↔
    rule ∉ c.skipRules.getD Selection.usuallySkipped ∧ ∀ only, c.onlyRules = some only → rule ∈ only := by
  have honly : (c.onlyRules.elim true fun only => only.contains rule) = true ↔
      ∀ only, c.onlyRules = some only → rule ∈ only := by
    cases c.onlyRules <;> simp
  rw [Selection.includes, Bool.and_eq_true]
  refine and_congr ?_ honly
  simp [selectionSettings, skipRules]

/-- The list that is put together, or the usual one where there is nothing to put together. -/
theorem not_mem_accumulated_iff (layers : List Configuration) (usual : List String) (rule : String) :
    rule ∉ (accumulated (layers.filterMap (·.skipRules))).getD usual ↔
      (∀ c ∈ layers, ∀ names, c.skipRules = some names → rule ∉ names) ∧
      ((∀ c ∈ layers, c.skipRules = none) → rule ∉ usual) := by
  cases h : accumulated (layers.filterMap (·.skipRules)) with
  | none =>
    have hnone : ∀ c ∈ layers, c.skipRules = none := by
      cases hl : layers.filterMap (·.skipRules) with
      | nil => exact List.filterMap_eq_nil_iff.1 hl
      | cons names later =>
        rw [hl, accumulated_cons] at h
        cases h
    refine ⟨fun hr => ⟨fun c hc names hn => ?_, fun _ => hr⟩, fun hr => hr.2 hnone⟩
    cases hn.symm.trans (hnone c hc)
  | some names =>
    have hmem : rule ∈ names ↔ ∃ c ∈ layers, ∃ l, c.skipRules = some l ∧ rule ∈ l := by
      rw [mem_of_accumulated h]
      simp only [List.mem_filterMap]
      exact ⟨fun ⟨l, ⟨c, hc, hl⟩, hr⟩ => ⟨c, hc, l, hl, hr⟩, fun ⟨c, hc, l, hl, hr⟩ => ⟨l, ⟨c, hc, hl⟩, hr⟩⟩
    have hsome : ¬ ∀ c ∈ layers, c.skipRules = none := fun hnone => by
      rw [List.filterMap_eq_nil_iff.2 hnone] at h
      cases h
    rw [Option.getD_some, hmem]
    simp only [not_exists, not_and]
    exact ⟨fun hr => ⟨hr, fun hnone => absurd hnone hsome⟩, fun hr => hr.1⟩

section Merged

variable (c : Configuration) (cs : List Configuration)

theorem firstCounts_of_merge {field : Configuration → Option β}
    (h : ∀ a b : Configuration, field (a.merge b) = (field a).or (field b)) :
    FirstCounts (c :: cs) (cs.foldl merge c) field := foldl_eq_findSome? h c cs

/-- The field of a section for which the first value counts. -/
theorem firstCounts_of_section {part : Configuration → Option α} {mergePart : α → α → α} {f : α → Option β}
    (hpart : ∀ a b : Configuration, part (a.merge b) = mergeOption mergePart (part a) (part b))
    (h : ∀ a b, f (mergePart a b) = (f a).or (f b)) :
    FirstCounts (c :: cs) (cs.foldl merge c) fun c => (part c).bind f :=
  firstCounts_of_merge c cs fun a b => by rw [hpart, bind_mergeOption h]

theorem someHas_of_merge {part : Configuration → Option α} {mergePart : α → α → α}
    (h : ∀ a b : Configuration, part (a.merge b) = mergeOption mergePart (part a) (part b)) :
    SomeHas (c :: cs) (cs.foldl merge c) part :=
  foldl_eq_any (p := fun c => (part c).isSome) (fun a b => by rw [h, isSome_mergeOption]) c cs

theorem skipRules_merge (a b : Configuration) : (a.merge b).skipRules = mergeOption union a.skipRules b.skipRules := by
  rcases a with ⟨_, _, _ | a, _⟩ <;> rcases b with ⟨_, _, _ | b, _⟩
  · rfl
  · rfl
  · exact (layered_union.merge_empty a.skipRules).symm
  · rfl

theorem skipRules_foldl : (cs.foldl merge c).skipRules = accumulated ((c :: cs).filterMap (·.skipRules)) :=
  foldl_eq_accumulated skipRules_merge c cs

/-- Of a field the first layer that sets it counts, sections come from wherever they are, and skipped rules add up. -/
theorem settled_foldl : Settled (c :: cs) (cs.foldl merge c) where
  schema := firstCounts_of_merge c cs fun _ _ => rfl
  command := firstCounts_of_section c cs (fun _ _ => rfl) fun _ _ => rfl
  args := firstCounts_of_section c cs (fun _ _ => rfl) fun _ _ => rfl
  node := firstCounts_of_section c cs (fun _ _ => rfl) fun _ _ => rfl
  workingDirectory := firstCounts_of_section c cs (fun _ _ => rfl) fun _ _ => rfl
  schemas := firstCounts_of_section c cs (fun _ _ => rfl) fun _ _ => rfl
  onlyRules := firstCounts_of_section c cs (fun _ _ => rfl) fun _ _ => rfl
  path := firstCounts_of_section c cs (fun _ _ => rfl) fun _ _ => rfl
  overwrite := firstCounts_of_section c cs (fun _ _ => rfl) fun _ _ => rfl
  linter := someHas_of_merge c cs fun _ _ => rfl
  selection := someHas_of_merge c cs fun _ _ => rfl
  output := someHas_of_merge c cs fun _ _ => rfl
  skipRules := skipRules_foldl c cs
  includes rule := by
    have honly : (cs.foldl merge c).onlyRules = (c :: cs).findSome? (·.onlyRules) :=
      firstCounts_of_section c cs (fun _ _ => rfl) fun _ _ => rfl
    rw [includes_iff, skipRules_foldl, not_mem_accumulated_iff, honly, and_assoc]

end Merged

end Configuration

end LintInference
