import LintInference.Proofs.Schema.Induction

/-!
# Enumeration factors through its seed

`appendAll seed ws` is every candidate of the seed with every suffix, the suffix changing last. It is associative, and the
list of the empty candidate alone is its unit. What a schema gives for a seed is `appendAll` of that seed and of what it
gives for the empty candidate (`enumerate_eq_appendAll`), so a schema is known by its list of suffixes
(`enumerate_factors`).
-/

namespace LintInference.Schema

/-! ## Candidates with suffixes -/

/-- Every candidate with every suffix, the suffix changing last. -/
def appendAll (seed ws : List Candidate) : List Candidate := ws.flatMap fun w => seed.map (· ++ w)

theorem appendAll_nil (seed : List Candidate) : appendAll seed [] = [] := rfl

@[simp] theorem appendAll_unit (seed : List Candidate) : appendAll seed [[]] = seed := by simp [appendAll]

@[simp] theorem unit_appendAll (ws : List Candidate) : appendAll [[]] ws = ws := by simp [appendAll]

theorem appendAll_append (seed ws ws' : List Candidate) :
    appendAll seed (ws ++ ws') = appendAll seed ws ++ appendAll seed ws' := by simp [appendAll]

theorem appendAll_appendAll (seed ws ws' : List Candidate) :
    appendAll (appendAll seed ws) ws' = appendAll seed (appendAll ws ws') := by
  simp [appendAll, List.flatMap_assoc, List.flatMap_map, List.map_flatMap, Function.comp_def]

theorem appendEach_eq_appendAll (seed : List Candidate) (values : List Json) :
    appendEach seed values = appendAll seed (appendEach [[]] values) := by
  simp [appendEach, appendAll, Candidate.extend, List.flatMap_assoc]

/-- One suffix for each value. -/
theorem appendEach_unit (values : List Json) : appendEach [[]] values = values.map fun v => [v] := by
  rw [appendEach, List.map_eq_flatMap]
  rfl

theorem mem_appendAll {seed ws : List Candidate} {c : Candidate} :
    c ∈ appendAll seed ws ↔ ∃ c₀ ∈ seed, ∃ w ∈ ws, c = c₀ ++ w := by
  simp only [appendAll, List.mem_flatMap, List.mem_map]
  constructor
  · rintro ⟨w, hw, c₀, hc, rfl⟩
    exact ⟨c₀, hc, w, hw, rfl⟩
  · rintro ⟨c₀, hc, w, hw, rfl⟩
    exact ⟨w, hw, c₀, hc, rfl⟩

/-! ## Factoring -/

/-- What the schema gives for a seed is the seed with the schema's suffixes, or its failure. -/
def Factors (s : Schema) : Prop := ∀ seed, enumerate s seed = (enumerate s [[]]).map (appendAll seed)

/-- One place after the other: the suffixes of the first are the seed of the next. -/
theorem enumerateEach_eq_appendAll {ss : List Schema} (h : ∀ s ∈ ss, Factors s) (seed : List Candidate) :
    enumerateEach ss seed = (enumerateEach ss [[]]).map (appendAll seed) := by
  induction ss generalizing seed with
  | nil => simp [enumerateEach, Except.map]
  | cons s ss ih =>
    have ih := ih fun t ht => h t (List.mem_cons_of_mem _ ht)
    rw [enumerateEach_cons, enumerateEach_cons, h s List.mem_cons_self seed]
    cases enumerate s [[]] with
    | error e => rfl
    | ok ws =>
      show enumerateEach ss (appendAll seed ws) = (enumerateEach ss ws).map (appendAll seed)
      rw [ih (appendAll seed ws), ih ws]
      cases enumerateEach ss [[]] with
      | error e => rfl
      | ok ws' => exact congrArg Except.ok (appendAll_appendAll seed ws ws')

/-- One branch after the other, each with the whole seed. -/
theorem enumerateAny_eq_appendAll {ss : List Schema} (h : ∀ s ∈ ss, Factors s) (seed : List Candidate) :
    enumerateAny ss seed = (enumerateAny ss [[]]).map (appendAll seed) := by
  induction ss with
  | nil => simp [enumerateAny, Except.map, appendAll_nil]
  | cons s ss ih =>
    rw [enumerateAny_cons, enumerateAny_cons, h s List.mem_cons_self seed,
      ih fun t ht => h t (List.mem_cons_of_mem _ ht)]
    cases enumerate s [[]] with
    | error e => rfl
    | ok ws =>
      cases enumerateAny ss [[]] with
      | error e => rfl
      | ok ws' => exact congrArg Except.ok (appendAll_append seed ws ws').symm

theorem enumerate_eq_appendAll (s : Schema) : Factors s := by
  induction s using walkInduction with
  | enumeration _ | boolean =>
    intro seed
    rw [enumerate, enumerate, appendEach_eq_appendAll]
    rfl
  | object properties _ =>
    intro seed
    rw [enumerate_object, enumerate_object]
    cases choices properties with
    | error e => rfl
    | ok cs =>
      by_cases hc : combinations cs = []
      · simp [Except.map, hc]
      · simp only [Except.map, hc, if_false]
        rw [appendEach_eq_appendAll]
  | positional _ ih | sequence _ ih =>
    intro seed
    rw [enumerate, enumerate]
    exact enumerateEach_eq_appendAll ih seed
  | uniform item ih =>
    intro seed
    rcases enumeration_or_ne item with ⟨literals, rfl⟩ | hne
    · rw [enumerate_uniform_enumeration, enumerate_uniform_enumeration]
      exact ih seed
    · simp [enumerate_uniform_of_ne _ hne, Except.map]
  | anyOf _ ih | oneOf _ ih =>
    intro seed
    rw [enumerate, enumerate]
    exact enumerateAny_eq_appendAll ih seed
  | ref _ | unconstrained =>
    intro seed
    simp [enumerate, Except.map]
  | defs definitions body ih =>
    intro seed
    rw [enumerate_defs, enumerate_defs]
    cases h : resolve (.defs definitions body) with
    | error e => rfl
    | ok t => exact ih t h seed

/-- The suffixes of schemas in turn are those of the first, followed by those of the others. -/
theorem enumerateEach_cons_ok {s : Schema} {ss : List Schema} {ws ws' : List Candidate}
    (h : enumerate s [[]] = .ok ws) (h' : enumerateEach ss [[]] = .ok ws') :
    enumerateEach (s :: ss) [[]] = .ok (appendAll ws ws') := by
  rw [enumerateEach_cons, h]
  show enumerateEach ss ws = _
  rw [enumerateEach_eq_appendAll (fun t _ => enumerate_eq_appendAll t) ws, h']
  rfl

theorem enumerateAny_cons_ok {s : Schema} {ss : List Schema} {ws ws' : List Candidate}
    (h : enumerate s [[]] = .ok ws) (h' : enumerateAny ss [[]] = .ok ws') :
    enumerateAny (s :: ss) [[]] = .ok (ws ++ ws') := by
  rw [enumerateAny_cons, h, h']
  rfl

/-- A schema has one list of suffixes, or one failure: a seed gets each suffix in turn, and each of its candidates takes
it, in the order of the seed. -/
theorem enumerate_factors (s : Schema) (seed : List Candidate) :
    enumerate s seed = match enumerate s [[]] with
      | .error e => .error e
      | .ok ws => .ok (ws.flatMap fun w => seed.map fun c => c ++ w) := by
  rw [enumerate_eq_appendAll s seed]
  cases enumerate s [[]] <;> rfl

/-- Every result goes on from a candidate of the seed. -/
theorem prefix_of_mem_enumerate {s : Schema} {seed cs : List Candidate} (h : enumerate s seed = .ok cs)
    {c : Candidate} (hc : c ∈ cs) : ∃ c₀ ∈ seed, c₀ <+: c := by
  rw [enumerate_eq_appendAll s seed] at h
  cases hw : enumerate s [[]] with
  | error e => simp [hw, Except.map] at h
  | ok ws =>
    simp only [hw, Except.map, Except.ok.injEq] at h
    subst h
    obtain ⟨c₀, h₀, w, _, rfl⟩ := mem_appendAll.1 hc
    exact ⟨c₀, h₀, List.prefix_append c₀ w⟩

end LintInference.Schema
