import LintInference.Proofs.Inference.Protocol
import LintInference.Proofs.Schema.Derivation
import Mathlib.Algebra.BigOperators.Ring.List
import Mathlib.Algebra.Ring.Nat
import Mathlib.Tactic.Ring

/-!
# How many candidates a schema has

The candidates can be counted without listing them (`Schema.extent`). As the values of a property are all values of all
candidates of its schema, the count needs to know how long the candidates are together, beside how many there are; and
as the values of a union leave out branches that are objects, they are counted apart.

The counts are right for every schema without dictionaries whose objects fit (`extent_of_enumerate`). A schema with the
count zero turns its rule off unasked.
-/

namespace LintInference

/-! ## Counting -/

/-- How much a schema has to give to one candidate of a seed. -/
structure Extent where
  /-- How many suffixes there are. -/
  suffixes : Nat
  /-- How many values there are in all suffixes together. -/
  entries : Nat
  /-- How many values a property with the schema can take, each counted as often as it comes. -/
  values : Nat
  deriving DecidableEq, Repr

namespace Extent

/-- The values of a property are those of the suffixes. -/
def plain (suffixes entries : Nat) : Extent := ⟨suffixes, entries, entries⟩

/-- One schema after the other: a suffix of each, in all ways. An entry comes once with each choice of the other
suffixes. -/
def inTurn (xs : List Extent) : Extent :=
  .plain (xs.map suffixes).prod (xs.mapIdx fun i x => x.entries * ((xs.eraseIdx i).map suffixes).prod).sum

/-- Any of the schemas. -/
def any (xs : List Extent) : Extent := ⟨(xs.map suffixes).sum, (xs.map entries).sum, (xs.map values).sum⟩

/-- An object with a value for each property that has any. Without such a property there is one suffix, and it is empty.
A property has no values if it is an object itself. -/
def object (xs : List Extent) : Extent :=
  let sizes := (xs.map values).filter (0 < ·)
  ⟨sizes.prod, if sizes = [] then 0 else sizes.prod, 0⟩

end Extent

namespace Schema

mutual

/-- The extent of a schema. Dictionaries are not counted out. -/
def extent : Schema → Extent
  | .enumeration literals => .plain literals.length literals.length
  | .boolean => .plain 2 2
  | .object properties => .object (extentEntries properties)
  | .positional items => .inTurn (extentList items)
  | .uniform (.enumeration literals) => .plain literals.length literals.length
  | .uniform _ => .plain 1 0
  | .anyOf branches => .any (extentList branches)
  | .oneOf branches => .any (extentList branches)
  | .sequence elements => .inTurn (extentList elements)
  | .ref _ => .plain 1 0
  | .defs _ _ => .plain 1 0
  | .unconstrained => .plain 1 0

/-- The extents of schemas, one after the other. -/
def extentList : List Schema → List Extent
  | [] => []
  | s :: ss => extent s :: extentList ss

/-- The extents of the schemas of entries, one after the other. -/
def extentEntries : List (String × Schema) → List Extent
  | [] => []
  | (_, s) :: es => extent s :: extentEntries es

end

end Schema

/-! ## The counts of lists -/

namespace Extent

variable (x : Extent) (xs : List Extent)

@[simp] theorem suffixes_inTurn_cons : (inTurn (x :: xs)).suffixes = x.suffixes * (inTurn xs).suffixes := rfl

/-- An entry stands in the suffix of the first schema, or in one of the others. -/
@[simp] theorem entries_inTurn_cons :
    (inTurn (x :: xs)).entries = x.entries * (inTurn xs).suffixes + x.suffixes * (inTurn xs).entries := by
  have hfactor : (xs.mapIdx fun i y => y.entries * (x.suffixes * ((xs.eraseIdx i).map suffixes).prod)).sum =
      x.suffixes * (xs.mapIdx fun i y => y.entries * ((xs.eraseIdx i).map suffixes).prod).sum := by
    rw [List.mapIdx_eq_zipIdx_map, List.mapIdx_eq_zipIdx_map, ← List.sum_map_mul_left]
    simp only [Nat.mul_left_comm]
  simp only [inTurn, plain, List.mapIdx_cons, List.eraseIdx_cons_zero, List.eraseIdx_cons_succ, List.map_cons,
    List.prod_cons, List.sum_cons, hfactor]

end Extent

namespace Schema

theorem length_appendAll (seed ws : List Candidate) : (appendAll seed ws).length = seed.length * ws.length := by
  simp [appendAll, List.length_flatMap, Nat.mul_comm]

/-- Every suffix of the one comes with every suffix of the other. -/
theorem length_flatten_appendAll (ws ws' : List Candidate) :
    (appendAll ws ws').flatten.length = ws.flatten.length * ws'.length + ws.length * ws'.flatten.length := by
  induction ws' with
  | nil => simp [appendAll]
  | cons w ws' ih =>
    have hfirst : ((ws.map (· ++ w)).flatten).length = ws.flatten.length + ws.length * w.length := by
      simp [List.length_flatten, Function.comp_def, List.sum_map_add]
    have hsplit : appendAll ws (w :: ws') = ws.map (· ++ w) ++ appendAll ws ws' := rfl
    rw [hsplit, List.flatten_append, List.length_append, hfirst, ih, List.flatten_cons, List.length_append,
      List.length_cons]
    ring

/-! ## The extent of what is enumerated -/

/-- The suffixes of the schema are as many as the extent says, and so are the values in them. -/
def SuffixesCounted (s : Schema) (x : Extent) : Prop :=
  ∃ ws, enumerate s [[]] = .ok ws ∧ ws.length = x.suffixes ∧ ws.flatten.length = x.entries

/-- The values of a property with the schema are as many as the extent says. -/
def ValuesCounted (s : Schema) (x : Extent) : Prop := ∃ vs, propertyValues s = .ok vs ∧ vs.length = x.values

theorem SuffixesCounted.values {s : Schema} {n k : Nat} (h : SuffixesCounted s (.plain n k)) (hs : isPlain s = true) :
    ValuesCounted s (.plain n k) := by
  obtain ⟨ws, hws, _, hk⟩ := h
  exact ⟨ws.flatten, by rw [propertyValues_of_isPlain hs, hws]; rfl, hk⟩

theorem length_appendEach (vs : List Json) : (appendEach [[]] vs).length = vs.length := by
  rw [appendEach_unit, List.length_map]

theorem flatten_appendEach (vs : List Json) : (appendEach [[]] vs).flatten = vs := by
  rw [appendEach_unit, ← List.flatMap_def, List.flatMap_singleton']

theorem suffixesCounted_of_values {s : Schema} {vs : List Json} (h : enumerate s [[]] = .ok (appendEach [[]] vs)) :
    SuffixesCounted s (.plain vs.length vs.length) :=
  ⟨_, h, length_appendEach vs, congrArg List.length (flatten_appendEach vs)⟩

/-- What has no values leaves the seed as it is. -/
theorem suffixesCounted_of_unit {s : Schema} (h : enumerate s [[]] = .ok [[]]) : SuffixesCounted s (.plain 1 0) :=
  ⟨[[]], h, rfl, rfl⟩

theorem enumerateEach_extent {ss : List Schema} (h : ∀ s ∈ ss, SuffixesCounted s s.extent) :
    ∃ ws, enumerateEach ss [[]] = .ok ws ∧ ws.length = (Extent.inTurn (extentList ss)).suffixes ∧
      ws.flatten.length = (Extent.inTurn (extentList ss)).entries := by
  induction ss with
  | nil => exact ⟨[[]], by rw [enumerateEach], rfl, rfl⟩
  | cons s ss ih =>
    obtain ⟨hs, hss⟩ := List.forall_mem_cons.1 h
    obtain ⟨ws, hws, hn, ht⟩ := hs
    obtain ⟨ws', hws', hn', ht'⟩ := ih hss
    refine ⟨_, enumerateEach_cons_ok hws hws', ?_, ?_⟩
    · rw [length_appendAll, hn, hn', extentList, Extent.suffixes_inTurn_cons]
    · rw [length_flatten_appendAll, hn, hn', ht, ht', extentList, Extent.entries_inTurn_cons]

theorem enumerateAny_extent {ss : List Schema} (h : ∀ s ∈ ss, SuffixesCounted s s.extent) :
    ∃ ws, enumerateAny ss [[]] = .ok ws ∧ ws.length = (Extent.any (extentList ss)).suffixes ∧
      ws.flatten.length = (Extent.any (extentList ss)).entries := by
  induction ss with
  | nil => exact ⟨[], by rw [enumerateAny], rfl, rfl⟩
  | cons s ss ih =>
    obtain ⟨hs, hss⟩ := List.forall_mem_cons.1 h
    obtain ⟨ws, hws, hn, ht⟩ := hs
    obtain ⟨ws', hws', hn', ht'⟩ := ih hss
    refine ⟨_, enumerateAny_cons_ok hws hws', ?_, ?_⟩
    · rw [List.length_append, hn, hn']
      rfl
    · rw [List.flatten_append, List.length_append, ht, ht']
      rfl

theorem anyPropertyValues_extent {ss : List Schema} (h : ∀ s ∈ ss, ValuesCounted s s.extent) :
    ∃ vs, anyPropertyValues ss = .ok vs ∧ vs.length = (Extent.any (extentList ss)).values := by
  induction ss with
  | nil => exact ⟨[], by rw [anyPropertyValues], rfl⟩
  | cons s ss ih =>
    obtain ⟨hs, hss⟩ := List.forall_mem_cons.1 h
    obtain ⟨vs, hvs, hn⟩ := hs
    obtain ⟨vs', hvs', hn'⟩ := ih hss
    refine ⟨vs ++ vs', by rw [anyPropertyValues_cons, hvs, hvs']; rfl, ?_⟩
    rw [List.length_append, hn, hn']
    rfl

/-- The sizes of the wheels are the counts of values that are not zero. -/
theorem choices_extent {properties : List (String × Schema)} (h : ∀ e ∈ properties, ValuesCounted e.2 e.2.extent) :
    ∃ cs, choices properties = .ok cs ∧ (∀ c ∈ cs, c.2 ≠ []) ∧
      cs.map (·.2.length) = ((extentEntries properties).map Extent.values).filter (0 < ·) := by
  induction properties with
  | nil => exact ⟨[], by rw [choices], by simp, rfl⟩
  | cons e properties ih =>
    obtain ⟨name, s⟩ := e
    obtain ⟨hs, hproperties⟩ := List.forall_mem_cons.1 h
    obtain ⟨vs, hvs, hn⟩ := hs
    obtain ⟨cs, hcs, hne, hsizes⟩ := ih hproperties
    refine ⟨if vs = [] then cs else (name, vs) :: cs, by rw [choices_cons, hvs, hcs]; rfl, ?_⟩
    rw [extentEntries, List.map_cons, ← hn]
    by_cases hempty : vs = []
    · rw [if_pos hempty, hempty]
      exact ⟨hne, by simpa using hsizes⟩
    · have hpos : 0 < vs.length := List.length_pos_iff.2 hempty
      rw [if_neg hempty]
      exact ⟨List.forall_mem_cons.2 ⟨hempty, hne⟩, by simp [hsizes, hpos]⟩

theorem suffixesCounted_object {properties : List (String × Schema)} (hfits : (Demand.objects properties).Fits)
    (h : ∀ e ∈ properties, ValuesCounted e.2 e.2.extent) :
    SuffixesCounted (.object properties) (.object (extentEntries properties)) := by
  obtain ⟨cs, hcs, hne, hsizes⟩ := choices_extent h
  have hcount := hfits.prod_lt hcs
  rw [SuffixesCounted, enumerate_object, hcs, Extent.object, ← hsizes]
  by_cases hempty : cs = []
  · subst hempty
    exact ⟨[[]], rfl, rfl, rfl⟩
  · have hcombinations : combinations cs ≠ [] := fun hc => hempty ((combinations_eq_nil_iff hcount hne).1 hc)
    have hlength : (combinations cs).length = (cs.map (·.2.length)).prod :=
      (length_combinations hempty).trans (combinationCount_of_lt hcount)
    refine ⟨appendEach [[]] (combinations cs), by simp [Except.map, hcombinations], ?_, ?_⟩
    · rw [length_appendEach, hlength]
    · simp [flatten_appendEach, hlength, hempty]

theorem extent_uniform_of_ne {item : Schema} (h : ∀ literals, item ≠ .enumeration literals) :
    extent (.uniform item) = .plain 1 0 := by
  rw [extent]
  exact h

/-- Where the objects fit, the extent is counted right. -/
theorem extent_counted {s : Schema} : hasDefs s = false →
    ((Demand.candidates s).Fits → SuffixesCounted s s.extent) ∧ ((Demand.values s).Fits → ValuesCounted s s.extent) := by
  have plain {t : Schema} {n k : Nat} (ht : isPlain t = true)
      (h : (Demand.candidates t).Fits → SuffixesCounted t (.plain n k)) :
      ((Demand.candidates t).Fits → SuffixesCounted t (.plain n k)) ∧
        ((Demand.values t).Fits → ValuesCounted t (.plain n k)) :=
    ⟨h, fun hfits => (h (hfits.of_isPlain ht)).values ht⟩
  induction s using structuralInduction with
  | enumeration literals => exact fun _ => plain rfl fun _ => suffixesCounted_of_values (by rw [enumerate])
  | boolean =>
    have h : enumerate .boolean [[]] = .ok (appendEach [[]] [.bool false, .bool true]) := by rw [enumerate]
    exact fun _ => plain rfl fun _ => suffixesCounted_of_values h
  | object properties ih =>
    refine fun hs => ⟨fun hfits => ?_, fun _ => ⟨[], by rw [propertyValues], rfl⟩⟩
    have hobjects : (Demand.objects properties).Fits := hfits.of_mem_needs List.mem_cons_self
    exact suffixesCounted_object hobjects fun e he =>
      (ih e he (hasDefsEntries_eq_false.1 hs e he)).2 ((Demand.fits_objects_iff.1 hobjects).2 e he)
  | positional _ ih | sequence _ ih =>
    refine fun hs => plain rfl fun hfits => ?_
    obtain ⟨ws, hws, hn, ht⟩ := enumerateEach_extent fun t ht =>
      (ih t ht (hasDefsList_eq_false.1 hs t ht)).1 (hfits.of_mem_listed ht)
    exact ⟨ws, by rw [enumerate, hws], hn, ht⟩
  | uniform item ih =>
    intro hs
    rcases enumeration_or_ne item with ⟨literals, rfl⟩ | hne
    · exact plain rfl fun _ => suffixesCounted_of_values (by rw [enumerate])
    · rw [extent_uniform_of_ne hne]
      exact plain rfl fun _ => suffixesCounted_of_unit (enumerate_uniform_of_ne _ hne)
  | anyOf _ ih | oneOf _ ih =>
    refine fun hs => ⟨fun hfits => ?_, fun hfits => ?_⟩
    · obtain ⟨ws, hws, hn, ht⟩ := enumerateAny_extent fun t ht =>
        (ih t ht (hasDefsList_eq_false.1 hs t ht)).1 (hfits.of_mem_listed ht)
      exact ⟨ws, by rw [enumerate, hws], hn, ht⟩
    · obtain ⟨vs, hvs, hv⟩ := anyPropertyValues_extent fun t ht =>
        (ih t ht (hasDefsList_eq_false.1 hs t ht)).2 (hfits.of_mem_branchesOf ht)
      exact ⟨vs, by rw [propertyValues, hvs], hv⟩
  | ref _ | unconstrained => exact fun _ => plain rfl fun _ => suffixesCounted_of_unit (by rw [enumerate])
  | defs _ _ _ _ => intro hs; cases hs

end Schema

/-! ## Rules without candidates -/

section Unasked

open Suggestion

variable {σ : Type} {linter : Linter σ} {registry : Registry} {text rule : String}

/-- A candidate that is there is tried. -/
theorem Suggestion.Tries.eq_nil {g : Grammar} {cs : List Candidate} {r : Except Failure (Option Candidate)}
    (h : Tries text g rule cs [] r) : cs = [] := by
  cases h
  rfl

/-- A rule without candidates is turned off with no question asked, and no other rule is. -/
theorem suggest_eq_off_iff {cs : List Candidate} (hcs : registry.candidates rule = .ok cs) (session : Session σ) :
    suggest linter registry text rule session = (.ok .off, session) ↔ cs = [] := by
  constructor
  · intro h
    obtain ⟨-, es, hevents, hsuggests⟩ := suggest_suggests linter registry text rule session
    rw [h] at hevents hsuggests
    -- nothing happened
    obtain rfl : es = [] := List.self_eq_append_right.1 hevents
    obtain ⟨cs', _, hcs', htries, -⟩ := suggests_ok_iff.1 hsuggests
    cases hcs.symm.trans hcs'
    exact htries.eq_nil
  · rintro rfl
    rw [suggest_eq, hcs]
    rfl

end Unasked

namespace Schema

/-- A schema without dictionaries whose objects fit has as many candidates for each of the seed as are counted, and its
suffixes and its values as a property are as many as are counted too. Only with the count zero there are no candidates,
and only then the rule is turned off, whatever the linter, with no question asked. -/
theorem extent_of_enumerate {s : Schema} (hs : hasDefs s = false) (hfits : (Demand.candidates s).Fits) :
    (∀ seed, ∃ cs, enumerate s seed = .ok cs ∧ cs.length = seed.length * s.extent.suffixes) ∧
      (∃ ws, enumerate s [[]] = .ok ws ∧ ws.flatten.length = s.extent.entries) ∧
      (∃ vs, propertyValues s = .ok vs ∧ vs.length = s.extent.values) ∧
      (candidates s = .ok [] ↔ s.extent.suffixes = 0) ∧
      ∀ (registry : Registry) (rule : String), registry.schema rule = .ok s →
        ∀ {σ : Type} (linter : Linter σ) (text : String) (session : Session σ),
          Suggestion.suggest linter registry text rule session = (.ok .off, session) ↔ s.extent.suffixes = 0 := by
  obtain ⟨ws, hws, hn, ht⟩ := (extent_counted hs).1 hfits
  have hvalues : ValuesCounted s s.extent := (extent_counted hs).2 hfits.values
  have hseed : ∀ seed, ∃ cs, enumerate s seed = .ok cs ∧ cs.length = seed.length * s.extent.suffixes := by
    intro seed
    refine ⟨appendAll seed ws, by rw [enumerate_eq_appendAll s seed, hws]; rfl, ?_⟩
    rw [length_appendAll, hn]
  obtain ⟨cs, hcs, hlength⟩ := hseed [Candidate.error]
  have hempty : cs = [] ↔ s.extent.suffixes = 0 := by
    rw [← List.length_eq_zero_iff, hlength, List.length_singleton, Nat.one_mul]
  refine ⟨hseed, ⟨ws, hws, ht⟩, hvalues, ?_, fun registry rule hrule σ linter text session => ?_⟩
  · rw [← hempty, candidates, hcs, Except.ok.injEq]
  · have hcandidates : registry.candidates rule = .ok cs := by
      rw [Registry.candidates, hrule]
      exact hcs
    rw [suggest_eq_off_iff hcandidates, hempty]

/-- Two literals, an object of two properties with values, and a list that a property has for its values. The empty
enumeration leaves no candidates in a list, and drops out of an object. -/
theorem extent_of_enumerate_mixed :
    let flags : Schema := .object [("flag", .boolean), ("none", .enumeration []),
      ("mode", .anyOf [.object [("x", .boolean)], .sequence [.boolean, .enumeration [.null, .string "a", .string "b"]]])]
    let s : Schema := .sequence [.enumeration [.string "always", .string "never"], flags]
    let t : Schema := .sequence [.enumeration [], flags]
    hasDefs s = false ∧ hasDefs t = false ∧ s.extent = ⟨48, 96, 96⟩ ∧ t.extent.suffixes = 0 ∧
      (∃ cs, enumerate s [Candidate.error] = .ok cs ∧ cs.length = 48) ∧ candidates t = .ok [] := by
  intro flags s t
  have hs : hasDefs s = false := by decide
  have ht : hasDefs t = false := by decide
  have hextent : s.extent = ⟨48, 96, 96⟩ := by decide
  have hzero : t.extent.suffixes = 0 := by decide
  have hflags : choices [("flag", .boolean), ("none", .enumeration []), ("mode", .anyOf [.object [("x", .boolean)],
      .sequence [.boolean, .enumeration [.null, .string "a", .string "b"]]])] =
      .ok [("flag", [.bool false, .bool true]), ("mode", [.bool false, .null, .bool true, .null, .bool false, .string "a",
        .bool true, .string "a", .bool false, .string "b", .bool true, .string "b"])] := by cbv
  have hfits : (Demand.candidates flags).Fits := by
    simp [flags, Demand.fits_candidates_iff, Demand.fits_values_iff, Demand.fits_objects_iff, Demand.needs, listed,
      isPlain, branchesOf, hflags, capacity]
  have hafter (literals : List Json) : (Demand.candidates (.sequence [.enumeration literals, flags])).Fits :=
    (Demand.fits_listing_iff .sequence).2
      (List.forall_mem_cons.2 ⟨Demand.fits_enumeration literals, List.forall_mem_singleton.2 hfits⟩)
  obtain ⟨hseed, -⟩ := extent_of_enumerate hs (hafter _)
  obtain ⟨-, -, -, hempty, -⟩ := extent_of_enumerate ht (hafter _)
  refine ⟨hs, ht, hextent, hzero, ?_, hempty.2 hzero⟩
  simpa [hextent] using hseed [Candidate.error]

end Schema

end LintInference
