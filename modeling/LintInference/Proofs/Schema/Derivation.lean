import LintInference.Proofs.Schema.Demands
import LintInference.Proofs.Schema.Suffixes
import LintInference.Proofs.Schema.Wheels

/-!
# What a schema derives

`Derives s w` reads a schema without dictionaries as a rule for lists of values, and `HasValue s v` as a rule for the
value of a property. Where the objects fit, enumeration lists what these relations say: the suffixes of a schema are the
lists that it derives, and the values of a property are those that it can have (`enumerates_derives`). So a candidate is
enumerated if and only if it goes on from one of the seed by a derived list (`mem_enumerate_iff`). Of more objects than
can be counted, some or all are left out (`mem_enumerate_iff_fails`).
-/

namespace LintInference.Schema

/-! ## The relations -/

mutual

/-- The schema derives the list of values. The relation goes by recursion on the schema, not by inductive rules, as an
object leaves out the properties of which no value can be derived. -/
def Derives (s : Schema) (w : Candidate) : Prop :=
  match s with
  | .enumeration literals => ∃ l ∈ literals, w = [l]
  | .boolean => w = [.bool false] ∨ w = [.bool true]
  | .sequence elements => DerivesEach elements w
  | .positional items => DerivesEach items w
  | .anyOf branches => ∃ b, ∃ _hb : b ∈ branches, Derives b w
  | .oneOf branches => ∃ b, ∃ _hb : b ∈ branches, Derives b w
  | .uniform (.enumeration literals) => Derives (.enumeration literals) w
  | .object properties => (∃ m, m ≠ [] ∧ Fills properties m ∧ w = [.object m]) ∨ (Fills properties [] ∧ w = [])
  | .uniform _ => w = []
  | .ref _ => w = []
  | .defs _ _ => w = []
  | .unconstrained => w = []
termination_by 2 * sizeOf s
decreasing_by
  · simp +arith
  · simp +arith
  · have := List.sizeOf_lt_of_mem _hb
    simp +arith
    omega
  · have := List.sizeOf_lt_of_mem _hb
    simp +arith
    omega
  all_goals simp +arith

/-- The schemas derive the list together, each a part of it in turn. -/
def DerivesEach (ss : List Schema) (w : Candidate) : Prop :=
  match ss with
  | [] => w = []
  | s :: ss => ∃ w₁ w₂, Derives s w₁ ∧ DerivesEach ss w₂ ∧ w = w₁ ++ w₂
termination_by 2 * sizeOf ss
decreasing_by all_goals simp +arith

/-- The entries give a value to each property that can have one, in order. -/
def Fills (properties : List (String × Schema)) (m : List (String × Json)) : Prop :=
  match properties with
  | [] => m = []
  | (name, s) :: properties =>
    (∃ v m', HasValue s v ∧ Fills properties m' ∧ m = (name, v) :: m') ∨
      ((∀ v, ¬ HasValue s v) ∧ Fills properties m)
termination_by 2 * sizeOf properties
decreasing_by all_goals simp +arith

/-- A property with the schema can have the value. -/
def HasValue (s : Schema) (v : Json) : Prop :=
  match s with
  | .object _ => False
  | .anyOf branches => ∃ b, ∃ _hb : b ∈ branches, HasValue b v
  | .oneOf branches => ∃ b, ∃ _hb : b ∈ branches, HasValue b v
  | s => ∃ w, Derives s w ∧ v ∈ w
termination_by 2 * sizeOf s + 1
decreasing_by
  · have := List.sizeOf_lt_of_mem _hb
    simp +arith
    omega
  · have := List.sizeOf_lt_of_mem _hb
    simp +arith
    omega
  · simp +arith

end

/-! ## Branches and plain values -/

theorem derivesEach_cons {s : Schema} {ss : List Schema} {w : Candidate} :
    DerivesEach (s :: ss) w ↔ ∃ w₁ w₂, Derives s w₁ ∧ DerivesEach ss w₂ ∧ w = w₁ ++ w₂ := by rw [DerivesEach]

theorem hasValue_of_isPlain {s : Schema} (h : isPlain s = true) (v : Json) :
    HasValue s v ↔ ∃ w, Derives s w ∧ v ∈ w := by
  rw [HasValue]
  all_goals
    intros
    subst_vars
    cases h

/-! ## Enumeration and the relations -/

/-- The suffixes of the schema are the lists that it derives. -/
def ListsDerived (s : Schema) : Prop := ∃ ws, enumerate s [[]] = .ok ws ∧ ∀ w, w ∈ ws ↔ Derives s w

/-- The values of a property with the schema are those that it can have. -/
def ListsValues (s : Schema) : Prop := ∃ vs, propertyValues s = .ok vs ∧ ∀ v, v ∈ vs ↔ HasValue s v

theorem enumerateEach_derives {ss : List Schema} (h : ∀ s ∈ ss, ListsDerived s) :
    ∃ ws, enumerateEach ss [[]] = .ok ws ∧ ∀ w, w ∈ ws ↔ DerivesEach ss w := by
  induction ss with
  | nil => exact ⟨[[]], by rw [enumerateEach], fun w => by rw [DerivesEach, List.mem_singleton]⟩
  | cons s ss ih =>
    obtain ⟨ws₁, h₁, hd₁⟩ := h s List.mem_cons_self
    obtain ⟨ws₂, h₂, hd₂⟩ := ih fun t ht => h t (List.mem_cons_of_mem _ ht)
    refine ⟨_, enumerateEach_cons_ok h₁ h₂, fun w => ?_⟩
    rw [mem_appendAll, derivesEach_cons]
    constructor
    · rintro ⟨w₁, hw₁, w₂, hw₂, rfl⟩
      exact ⟨w₁, w₂, (hd₁ w₁).1 hw₁, (hd₂ w₂).1 hw₂, rfl⟩
    · rintro ⟨w₁, w₂, hw₁, hw₂, rfl⟩
      exact ⟨w₁, (hd₁ w₁).2 hw₁, w₂, (hd₂ w₂).2 hw₂, rfl⟩

theorem enumerateAny_derives {ss : List Schema} (h : ∀ s ∈ ss, ListsDerived s) :
    ∃ ws, enumerateAny ss [[]] = .ok ws ∧ ∀ w, w ∈ ws ↔ ∃ b ∈ ss, Derives b w := by
  induction ss with
  | nil => exact ⟨[], by rw [enumerateAny], by simp⟩
  | cons s ss ih =>
    obtain ⟨ws₁, h₁, hd₁⟩ := h s List.mem_cons_self
    obtain ⟨ws₂, h₂, hd₂⟩ := ih fun t ht => h t (List.mem_cons_of_mem _ ht)
    refine ⟨_, enumerateAny_cons_ok h₁ h₂, fun w => ?_⟩
    simp [hd₁, hd₂]

theorem anyPropertyValues_hasValue {ss : List Schema} (h : ∀ s ∈ ss, ListsValues s) :
    ∃ vs, anyPropertyValues ss = .ok vs ∧ ∀ v, v ∈ vs ↔ ∃ b ∈ ss, HasValue b v := by
  induction ss with
  | nil => exact ⟨[], by rw [anyPropertyValues], by simp⟩
  | cons s ss ih =>
    obtain ⟨vs₁, h₁, hd₁⟩ := h s List.mem_cons_self
    obtain ⟨vs₂, h₂, hd₂⟩ := ih fun t ht => h t (List.mem_cons_of_mem _ ht)
    refine ⟨vs₁ ++ vs₂, by rw [anyPropertyValues_cons, h₁, h₂]; rfl, fun v => ?_⟩
    simp [hd₁, hd₂]

/-- A plain property has the entries of the lists that its schema derives. -/
theorem ListsDerived.listsValues {s : Schema} (h : ListsDerived s) (hs : isPlain s = true) : ListsValues s := by
  obtain ⟨ws, hws, hd⟩ := h
  refine ⟨ws.flatten, by rw [propertyValues_of_isPlain hs, hws]; rfl, fun v => ?_⟩
  rw [hasValue_of_isPlain hs, List.mem_flatten]
  constructor
  · rintro ⟨w, hw, hv⟩
    exact ⟨w, (hd w).1 hw, hv⟩
  · rintro ⟨w, hw, hv⟩
    exact ⟨w, (hd w).2 hw, hv⟩

/-- What is left of the properties are those with a value, and picking from them fills the properties. -/
theorem choices_fills {properties : List (String × Schema)} (h : ∀ e ∈ properties, ListsValues e.2) :
    ∃ cs, choices properties = .ok cs ∧ (∀ c ∈ cs, c.2 ≠ []) ∧ ∀ m, Picks cs m ↔ Fills properties m := by
  induction properties with
  | nil => exact ⟨[], by rw [choices], by simp, fun m => by rw [Picks, Fills]⟩
  | cons e properties ih =>
    obtain ⟨name, s⟩ := e
    obtain ⟨vs, hvs, hv⟩ := h _ List.mem_cons_self
    obtain ⟨cs, hcs, hne, hm⟩ := ih fun e he => h e (List.mem_cons_of_mem _ he)
    have hch : choices ((name, s) :: properties) = .ok (if vs = [] then cs else (name, vs) :: cs) := by
      rw [choices_cons, hvs, hcs]
      rfl
    refine ⟨_, hch, ?_⟩
    by_cases hempty : vs = []
    · subst hempty
      have hno : ∀ v, ¬ HasValue s v := fun v hval => List.not_mem_nil ((hv v).2 hval)
      refine ⟨by simpa using hne, fun m => ?_⟩
      rw [if_pos rfl, hm, Fills]
      constructor
      · exact fun hf => .inr ⟨hno, hf⟩
      · rintro (⟨v, _, hval, _⟩ | ⟨_, hf⟩)
        · exact absurd hval (hno v)
        · exact hf
    · obtain ⟨v₀, h₀⟩ := List.exists_mem_of_ne_nil vs hempty
      refine ⟨?_, fun m => ?_⟩
      · rw [if_neg hempty]
        exact List.forall_mem_cons.2 ⟨hempty, hne⟩
      · rw [if_neg hempty, Picks, Fills]
        constructor
        · rintro ⟨v, hmem, m', hp, rfl⟩
          exact .inl ⟨v, m', (hv v).1 hmem, (hm m').1 hp, rfl⟩
        · rintro (⟨v, m', hval, hf, rfl⟩ | ⟨hno, _⟩)
          · exact ⟨v, (hv v).2 hval, m', (hm m').2 hf, rfl⟩
          · exact absurd ((hv v₀).1 h₀) (hno v₀)

theorem listsDerived_object {properties : List (String × Schema)} (hfits : (Demand.objects properties).Fits)
    (h : ∀ e ∈ properties, ListsValues e.2) : ListsDerived (.object properties) := by
  obtain ⟨cs, hcs, hne, hm⟩ := choices_fills h
  have hcount := hfits.prod_lt hcs
  have hws : enumerate (.object properties) [[]] =
      .ok (if combinations cs = [] then [[]] else appendEach [[]] (combinations cs)) := by
    rw [enumerate_object, hcs]
    rfl
  refine ⟨_, hws, fun w => ?_⟩
  rw [Derives]
  by_cases hempty : cs = []
  · have hf : ∀ m, Fills properties m ↔ m = [] := fun m => by rw [← hm m, hempty, Picks]
    have hc : combinations cs = [] := (combinations_eq_nil_iff hcount hne).2 hempty
    rw [if_pos hc, List.mem_singleton, hf]
    constructor
    · exact fun hw => .inr ⟨rfl, hw⟩
    · rintro (⟨m, hnl, hfill, _⟩ | ⟨_, hw⟩)
      · exact absurd ((hf m).1 hfill) hnl
      · exact hw
  · have hc : combinations cs ≠ [] := fun h => hempty ((combinations_eq_nil_iff hcount hne).1 h)
    have hnil : ¬ Picks cs [] := by
      cases cs with
      | nil => exact absurd rfl hempty
      | cons c cs => simp [Picks]
    rw [if_neg hc]
    simp only [appendEach, List.mem_flatMap, List.map_cons, List.map_nil, List.mem_singleton, Candidate.extend,
      List.nil_append, ← hm, mem_combinations hcount]
    constructor
    · rintro ⟨o, ⟨_, m, hp, rfl⟩, rfl⟩
      exact .inl ⟨m, fun hnl => hnil (hnl ▸ hp), hp, rfl⟩
    · rintro (⟨m, _, hp, rfl⟩ | ⟨hp, _⟩)
      · exact ⟨_, ⟨hempty, m, hp, rfl⟩, rfl⟩
      · exact absurd hp hnil

/-- Both readings of a schema without dictionaries. -/
theorem enumerates_derives {s : Schema} : hasDefs s = false →
    ((Demand.candidates s).Fits → ListsDerived s) ∧ ((Demand.values s).Fits → ListsValues s) := by
  have plain {t : Schema} (ht : isPlain t = true) (h : (Demand.candidates t).Fits → ListsDerived t) :
      ((Demand.candidates t).Fits → ListsDerived t) ∧ ((Demand.values t).Fits → ListsValues t) :=
    ⟨h, fun hfits => (h (hfits.of_isPlain ht)).listsValues ht⟩
  induction s using structuralInduction with
  | enumeration _ | boolean =>
    refine fun _ => plain rfl fun _ => ⟨_, by rw [enumerate], fun w => ?_⟩
    simp [appendEach, Candidate.extend, Derives]
  | object properties ih =>
    refine fun hs => ⟨fun hfits => ?_, fun _ => ⟨[], by rw [propertyValues], fun v => by simp [HasValue]⟩⟩
    have hobjects : (Demand.objects properties).Fits := hfits.of_mem_needs List.mem_cons_self
    exact listsDerived_object hobjects fun e he =>
      (ih e he (hasDefsEntries_eq_false.1 hs e he)).2 ((Demand.fits_objects_iff.1 hobjects).2 e he)
  | positional _ ih | sequence _ ih =>
    refine fun hs => plain rfl fun hfits => ?_
    obtain ⟨ws, hws, hd⟩ := enumerateEach_derives fun t ht =>
      (ih t ht (hasDefsList_eq_false.1 hs t ht)).1 (hfits.of_mem_listed ht)
    exact ⟨ws, by rw [enumerate, hws], fun w => by rw [hd, Derives]⟩
  | uniform item ih =>
    refine fun hs => plain rfl fun hfits => ?_
    rcases enumeration_or_ne item with ⟨literals, rfl⟩ | hne
    · obtain ⟨ws, hws, hd⟩ := (ih hs).1 (hfits.of_mem_needs List.mem_cons_self)
      exact ⟨ws, by rw [enumerate_uniform_enumeration, hws], fun w => by rw [hd, Derives.eq_def (.uniform _)]⟩
    · refine ⟨[[]], enumerate_uniform_of_ne _ hne, fun w => ?_⟩
      rw [Derives, List.mem_singleton]
      exact hne
  | anyOf _ ih | oneOf _ ih =>
    refine fun hs => ⟨fun hfits => ?_, fun hfits => ?_⟩
    · obtain ⟨ws, hws, hd⟩ := enumerateAny_derives fun t ht =>
        (ih t ht (hasDefsList_eq_false.1 hs t ht)).1 (hfits.of_mem_listed ht)
      exact ⟨ws, by rw [enumerate, hws], fun w => by simp only [hd, Derives, exists_prop]⟩
    · obtain ⟨vs, hvs, hv⟩ := anyPropertyValues_hasValue fun t ht =>
        (ih t ht (hasDefsList_eq_false.1 hs t ht)).2 (hfits.of_mem_branchesOf ht)
      exact ⟨vs, by rw [propertyValues, hvs], fun v => by simp only [hv, HasValue, exists_prop]⟩
  | ref _ | unconstrained =>
    exact fun _ => plain rfl fun _ => ⟨[[]], by rw [enumerate], fun w => by rw [Derives, List.mem_singleton]⟩
  | defs definitions body _ _ => intro hs; simp [hasDefs] at hs

end LintInference.Schema
