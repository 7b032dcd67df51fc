import LintInference.Proofs.Schema.Demands
import LintInference.Proofs.Schema.Success
import Mathlib.Data.List.Forall2

/-!
# Enumerating a schema and its resolved form

Enumeration resolves a dictionary where it meets one, resolution resolves all of them beforehand. Both give the same
candidates as long as enumeration does meet each dictionary (`agrees_resolved`). There is one place where it looks
at a schema without walking into it: the items of an array. Items with a dictionary of their own that resolve to an
enumeration give their literals after resolution and nothing before it. This is the only difference: a schema and all
parts that its enumeration visits agree with their resolved forms exactly if none of them is such an array
(`enumerate_eq_resolve_iff`).
-/

namespace LintInference.Schema

/-! ## What resolution gives -/

section Resolution

variable {scope : Scope}

theorem resolveListIn_ok_iff {ss ts : List Schema} :
    resolveListIn scope ss = .ok ts ↔ List.Forall₂ (fun s t => resolveIn scope s = .ok t) ss ts := by
  induction ss generalizing ts with
  | nil =>
    rw [resolveListIn, List.forall₂_nil_left_iff]
    exact ⟨fun h => (Except.ok.inj h).symm, fun h => h ▸ rfl⟩
  | cons s ss ih =>
    simp only [resolveListIn, bind_eq_ok_iff, pure_eq_ok_iff, ih, List.forall₂_cons_left_iff]
    constructor
    · rintro ⟨t, ht, ts, hts, rfl⟩
      exact ⟨t, ts, ht, hts, rfl⟩
    · rintro ⟨t, ts, ht, hts, rfl⟩
      exact ⟨t, ht, ts, hts, rfl⟩

theorem resolveEntriesIn_ok_iff {es fs : List (String × Schema)} :
    resolveEntriesIn scope es = .ok fs ↔
      List.Forall₂ (fun e f => resolveIn scope e.2 = .ok f.2 ∧ f.1 = e.1) es fs := by
  induction es generalizing fs with
  | nil =>
    rw [resolveEntriesIn, List.forall₂_nil_left_iff]
    exact ⟨fun h => (Except.ok.inj h).symm, fun h => h ▸ rfl⟩
  | cons e es ih =>
    obtain ⟨name, s⟩ := e
    simp only [resolveEntriesIn, bind_eq_ok_iff, pure_eq_ok_iff, ih, List.forall₂_cons_left_iff]
    constructor
    · rintro ⟨t, ht, fs, hfs, rfl⟩
      exact ⟨(name, t), fs, ⟨ht, rfl⟩, hfs, rfl⟩
    · rintro ⟨⟨_, t⟩, fs, ⟨ht, rfl⟩, hfs, rfl⟩
      exact ⟨t, ht, fs, hfs, rfl⟩

end Resolution

section Outside

/-- In a list that resolves, each schema does. -/
theorem exists_resolve_of_mem {ss : List Schema} {f : List Schema → Except Failure Schema} {t : Schema}
    (h : (resolveListIn {} ss >>= f) = .ok t) {s : Schema} (hs : s ∈ ss) : ∃ r, resolve s = .ok r := by
  obtain ⟨ts, hts, _⟩ := bind_eq_ok_iff.1 h
  have hall := resolveListIn_ok_iff.1 hts
  obtain ⟨i, hi, rfl⟩ := List.getElem_of_mem hs
  exact ⟨_, hall.get hi (hall.length_eq ▸ hi)⟩

theorem exists_resolve_of_mem_entries {es : List (String × Schema)} {f : List (String × Schema) → Except Failure Schema}
    {t : Schema} (h : (resolveEntriesIn {} es >>= f) = .ok t) {e : String × Schema} (he : e ∈ es) :
    ∃ r, resolve e.2 = .ok r := by
  obtain ⟨fs, hfs, _⟩ := bind_eq_ok_iff.1 h
  have hall := resolveEntriesIn_ok_iff.1 hfs
  obtain ⟨i, hi, rfl⟩ := List.getElem_of_mem he
  exact ⟨_, (hall.get hi (hall.length_eq ▸ hi)).1⟩

theorem resolve_ref (name : String) : resolve (.ref name) = .ok (.ref name) := by
  rw [resolve, resolveIn]
  exact if_pos rfl

/-- Outside all dictionaries the constructor of a plain schema stays. -/
theorem isPlain_resolve {s t : Schema} (h : resolve s = .ok t) (hs : isPlain s = true) : isPlain t = true := by
  cases s with
  | object _ | anyOf _ | oneOf _ | defs _ _ => cases hs
  | enumeration _ | boolean | unconstrained =>
    simp only [resolve, resolveIn] at h
    cases h
    rfl
  | ref _ =>
    rw [resolve_ref] at h
    cases h
    rfl
  | positional _ | uniform _ | sequence _ =>
    simp only [resolve, resolveIn, bind_eq_ok_iff, pure_eq_ok_iff] at h
    obtain ⟨_, _, rfl⟩ := h
    rfl

/-- Only an enumeration or a dictionary becomes an enumeration. -/
theorem eq_of_resolve_eq_enumeration {s : Schema} {literals : List Json} (h : resolve s = .ok (.enumeration literals)) :
    s = .enumeration literals ∨ ∃ definitions body, s = .defs definitions body := by
  cases s with
  | enumeration _ =>
    simp only [resolve, resolveIn] at h
    cases h
    exact .inl rfl
  | defs definitions body => exact .inr ⟨definitions, body, rfl⟩
  | ref _ =>
    rw [resolve_ref] at h
    cases h
  | boolean | unconstrained =>
    simp only [resolve, resolveIn] at h
    cases h
  | object _ | positional _ | uniform _ | anyOf _ | oneOf _ | sequence _ =>
    simp only [resolve, resolveIn, bind_eq_ok_iff, pure_eq_ok_iff] at h
    obtain ⟨_, _, h⟩ := h
    cases h

end Outside

/-! ## What enumeration comes past -/

mutual

/-- Enumeration of the schema comes past the part, outside all dictionaries. -/
inductive Visits : Schema → Schema → Prop where
  | self (s : Schema) : Visits s s
  | listed {p s u : Schema} : s ∈ listed p → Visits s u → Visits p u
  | object {properties : List (String × Schema)} {e : String × Schema} {u : Schema} :
      e ∈ properties → VisitsAsProperty e.2 u → Visits (.object properties) u

/-- The search for the values of a property with the schema comes past the part. -/
inductive VisitsAsProperty : Schema → Schema → Prop where
  | plain {s u : Schema} : isPlain s = true → Visits s u → VisitsAsProperty s u
  | defs (definitions : List (String × Schema)) (body : Schema) :
      VisitsAsProperty (.defs definitions body) (.defs definitions body)
  | branch {p s u : Schema} : s ∈ branchesOf p → VisitsAsProperty s u → VisitsAsProperty p u

end

mutual

theorem Visits.trans {s u v : Schema} (h : Visits s u) (hu : Visits u v) : Visits s v :=
  match h with
  | .self _ => hu
  | .listed hs h => .listed hs (h.trans hu)
  | .object he h => .object he (h.trans hu)

theorem VisitsAsProperty.trans {s u v : Schema} (h : VisitsAsProperty s u) (hu : Visits u v) : VisitsAsProperty s v :=
  match h with
  | .plain hs h => .plain hs (h.trans hu)
  | .defs _ _ => by
    -- past a dictionary there is only itself
    cases hu with
    | self => exact .defs _ _
    | listed hs _ => exact absurd hs List.not_mem_nil
  | .branch hs h => .branch hs (h.trans hu)

end

/-- Outside objects, enumeration goes through lists. -/
theorem Visits.cases_listed {s u : Schema} (h : Visits s u) (hs : ∀ properties, s ≠ .object properties) :
    u = s ∨ ∃ v ∈ Schema.listed s, Visits v u := by
  cases h with
  | self => exact .inl rfl
  | listed hv h => exact .inr ⟨_, hv, h⟩
  | object _ _ => exact absurd rfl (hs _)

/-- What stands in a list resolves if the whole does. -/
theorem exists_resolve_of_mem_listed {p s t : Schema} (hs : s ∈ listed p) (ht : resolve p = .ok t) :
    ∃ r, resolve s = .ok r := by
  cases p with
  | sequence _ | positional _ | anyOf _ | oneOf _ =>
    rw [resolve, resolveIn] at ht
    exact exists_resolve_of_mem ht hs
  | enumeration _ | boolean | object _ | uniform _ | ref _ | defs _ _ | unconstrained =>
    exact absurd hs List.not_mem_nil

mutual

/-- What enumeration comes past resolves if the whole does. -/
theorem Visits.resolve_ok : ∀ {s u t : Schema}, Visits s u → resolve s = .ok t → ∃ r, resolve u = .ok r
  | _, _, _, .self _, ht => ⟨_, ht⟩
  | _, _, _, .listed hs h, ht =>
    have ⟨_, hr⟩ := exists_resolve_of_mem_listed hs ht
    h.resolve_ok hr
  | _, _, _, .object he h, ht => by
    rw [resolve, resolveIn] at ht
    obtain ⟨r, hr⟩ := exists_resolve_of_mem_entries ht he
    exact h.resolve_ok hr

theorem VisitsAsProperty.resolve_ok :
    ∀ {s u t : Schema}, VisitsAsProperty s u → resolve s = .ok t → ∃ r, resolve u = .ok r
  | _, _, _, .plain _ h, ht => h.resolve_ok ht
  | _, _, _, .defs _ _, ht => ⟨_, ht⟩
  | _, _, _, .branch hs h, ht =>
    have ⟨_, hr⟩ := exists_resolve_of_mem_listed (mem_listed_of_mem_branchesOf hs) ht
    h.resolve_ok hr

end

/-! ## Failures -/

/-- The failure is that of a dictionary that enumeration comes past. -/
def FailsInside (s : Schema) (e : Failure) : Prop :=
  ∃ definitions body, Visits s (.defs definitions body) ∧ resolve (.defs definitions body) = .error e

/-- The failure is that of a dictionary that the search for the values of a property comes past. -/
def FailsInsideProperty (s : Schema) (e : Failure) : Prop :=
  ∃ definitions body, VisitsAsProperty s (.defs definitions body) ∧ resolve (.defs definitions body) = .error e

theorem FailsInside.of_visits {p s : Schema} {e : Failure} (h : FailsInside s e) (hp : ∀ u, Visits s u → Visits p u) :
    FailsInside p e := by
  obtain ⟨definitions, body, hv, hr⟩ := h
  exact ⟨definitions, body, hp _ hv, hr⟩

theorem bind_eq_error_iff {α β : Type} {x : Except Failure α} {f : α → Except Failure β} {e : Failure} :
    x.bind f = .error e ↔ x = .error e ∨ ∃ a, x = .ok a ∧ f a = .error e := by
  cases x <;> simp [Except.bind]

theorem map_eq_error_iff {α β : Type} {x : Except Failure α} {f : α → β} {e : Failure} :
    x.map f = .error e ↔ x = .error e := by
  cases x <;> simp [Except.map]

theorem exists_of_enumerateEach_error {ss : List Schema} {seed : List Candidate} {e : Failure}
    (h : enumerateEach ss seed = .error e) : ∃ s ∈ ss, ∃ seed, enumerate s seed = .error e := by
  induction ss generalizing seed with
  | nil =>
    rw [enumerateEach] at h
    cases h
  | cons s ss ih =>
    rw [enumerateEach_cons, bind_eq_error_iff] at h
    rcases h with hs | ⟨cs, _, h⟩
    · exact ⟨s, List.mem_cons_self, seed, hs⟩
    · obtain ⟨t, ht, seed', he⟩ := ih h
      exact ⟨t, List.mem_cons_of_mem _ ht, seed', he⟩

theorem exists_of_enumerateAny_error {ss : List Schema} {seed : List Candidate} {e : Failure}
    (h : enumerateAny ss seed = .error e) : ∃ s ∈ ss, enumerate s seed = .error e := by
  induction ss with
  | nil =>
    rw [enumerateAny] at h
    cases h
  | cons s ss ih =>
    rw [enumerateAny_cons, bind_eq_error_iff] at h
    rcases h with hs | ⟨cs, _, h⟩
    · exact ⟨s, List.mem_cons_self, hs⟩
    · obtain ⟨t, ht, he⟩ := ih (map_eq_error_iff.1 h)
      exact ⟨t, List.mem_cons_of_mem _ ht, he⟩

theorem exists_of_anyPropertyValues_error {ss : List Schema} {e : Failure} (h : anyPropertyValues ss = .error e) :
    ∃ s ∈ ss, propertyValues s = .error e := by
  induction ss with
  | nil =>
    rw [anyPropertyValues] at h
    cases h
  | cons s ss ih =>
    rw [anyPropertyValues_cons, bind_eq_error_iff] at h
    rcases h with hs | ⟨vs, _, h⟩
    · exact ⟨s, List.mem_cons_self, hs⟩
    · obtain ⟨t, ht, he⟩ := ih (map_eq_error_iff.1 h)
      exact ⟨t, List.mem_cons_of_mem _ ht, he⟩

theorem exists_of_choices_error {properties : List (String × Schema)} {e : Failure} (h : choices properties = .error e) :
    ∃ p ∈ properties, propertyValues p.2 = .error e := by
  induction properties with
  | nil =>
    rw [choices] at h
    cases h
  | cons p properties ih =>
    rw [choices_cons, bind_eq_error_iff] at h
    rcases h with hs | ⟨vs, _, h⟩
    · exact ⟨p, List.mem_cons_self, hs⟩
    · obtain ⟨q, hq, he⟩ := ih (map_eq_error_iff.1 h)
      exact ⟨q, List.mem_cons_of_mem _ hq, he⟩

/-- If enumeration fails, so does the resolution of a dictionary on its way. -/
theorem failsInside_of_error (s : Schema) :
    (∀ seed e, enumerate s seed = .error e → FailsInside s e) ∧
      ∀ e, propertyValues s = .error e → FailsInsideProperty s e := by
  have plain {t : Schema} (ht : isPlain t = true) (h : ∀ seed e, enumerate t seed = .error e → FailsInside t e) :
      (∀ seed e, enumerate t seed = .error e → FailsInside t e) ∧
        ∀ e, propertyValues t = .error e → FailsInsideProperty t e := by
    refine ⟨h, fun e he => ?_⟩
    rw [propertyValues_of_isPlain ht, map_eq_error_iff] at he
    obtain ⟨definitions, body, hv, hr⟩ := h _ _ he
    exact ⟨definitions, body, .plain ht hv, hr⟩
  induction s using structuralInduction with
  | enumeration _ | boolean | ref _ | unconstrained =>
    refine plain rfl fun seed e h => ?_
    rw [enumerate] at h
    cases h
  | object properties ih =>
    refine ⟨fun seed e h => ?_, fun e h => ?_⟩
    · rw [enumerate_object, map_eq_error_iff] at h
      obtain ⟨p, hp, hpe⟩ := exists_of_choices_error h
      obtain ⟨definitions, body, hv, hr⟩ := (ih p hp).2 e hpe
      exact ⟨definitions, body, .object hp hv, hr⟩
    · rw [propertyValues] at h
      cases h
  | positional _ ih | sequence _ ih =>
    refine plain rfl fun seed e h => ?_
    rw [enumerate] at h
    obtain ⟨t, ht, seed', he⟩ := exists_of_enumerateEach_error h
    exact ((ih t ht).1 seed' e he).of_visits fun _ => .listed ht
  | uniform item ih =>
    refine plain rfl fun seed e h => ?_
    rcases enumeration_or_ne item with ⟨literals, rfl⟩ | hne
    · rw [enumerate] at h
      cases h
    · rw [enumerate_uniform_of_ne seed hne] at h
      cases h
  | anyOf _ ih | oneOf _ ih =>
    refine ⟨fun seed e h => ?_, fun e h => ?_⟩
    · rw [enumerate] at h
      obtain ⟨t, ht, he⟩ := exists_of_enumerateAny_error h
      exact ((ih t ht).1 seed e he).of_visits fun _ => .listed ht
    · rw [propertyValues] at h
      obtain ⟨t, ht, he⟩ := exists_of_anyPropertyValues_error h
      obtain ⟨definitions, body, hv, hr⟩ := (ih t ht).2 e he
      exact ⟨definitions, body, .branch ht hv, hr⟩
  | defs definitions body _ _ =>
    refine ⟨fun seed e h => ⟨definitions, body, .self _, ?_⟩, fun e h => ⟨definitions, body, .defs _ _, ?_⟩⟩
    -- nothing is left in a resolved schema that could fail
    · rw [enumerate_defs, bind_eq_error_iff] at h
      rcases h with h | ⟨t, ht, h⟩
      · exact h
      · obtain ⟨cs, hcs⟩ := exists_enumerate_of_hasDefs (hasDefs_resolve ht) seed
        cases hcs.symm.trans h
    · rw [propertyValues_defs, bind_eq_error_iff] at h
      rcases h with h | ⟨t, ht, h⟩
      · exact h
      · obtain ⟨vs, hvs⟩ := exists_propertyValues_of_hasDefs (hasDefs_resolve ht)
        cases hvs.symm.trans h

/-- A schema that resolves enumerates. -/
theorem exists_enumerate_of_resolve {s t : Schema} (h : resolve s = .ok t) (seed : List Candidate) :
    ∃ cs, enumerate s seed = .ok cs := by
  cases hs : enumerate s seed with
  | ok cs => exact ⟨cs, rfl⟩
  | error e =>
    obtain ⟨definitions, body, hv, hr⟩ := (failsInside_of_error s).1 seed e hs
    obtain ⟨r, hok⟩ := hv.resolve_ok h
    exact absurd (hr.symm.trans hok) (by simp)

/-- An array whose items are an enumeration under a dictionary of their own. -/
def Withholds (u : Schema) : Prop :=
  ∃ definitions body literals,
    u = .uniform (.defs definitions body) ∧ resolve (.defs definitions body) = .ok (.enumeration literals)

/-! ## Where both ways agree -/

/-- Both schemas give the same candidates for each seed. -/
def SameCandidates (s t : Schema) : Prop := ∀ seed, enumerate s seed = enumerate t seed

theorem enumerateEach_congr {ss ts : List Schema} (h : List.Forall₂ SameCandidates ss ts) (seed : List Candidate) :
    enumerateEach ss seed = enumerateEach ts seed := by
  induction h generalizing seed with
  | nil => rfl
  | cons hst _ ih =>
    rw [enumerateEach_cons, enumerateEach_cons, hst seed]
    exact congrArg _ (funext ih)

theorem enumerateAny_congr {ss ts : List Schema} (h : List.Forall₂ SameCandidates ss ts) (seed : List Candidate) :
    enumerateAny ss seed = enumerateAny ts seed := by
  induction h with
  | nil => rfl
  | cons hst _ ih => rw [enumerateAny_cons, enumerateAny_cons, hst seed, ih]

theorem anyPropertyValues_congr {ss ts : List Schema}
    (h : List.Forall₂ (fun s t => propertyValues s = propertyValues t) ss ts) :
    anyPropertyValues ss = anyPropertyValues ts := by
  induction h with
  | nil => rfl
  | cons hst _ ih => rw [anyPropertyValues_cons, anyPropertyValues_cons, hst, ih]

theorem choices_congr {es fs : List (String × Schema)}
    (h : List.Forall₂ (fun e f => propertyValues e.2 = propertyValues f.2 ∧ f.1 = e.1) es fs) :
    choices es = choices fs := by
  induction h with
  | nil => rfl
  | cons hef _ ih => rw [choices_cons, choices_cons, hef.1, hef.2, ih]

/-- As far as enumeration comes past no withheld items, the schema and its resolved form have the same candidates. -/
def AgreesResolved (s : Schema) : Prop :=
  ∀ t, resolve s = .ok t → (∀ u, Visits s u → ¬ Withholds u) → SameCandidates s t

/-- The same for the values of a property. -/
def AgreesAsProperty (s : Schema) : Prop :=
  ∀ t, resolve s = .ok t → (∀ u, VisitsAsProperty s u → ¬ Withholds u) → propertyValues s = propertyValues t

theorem forall₂_of_forall_mem {α β : Type} {R S : α → β → Prop} {l : List α} {r : List β}
    (hi : ∀ a ∈ l, ∀ b, R a b → S a b) (h : List.Forall₂ R l r) : List.Forall₂ S l r :=
  ((List.forall₂_and_left l r).2 ⟨hi, h⟩).imp fun _ _ hab => hab.1 _ hab.2

theorem sameCandidates_of_forall_mem {ss ts : List Schema} (h : resolveListIn {} ss = .ok ts)
    (ih : ∀ s ∈ ss, AgreesResolved s) (hc : ∀ s ∈ ss, ∀ u, Visits s u → ¬ Withholds u) :
    List.Forall₂ SameCandidates ss ts :=
  forall₂_of_forall_mem (fun s hs t ht => ih s hs t ht (hc s hs)) (resolveListIn_ok_iff.1 h)

theorem sameValues_of_forall_mem {ss ts : List Schema} (h : resolveListIn {} ss = .ok ts)
    (ih : ∀ s ∈ ss, AgreesAsProperty s) (hc : ∀ s ∈ ss, ∀ u, VisitsAsProperty s u → ¬ Withholds u) :
    List.Forall₂ (fun s t => propertyValues s = propertyValues t) ss ts :=
  forall₂_of_forall_mem (fun s hs t ht => ih s hs t ht (hc s hs)) (resolveListIn_ok_iff.1 h)

theorem AgreesResolved.asProperty {s : Schema} (h : AgreesResolved s) (hs : isPlain s = true) : AgreesAsProperty s := by
  intro t ht hc
  rw [propertyValues_of_isPlain hs, propertyValues_of_isPlain (isPlain_resolve ht hs),
    h t ht (fun u hu => hc u (.plain hs hu)) [[]]]

/-- Items are looked at once resolved; unless they are withheld, that makes no difference. -/
theorem agreesResolved_uniform (item : Schema) : AgreesResolved (.uniform item) := by
  intro t ht hc seed
  simp only [resolve, resolveIn, bind_eq_ok_iff, pure_eq_ok_iff] at ht
  obtain ⟨r, hr, rfl⟩ := ht
  rcases enumeration_or_ne item with ⟨literals, rfl⟩ | hitem
  · rw [resolveIn] at hr
    cases hr
    rfl
  · have hres : ∀ literals, r ≠ .enumeration literals := by
      rintro literals rfl
      rcases eq_of_resolve_eq_enumeration hr with h | ⟨definitions, body, rfl⟩
      · exact hitem literals h
      · exact hc _ (.self _) ⟨definitions, body, literals, rfl, hr⟩
    rw [enumerate_uniform_of_ne seed hitem, enumerate_uniform_of_ne seed hres]

theorem agrees_resolved (s : Schema) : AgreesResolved s ∧ AgreesAsProperty s := by
  have plain {t : Schema} (ht : isPlain t = true) (h : AgreesResolved t) : AgreesResolved t ∧ AgreesAsProperty t :=
    ⟨h, h.asProperty ht⟩
  induction s using structuralInduction with
  | enumeration _ | boolean | unconstrained =>
    refine plain rfl fun t ht _ seed => ?_
    rw [resolve, resolveIn] at ht
    cases ht
    rfl
  | object properties ih =>
    refine ⟨fun t ht hc seed => ?_, fun t ht _ => ?_⟩
    all_goals
      simp only [resolve, resolveIn, bind_eq_ok_iff, pure_eq_ok_iff] at ht
      obtain ⟨ts, hts, rfl⟩ := ht
    · have hvals : choices properties = choices ts := choices_congr <|
        forall₂_of_forall_mem (fun e he f hf => ⟨(ih e he).2 _ hf.1 fun u hu => hc u (.object he hu), hf.2⟩)
          (resolveEntriesIn_ok_iff.1 hts)
      rw [enumerate_object, enumerate_object, hvals]
    · rw [propertyValues, propertyValues]
  | positional _ ih | sequence _ ih =>
    refine plain rfl fun t ht hc seed => ?_
    simp only [resolve, resolveIn, bind_eq_ok_iff, pure_eq_ok_iff] at ht
    obtain ⟨ts, hts, rfl⟩ := ht
    rw [enumerate, enumerate]
    exact enumerateEach_congr (sameCandidates_of_forall_mem hts (fun s hs => (ih s hs).1)
      fun s hs u hu => hc u (.listed hs hu)) seed
  | uniform item _ => exact plain rfl (agreesResolved_uniform item)
  | anyOf _ ih | oneOf _ ih =>
    refine ⟨fun t ht hc seed => ?_, fun t ht hc => ?_⟩
    all_goals
      simp only [resolve, resolveIn, bind_eq_ok_iff, pure_eq_ok_iff] at ht
      obtain ⟨ts, hts, rfl⟩ := ht
    · rw [enumerate, enumerate]
      exact enumerateAny_congr (sameCandidates_of_forall_mem hts (fun s hs => (ih s hs).1)
        fun s hs u hu => hc u (.listed hs hu)) seed
    · rw [propertyValues, propertyValues]
      exact anyPropertyValues_congr (sameValues_of_forall_mem hts (fun s hs => (ih s hs).2)
        fun s hs u hu => hc u (.branch hs hu))
  | ref name =>
    refine plain rfl fun t ht _ seed => ?_
    rw [resolve_ref] at ht
    cases ht
    rfl
  | defs definitions body _ _ =>
    refine ⟨fun t ht _ seed => ?_, fun t ht _ => ?_⟩
    · rw [enumerate_defs, ht]
      rfl
    · rw [propertyValues_defs, ht]
      rfl

/-- An array that withholds its items gives the seed alone, and its literals only once resolved. -/
theorem Withholds.not_sameCandidates {u r : Schema} (h : Withholds u) (hr : resolve u = .ok r) : ¬ SameCandidates u r := by
  obtain ⟨definitions, body, literals, rfl, hl⟩ := h
  rw [resolve, resolveIn] at hr
  obtain ⟨item, hitem, hr⟩ := bind_eq_ok_iff.1 hr
  cases hitem.symm.trans hl
  cases hr
  intro hsame
  have hne : ∀ ls, Schema.defs definitions body ≠ .enumeration ls := by simp
  have h := hsame [[]]
  rw [enumerate_uniform_of_ne _ hne, enumerate] at h
  have hmem : [] ∈ appendEach [[]] literals := Except.ok.inj h ▸ List.mem_singleton_self _
  simp [appendEach, Candidate.extend] at hmem

/-- A schema that resolves enumerates. It has the candidates of its resolved form unless its enumeration comes past an
array that withholds its items; it and all parts on the way have those of their resolved forms exactly then. A schema as
a whole may agree without its parts, as where another place of the list has no candidates at all. -/
theorem enumerate_eq_resolve_iff {s t : Schema} (h : resolve s = .ok t) :
    (∀ seed, ∃ cs, enumerate s seed = .ok cs) ∧
      ((∀ u, Visits s u → ¬ Withholds u) → ∀ seed, enumerate s seed = enumerate t seed) ∧
      ((∀ u, Visits s u → ∀ r, resolve u = .ok r → ∀ seed, enumerate u seed = enumerate r seed) ↔
        ∀ u, Visits s u → ¬ Withholds u) := by
  refine ⟨exists_enumerate_of_resolve h, (agrees_resolved s).1 t h, fun hsame u hu hw => ?_, fun hc u hu r hr => ?_⟩
  · obtain ⟨r, hr⟩ := hu.resolve_ok h
    exact hw.not_sameCandidates hr (hsame u hu r hr)
  · exact (agrees_resolved u).1 r hr fun v hv => hc v (hu.trans hv)

/-- A dictionary in a list, with a reference in a union, and an array. Nothing is withheld, so all seeds give the same. -/
theorem enumerate_eq_resolve_iff_union :
    let s : Schema := .sequence [.defs [("v", .enumeration [.string "x"])] (.anyOf [.ref "v", .boolean]),
      .uniform (.enumeration [.null])]
    let t : Schema := .sequence [.anyOf [.enumeration [.string "x"], .boolean], .uniform (.enumeration [.null])]
    resolve s = .ok t ∧ (∀ u, Visits s u → ¬ Withholds u) ∧ (∀ seed, enumerate s seed = enumerate t seed) ∧
      (∀ u, Visits s u → ∀ r, resolve u = .ok r → ∀ seed, enumerate u seed = enumerate r seed) ∧
      enumerate s [Candidate.error] = .ok [[.string "error", .string "x", .null], [.string "error", .bool false, .null],
        [.string "error", .bool true, .null]] := by
  intro s t
  have h : resolve s = .ok t := by cbv
  have hnone : ∀ u, Visits s u → ¬ Withholds u := by
    rintro _ hu ⟨definitions, body, literals, rfl, _⟩
    rcases hu.cases_listed (by simp [s]) with hself | ⟨v, hv, hu⟩
    · simp [s] at hself
    · -- neither place is such an array, and neither has places of its own
      simp only [s, listed, List.mem_cons, List.not_mem_nil, or_false] at hv
      rcases hv with rfl | rfl
      · rcases hu.cases_listed (by simp) with hself | ⟨v, hv, _⟩
        · cases hself
        · cases hv
      · rcases hu.cases_listed (by simp) with hself | ⟨v, hv, _⟩
        · cases hself
        · cases hv
  obtain ⟨_, hseeds, hparts⟩ := enumerate_eq_resolve_iff h
  refine ⟨h, hnone, hseeds hnone, hparts.2 hnone, ?_⟩
  rw [hseeds hnone]
  cbv

/-- An array that can be written: its items refer to a definition of their own. Enumeration has only the seed for it, and
the literal for its resolved form. -/
theorem enumerate_ne_resolve_items :
    ∃ s t, ofJson (.object [("type", .string "array"), ("items", .object
        [("defs", .object [("a", .object [("enum", .array [.string "x"])])]), ("$ref", .string "#/defs/a")])]) = s ∧
      resolve s = .ok t ∧
      enumerate s [Candidate.error] = .ok [[.string "error"]] ∧
      enumerate t [Candidate.error] = .ok [[.string "error", .string "x"]] ∧
      enumerate s [Candidate.error] ≠ enumerate t [Candidate.error] := by
  have hread : ofJson (.object [("type", .string "array"), ("items", .object
        [("defs", .object [("a", .object [("enum", .array [.string "x"])])]), ("$ref", .string "#/defs/a")])]) =
      .uniform (.defs [("a", .enumeration [.string "x"])] (.ref "a")) := by
    simp [ofJson, ofJsonEntries, partsOf, ofNode, ofParts, refOf?, refName, refPrefix, namesItems, allowsOthers,
      Entries.get?, Json.asString?, Json.asArray?]
  have hres : resolve (.uniform (.defs [("a", .enumeration [.string "x"])] (.ref "a"))) =
      .ok (.uniform (.enumeration [.string "x"])) := by cbv
  have hs : enumerate (.uniform (.defs [("a", .enumeration [.string "x"])] (.ref "a"))) [Candidate.error] =
      .ok [[.string "error"]] := by cbv
  have ht : enumerate (.uniform (.enumeration [.string "x"])) [Candidate.error] =
      .ok [[.string "error", .string "x"]] := by cbv
  exact ⟨_, _, hread, hres, hs, ht, by rw [hs, ht]; simp⟩

end LintInference.Schema
