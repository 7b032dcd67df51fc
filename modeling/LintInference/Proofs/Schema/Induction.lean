import LintInference.Schema.Enumeration
import Mathlib.Data.List.Forall2

/-!
# Induction over schemas

A schema holds lists of schemas, so its own recursor speaks about lists and entries too. `structuralInduction` speaks of
the members of a list instead. `walkInduction` follows enumeration: a dictionary is left by resolving it, and what the
resolution gives (`Schema.hasDefs_resolve`) holds no dictionary any more.
-/

namespace LintInference.Schema

/-! ## Parts without a dictionary -/

theorem hasDefsList_eq_false {ss : List Schema} : hasDefsList ss = false ↔ ∀ s ∈ ss, hasDefs s = false := by
  induction ss with
  | nil => simp [hasDefsList]
  | cons s ss ih => simp [hasDefsList, ih]

theorem hasDefsEntries_eq_false {es : List (String × Schema)} :
    hasDefsEntries es = false ↔ ∀ e ∈ es, hasDefs e.2 = false := by
  induction es with
  | nil => simp [hasDefsEntries]
  | cons e es ih => simp [hasDefsEntries, ih]

/-- The constructors that take a list of schemas. -/
inductive Listing : (List Schema → Schema) → Prop where
  | positional : Listing .positional
  | anyOf : Listing .anyOf
  | oneOf : Listing .oneOf
  | sequence : Listing .sequence

/-! ## The two principles -/

section Principles

variable {P : Schema → Prop}

/-- Induction with a hypothesis for each part of a schema. -/
@[elab_as_elim]
theorem structuralInduction (enumeration : ∀ literals, P (.enumeration literals)) (boolean : P .boolean)
    (object : ∀ properties, (∀ e ∈ properties, P e.2) → P (.object properties))
    (positional : ∀ items, (∀ s ∈ items, P s) → P (.positional items))
    (uniform : ∀ item, P item → P (.uniform item))
    (anyOf : ∀ branches, (∀ s ∈ branches, P s) → P (.anyOf branches))
    (oneOf : ∀ branches, (∀ s ∈ branches, P s) → P (.oneOf branches))
    (sequence : ∀ elements, (∀ s ∈ elements, P s) → P (.sequence elements))
    (ref : ∀ name, P (.ref name))
    (defs : ∀ definitions body, (∀ e ∈ definitions, P e.2) → P body → P (.defs definitions body))
    (unconstrained : P .unconstrained) (s : Schema) : P s := by
  refine Schema.rec (motive_1 := P) (motive_2 := fun es => ∀ e ∈ es, P e.2) (motive_3 := fun ss => ∀ s ∈ ss, P s)
    (motive_4 := fun e => P e.2) enumeration boolean object positional uniform anyOf oneOf sequence ref defs
    unconstrained ?_ ?_ ?_ ?_ ?_ s
  · simp
  · intro e es he hes
    exact List.forall_mem_cons.2 ⟨he, hes⟩
  · simp
  · intro s ss hs hss
    exact List.forall_mem_cons.2 ⟨hs, hss⟩
  · exact fun _ _ hs => hs

/-- Induction along enumeration: at a dictionary, the hypothesis is about the resolved schema. -/
@[elab_as_elim]
theorem walkInduction (enumeration : ∀ literals, P (.enumeration literals)) (boolean : P .boolean)
    (object : ∀ properties, (∀ e ∈ properties, P e.2) → P (.object properties))
    (positional : ∀ items, (∀ s ∈ items, P s) → P (.positional items))
    (uniform : ∀ item, P item → P (.uniform item))
    (anyOf : ∀ branches, (∀ s ∈ branches, P s) → P (.anyOf branches))
    (oneOf : ∀ branches, (∀ s ∈ branches, P s) → P (.oneOf branches))
    (sequence : ∀ elements, (∀ s ∈ elements, P s) → P (.sequence elements))
    (ref : ∀ name, P (.ref name))
    (defs : ∀ definitions body, (∀ t, resolve (.defs definitions body) = .ok t → P t) → P (.defs definitions body))
    (unconstrained : P .unconstrained) (s : Schema) : P s := by
  have free : ∀ t, hasDefs t = false → P t := by
    intro t
    induction t using structuralInduction with
    | enumeration literals => exact fun _ => enumeration literals
    | boolean => exact fun _ => boolean
    | object properties ih => exact fun h => object _ fun e he => ih e he (hasDefsEntries_eq_false.1 h e he)
    | positional items ih => exact fun h => positional _ fun s hs => ih s hs (hasDefsList_eq_false.1 h s hs)
    | uniform item ih => exact fun h => uniform _ (ih h)
    | anyOf branches ih => exact fun h => anyOf _ fun s hs => ih s hs (hasDefsList_eq_false.1 h s hs)
    | oneOf branches ih => exact fun h => oneOf _ fun s hs => ih s hs (hasDefsList_eq_false.1 h s hs)
    | sequence elements ih => exact fun h => sequence _ fun s hs => ih s hs (hasDefsList_eq_false.1 h s hs)
    | ref name => exact fun _ => ref name
    | defs definitions body _ _ => intro h; simp [hasDefs] at h
    | unconstrained => exact fun _ => unconstrained
  induction s using structuralInduction with
  | enumeration literals => exact enumeration literals
  | boolean => exact boolean
  | object properties ih => exact object _ ih
  | positional items ih => exact positional _ ih
  | uniform item ih => exact uniform _ ih
  | anyOf branches ih => exact anyOf _ ih
  | oneOf branches ih => exact oneOf _ ih
  | sequence elements ih => exact sequence _ ih
  | ref name => exact ref name
  | defs definitions body _ _ => exact defs _ _ fun t ht => free t (hasDefs_resolve ht)
  | unconstrained => exact unconstrained

end Principles

/-! ## Enumeration, constructor by constructor -/

section Equations

variable (seed : List Candidate)

theorem enumerate_defs (definitions : List (String × Schema)) (body : Schema) :
    enumerate (.defs definitions body) seed = (resolve (.defs definitions body)).bind (enumerate · seed) := by
  rw [enumerate]
  split <;> simp_all [Except.bind]

theorem enumerate_uniform_enumeration (literals : List Json) :
    enumerate (.uniform (.enumeration literals)) seed = enumerate (.enumeration literals) seed := by
  rw [enumerate, enumerate]

/-- The two cases of the items of an array. -/
theorem enumeration_or_ne (item : Schema) :
    (∃ literals, item = .enumeration literals) ∨ ∀ literals, item ≠ .enumeration literals := by
  cases item with
  | enumeration literals => exact .inl ⟨literals, rfl⟩
  | boolean | object _ | positional _ | uniform _ | anyOf _ | oneOf _ | sequence _ | ref _ | defs _ _ | unconstrained =>
    exact .inr nofun

theorem enumerate_uniform_of_ne {item : Schema} (h : ∀ literals, item ≠ .enumeration literals) :
    enumerate (.uniform item) seed = .ok seed := by
  rw [enumerate]
  exact h

theorem enumerate_object (properties : List (String × Schema)) :
    enumerate (.object properties) seed = (choices properties).map fun cs =>
      if combinations cs = [] then seed else appendEach seed (combinations cs) := by
  rw [enumerate]
  cases choices properties with
  | error e => rfl
  | ok cs =>
    cases h : combinations cs with
    | nil => simp [bind, Except.bind, Except.map, pure, Except.pure, h]
    | cons o os => simp [bind, Except.bind, Except.map, pure, Except.pure, h]

theorem enumerateEach_cons (s : Schema) (ss : List Schema) :
    enumerateEach (s :: ss) seed = (enumerate s seed).bind (enumerateEach ss) := by
  rw [enumerateEach]
  rfl

theorem enumerateAny_cons (s : Schema) (ss : List Schema) :
    enumerateAny (s :: ss) seed = (enumerate s seed).bind fun cs => (enumerateAny ss seed).map (cs ++ ·) := by
  rw [enumerateAny]
  cases enumerate s seed with
  | error e => rfl
  | ok cs => cases enumerateAny ss seed <;> rfl

end Equations

/-! ## The values of properties, constructor by constructor -/

theorem propertyValues_defs (definitions : List (String × Schema)) (body : Schema) :
    propertyValues (.defs definitions body) = (resolve (.defs definitions body)).bind propertyValues := by
  rw [propertyValues]
  split <;> simp_all [Except.bind]

/-- Does a property with the schema take the values of the schema's candidates? -/
def isPlain : Schema → Bool
  | .defs _ _ => false
  | .object _ => false
  | .anyOf _ => false
  | .oneOf _ => false
  | _ => true

theorem propertyValues_of_isPlain {s : Schema} (h : isPlain s = true) :
    propertyValues s = (enumerate s [[]]).map List.flatten := by
  rw [propertyValues]
  · cases enumerate s [[]] <;> rfl
  all_goals
    intros
    subst_vars
    cases h

theorem anyPropertyValues_cons (s : Schema) (ss : List Schema) :
    anyPropertyValues (s :: ss) = (propertyValues s).bind fun vs => (anyPropertyValues ss).map (vs ++ ·) := by
  rw [anyPropertyValues]
  cases propertyValues s with
  | error e => rfl
  | ok vs => cases anyPropertyValues ss <;> rfl

theorem choices_cons (name : String) (s : Schema) (properties : List (String × Schema)) :
    choices ((name, s) :: properties) = (propertyValues s).bind fun vs => (choices properties).map fun cs =>
      if vs = [] then cs else (name, vs) :: cs := by
  rw [choices]
  cases propertyValues s with
  | error e => rfl
  | ok vs => cases choices properties <;> simp [bind, Except.bind, Except.map, pure, Except.pure]

theorem map_eq_ok_iff {α β : Type} {x : Except Failure α} {f : α → β} {b : β} :
    x.map f = .ok b ↔ ∃ a, x = .ok a ∧ f a = b := by
  cases x <;> simp [Except.map]

/-- The choices are the properties with their values, less those without. -/
theorem choices_ok_iff {properties : List (String × Schema)} {cs : List Choice} :
    choices properties = .ok cs ↔
      ∃ all, List.Forall₂ (fun p c => propertyValues p.2 = .ok c.2 ∧ c.1 = p.1) properties all ∧
        all.filter (!·.2.isEmpty) = cs := by
  induction properties generalizing cs with
  | nil =>
    rw [choices]
    simp only [List.forall₂_nil_left_iff, exists_eq_left, List.filter_nil, Except.ok.injEq]
  | cons p properties ih =>
    have hdrop (vs : List Json) (all : List Choice) :
        (if vs = [] then all.filter (!·.2.isEmpty) else (p.1, vs) :: all.filter (!·.2.isEmpty)) =
          ((p.1, vs) :: all).filter (!·.2.isEmpty) := by
      by_cases hvs : vs = [] <;> simp [hvs]
    rw [choices_cons]
    constructor
    · intro h
      obtain ⟨vs, hvs, h⟩ := bind_eq_ok_iff.1 h
      obtain ⟨others, ho, rfl⟩ := map_eq_ok_iff.1 h
      obtain ⟨all, hall, rfl⟩ := ih.1 ho
      exact ⟨(p.1, vs) :: all, .cons ⟨hvs, rfl⟩ hall, (hdrop vs all).symm⟩
    · rintro ⟨_, hall, rfl⟩
      cases hall with
      | @cons _ c _ all hc hall =>
        obtain ⟨name, vs⟩ := c
        obtain ⟨hvs, rfl⟩ := hc
        rw [hvs, ih.2 ⟨all, hall, rfl⟩]
        exact congrArg Except.ok (hdrop vs all)

/-- Properties without values leave, and the others stay in order. -/
theorem keys_sublist_of_choices {properties : List (String × Schema)} {cs : List Choice}
    (h : choices properties = .ok cs) : (Entries.keys cs).Sublist (Entries.keys properties) := by
  induction properties generalizing cs with
  | nil =>
    rw [choices] at h
    cases h
    exact .refl _
  | cons p properties ih =>
    rw [choices_cons] at h
    obtain ⟨vs, _, h⟩ := bind_eq_ok_iff.1 h
    obtain ⟨others, ho, rfl⟩ := map_eq_ok_iff.1 h
    by_cases hvs : vs = []
    · rw [if_pos hvs]
      exact (ih ho).cons _
    · rw [if_neg hvs]
      exact (ih ho).cons_cons _

/-- If all values are there, so are the choices, and each has values with what the values of all properties have. -/
theorem exists_choices {P : List Json → Prop} {properties : List (String × Schema)}
    (h : ∀ e ∈ properties, ∃ vs, propertyValues e.2 = .ok vs ∧ P vs) :
    ∃ cs, choices properties = .ok cs ∧ ∀ c ∈ cs, c.2 ≠ [] ∧ P c.2 := by
  induction properties with
  | nil => exact ⟨[], by rw [choices], by simp⟩
  | cons p properties ih =>
    obtain ⟨⟨vs, hvs, hp⟩, hproperties⟩ := List.forall_mem_cons.1 h
    obtain ⟨cs, hcs, hall⟩ := ih hproperties
    refine ⟨if vs = [] then cs else (p.1, vs) :: cs, by rw [choices_cons, hvs, hcs]; rfl, ?_⟩
    by_cases hempty : vs = []
    · rw [if_pos hempty]
      exact hall
    · rw [if_neg hempty]
      exact List.forall_mem_cons.2 ⟨⟨hempty, hp⟩, hall⟩

end LintInference.Schema
