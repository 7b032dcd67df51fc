import LintInference.Proofs.Schema.Nodes

/-!
# The values of unions

Unions are walked in two ways: enumeration joins the candidates of the branches, and the search for the values of a
property joins their values, passing over branches that are objects. A schema that is reached through unions only is an
alternative (`Schema.Alternative`). Where no alternative is an object, the values of a property are those of all
candidates of its schema (`propertyValues_eq_map_flatten`). Objects among the alternatives can be taken out of their
unions first (`Schema.withoutObjects`): then no alternative is an object any more, and the values are the same
(`propertyValues_withoutObjects`).
-/

namespace LintInference.Schema

/-! ## Alternatives -/

/-- The second schema is the first one or is reached from it through unions only. -/
def Alternative : Schema → Schema → Prop := Relation.ReflTransGen fun s b => b ∈ branchesOf s

theorem Alternative.of_mem_branchesOf {s b u : Schema} (hb : b ∈ branchesOf s) (h : Alternative b u) :
    Alternative s u := .head hb h

theorem mem_children_of_mem_branchesOf {s b : Schema} (h : b ∈ branchesOf s) : b ∈ s.children := by
  cases s with
  | anyOf _ | oneOf _ => exact h
  | enumeration _ | boolean | object _ | positional _ | uniform _ | sequence _ | ref _ | defs _ _ | unconstrained =>
    exact absurd h List.not_mem_nil

theorem Alternative.contains {s u : Schema} (h : Alternative s u) : s.Contains u := by
  induction h with
  | refl => exact .refl
  | tail _ hb ih => exact ih.tail (mem_children_of_mem_branchesOf hb)

/-! ## Two walks through unions -/

theorem anyPropertyValues_eq_map_flatten {ss : List Schema}
    (h : ∀ s ∈ ss, propertyValues s = (enumerate s [[]]).map List.flatten) :
    anyPropertyValues ss = (enumerateAny ss [[]]).map List.flatten := by
  induction ss with
  | nil =>
    rw [anyPropertyValues, enumerateAny]
    rfl
  | cons s ss ih =>
    obtain ⟨hs, hss⟩ := List.forall_mem_cons.1 h
    rw [anyPropertyValues_cons, enumerateAny_cons, hs, ih hss]
    cases enumerate s [[]] with
    | error _ => rfl
    | ok ws =>
      cases enumerateAny ss [[]] with
      | error _ => rfl
      | ok ws' => exact congrArg Except.ok List.flatten_append.symm

/-- Induction along the alternatives: the values are those of the candidates, in order, each as often as it comes. -/
theorem propertyValues_eq_map_flatten {s : Schema} (hobject : ∀ properties, ¬ Alternative s (.object properties))
    (hdefs : ∀ definitions body, ¬ Alternative s (.defs definitions body)) :
    propertyValues s = (enumerate s [[]]).map List.flatten := by
  induction s using structuralInduction with
  | object properties => exact absurd .refl (hobject properties)
  | defs definitions body => exact absurd .refl (hdefs definitions body)
  | anyOf branches ih | oneOf branches ih =>
    rw [propertyValues, enumerate]
    refine anyPropertyValues_eq_map_flatten fun b hb => ih b hb (fun properties h => ?_) fun definitions body h => ?_
    · exact hobject properties (h.of_mem_branchesOf hb)
    · exact hdefs definitions body (h.of_mem_branchesOf hb)
  | enumeration _ | boolean | positional _ | uniform _ | sequence _ | ref _ | unconstrained =>
    exact propertyValues_of_isPlain rfl

theorem exists_enumerate_of_propertyValues {s : Schema} (hobject : ∀ properties, ¬ Alternative s (.object properties))
    (hdefs : ∀ definitions body, ¬ Alternative s (.defs definitions body)) {vs : List Json}
    (h : propertyValues s = .ok vs) : ∃ cs, enumerate s [[]] = .ok cs ∧ vs = cs.flatten := by
  rw [propertyValues_eq_map_flatten hobject hdefs] at h
  obtain ⟨cs, hcs, rfl⟩ := map_eq_ok_iff.1 h
  exact ⟨cs, hcs, rfl⟩

/-! ## Unions without objects -/

/-- Is this an object? -/
def isObject : Schema → Bool
  | .object _ => true
  | _ => false

mutual

/-- The schema with every object that is reached through unions only taken out of its union. -/
def withoutObjects : Schema → Schema
  | .anyOf branches => .anyOf (withoutObjectsList branches)
  | .oneOf branches => .oneOf (withoutObjectsList branches)
  | s => s

/-- The branches that are no objects, with the objects taken out of their own unions. -/
def withoutObjectsList : List Schema → List Schema
  | [] => []
  | s :: ss => if isObject s then withoutObjectsList ss else withoutObjects s :: withoutObjectsList ss

end

theorem withoutObjectsList_eq (ss : List Schema) :
    withoutObjectsList ss = (ss.filter fun s => !isObject s).map withoutObjects := by
  induction ss with
  | nil => rfl
  | cons s ss ih => cases h : isObject s <;> simp [withoutObjectsList, h, ih]

/-- What is no union stays as it is, and a union stays a union. -/
theorem withoutObjects_cases (s : Schema) : s.withoutObjects = s ∨
    ∃ branches, s.withoutObjects = .anyOf branches ∨ s.withoutObjects = .oneOf branches := by
  cases s with
  | anyOf branches => exact .inr ⟨_, .inl rfl⟩
  | oneOf branches => exact .inr ⟨_, .inr rfl⟩
  | enumeration _ | boolean | object _ | positional _ | uniform _ | sequence _ | ref _ | defs _ _ | unconstrained =>
    exact .inl rfl

theorem exists_of_mem_branchesOf_withoutObjects {s b : Schema} (h : b ∈ branchesOf s.withoutObjects) :
    ∃ c ∈ branchesOf s, isObject c = false ∧ b = c.withoutObjects := by
  cases s with
  | anyOf branches | oneOf branches =>
    have hb : b ∈ withoutObjectsList branches := h
    rw [withoutObjectsList_eq] at hb
    obtain ⟨c, hc, rfl⟩ := List.mem_map.1 hb
    obtain ⟨hmem, hobject⟩ := List.mem_filter.1 hc
    exact ⟨c, hmem, by simpa using hobject, rfl⟩
  | enumeration _ | boolean | object _ | positional _ | uniform _ | sequence _ | ref _ | defs _ _ | unconstrained =>
    exact absurd h List.not_mem_nil

/-- What is left among the alternatives are those that are no objects. -/
theorem exists_of_alternative_withoutObjects {s v : Schema} (hs : isObject s = false)
    (h : Alternative s.withoutObjects v) : ∃ u, Alternative s u ∧ isObject u = false ∧ v = u.withoutObjects := by
  induction h with
  | refl => exact ⟨s, .refl, hs, rfl⟩
  | tail _ hb ih =>
    obtain ⟨u, hu, _, rfl⟩ := ih
    obtain ⟨c, hc, hobject, rfl⟩ := exists_of_mem_branchesOf_withoutObjects hb
    exact ⟨c, hu.tail hc, hobject, rfl⟩

/-- So an alternative of what is left is a union or was there before, and it is no object. -/
theorem alternative_withoutObjects_cases {s v : Schema} (hs : isObject s = false)
    (h : Alternative s.withoutObjects v) :
    (Alternative s v ∧ isObject v = false) ∨ ∃ branches, v = .anyOf branches ∨ v = .oneOf branches := by
  obtain ⟨u, hu, hobject, rfl⟩ := exists_of_alternative_withoutObjects hs h
  rcases withoutObjects_cases u with hself | hunion
  · rw [hself]
    exact .inl ⟨hu, hobject⟩
  · exact .inr hunion

theorem anyPropertyValues_withoutObjectsList {ss : List Schema}
    (h : ∀ s ∈ ss, propertyValues s.withoutObjects = propertyValues s) :
    anyPropertyValues (withoutObjectsList ss) = anyPropertyValues ss := by
  induction ss with
  | nil => rfl
  | cons s ss ih =>
    obtain ⟨hs, hss⟩ := List.forall_mem_cons.1 h
    cases hobject : isObject s with
    | true =>
      obtain ⟨properties, rfl⟩ : ∃ properties, s = .object properties := by
        cases s with
        | object properties => exact ⟨properties, rfl⟩
        | _ => cases hobject
      rw [withoutObjectsList, if_pos hobject, ih hss, anyPropertyValues_cons, propertyValues]
      cases anyPropertyValues ss <;> rfl
    | false =>
      rw [withoutObjectsList, if_neg (by simp [hobject]), anyPropertyValues_cons, anyPropertyValues_cons, hs, ih hss]

/-- An object adds nothing to the values of a union. -/
theorem propertyValues_withoutObjects (s : Schema) : propertyValues s.withoutObjects = propertyValues s := by
  induction s using structuralInduction with
  | anyOf branches ih | oneOf branches ih =>
    rw [withoutObjects, propertyValues, propertyValues]
    exact anyPropertyValues_withoutObjectsList ih
  | enumeration _ | boolean | object _ | positional _ | uniform _ | sequence _ | ref _ | defs _ _ | unconstrained =>
    rfl

/-! ## Properties and candidates -/

/-- Without dictionaries, the values of a property whose schema has no object among its alternatives are the values of
all candidates, one after the other. Objects among the alternatives change nothing when they are taken out of their
unions; the schema that is left has none, so its candidates have the values of the property too. -/
theorem propertyValues_agree {s : Schema} (hs : s.DefsFree) :
    ((∀ properties, ¬ Alternative s (.object properties)) →
        ∃ cs, enumerate s [[]] = .ok cs ∧ propertyValues s = .ok cs.flatten) ∧
      (∃ vs, propertyValues s = .ok vs ∧ propertyValues s.withoutObjects = .ok vs) ∧
      ((∀ properties, s ≠ .object properties) → (∀ properties, ¬ Alternative s.withoutObjects (.object properties)) ∧
        ∃ cs, enumerate s.withoutObjects [[]] = .ok cs ∧ propertyValues s = .ok cs.flatten) := by
  obtain ⟨vs, hvs⟩ := exists_propertyValues_of_hasDefs (hasDefs_eq_false_iff.2 hs)
  have hvs' : propertyValues s.withoutObjects = .ok vs := (propertyValues_withoutObjects s).trans hvs
  refine ⟨fun hobject => ?_, ⟨vs, hvs, hvs'⟩, fun hne => ?_⟩
  · have hdefs : ∀ definitions body, ¬ Alternative s (.defs definitions body) :=
      fun definitions body h => hs definitions body h.contains
    obtain ⟨cs, hcs, rfl⟩ := exists_enumerate_of_propertyValues hobject hdefs hvs
    exact ⟨cs, hcs, hvs⟩
  · have hroot : isObject s = false := by
      cases s with
      | object properties => exact absurd rfl (hne properties)
      | _ => rfl
    have hobject : ∀ properties, ¬ Alternative s.withoutObjects (.object properties) := by
      intro properties h
      rcases alternative_withoutObjects_cases hroot h with ⟨_, hu⟩ | ⟨_, hu | hu⟩ <;> cases hu
    have hdefs : ∀ definitions body, ¬ Alternative s.withoutObjects (.defs definitions body) := by
      intro definitions body h
      rcases alternative_withoutObjects_cases hroot h with ⟨hu, _⟩ | ⟨_, hu | hu⟩
      · exact hs definitions body hu.contains
      · cases hu
      · cases hu
    obtain ⟨cs, hcs, rfl⟩ := exists_enumerate_of_propertyValues hobject hdefs hvs'
    exact ⟨hobject, cs, hcs, hvs⟩

/-- Objects in two unions, one of them inside the other, and a list with an object that is no alternative: its value comes
with each of the literals before it. -/
theorem propertyValues_agree_nested :
    let flags : Schema := .object [("flag", .boolean)]
    let list : Schema := .sequence [.enumeration [.string "a", .null], .object [("x", .enumeration [.bool true])]]
    let s : Schema := .oneOf [.enumeration [.string "off"], .anyOf [flags, list], flags, .enumeration [.null]]
    let t : Schema := .oneOf [.enumeration [.string "off"], .anyOf [list], .enumeration [.null]]
    let x : Json := .object [("x", .bool true)]
    let vs : List Json := [.string "off", .string "a", x, .null, x, .null]
    s.DefsFree ∧ (∀ properties, s ≠ .object properties) ∧ s.withoutObjects = t ∧
      (∀ properties, ¬ Alternative t (.object properties)) ∧ propertyValues s = .ok vs ∧ propertyValues t = .ok vs ∧
        ∃ cs, enumerate t [[]] = .ok cs ∧ cs.flatten = vs := by
  intro flags list s t x vs
  have hs : s.DefsFree := hasDefs_eq_false_iff.1 (by decide)
  have ht : t.DefsFree := hasDefs_eq_false_iff.1 (by decide)
  have hne : ∀ properties, s ≠ .object properties := nofun
  have hvs : propertyValues s = .ok vs := by
    simp only [s, flags, list, propertyValues, anyPropertyValues, enumerate, enumerateEach, choices]
    rfl
  obtain ⟨_, ⟨_, hvalues, hsame⟩, hobjects⟩ := propertyValues_agree hs
  cases hvalues.symm.trans hvs
  obtain ⟨hnone, _⟩ := hobjects hne
  obtain ⟨hplain, _⟩ := propertyValues_agree ht
  obtain ⟨cs, hcs, hflat⟩ := hplain hnone
  exact ⟨hs, hne, rfl, hnone, hvs, hsame, cs, hcs, Except.ok.inj (hflat.symm.trans hsame)⟩

end LintInference.Schema
