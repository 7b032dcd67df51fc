import LintInference.Proofs.Schema.Induction
import LintInference.Schema.Limits
import Mathlib.Algebra.Ring.Nat
import Mathlib.Logic.Relation

/-!
# What an enumeration asks for

Candidates, the objects of properties and the values of a property are asked for by turns (`Demand`). To meet one demand,
others have to be met first (`Demand.needs`). The objects of properties are counted before they are made, and a list with
room for all of them is reserved. A demand fits (`Demand.Fits`) if there is such a list wherever it leads.
-/

namespace LintInference.Schema

/-! ## From demand to demand -/

/-- The schemas in a list that enumeration goes through. -/
def listed : Schema → List Schema
  | .sequence elements => elements
  | .positional items => items
  | .anyOf branches => branches
  | .oneOf branches => branches
  | _ => []

/-- The schemas of which any may give a property its value. -/
def branchesOf : Schema → List Schema
  | .anyOf branches => branches
  | .oneOf branches => branches
  | _ => []

theorem mem_listed_of_mem_branchesOf {p s : Schema} (h : s ∈ branchesOf p) : s ∈ listed p := by
  cases p with
  | anyOf _ | oneOf _ => exact h
  | enumeration _ | boolean | object _ | positional _ | uniform _ | sequence _ | ref _ | defs _ _ | unconstrained =>
    exact absurd h List.not_mem_nil

/-- What is asked for in the course of an enumeration. -/
inductive Demand where
  /-- The candidates of a schema, for some seed. -/
  | candidates (s : Schema)
  /-- The objects with a value for each of the properties. -/
  | objects (properties : List (String × Schema))
  /-- The values of a property with the schema. -/
  | values (s : Schema)

namespace Demand

/-- What has to be asked for to meet a demand. A seed changes nothing about it. -/
def needs : Demand → List Demand
  | .candidates (.defs definitions body) =>
    match resolve (.defs definitions body) with
    | .error _ => []
    | .ok t => [.candidates t]
  | .candidates (.uniform (.enumeration literals)) => [.candidates (.enumeration literals)]
  | .candidates (.object properties) => [.objects properties]
  | .candidates s => (listed s).map .candidates
  | .objects properties => properties.map fun e => .values e.2
  | .values (.defs definitions body) =>
    match resolve (.defs definitions body) with
    | .error _ => []
    | .ok t => [.values t]
  | .values s => if isPlain s then [.candidates s] else (branchesOf s).map .values

/-- To meet the first demand, the second has to be met. -/
def Leads : Demand → Demand → Prop := Relation.ReflTransGen fun d d' => d' ∈ d.needs

/-- What holds of all objects that a demand leads to holds of those that it asks for itself and of those that its needs
lead to. -/
theorem forall_leads_iff {P : List (String × Schema) → Prop} {d : Demand} :
    (∀ properties, d.Leads (.objects properties) → P properties) ↔
      (∀ properties, d = .objects properties → P properties) ∧
        ∀ d' ∈ d.needs, ∀ properties, d'.Leads (.objects properties) → P properties := by
  constructor
  · exact fun h => ⟨fun properties hd => h properties (hd ▸ .refl), fun d' hd properties hl => h properties (.head hd hl)⟩
  · rintro ⟨hself, hneeds⟩ properties hl
    rcases Relation.ReflTransGen.cases_head hl with hd | ⟨d', hd, hl⟩
    · exact hself properties hd
    · exact hneeds d' hd properties hl

end Demand

/-! ## Room for objects -/

theorem capacity_lt_size : capacity < UInt64.size := by decide

namespace Demand

/-- Wherever the demand leads, a list has room for all objects with a value for each of the properties. -/
def Fits (d : Demand) : Prop :=
  ∀ properties, d.Leads (.objects properties) → ∀ cs, choices properties = .ok cs →
    (cs.map (·.2.length)).prod ≤ capacity

variable {d d' : Demand} {s : Schema} {properties : List (String × Schema)}

theorem Fits.of_mem_needs (h : d.Fits) (hd : d' ∈ d.needs) : d'.Fits := fun properties hl => h properties (.head hd hl)

/-- A demand fits if what it needs does, and if there is room for the objects that it asks for itself. -/
theorem fits_iff : d.Fits ↔ (∀ properties, d = .objects properties → ∀ cs, choices properties = .ok cs →
    (cs.map (·.2.length)).prod ≤ capacity) ∧ ∀ d' ∈ d.needs, d'.Fits := forall_leads_iff

theorem fits_candidates_iff : (candidates s).Fits ↔ ∀ d ∈ (candidates s).needs, d.Fits :=
  fits_iff.trans (and_iff_right nofun)

theorem fits_values_iff : (values s).Fits ↔ ∀ d ∈ (values s).needs, d.Fits := fits_iff.trans (and_iff_right nofun)

theorem fits_objects_iff : (objects properties).Fits ↔
    (∀ cs, choices properties = .ok cs → (cs.map (·.2.length)).prod ≤ capacity) ∧
      ∀ e ∈ properties, (values e.2).Fits := by
  rw [fits_iff, needs, List.forall_mem_map]
  simp only [objects.injEq, forall_eq']

/-- Where there is room for all objects, 64 bits are enough to count them. -/
theorem Fits.prod_lt (h : (objects properties).Fits) {cs : List Choice} (hcs : choices properties = .ok cs) :
    (cs.map (·.2.length)).prod < UInt64.size :=
  Nat.lt_of_le_of_lt ((fits_objects_iff.1 h).1 cs hcs) capacity_lt_size

theorem fits_enumeration (literals : List Json) : (candidates (.enumeration literals)).Fits :=
  fits_candidates_iff.2 nofun

theorem fits_listing_iff {f : List Schema → Schema} (hf : Listing f) {ss : List Schema} :
    (candidates (f ss)).Fits ↔ ∀ s ∈ ss, (candidates s).Fits := by
  have hneeds : (candidates (f ss)).needs = ss.map candidates := by cases hf <;> rfl
  rw [fits_candidates_iff, hneeds, List.forall_mem_map]

/-- A part of a list, or a branch of a union. -/
theorem Fits.of_mem_listed {u : Schema} (h : (candidates s).Fits) (hu : u ∈ listed s) : (candidates u).Fits := by
  refine h.of_mem_needs ?_
  cases s with
  | sequence _ | positional _ | anyOf _ | oneOf _ => exact List.mem_map_of_mem hu
  | enumeration _ | boolean | object _ | uniform _ | ref _ | defs _ _ | unconstrained => cases hu

theorem Fits.of_mem_branchesOf {u : Schema} (h : (Demand.values s).Fits) (hu : u ∈ branchesOf s) :
    (Demand.values u).Fits := by
  refine h.of_mem_needs ?_
  cases s with
  | anyOf _ | oneOf _ => exact List.mem_map_of_mem hu
  | enumeration _ | boolean | object _ | positional _ | uniform _ | sequence _ | ref _ | defs _ _ | unconstrained =>
    cases hu

/-- A plain property asks for the candidates of its schema. -/
theorem Fits.of_isPlain (h : (Demand.values s).Fits) (hs : isPlain s = true) : (candidates s).Fits := by
  refine h.of_mem_needs ?_
  cases s with
  | object _ | anyOf _ | oneOf _ | defs _ _ => cases hs
  | enumeration _ | boolean | positional _ | uniform _ | sequence _ | ref _ | unconstrained => exact List.mem_cons_self

theorem Fits.of_resolve {definitions : List (String × Schema)} {body t : Schema}
    (h : (candidates (.defs definitions body)).Fits) (ht : resolve (.defs definitions body) = .ok t) :
    (candidates t).Fits := h.of_mem_needs (by simp [needs, ht])

theorem Fits.values_of_resolve {definitions : List (String × Schema)} {body t : Schema}
    (h : (Demand.values (.defs definitions body)).Fits) (ht : resolve (.defs definitions body) = .ok t) :
    (Demand.values t).Fits := h.of_mem_needs (by simp [needs, ht])

/-- The values of a property are looked for among what its candidates are made of. -/
theorem Fits.values (h : (candidates s).Fits) : (values s).Fits := by
  induction s using walkInduction with
  | object properties _ => exact fits_values_iff.2 (by simp [needs, isPlain, branchesOf])
  | anyOf _ ih | oneOf _ ih =>
    refine fits_values_iff.2 fun d hd => ?_
    obtain ⟨u, hu, rfl⟩ := List.mem_map.1 hd
    exact ih u hu (h.of_mem_listed hu)
  | defs definitions body ih =>
    rw [fits_values_iff, needs]
    cases ht : resolve (.defs definitions body) with
    | error _ => exact List.forall_mem_nil _
    | ok t => exact List.forall_mem_singleton.2 (ih t ht (h.of_resolve ht))
  | enumeration _ | boolean | positional _ | uniform _ | sequence _ | ref _ | unconstrained =>
    exact fits_values_iff.2 (List.forall_mem_singleton.2 h)

end Demand

/-! ## Flags -/

/-- So many properties that are true or false, each under a number. -/
def flags (n : Nat) : List (String × Schema) := (List.range n).map fun i => (toString i, .boolean)

/-- Flags double the objects, each once more. -/
theorem choices_flags (n : Nat) :
    ∃ cs, choices (flags n) = .ok cs ∧ cs.map (·.2.length) = List.replicate n 2 := by
  have hboolean : propertyValues .boolean = .ok [.bool false, .bool true] := by cbv
  have hnames (names : List Nat) : ∃ cs, choices (names.map fun i => (toString i, .boolean)) = .ok cs ∧
      cs.map (·.2.length) = List.replicate names.length 2 := by
    induction names with
    | nil => exact ⟨[], by rw [List.map_nil, choices], rfl⟩
    | cons i names ih =>
      obtain ⟨cs, hcs, hsizes⟩ := ih
      refine ⟨(toString i, [.bool false, .bool true]) :: cs, ?_, ?_⟩
      · rw [List.map_cons, choices_cons, hboolean, hcs]
        rfl
      · rw [List.map_cons, hsizes]
        rfl
  simpa [flags] using hnames (List.range n)

end LintInference.Schema
