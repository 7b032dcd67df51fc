import LintInference.Proofs.Schema.Induction
import LintInference.Proofs.Schema.Wheels

/-!
# The turns of the wheels

The objects of a schema are made one after the other while wheels turn, one wheel for each property that has values.
After `q` turns from the start the wheels stand at the digits of `q` (`standing_eq_positionsAt`). So no wheel ever
stands past its values, and after a full round all are back at the start. The object at place `q` has for each property
the value at its digit of `q` (`combinations_inOrder`).
-/

namespace LintInference.Schema

/-! ## Digit by digit -/

/-- After as many turns as there are ways to choose, all digits are zero again. -/
theorem positionsAt_prod {sizes : List Nat} (h : ∀ n ∈ sizes, 0 < n) :
    positionsAt sizes sizes.prod = sizes.map fun _ => 0 := by
  induction sizes with
  | nil => rfl
  | cons n ns ih =>
    obtain ⟨hn, hns⟩ := List.forall_mem_cons.1 h
    rw [positionsAt, List.prod_cons, Nat.mul_mod_right, Nat.mul_div_cancel_left _ hn, ih hns]
    rfl

/-- Every digit is the place of a value. -/
theorem positionsAt_lt {wheels : List Choice} (h : ∀ c ∈ wheels, 0 < c.2.length) (q : Nat) :
    List.Forall₂ (fun c i => i < c.2.length) wheels (positionsAt (wheels.map (·.2.length)) q) := by
  induction wheels generalizing q with
  | nil => exact .nil
  | cons c wheels ih =>
    obtain ⟨hc, hwheels⟩ := List.forall_mem_cons.1 h
    exact .cons (Nat.mod_lt q hc) (ih hwheels _)

/-- What is on show has one entry for each wheel, with the value at its digit. -/
theorem getElem?_shown {wheels : List Choice} (h : ∀ c ∈ wheels, 0 < c.2.length) (q i : Nat) (hi : i < wheels.length) :
    ∃ v, wheels[i].2[q / ((wheels.map (·.2.length)).take i).prod % wheels[i].2.length]? = some v ∧
      (shown wheels (positionsAt (wheels.map (·.2.length)) q))[i]? = some (wheels[i].1, v) := by
  induction wheels generalizing q i with
  | nil => exact absurd hi (Nat.not_lt_zero i)
  | cons c wheels ih =>
    obtain ⟨name, values⟩ := c
    obtain ⟨hvalues, hwheels⟩ := List.forall_mem_cons.1 h
    have hq : q % values.length < values.length := Nat.mod_lt q hvalues
    rw [shown_positionsAt_cons hq]
    cases i with
    | zero => exact ⟨values[q % values.length], by simp [hq], rfl⟩
    | succ i =>
      -- the digits of the other wheels are those of the quotient
      obtain ⟨v, hv, hshown⟩ := ih hwheels (q / values.length) i (Nat.lt_of_succ_lt_succ hi)
      rw [Nat.div_div_eq_div_mul] at hv
      exact ⟨v, by simpa using hv, by simpa using hshown⟩

theorem keys_shown {wheels : List Choice} (h : ∀ c ∈ wheels, 0 < c.2.length) (q : Nat) :
    Entries.keys (shown wheels (positionsAt (wheels.map (·.2.length)) q)) = Entries.keys wheels := by
  induction wheels generalizing q with
  | nil => rfl
  | cons c wheels ih =>
    obtain ⟨name, values⟩ := c
    obtain ⟨hvalues, hwheels⟩ := List.forall_mem_cons.1 h
    rw [shown_positionsAt_cons (Nat.mod_lt q hvalues)]
    exact congrArg (name :: ·) (ih hwheels _)

/-! ## Turn by turn -/

/-- Where wheels of the given sizes stand after so many turns from the start. -/
def standing (sizes : List Nat) : Nat → List Nat
  | 0 => sizes.map fun _ => 0
  | q + 1 => turn sizes (standing sizes q)

theorem standing_eq_positionsAt {sizes : List Nat} (h : ∀ n ∈ sizes, 0 < n) (q : Nat) :
    standing sizes q = positionsAt sizes q := by
  induction q with
  | zero => exact (positionsAt_zero sizes).symm
  | succ q ih => rw [standing, ih, turn_positionsAt h]

/-- The objects that the wheels show in turn, from the start until all wheels are back there. -/
structure InOrder (wheels : List Choice) (objects : List Json) : Prop where
  /-- There is one object for each way to choose. -/
  length : objects.length = (wheels.map (·.2.length)).prod
  /-- The object at place `q` has the properties in order, and of each the value at its digit of `q`. -/
  entries : ∀ q, q < objects.length → ∃ m, objects[q]? = some (.object m) ∧ Entries.keys m = Entries.keys wheels ∧
    ∀ i (hi : i < wheels.length), ∃ v,
      wheels[i].2[q / ((wheels.map (·.2.length)).take i).prod % wheels[i].2.length]? = some v ∧
        m[i]? = some (wheels[i].1, v)
  /-- It is what the wheels show after `q` turns. -/
  onShow : ∀ q, q < objects.length →
    objects[q]? = some (.object (shown wheels (standing (wheels.map (·.2.length)) q)))
  /-- No wheel ever stands past its values. -/
  inRange : ∀ q, List.Forall₂ (fun c i => i < c.2.length) wheels (standing (wheels.map (·.2.length)) q)
  /-- The turn after the last object brings all wheels back to the start. -/
  back : standing (wheels.map (·.2.length)) objects.length = wheels.map fun _ => 0

theorem inOrder_combinations {wheels : List Choice} (hcount : (wheels.map (·.2.length)).prod < UInt64.size)
    (h : ∀ c ∈ wheels, c.2 ≠ []) (hne : wheels ≠ []) : InOrder wheels (combinations wheels) := by
  have hpos : ∀ c ∈ wheels, 0 < c.2.length := fun c hc => List.length_pos_iff.2 (h c hc)
  have hsizes : ∀ n ∈ wheels.map (·.2.length), 0 < n := List.forall_mem_map.2 hpos
  have hlength : (combinations wheels).length = (wheels.map (·.2.length)).prod :=
    (length_combinations hne).trans (combinationCount_of_lt hcount)
  have hobject : ∀ q, q < (combinations wheels).length →
      (combinations wheels)[q]? = some (.object (shown wheels (positionsAt (wheels.map (·.2.length)) q))) := by
    intro q hq
    rw [length_combinations hne] at hq
    rw [combinations_eq_map_range hne, List.getElem?_map, List.getElem?_range hq]
    rfl
  refine ⟨hlength, fun q hq => ?_, fun q hq => ?_, fun q => ?_, ?_⟩
  · exact ⟨_, hobject q hq, keys_shown hpos q, getElem?_shown hpos q⟩
  · rw [standing_eq_positionsAt hsizes]
    exact hobject q hq
  · rw [standing_eq_positionsAt hsizes]
    exact positionsAt_lt hpos q
  · rw [hlength, standing_eq_positionsAt hsizes, positionsAt_prod hsizes, List.map_map]
    rfl

end LintInference.Schema
