import LintInference.Schema.Enumeration
import Mathlib.Algebra.Ring.Nat
import Mathlib.Data.List.Basic

/-!
# Objects in mixed-radix order

The wheels of an object's properties count: after `q` turns from the start they stand at the digits of `q` in the base
of their sizes, the first wheel being the lowest digit (`turn_positionsAt`). So the objects on show are those of the
numbers below the count (`combinations_eq_map_range`). The numbers below the product of the sizes go through every choice
of digits (`map_shown_range`). Where 64 bits are enough for the product it is the count, and there are all objects with
one value for each property, in order (`combinations_eq_map_allPicks`).
-/

namespace LintInference.Schema

/-! ## Digits -/

/-- The digits of a number in a mixed base, the lowest first. What is left over is dropped. -/
def positionsAt : List Nat → Nat → List Nat
  | [], _ => []
  | n :: ns, q => q % n :: positionsAt ns (q / n)

theorem positionsAt_zero (sizes : List Nat) : positionsAt sizes 0 = sizes.map fun _ => 0 := by
  induction sizes with
  | nil => rfl
  | cons n ns ih => simp [positionsAt, ih]

/-- One turn adds one. -/
theorem turn_positionsAt {sizes : List Nat} (h : ∀ n ∈ sizes, 0 < n) (q : Nat) :
    turn sizes (positionsAt sizes q) = positionsAt sizes (q + 1) := by
  induction sizes generalizing q with
  | nil => rfl
  | cons n ns ih =>
    have hn : 0 < n := h n List.mem_cons_self
    have hns : ∀ k ∈ ns, 0 < k := fun k hk => h k (List.mem_cons_of_mem _ hk)
    have hr : q % n < n := Nat.mod_lt q hn
    have hq : q + 1 = n * (q / n) + (q % n + 1) := by
      have := Nat.div_add_mod q n
      omega
    simp only [positionsAt, turn]
    by_cases hlt : q % n + 1 < n
    · have hmod : (q + 1) % n = q % n + 1 := by rw [hq, Nat.mul_add_mod, Nat.mod_eq_of_lt hlt]
      have hdiv : (q + 1) / n = q / n := by rw [hq, Nat.mul_add_div hn, Nat.div_eq_of_lt hlt, Nat.add_zero]
      rw [if_pos hlt, hmod, hdiv]
    · -- the wheel comes round and takes the next one with it
      have hcarry : q % n + 1 = n := by omega
      have hmod : (q + 1) % n = 0 := by rw [hq, hcarry, Nat.mul_add_mod, Nat.mod_self]
      have hdiv : (q + 1) / n = q / n + 1 := by rw [hq, hcarry, Nat.mul_add_div hn, Nat.div_self hn]
      rw [if_neg hlt, hmod, hdiv, ih hns]

/-! ## The objects on show -/

theorem rounds_positionsAt {choices : List Choice} (h : ∀ c ∈ choices, 0 < c.2.length) (count q : Nat) :
    rounds choices count (positionsAt (choices.map (·.2.length)) q) = (List.range count).map fun i =>
      .object (shown choices (positionsAt (choices.map (·.2.length)) (q + i))) := by
  have hsizes : ∀ n ∈ choices.map (·.2.length), 0 < n := List.forall_mem_map.2 h
  induction count generalizing q with
  | zero => rfl
  | succ count ih =>
    rw [rounds, turn_positionsAt hsizes, ih, List.range_succ_eq_map, List.map_cons, List.map_map]
    refine congrArg _ (List.map_congr_left fun i _ => ?_)
    rw [Function.comp_apply, Nat.succ_eq_add_one, Nat.add_assoc, Nat.add_comm 1 i]

theorem combinationCount_eq_prod (choices : List Choice) :
    combinationCount choices = (choices.map (·.2.length)).prod % UInt64.size := by
  have hfold (n : UInt64) :
      (choices.foldl (fun (count : UInt64) choice => count * choice.2.length.toUInt64) n).toNat =
        n.toNat * (choices.map (·.2.length)).prod % UInt64.size := by
    induction choices generalizing n with
    | nil => simp
    | cons c choices ih =>
      rw [List.foldl_cons, ih, UInt64.toNat_mul, List.map_cons, List.prod_cons, ← Nat.mul_assoc]
      simp [Nat.mul_mod, UInt64.size]
  simpa [combinationCount] using hfold 1

theorem combinationCount_le_prod (choices : List Choice) :
    combinationCount choices ≤ (choices.map (·.2.length)).prod :=
  combinationCount_eq_prod choices ▸ Nat.mod_le _ _

/-- Where 64 bits are enough, every way to choose is counted. -/
theorem combinationCount_of_lt {choices : List Choice} (h : (choices.map (·.2.length)).prod < UInt64.size) :
    combinationCount choices = (choices.map (·.2.length)).prod := by
  rw [combinationCount_eq_prod, Nat.mod_eq_of_lt h]

theorem prod_sizes_pos_iff {choices : List Choice} :
    0 < (choices.map (·.2.length)).prod ↔ ∀ c ∈ choices, 0 < c.2.length := by
  rw [List.prod_pos_iff_forall_pos_nat]
  exact List.forall_mem_map

/-- The objects in order: the one at place `q` shows the digits of `q`. -/
theorem combinations_eq_map_range {choices : List Choice} (h : choices ≠ []) :
    combinations choices = (List.range (combinationCount choices)).map fun q =>
      .object (shown choices (positionsAt (choices.map (·.2.length)) q)) := by
  have hne : choices.isEmpty = false := by simpa using h
  rw [combinations, hne, if_neg Bool.false_ne_true]
  by_cases hpos : 0 < combinationCount choices
  · have hstart : (choices.map fun _ => 0) = positionsAt (choices.map (·.2.length)) 0 := by
      rw [positionsAt_zero, List.map_map]
      rfl
    have hsizes := prod_sizes_pos_iff.1 (Nat.lt_of_lt_of_le hpos (combinationCount_le_prod choices))
    rw [hstart, rounds_positionsAt hsizes]
    simp only [Nat.zero_add]
  · have hzero : combinationCount choices = 0 := by omega
    rw [hzero]
    rfl

theorem length_combinations {choices : List Choice} (h : choices ≠ []) :
    (combinations choices).length = combinationCount choices := by
  rw [combinations_eq_map_range h, List.length_map, List.length_range]

/-- A count that comes back to zero leaves no objects. -/
theorem combinations_eq_nil_of_dvd {choices : List Choice} (h : UInt64.size ∣ (choices.map (·.2.length)).prod) :
    combinations choices = [] := by
  by_cases hne : choices = []
  · rw [hne]
    rfl
  · rw [← List.length_eq_zero_iff, length_combinations hne, combinationCount_eq_prod, Nat.mod_eq_zero_of_dvd h]

/-! ## All choices -/

/-- The entries have one value for each property, in order. -/
def Picks : List Choice → List (String × Json) → Prop
  | [], m => m = []
  | (name, values) :: choices, m => ∃ v ∈ values, ∃ m', Picks choices m' ∧ m = (name, v) :: m'

theorem shown_positionsAt_cons {name : String} {values : List Json} {q : Nat} (h : q % values.length < values.length)
    (choices : List Choice) :
    shown ((name, values) :: choices) (positionsAt (((name, values) :: choices).map (·.2.length)) q) =
      (name, values[q % values.length]) :: shown choices (positionsAt (choices.map (·.2.length)) (q / values.length)) := by
  simp [shown, positionsAt, List.getElem?_eq_getElem h]

/-- All ways to pick one value for each property, the first property changing fastest. -/
def allPicks : List Choice → List (List (String × Json))
  | [] => [[]]
  | c :: choices => (allPicks choices).flatMap fun m => c.2.map fun v => (c.1, v) :: m

theorem mem_allPicks {choices : List Choice} {m : List (String × Json)} : m ∈ allPicks choices ↔ Picks choices m := by
  induction choices generalizing m with
  | nil => exact List.mem_singleton
  | cons c choices ih =>
    simp only [allPicks, Picks, List.mem_flatMap, List.mem_map, ih]
    constructor
    · rintro ⟨m', hm, v, hv, rfl⟩
      exact ⟨v, hv, m', hm, rfl⟩
    · rintro ⟨v, hv, m', hm, rfl⟩
      exact ⟨m', hm, v, hv, rfl⟩

theorem keys_of_mem_allPicks {choices : List Choice} {m : List (String × Json)} (h : m ∈ allPicks choices) :
    Entries.keys m = Entries.keys choices := by
  induction choices generalizing m with
  | nil =>
    rw [List.mem_singleton.1 h]
    rfl
  | cons c choices ih =>
    obtain ⟨m', hm, v, _, rfl⟩ := by simpa only [allPicks, List.mem_flatMap, List.mem_map] using h
    exact congrArg (c.1 :: ·) (ih hm)

/-- Counting up to a product is counting up to one factor, as often as the other says. -/
theorem map_range_mul {α : Type} (f : Nat → α) (m n : Nat) :
    (List.range (m * n)).map f = (List.range n).flatMap fun j => (List.range m).map fun i => f (m * j + i) := by
  induction n with
  | zero => rfl
  | succ n ih =>
    rw [Nat.mul_succ, List.range_add, List.map_append, ih, List.range_succ, List.flatMap_append, List.map_map,
      List.flatMap_singleton]
    rfl

/-- What is on show at the places in turn are all picks, in order. -/
theorem map_shown_range (choices : List Choice) :
    (List.range (choices.map (·.2.length)).prod).map
        (fun q => shown choices (positionsAt (choices.map (·.2.length)) q)) =
      allPicks choices := by
  induction choices with
  | nil => rfl
  | cons c choices ih =>
    obtain ⟨name, values⟩ := c
    have hprod : (((name, values) :: choices).map (·.2.length)).prod =
        values.length * (choices.map (·.2.length)).prod := List.prod_cons
    rw [hprod, map_range_mul, allPicks, ← ih, List.flatMap_map]
    refine List.flatMap_congr fun j _ => List.ext_getElem (by simp) fun i hi _ => ?_
    have hlt : i < values.length := by simpa using hi
    have hmod : (values.length * j + i) % values.length = i := by rw [Nat.mul_add_mod, Nat.mod_eq_of_lt hlt]
    have hdiv : (values.length * j + i) / values.length = j := by
      rw [Nat.mul_add_div (by omega), Nat.div_eq_of_lt hlt, Nat.add_zero]
    rw [List.getElem_map, List.getElem_map, List.getElem_range, shown_positionsAt_cons (by rw [hmod]; exact hlt)]
    simp only [hmod, hdiv]

/-- The objects are the first of those of all picks, as many as are counted. -/
theorem combinations_eq_map_take {choices : List Choice} (h : choices ≠ []) :
    combinations choices = ((allPicks choices).take (combinationCount choices)).map .object := by
  rw [combinations_eq_map_range h, ← map_shown_range, ← List.map_take, List.take_range,
    Nat.min_eq_left (combinationCount_le_prod choices), List.map_map]
  rfl

/-! ## Where 64 bits are enough -/

section Counted

variable {choices : List Choice} (hcount : (choices.map (·.2.length)).prod < UInt64.size)

include hcount

/-- The objects are those of all picks, in order. -/
theorem combinations_eq_map_allPicks (h : choices ≠ []) : combinations choices = (allPicks choices).map .object := by
  rw [combinations_eq_map_range h, combinationCount_of_lt hcount, ← map_shown_range, List.map_map]
  rfl

/-- Only without properties, or with one that has no values, there is no object. -/
theorem combinations_eq_nil_iff (h : ∀ c ∈ choices, c.2 ≠ []) : combinations choices = [] ↔ choices = [] := by
  constructor
  · intro hc
    by_cases hne : choices = []
    · exact hne
    · have hpos : 0 < combinationCount choices :=
        combinationCount_of_lt hcount ▸ prod_sizes_pos_iff.2 fun c hc => List.length_pos_iff.2 (h c hc)
      rw [← length_combinations hne, hc] at hpos
      exact absurd hpos (Nat.lt_irrefl 0)
  · rintro rfl
    rfl

/-- The objects are those with one value for each property, if there is a property at all. -/
theorem mem_combinations {o : Json} : o ∈ combinations choices ↔ choices ≠ [] ∧ ∃ m, Picks choices m ∧ o = .object m := by
  by_cases hne : choices = []
  · subst hne
    simp [combinations]
  · simp only [combinations_eq_map_allPicks hcount hne, List.mem_map, mem_allPicks, ne_eq, hne, not_false_eq_true,
      true_and, eq_comm]

end Counted

end LintInference.Schema
