import LintInference.Proofs.Schema.Calls
import LintInference.Proofs.Schema.Wheels
import Mathlib.Order.Monotone.Basic

/-!
# The end of every enumeration

To meet one demand, others have to be met first (`Demand.needs`). They are about parts of the schema, except at a
dictionary: there the resolved schema takes its place, which is no part of it and may be larger, but holds no dictionary
any more. So the dictionaries left come first in the measure, and the size of the schema second
(`Demand.lt_of_mem_needs`).

Of an enumeration within limits (`enumerateWithin`), some bound on the calls is large enough for a demand and for what it
needs, or nothing ever comes because no list has room for all objects (`Demand.settled`). And as a resolved schema holds
nothing that could fail, enumeration fails only as the resolution of one of the schema's dictionaries does
(`enumerate_ends`).
-/

namespace LintInference.Schema

/-! ## From demand to demand -/

namespace Demand

/-- Whether dictionaries are left, and then the size. The values of a property come above the candidates of its schema,
and the candidates of an object above its objects. -/
noncomputable def measure : Demand → Nat × Nat
  | .candidates s => (pending s.hasDefs, 3 * sizeOf s)
  | .objects properties => (pending (hasDefs (.object properties)), 3 * sizeOf (object properties) - 1)
  | .values s => (pending s.hasDefs, 3 * sizeOf s + 1)

end Demand

theorem mem_parts_of_mem_listed {p s : Schema} (h : s ∈ listed p) : s ∈ p.parts := by
  cases p with
  | sequence _ | positional _ | anyOf _ | oneOf _ => exact h
  | enumeration _ | boolean | object _ | uniform _ | ref _ | defs _ _ | unconstrained => exact absurd h List.not_mem_nil

/-- A part holds a dictionary only if the whole does. -/
theorem pending_le_of_mem_parts {s u : Schema} (h : u ∈ s.parts) : pending u.hasDefs ≤ pending s.hasDefs := by
  refine pending_mono fun hu => ?_
  rw [hasDefs_composed (isComposed_of_mem_parts h)]
  by_contra hs
  rw [Bool.not_eq_true, hasDefsList_eq_false] at hs
  simp [hs u h] at hu

/-- Once a dictionary is resolved, none is left. -/
theorem pending_resolve_lt {definitions : List (String × Schema)} {body t : Schema}
    (h : resolve (.defs definitions body) = .ok t) :
    pending t.hasDefs < pending (hasDefs (.defs definitions body)) := by
  simp [hasDefs_resolve h, hasDefs, pending]

theorem sizeOf_lt_of_mem_entries {es : List (String × Schema)} {u : Schema} (h : u ∈ es.map (·.2)) :
    sizeOf u < sizeOf es := by
  obtain ⟨⟨name, u⟩, he, rfl⟩ := List.mem_map.1 h
  have hlt : sizeOf (name, u) < sizeOf es := List.sizeOf_lt_of_mem he
  simp only [Prod.mk.sizeOf_spec] at hlt
  show sizeOf u < _
  omega

theorem sizeOf_lt_of_mem_children {s u : Schema} (h : u ∈ s.children) : sizeOf u < sizeOf s := by
  cases s with
  | object properties =>
    have hlt : sizeOf u < sizeOf properties := sizeOf_lt_of_mem_entries h
    rw [object.sizeOf_spec]
    omega
  | defs definitions body =>
    rw [defs.sizeOf_spec]
    rcases List.mem_cons.1 h with rfl | h
    · omega
    · have hlt : sizeOf u < sizeOf definitions := sizeOf_lt_of_mem_entries h
      omega
  | uniform item =>
    cases List.mem_singleton.1 h
    rw [uniform.sizeOf_spec]
    omega
  | sequence ss | positional ss | anyOf ss | oneOf ss =>
    have hlt : sizeOf u < sizeOf ss := List.sizeOf_lt_of_mem h
    simp only [sequence.sizeOf_spec, positional.sizeOf_spec, anyOf.sizeOf_spec, oneOf.sizeOf_spec]
    omega
  | enumeration _ | boolean | ref _ | unconstrained => cases h

theorem Contains.sizeOf_le {s u : Schema} (h : s.Contains u) : sizeOf u ≤ sizeOf s := by
  induction h with
  | refl => exact Nat.le_refl _
  | tail _ hu ih => exact Nat.le_trans (Nat.le_of_lt (sizeOf_lt_of_mem_children hu)) ih

namespace Demand

/-- From a schema to a part of it, both sizes counted in the same way. -/
theorem lex_of_mem_parts {s u : Schema} (hu : u ∈ s.parts) {m n : Nat} (h : sizeOf u < sizeOf s → m < n) :
    Prod.Lex (fun m n => m < n) (fun m n => m < n) (pending u.hasDefs, m) (pending s.hasDefs, n) :=
  lex_of_le (pending_le_of_mem_parts hu) (h (sizeOf_lt_of_mem_children (mem_children_of_mem_parts hu)))

/-- What a demand needs lies below it. -/
theorem lt_of_mem_needs {d d' : Demand} (h : d' ∈ d.needs) :
    Prod.Lex (fun m n => m < n) (fun m n => m < n) d'.measure d.measure := by
  cases d with
  | candidates s =>
    cases s with
    | defs definitions body =>
      rw [needs] at h
      split at h
      next => cases h
      next t ht =>
        cases List.mem_singleton.1 h
        exact .left _ _ (pending_resolve_lt ht)
    | object properties =>
      cases List.mem_singleton.1 h
      exact lex_of_le (Nat.le_refl _) (by simp +arith)
    | uniform item =>
      cases item with
      | enumeration literals =>
        cases List.mem_singleton.1 h
        exact lex_of_mem_parts List.mem_cons_self fun hlt => by omega
      | _ => cases h
    | sequence ss | positional ss | anyOf ss | oneOf ss =>
      obtain ⟨s, hs, rfl⟩ := List.mem_map.1 h
      exact lex_of_mem_parts (mem_parts_of_mem_listed hs) fun hlt => by omega
    | enumeration _ | boolean | ref _ | unconstrained => cases h
  | objects properties =>
    obtain ⟨e, he, rfl⟩ := List.mem_map.1 h
    have hpart : e.2 ∈ (object properties).parts := List.mem_map_of_mem he
    exact lex_of_mem_parts hpart fun hlt => by omega
  | values s =>
    cases s with
    | defs definitions body =>
      rw [needs] at h
      split at h
      next => cases h
      next t ht =>
        cases List.mem_singleton.1 h
        exact .left _ _ (pending_resolve_lt ht)
    | object _ => cases h
    | anyOf ss | oneOf ss =>
      obtain ⟨s, hs, rfl⟩ := List.mem_map.1 h
      exact lex_of_mem_parts (mem_parts_of_mem_listed (mem_listed_of_mem_branchesOf hs)) fun hlt => by omega
    | enumeration _ | boolean | positional _ | uniform _ | sequence _ | ref _ | unconstrained =>
      cases List.mem_singleton.1 h
      exact lex_of_le (Nat.le_refl _) (Nat.lt_succ_self _)

theorem needs_wellFounded : WellFounded fun d' d : Demand => d' ∈ d.needs := by
  have hlex : WellFounded (InvImage (Prod.Lex (fun m n => m < n) fun m n => m < n) measure) :=
    InvImage.wf measure (WellFounded.prod_lex Nat.lt_wfRel.wf Nat.lt_wfRel.wf)
  exact Subrelation.wf (fun h => lt_of_mem_needs h) hlex

end Demand

/-! ## The lists as loops -/

theorem enumerateEach_eq_foldlM (ss : List Schema) (seed : List Candidate) :
    enumerateEach ss seed = ss.foldlM (fun configs s => enumerate s configs) seed := by
  induction ss generalizing seed with
  | nil =>
    rw [enumerateEach]
    rfl
  | cons s ss ih =>
    rw [enumerateEach_cons, List.foldlM_cons]
    exact congrArg _ (funext ih)

theorem enumerateAny_eq_flatMapM (ss : List Schema) (seed : List Candidate) :
    enumerateAny ss seed = ss.flatMapM fun s => enumerate s seed := by
  induction ss with
  | nil =>
    rw [enumerateAny]
    rfl
  | cons s ss ih =>
    rw [enumerateAny_cons, List.flatMapM_cons, ← ih]
    rfl

theorem anyPropertyValues_eq_flatMapM (ss : List Schema) : anyPropertyValues ss = ss.flatMapM propertyValues := by
  induction ss with
  | nil =>
    rw [anyPropertyValues]
    rfl
  | cons s ss ih =>
    rw [anyPropertyValues_cons, List.flatMapM_cons, ← ih]
    rfl

theorem choices_eq_flatMapM (properties : List (String × Schema)) :
    choices properties = properties.flatMapM fun e => do
      let values ← propertyValues e.2
      return if values = [] then [] else [(e.1, values)] := by
  induction properties with
  | nil =>
    rw [choices]
    rfl
  | cons e properties ih =>
    obtain ⟨name, s⟩ := e
    rw [choices_cons, List.flatMapM_cons, ← ih]
    cases propertyValues s with
    | error _ => rfl
    | ok vs =>
      show (choices properties).map _ = (choices properties).map _
      by_cases hvs : vs = []
      · simp only [if_pos hvs]
        rfl
      · simp only [if_neg hvs]
        rfl

/-! ## Bounds that are large enough -/

namespace Bounded

variable {ι α β : Type} {A B : Prop}

theorem bind_eq_some {x : Bounded α} {r : Except Failure α} {f : α → Bounded β} {g : α → Except Failure β}
    (hx : x = some r) (hf : ∀ a, r = .ok a → f a = some (g a)) : (x >>= f : Bounded β) = some (r.bind g) := by
  subst hx
  cases r with
  | error _ => rfl
  | ok a => exact hf a rfl

theorem bind_eq_of_ok {x : Bounded α} {a : α} {f : α → Bounded β} (hx : x = some (.ok a)) :
    (x >>= f : Bounded β) = f a := by
  subst hx
  rfl

theorem bind_eq_none {x : Bounded α} {f : α → Bounded β} (hx : x = none) : (x >>= f : Bounded β) = none := by
  subst hx
  rfl

/-- A bound is large enough or not, and larger bounds are too. With one that is, the results come, and without nothing
does. If there is room, some bound is large enough; and there is, if some bound is large enough for a success. -/
def Settles (room : Prop) (x : Nat → ι → Bounded α) (r : ι → Except Failure α) : Prop :=
  ∃ enough : Nat → Prop, Monotone enough ∧ (∀ n, enough n → ∀ i, x n i = some (r i)) ∧
    (∀ n, ¬ enough n → ∀ i, x n i = none) ∧ (room → ∃ n, enough n) ∧
    ∀ n, enough n → ∀ i a, r i = .ok a → room

/-- All succeed, or all fail. -/
def Together (r : ι → Except Failure α) : Prop := (∀ i, ∃ a, r i = .ok a) ∨ ∀ i, ∃ e, r i = .error e

theorem together_unit (r : Unit → Except Failure α) : Together r := by
  cases h : r () with
  | ok a => exact .inl fun _ => ⟨a, h⟩
  | error e => exact .inr fun _ => ⟨e, h⟩

namespace Settles

variable {x : Nat → ι → Bounded α} {r : ι → Except Failure α}

/-- What needs no calls is there at once. -/
protected theorem pure (r : ι → Except Failure α) : Settles True (fun _ i => (some (r i) : Bounded α)) r :=
  ⟨fun _ => True, fun _ _ _ h => h, fun _ _ _ => rfl, fun _ h => absurd trivial h, fun _ => ⟨0, trivial⟩,
    fun _ _ _ _ _ => trivial⟩

/-- One call more. -/
theorem succ (h : Settles A x r) (hroom : A ↔ B) {y : Nat → ι → Bounded α} {s : ι → Except Failure α}
    (hzero : ∀ i, y 0 i = none) (hsucc : ∀ n i, y (n + 1) i = x n i) (hs : ∀ i, s i = r i) : Settles B y s := by
  obtain ⟨enough, hm, hthere, hmissing, hex, hroomy⟩ := h
  refine ⟨fun n => ∃ k, n = k + 1 ∧ enough k, ?_, ?_, fun n hn i => ?_, fun hb => ?_, ?_⟩
  · rintro m n hmn ⟨k, rfl, hk⟩
    exact ⟨n - 1, by omega, hm (by omega) hk⟩
  · rintro _ ⟨k, rfl, hk⟩ i
    rw [hsucc, hthere k hk, hs]
  · cases n with
    | zero => exact hzero i
    | succ k => rw [hsucc, hmissing k fun hk => hn ⟨k, rfl, hk⟩]
  · obtain ⟨n, hn⟩ := hex (hroom.2 hb)
    exact ⟨n + 1, n, rfl, hn⟩
  · rintro _ ⟨k, rfl, hk⟩ i a ha
    exact hroom.1 (hroomy k hk i a ((hs i).symm.trans ha))

/-- What fails at once needs no room. -/
theorem error (e : Failure) {y : Nat → ι → Bounded α} {s : ι → Except Failure α} (hzero : ∀ i, y 0 i = none)
    (hsucc : ∀ n i, y (n + 1) i = some (.error e)) (hs : ∀ i, s i = .error e) : Settles A y s := by
  refine ⟨(0 < ·), fun m n hmn hm => Nat.lt_of_lt_of_le hm hmn, fun n hn i => ?_, fun n hn i => ?_, fun _ => ⟨1, Nat.one_pos⟩,
    fun n _ i a ha => nomatch (hs i).symm.trans ha⟩
  · obtain ⟨k, rfl⟩ := Nat.exists_eq_add_one_of_ne_zero (Nat.ne_of_gt hn)
    rw [hsucc, hs]
  · obtain rfl : n = 0 := Nat.eq_zero_of_not_pos hn
    exact hzero i

/-- One after the other: if the first fail, that is all; else both bounds have to be large enough. -/
theorem bind (h : Settles A x r) (hr : Together r) {y : Nat → ι → α → Bounded β} {s : ι → α → Except Failure β}
    (hy : Settles B (fun n (p : {p : ι × α // r p.1 = .ok p.2}) => y n p.1.1 p.1.2) fun p => s p.1.1 p.1.2) :
    Settles (A ∧ B) (fun n i => (x n i >>= y n i : Bounded β)) fun i => (r i).bind (s i) := by
  obtain ⟨enough, hm, hthere, hmissing, hex, hroomy⟩ := h
  rcases hr with hok | herror
  · obtain ⟨enough', hm', hthere', hmissing', hex', hroomy'⟩ := hy
    refine ⟨fun n => enough n ∧ enough' n, fun m n hmn hn => ⟨hm hmn hn.1, hm' hmn hn.2⟩, fun n hn i => ?_,
      fun n hn i => ?_, fun hab => ?_, fun n hn i b hb => ?_⟩
    · exact bind_eq_some (hthere n hn.1 i) fun a ha => hthere' n hn.2 ⟨(i, a), ha⟩
    · by_cases hx : enough n
      · obtain ⟨a, ha⟩ := hok i
        have hfirst : x n i = some (.ok a) := ha ▸ hthere n hx i
        exact (bind_eq_of_ok hfirst).trans (hmissing' n (fun hn' => hn ⟨hx, hn'⟩) ⟨(i, a), ha⟩)
      · exact bind_eq_none (hmissing n hx i)
    · obtain ⟨m, hm₀⟩ := hex hab.1
      obtain ⟨n, hn₀⟩ := hex' hab.2
      exact ⟨max m n, hm (Nat.le_max_left m n) hm₀, hm' (Nat.le_max_right m n) hn₀⟩
    · obtain ⟨a, ha, hab⟩ := bind_eq_ok_iff.1 hb
      exact ⟨hroomy n hn.1 i a ha, hroomy' n hn.2 ⟨(i, a), ha⟩ b hab⟩
  · refine ⟨enough, hm, fun n hn i => ?_, fun n hn i => bind_eq_none (hmissing n hn i), fun hab => hex hab.1,
      fun n hn i b hb => ?_⟩
    · obtain ⟨e, he⟩ := herror i
      exact bind_eq_some (hthere n hn i) fun a ha => by cases he.symm.trans ha
    · obtain ⟨a, ha, -⟩ := bind_eq_ok_iff.1 hb
      obtain ⟨e, he⟩ := herror i
      cases he.symm.trans ha

theorem map (h : Settles A x r) (f : ι → α → β) :
    Settles A (fun n i => (x n i >>= fun a => pure (f i a) : Bounded β)) fun i => (r i).map (f i) := by
  obtain ⟨enough, hm, hthere, hmissing, hex, hroomy⟩ := h
  refine ⟨enough, hm, fun n hn i => ?_, fun n hn i => bind_eq_none (hmissing n hn i), hex, fun n hn i b hb => ?_⟩
  · have hmap : (r i).bind (fun a => .ok (f i a)) = (r i).map (f i) := by cases r i <;> rfl
    exact (bind_eq_some (hthere n hn i) fun _ _ => rfl).trans (congrArg some hmap)
  · obtain ⟨a, ha, -⟩ := map_eq_ok_iff.1 hb
    exact hroomy n hn i a ha

/-- The same for other starting points. -/
theorem comp {κ : Type} (h : Settles A x r) (f : κ → ι) : Settles A (fun n k => x n (f k)) fun k => r (f k) := by
  obtain ⟨enough, hm, hthere, hmissing, hex, hroomy⟩ := h
  exact ⟨enough, hm, fun n hn k => hthere n hn (f k), fun n hn k => hmissing n hn (f k), hex,
    fun n hn k => hroomy n hn (f k)⟩

theorem foldlM {f : Nat → β → α → Bounded β} {g : β → α → Except Failure β} {room : α → Prop} {as : List α}
    (h : ∀ a ∈ as, Settles (room a) (fun n b => f n b a) fun b => g b a) (hg : ∀ a ∈ as, Together fun b => g b a) :
    Settles (∀ a ∈ as, room a) (fun n b => as.foldlM (f n) b) fun b => as.foldlM g b := by
  induction as with
  | nil =>
    rw [iff_true_intro (List.forall_mem_nil room)]
    exact .pure _
  | cons a as ih =>
    obtain ⟨ha, has⟩ := List.forall_mem_cons.1 h
    obtain ⟨hga, hgas⟩ := List.forall_mem_cons.1 hg
    have hrest := (ih has hgas).comp fun p : {p : β × β // g p.1 a = .ok p.2} => p.1.2
    rw [List.forall_mem_cons]
    exact ha.bind hga hrest

theorem flatMapM {f : Nat → ι → α → Bounded (List β)} {g : ι → α → Except Failure (List β)} {room : α → Prop}
    {as : List α} (h : ∀ a ∈ as, Settles (room a) (fun n i => f n i a) fun i => g i a)
    (hg : ∀ a ∈ as, Together fun i => g i a) :
    Settles (∀ a ∈ as, room a) (fun n i => as.flatMapM (f n i)) fun i => as.flatMapM (g i) := by
  induction as with
  | nil =>
    rw [iff_true_intro (List.forall_mem_nil room)]
    exact .pure _
  | cons a as ih =>
    obtain ⟨ha, has⟩ := List.forall_mem_cons.1 h
    obtain ⟨hga, hgas⟩ := List.forall_mem_cons.1 hg
    have hrest := ((ih has hgas).comp fun p : {p : ι × List β // g p.1 a = .ok p.2} => p.1.1).map
      fun p bs => p.1.2 ++ bs
    simp only [List.flatMapM_cons, List.forall_mem_cons]
    exact ha.bind hga hrest

end Settles

end Bounded

/-- Enumeration succeeds for all seeds or fails for all. -/
theorem together_enumerate (s : Schema) : Bounded.Together (enumerate s) := by
  cases h : enumerate s [[]] with
  | ok ws => exact .inl fun seed => ⟨appendAll seed ws, by rw [enumerate_eq_appendAll s seed, h]; rfl⟩
  | error e => exact .inr fun seed => ⟨e, by rw [enumerate_eq_appendAll s seed, h]; rfl⟩

namespace Demand

/-- Wherever the demand leads, a list has room for the objects that are counted. -/
def HasRoom (d : Demand) : Prop :=
  ∀ properties, d.Leads (.objects properties) → ∀ cs, choices properties = .ok cs → combinationCount cs ≤ capacity

theorem hasRoom_iff {d : Demand} : d.HasRoom ↔ (∀ properties, d = .objects properties → ∀ cs,
    choices properties = .ok cs → combinationCount cs ≤ capacity) ∧ ∀ d' ∈ d.needs, d'.HasRoom := forall_leads_iff

theorem hasRoom_candidates_iff {s : Schema} : (candidates s).HasRoom ↔ ∀ d ∈ (candidates s).needs, d.HasRoom :=
  hasRoom_iff.trans (and_iff_right nofun)

theorem hasRoom_values_iff {s : Schema} : (values s).HasRoom ↔ ∀ d ∈ (values s).needs, d.HasRoom :=
  hasRoom_iff.trans (and_iff_right nofun)

theorem hasRoom_objects_iff {properties : List (String × Schema)} : (objects properties).HasRoom ↔
    (∀ cs, choices properties = .ok cs → combinationCount cs ≤ capacity) ∧ ∀ e ∈ properties, (values e.2).HasRoom := by
  rw [hasRoom_iff, needs, List.forall_mem_map]
  simp only [objects.injEq, forall_eq']

theorem Fits.hasRoom {d : Demand} (h : d.Fits) : d.HasRoom :=
  fun properties hl cs hcs => Nat.le_trans (combinationCount_le_prod cs) (h properties hl cs hcs)

/-- With a bound that is large enough comes what enumeration without a bound gives, if there is room. -/
def Settled : Demand → Prop
  | .candidates s => Bounded.Settles (candidates s).HasRoom (fun bound seed => enumerateWithin bound s seed) (enumerate s)
  | .objects properties => Bounded.Settles (objects properties).HasRoom
      (fun bound (_ : Unit) => objectsWithin bound properties) fun _ => (choices properties).map combinations
  | .values s => Bounded.Settles (values s).HasRoom (fun bound (_ : Unit) => propertyValuesWithin bound s)
      fun _ => propertyValues s

theorem settled_candidates {s : Schema} (ih : ∀ d ∈ (candidates s).needs, d.Settled) : (candidates s).Settled := by
  cases s with
  | defs definitions body =>
    rw [needs] at ih
    cases ht : resolve (.defs definitions body) with
    | error e =>
      refine .error e (fun _ => rfl) (fun _ _ => ?_) fun _ => ?_
      · rw [enumerateWithin, ht]
        rfl
      · rw [enumerate_defs, ht]
        rfl
    | ok t =>
      rw [ht] at ih
      have h : (candidates t).Settled := ih _ List.mem_cons_self
      refine h.succ (by simp [hasRoom_candidates_iff, needs, ht]) (fun _ => rfl) (fun _ _ => ?_) fun _ => ?_
      · rw [enumerateWithin, ht]
        rfl
      · rw [enumerate_defs, ht]
        rfl
  | object properties =>
    have h : (objects properties).Settled := ih _ List.mem_cons_self
    refine ((h.comp fun _ : List Candidate => ()).map fun seed objects =>
      if objects = [] then seed else appendEach seed objects).succ (by simp [hasRoom_candidates_iff, needs])
      (fun _ => rfl) (fun _ _ => by rw [enumerateWithin]) fun seed => ?_
    rw [enumerate_object]
    cases choices properties <;> rfl
  | uniform item =>
    cases item with
    | enumeration literals =>
      have h : (candidates (.enumeration literals)).Settled := ih _ List.mem_cons_self
      exact h.succ (by simp [hasRoom_candidates_iff, needs]) (fun _ => rfl) (fun _ _ => by rw [enumerateWithin])
        fun _ => enumerate_uniform_enumeration _ literals
    | _ =>
      exact (Bounded.Settles.pure fun seed => .ok seed).succ (by simp [hasRoom_candidates_iff, needs, listed])
        (fun _ => rfl) (fun _ _ => rfl) fun seed => enumerate_uniform_of_ne seed (by simp)
  | sequence ss | positional ss =>
    have h : ∀ s ∈ ss, (candidates s).Settled := fun s hs => ih _ (List.mem_map_of_mem hs)
    exact (Bounded.Settles.foldlM h fun s _ => together_enumerate s).succ
      (by simp [hasRoom_candidates_iff, needs, listed]) (fun _ => rfl) (fun _ _ => by rw [enumerateWithin])
      fun seed => by rw [enumerate, enumerateEach_eq_foldlM]
  | anyOf ss | oneOf ss =>
    have h : ∀ s ∈ ss, (candidates s).Settled := fun s hs => ih _ (List.mem_map_of_mem hs)
    exact (Bounded.Settles.flatMapM h fun s _ => together_enumerate s).succ
      (by simp [hasRoom_candidates_iff, needs, listed]) (fun _ => rfl) (fun _ _ => by rw [enumerateWithin])
      fun seed => by rw [enumerate, enumerateAny_eq_flatMapM]
  | enumeration _ | boolean | ref _ | unconstrained =>
    exact (Bounded.Settles.pure _).succ (by simp [hasRoom_candidates_iff, needs, listed]) (fun _ => rfl)
      (fun _ _ => rfl) fun _ => by rw [enumerate]

theorem settles_choices {properties : List (String × Schema)} (h : ∀ e ∈ properties, (values e.2).Settled) :
    Bounded.Settles (∀ e ∈ properties, (values e.2).HasRoom)
      (fun bound (_ : Unit) => (properties.flatMapM fun e => do
        let values ← propertyValuesWithin bound e.2
        return if values = [] then [] else [(e.1, values)] : Bounded (List Choice)))
      fun _ => choices properties := by
  rw [choices_eq_flatMapM]
  refine Bounded.Settles.flatMapM (fun e he => ?_) fun e _ => Bounded.together_unit _
  have hvalues : (values e.2).Settled := h e he
  exact hvalues.map fun _ vs => if vs = [] then [] else [(e.1, vs)]

/-- First the values of all properties, then the list for the objects. -/
theorem settled_objects {properties : List (String × Schema)} (ih : ∀ d ∈ (objects properties).needs, d.Settled) :
    (objects properties).Settled := by
  have hchoices := settles_choices fun e he => ih (values e.2) (List.mem_map_of_mem he)
  have hlist : Bounded.Settles (∀ cs, choices properties = .ok cs → combinationCount cs ≤ capacity)
      (fun _ (p : {p : Unit × List Choice // choices properties = .ok p.2}) =>
        if capacity < combinationCount p.1.2 then none else pure (combinations p.1.2))
      fun p => .ok (combinations p.1.2) := by
    refine ⟨fun _ => ∀ cs, choices properties = .ok cs → combinationCount cs ≤ capacity, fun _ _ _ h => h,
      fun _ h p => if_neg (Nat.not_lt.2 (h _ p.2)), fun _ h p => if_pos ?_, fun h => ⟨0, h⟩, fun _ h _ _ _ => h⟩
    by_contra hle
    refine h fun cs hcs => ?_
    cases hcs.symm.trans p.2
    exact Nat.not_lt.1 hle
  refine (hchoices.bind (Bounded.together_unit _) (s := fun _ cs => .ok (combinations cs)) hlist).succ
    (and_comm.trans hasRoom_objects_iff.symm) (fun _ => rfl) (fun _ _ => by rw [objectsWithin]) fun _ => ?_
  cases choices properties <;> rfl

theorem settled_values {s : Schema} (ih : ∀ d ∈ (values s).needs, d.Settled) : (values s).Settled := by
  cases s with
  | defs definitions body =>
    rw [needs] at ih
    cases ht : resolve (.defs definitions body) with
    | error e =>
      refine .error e (fun _ => rfl) (fun _ _ => ?_) fun _ => ?_
      · rw [propertyValuesWithin, ht]
        rfl
      · rw [propertyValues_defs, ht]
        rfl
    | ok t =>
      rw [ht] at ih
      have h : (values t).Settled := ih _ List.mem_cons_self
      refine h.succ (by simp [hasRoom_values_iff, needs, ht]) (fun _ => rfl) (fun _ _ => ?_) fun _ => ?_
      · rw [propertyValuesWithin, ht]
        rfl
      · rw [propertyValues_defs, ht]
        rfl
  | object _ =>
    exact (Bounded.Settles.pure fun _ => .ok []).succ (by simp [hasRoom_values_iff, needs, isPlain, branchesOf])
      (fun _ => rfl) (fun _ _ => rfl) fun _ => by rw [propertyValues]
  | anyOf ss | oneOf ss =>
    have h : ∀ s ∈ ss, (values s).Settled := fun s hs => ih _ (List.mem_map_of_mem hs)
    exact (Bounded.Settles.flatMapM h fun s _ => Bounded.together_unit _).succ
      (by simp [hasRoom_values_iff, needs, isPlain, branchesOf]) (fun _ => rfl)
      (fun _ _ => by rw [propertyValuesWithin]) fun _ => by rw [propertyValues, anyPropertyValues_eq_flatMapM]
  | enumeration _ | boolean | positional _ | uniform _ | sequence _ | ref _ | unconstrained =>
    have h := (ih _ List.mem_cons_self : (candidates _).Settled)
    refine ((h.comp fun _ : Unit => [[]]).map fun _ ws => ws.flatten).succ
      (by simp [hasRoom_values_iff, needs, isPlain]) (fun _ => rfl) (fun _ _ => ?_)
      fun _ => propertyValues_of_isPlain rfl
    rw [propertyValuesWithin]
    all_goals simp

/-- A demand is met in the end, or there is no room for what it leads to. -/
theorem settled (d : Demand) : d.Settled := by
  induction d using needs_wellFounded.induction with
  | _ d ih =>
    cases d with
    | candidates s => exact settled_candidates ih
    | objects properties => exact settled_objects ih
    | values s => exact settled_values ih

end Demand

/-! ## Failures -/

mutual

/-- What enumeration comes past stands in the schema. -/
theorem Visits.contains : ∀ {s u : Schema}, Visits s u → s.Contains u
  | _, _, .self _ => .refl
  | _, _, .listed hs h => h.contains.of_mem_children (mem_children_of_mem_parts (mem_parts_of_mem_listed hs))
  | _, _, .object he h => h.contains.of_mem_children (List.mem_map_of_mem he)

theorem VisitsAsProperty.contains : ∀ {s u : Schema}, VisitsAsProperty s u → s.Contains u
  | _, _, .plain _ h => h.contains
  | _, _, .defs _ _ => .refl
  | _, _, .branch hs h =>
    have hlisted := mem_listed_of_mem_branchesOf hs
    h.contains.of_mem_children (mem_children_of_mem_parts (mem_parts_of_mem_listed hlisted))

end

/-- Resolution fails only on references: the name has no definition, or is met again in its own expansion. -/
theorem reference_of_resolve_error {s : Schema} {e : Failure} (h : resolve s = .error e) :
    (∃ name, e = .unresolvedReference name) ∨ ∃ name, e = .cyclicReference name := by
  obtain ⟨d, name, _, _, hd⟩ := Call.exists_reaches_of_error (c := .root s) h
  rcases definition_eq_error_iff.1 hd with ⟨_, _, rfl⟩ | ⟨_, _, rfl⟩
  · exact .inr ⟨name, rfl⟩
  · exact .inl ⟨name, rfl⟩

/-- Enumeration fails only on references, and only as one of the dictionaries in the schema does. -/
theorem reference_of_enumerate_error {s : Schema} {seed : List Candidate} {e : Failure}
    (h : enumerate s seed = .error e) :
    ((∃ name, e = .unresolvedReference name) ∨ ∃ name, e = .cyclicReference name) ∧
      ∃ definitions body, s.Contains (.defs definitions body) ∧ resolve (.defs definitions body) = .error e := by
  obtain ⟨definitions, body, hv, hr⟩ := (failsInside_of_error s).1 seed e h
  exact ⟨reference_of_resolve_error hr, definitions, body, hv.contains, hr⟩

/-- Without dictionaries come candidates from some bound on, if there is room for the objects that are counted, and else
nothing ever comes. -/
theorem enumerateWithin_of_defsFree {s : Schema} (h : s.DefsFree) :
    ((Demand.candidates s).HasRoom → ∃ least, ∀ bound, least ≤ bound →
      ∀ seed, ∃ candidates, enumerateWithin bound s seed = some (.ok candidates)) ∧
    (¬ (Demand.candidates s).HasRoom → ∀ bound seed, enumerateWithin bound s seed = none) := by
  obtain ⟨enough, hmono, hthere, hmissing, hex, hroomy⟩ := (Demand.candidates s).settled
  have hok (seed : List Candidate) : ∃ cs, enumerate s seed = .ok cs :=
    exists_enumerate_of_hasDefs (hasDefs_eq_false_iff.2 h) seed
  refine ⟨fun hroom => ?_, fun hroom bound => hmissing bound fun hbound => ?_⟩
  · obtain ⟨least, hleast⟩ := hex hroom
    refine ⟨least, fun bound hbound seed => ?_⟩
    obtain ⟨cs, hcs⟩ := hok seed
    exact ⟨cs, hcs ▸ hthere bound (hmono hbound hleast) seed⟩
  · obtain ⟨cs, hcs⟩ := hok []
    exact hroom (hroomy bound hbound [] cs hcs)

end LintInference.Schema
