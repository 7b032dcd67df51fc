import LintInference.Schema.Basic
import LintInference.Failure

/-!
# Resolving references

`Schema.resolve` replaces every reference under a dictionary by its definition and leaves no dictionary behind
(`Schema.hasDefs_resolve`). A reference is looked up in the dictionaries in scope where it is met, the innermost one
first; one that stands outside every dictionary is left alone. A name that is met again while its definition is being
expanded is a cycle.

The walk ends because an expansion takes a name that is defined in a dictionary in scope and is not being expanded, so
`Scope.room`, the number of such names, goes down; between two expansions the walk goes into parts of a schema.
-/

namespace LintInference.Schema

/-! ## Names that are still free -/

/-- How many different names of the list are not among those seen. -/
def unseen : List String → List String → Nat
  | [], _ => 0
  | n :: ns, seen => if n ∈ seen then unseen ns seen else 1 + unseen ns (n :: seen)

theorem unseen_congr {ns seen seen' : List String} (h : ∀ x, x ∈ seen ↔ x ∈ seen') :
    unseen ns seen = unseen ns seen' := by
  induction ns generalizing seen seen' with
  | nil => rfl
  | cons n ns ih =>
    have hc : ∀ x, x ∈ n :: seen ↔ x ∈ n :: seen' := fun x => by simp [h x]
    simp only [unseen, h n, ih h, ih hc]

/-- A name that is there and not seen counts for one. -/
theorem unseen_of_mem {ns seen : List String} {n : String} (hn : n ∈ ns) (hs : n ∉ seen) :
    unseen ns seen = 1 + unseen ns (n :: seen) := by
  induction ns generalizing seen with
  | nil => simp at hn
  | cons m ns ih =>
    by_cases hm : m = n
    · subst hm
      simp [unseen, hs]
    · have hn' : n ∈ ns := by
        rcases List.mem_cons.1 hn with h | h
        · exact absurd h.symm hm
        · exact h
      by_cases hms : m ∈ seen
      · simp [unseen, hms, ih hn' hs]
      · have hs' : n ∉ m :: seen := by simp [hs, Ne.symm hm]
        have hms' : m ∉ n :: seen := by simp [hms, hm]
        have hswap : unseen ns (n :: m :: seen) = unseen ns (m :: n :: seen) :=
          unseen_congr fun x => by simp [or_left_comm]
        simp only [unseen, hms, if_false, hms', ih hn' hs', hswap]

/-- What is seen counts for nothing, so more names to see never lower the count. -/
theorem unseen_mono {ns ms seen : List String} (h : ∀ x ∈ ns, x ∈ ms) : unseen ns seen ≤ unseen ms seen := by
  induction ns generalizing seen with
  | nil => simp [unseen]
  | cons n ns ih =>
    have hns : ∀ x ∈ ns, x ∈ ms := fun x hx => h x (List.mem_cons_of_mem _ hx)
    by_cases hn : n ∈ seen
    · simpa [unseen, hn] using ih hns
    · rw [unseen_of_mem (h n List.mem_cons_self) hn]
      simpa [unseen, hn] using ih hns

/-! ## Scopes -/

/-- Where a reference is met: the dictionaries around it, innermost first, and the names being expanded. -/
structure Scope where
  dictionaries : List (List (String × Schema)) := []
  expanding : List String := []

namespace Scope

/-- The scope inside a dictionary. -/
def enter (scope : Scope) (definitions : List (String × Schema)) : Scope :=
  { scope with dictionaries := definitions :: scope.dictionaries }

/-- The scope inside the expansion of a name. -/
def expand (scope : Scope) (name : String) : Scope := { scope with expanding := name :: scope.expanding }

/-- The definition of a name in the innermost of the dictionaries that has one. -/
def find? : List (List (String × Schema)) → String → Option Schema
  | [], _ => none
  | d :: ds, name => (Entries.get? d name).or (find? ds name)

/-- The definition of a name. -/
def lookup (scope : Scope) (name : String) : Option Schema := find? scope.dictionaries name

/-- The names defined in the dictionaries, at any depth. -/
def namesOf : List (List (String × Schema)) → List String
  | [] => []
  | d :: ds => definedNamesDefinitions d ++ namesOf ds

/-- How many names are defined in scope or in the given ones, and are not being expanded. -/
def room (scope : Scope) (names : List String) : Nat := unseen (namesOf scope.dictionaries ++ names) scope.expanding

end Scope

theorem definedNames_of_get? {d : List (String × Schema)} {name : String} {s : Schema}
    (h : Entries.get? d name = some s) :
    name ∈ definedNamesDefinitions d ∧ ∀ x ∈ definedNames s, x ∈ definedNamesDefinitions d := by
  induction d with
  | nil => simp [Entries.get?] at h
  | cons e d ih =>
    obtain ⟨k, t⟩ := e
    simp only [Entries.get?] at h
    simp only [definedNamesDefinitions, List.mem_cons, List.mem_append]
    by_cases hk : k = name
    · subst hk
      simp only [if_true, Option.some.injEq] at h
      subst h
      exact ⟨.inl rfl, fun x hx => .inr (.inl hx)⟩
    · simp only [hk, if_false] at h
      exact ⟨.inr (.inr (ih h).1), fun x hx => .inr (.inr ((ih h).2 x hx))⟩

theorem namesOf_of_find? {ds : List (List (String × Schema))} {name : String} {s : Schema}
    (h : Scope.find? ds name = some s) :
    name ∈ Scope.namesOf ds ∧ ∀ x ∈ definedNames s, x ∈ Scope.namesOf ds := by
  induction ds with
  | nil => simp [Scope.find?] at h
  | cons d ds ih =>
    simp only [Scope.find?] at h
    simp only [Scope.namesOf, List.mem_append]
    cases hd : Entries.get? d name with
    | some t =>
      simp only [hd, Option.some_or, Option.some.injEq] at h
      subst h
      have := definedNames_of_get? hd
      exact ⟨.inl this.1, fun x hx => .inl (this.2 x hx)⟩
    | none =>
      simp only [hd, Option.none_or] at h
      exact ⟨.inr (ih h).1, fun x hx => .inr ((ih h).2 x hx)⟩

namespace Scope

theorem room_mono (scope : Scope) {names names' : List String} (h : ∀ x ∈ names, x ∈ names') :
    scope.room names ≤ scope.room names' := by
  refine unseen_mono fun x hx => ?_
  rcases List.mem_append.1 hx with hx | hx
  · exact List.mem_append.2 (.inl hx)
  · exact List.mem_append.2 (.inr (h x hx))

/-- Going into a dictionary opens no names that were not counted. -/
theorem room_enter (scope : Scope) (d : List (String × Schema)) (body : Schema) :
    (scope.enter d).room (definedNames body) ≤ scope.room (definedNames (.defs d body)) := by
  refine unseen_mono fun x hx => ?_
  simp only [enter, namesOf, definedNames, List.mem_append] at hx ⊢
  rcases hx with (hx | hx) | hx
  · exact .inr (.inl hx)
  · exact .inl hx
  · exact .inr (.inr hx)

/-- Expanding a name takes up its room. -/
theorem room_expand (scope : Scope) {name : String} {s : Schema} (h : scope.lookup name = some s)
    (hn : name ∉ scope.expanding) : (scope.expand name).room (definedNames s) < scope.room [] := by
  have hf := namesOf_of_find? h
  have hsub : ∀ x ∈ namesOf scope.dictionaries ++ definedNames s, x ∈ namesOf scope.dictionaries ++ [] := by
    intro x hx
    rcases List.mem_append.1 hx with hx | hx
    · exact List.mem_append.2 (.inl hx)
    · exact List.mem_append.2 (.inl (hf.2 x hx))
  have hle : unseen (namesOf scope.dictionaries ++ definedNames s) (name :: scope.expanding) ≤
      unseen (namesOf scope.dictionaries ++ []) (name :: scope.expanding) := unseen_mono hsub
  have heq := unseen_of_mem (List.mem_append.2 (.inl hf.1) : name ∈ namesOf scope.dictionaries ++ []) hn
  simp only [room, expand]
  omega

end Scope

/-- Less room, or no more room and a smaller part. -/
theorem lex_of_le {a a' b b' : Nat} (ha : a ≤ a') (hb : b < b') :
    Prod.Lex (fun m n => m < n) (fun m n => m < n) (a, b) (a', b') := by
  rcases Nat.lt_or_eq_of_le ha with h | rfl
  · exact .left _ _ h
  · exact .right _ hb

/-! ## Resolution -/

mutual

/-- Replaces the references of a schema that stands in the given scope. -/
def resolveIn (scope : Scope) : Schema → Except Failure Schema
  | .defs definitions body => resolveIn (scope.enter definitions) body
  | .ref name =>
    if scope.dictionaries.isEmpty then .ok (.ref name)
    else if _hn : name ∈ scope.expanding then .error (.cyclicReference name)
    else
      match _hl : scope.lookup name with
      | none => .error (.unresolvedReference name)
      | some definition => resolveIn (scope.expand name) definition
  | .object properties => do return .object (← resolveEntriesIn scope properties)
  | .uniform item => do return .uniform (← resolveIn scope item)
  | .positional items => do return .positional (← resolveListIn scope items)
  | .anyOf branches => do return .anyOf (← resolveListIn scope branches)
  | .oneOf branches => do return .oneOf (← resolveListIn scope branches)
  | .sequence elements => do return .sequence (← resolveListIn scope elements)
  | .enumeration literals => .ok (.enumeration literals)
  | .boolean => .ok .boolean
  | .unconstrained => .ok .unconstrained
termination_by s => (scope.room (definedNames s), sizeOf s)
decreasing_by
  · exact lex_of_le (scope.room_enter definitions body) (by simp +arith)
  · exact .left _ _ (by simpa [definedNames] using scope.room_expand _hl _hn)
  all_goals exact lex_of_le (scope.room_mono fun x hx => by simpa [definedNames] using hx) (by simp)

/-- Replaces the references of schemas, one after the other. -/
def resolveListIn (scope : Scope) : List Schema → Except Failure (List Schema)
  | [] => .ok []
  | s :: ss => do return (← resolveIn scope s) :: (← resolveListIn scope ss)
termination_by ss => (scope.room (definedNamesList ss), sizeOf ss)
decreasing_by
  all_goals exact lex_of_le (scope.room_mono fun x hx => by simp [definedNamesList, hx]) (by simp +arith)

/-- Replaces the references of named schemas, one after the other. -/
def resolveEntriesIn (scope : Scope) : List (String × Schema) → Except Failure (List (String × Schema))
  | [] => .ok []
  | (name, s) :: es => do return (name, ← resolveIn scope s) :: (← resolveEntriesIn scope es)
termination_by es => (scope.room (definedNamesEntries es), sizeOf es)
decreasing_by
  all_goals exact lex_of_le (scope.room_mono fun x hx => by simp [definedNamesEntries, hx]) (by simp +arith)

end

theorem bind_eq_ok_iff {α β : Type} {x : Except Failure α} {f : α → Except Failure β} {b : β} :
    (x >>= f) = .ok b ↔ ∃ a, x = .ok a ∧ f a = .ok b := by
  cases x <;> simp [bind, Except.bind]

theorem pure_eq_ok_iff {α : Type} {a b : α} : (pure a : Except Failure α) = .ok b ↔ a = b := by
  simp [pure, Except.pure]

/-- What resolution leaves holds no dictionary. -/
theorem hasDefs_of_resolveIn :
    (∀ scope s t, resolveIn scope s = .ok t → hasDefs t = false) ∧
    (∀ scope ss ts, resolveListIn scope ss = .ok ts → hasDefsList ts = false) ∧
    (∀ scope es ts, resolveEntriesIn scope es = .ok ts → hasDefsEntries ts = false) := by
  refine resolveIn.mutual_induct (fun scope s => ∀ t, resolveIn scope s = .ok t → hasDefs t = false)
    (fun scope ss => ∀ ts, resolveListIn scope ss = .ok ts → hasDefsList ts = false)
    (fun scope es => ∀ ts, resolveEntriesIn scope es = .ok ts → hasDefsEntries ts = false)
    ?_ ?_ ?_ ?_ ?_ ?_ ?_ ?_ ?_ ?_ ?_ ?_ ?_ ?_ ?_ ?_ ?_ ?_
  case refine_1 =>
    intro scope definitions body ih t h
    rw [resolveIn] at h
    exact ih t h
  case refine_2 =>
    intro scope name hd t h
    rw [resolveIn, if_pos hd] at h
    cases h
    rfl
  case refine_3 =>
    intro scope name hd hn t h
    rw [resolveIn, if_neg hd, dif_pos hn] at h
    cases h
  case refine_4 =>
    intro scope name hd hn hl t h
    rw [resolveIn, if_neg hd, dif_neg hn] at h
    split at h <;> simp_all
  case refine_5 =>
    intro scope name hd hn definition hl ih t h
    rw [resolveIn, if_neg hd, dif_neg hn] at h
    split at h <;> simp_all
  case refine_12 | refine_13 | refine_14 =>
    intros
    rename_i h
    rw [resolveIn] at h
    cases h
    rfl
  case refine_15 | refine_17 =>
    intro scope ts h
    simp only [resolveListIn, resolveEntriesIn] at h
    cases h
    rfl
  case refine_16 =>
    intro scope s ss ih ihs ts h
    simp only [resolveListIn, bind_eq_ok_iff, pure_eq_ok_iff] at h
    obtain ⟨u, hu, us, hus, rfl⟩ := h
    simp [hasDefsList, ih u hu, ihs us hus]
  case refine_18 =>
    intro scope name s es ih ihs ts h
    simp only [resolveEntriesIn, bind_eq_ok_iff, pure_eq_ok_iff] at h
    obtain ⟨u, hu, us, hus, rfl⟩ := h
    simp [hasDefsEntries, ih u hu, ihs us hus]
  all_goals
    intro scope parts ih t h
    simp only [resolveIn, bind_eq_ok_iff, pure_eq_ok_iff] at h
    obtain ⟨u, hu, rfl⟩ := h
    simpa [hasDefs] using ih u hu

/-- Replaces every reference under a dictionary by its definition. -/
def resolve (s : Schema) : Except Failure Schema := resolveIn {} s

theorem hasDefs_resolve {s t : Schema} (h : resolve s = .ok t) : hasDefs t = false := hasDefs_of_resolveIn.1 _ _ _ h

end LintInference.Schema
