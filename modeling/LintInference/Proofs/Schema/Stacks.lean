import LintInference.Proofs.Schema.Expansion

/-!
# Resolution on two stacks

The resolver hands a scope down, so what it does to one part cannot be seen at the next. The same walk can be made with
one scope for all parts, kept as two stacks: a dictionary is pushed before its body is resolved and popped after it, and
a name is pushed before its definition is resolved and popped after it (`OnStacks.walk`, `OnStacks.expand`). Then it
matters that what was pushed is popped again, on the way out of a failure too.

It is: whatever the stacks hold at first, every call returns, with what the resolver gives in that scope, and leaves the
stacks as it found them. So the parts of a schema do not see each other, and a list is resolved by resolving each of its
schemas from the same stacks (`OnStacks.stacks_restored`).

As in `resolveWithin`, the recursion is on a bound on the expansions inside one another, and nothing comes of a call
whose bound is too small. What comes does not depend on the bound, and a call is said to return if something comes of it
with some bound (`OnStacks.Returns`).
-/

namespace LintInference.Schema

namespace Scope

/-- The scope without the innermost dictionary. -/
def leave (scope : Scope) : Scope := { scope with dictionaries := scope.dictionaries.tail }

/-- The scope without the name whose expansion began last. -/
def finish (scope : Scope) : Scope := { scope with expanding := scope.expanding.tail }

@[simp] theorem leave_enter (scope : Scope) (definitions : List (String × Schema)) :
    (scope.enter definitions).leave = scope := rfl

@[simp] theorem finish_expand (scope : Scope) (name : String) : (scope.expand name).finish = scope := rfl

end Scope

/-! ## The walk -/

/-- What works on the two stacks of a scope, tops first. A failure of resolution is a result like others, with the
stacks that are there by then. -/
abbrev OnStacks := StateT Scope Option

namespace OnStacks

mutual

/-- Replaces the references of a schema, where it is given what to do about a reference. -/
def walk (expand : String → OnStacks (Except Failure Schema)) : Schema → OnStacks (Except Failure Schema)
  | .defs definitions body => do
    modify (·.enter definitions)
    let resolved ← walk expand body
    modify Scope.leave
    return resolved
  | .ref name => expand name
  | .object properties => do return (← walkEntries expand properties).map .object
  | .uniform item => do return (← walk expand item).map .uniform
  | .positional items => do return (← walkList expand items).map .positional
  | .anyOf branches => do return (← walkList expand branches).map .anyOf
  | .oneOf branches => do return (← walkList expand branches).map .oneOf
  | .sequence elements => do return (← walkList expand elements).map .sequence
  | .enumeration literals => return .ok (.enumeration literals)
  | .boolean => return .ok .boolean
  | .unconstrained => return .ok .unconstrained

/-- Replaces the references of schemas, one after the other, up to the first failure. -/
def walkList (expand : String → OnStacks (Except Failure Schema)) :
    List Schema → OnStacks (Except Failure (List Schema))
  | [] => return .ok []
  | s :: ss => do
    match ← walk expand s with
    | .error e => return .error e
    | .ok t => return (← walkList expand ss).map (t :: ·)

/-- Replaces the references of named schemas, one after the other, up to the first failure. -/
def walkEntries (expand : String → OnStacks (Except Failure Schema)) :
    List (String × Schema) → OnStacks (Except Failure (List (String × Schema)))
  | [] => return .ok []
  | (name, s) :: es => do
    match ← walk expand s with
    | .error e => return .error e
    | .ok t => return (← walkEntries expand es).map ((name, t) :: ·)

end

/-- Replaces a reference by its definition, resolved on top of the stacks, with at most so many expansions inside one
another. -/
def expand (bound : Nat) (name : String) : OnStacks (Except Failure Schema) := do
  let scope ← get
  if scope.dictionaries.isEmpty then return .ok (.ref name)
  else
    match scope.definition true name with
    | .error e => return .error e
    | .ok definition =>
      match bound with
      | 0 => failure
      | bound + 1 => do
        modify (·.expand name)
        let resolved ← walk (expand bound) definition
        modify Scope.finish
        return resolved

/-- Replaces the references of a schema, with at most so many expansions inside one another. -/
def resolve (bound : Nat) : Schema → OnStacks (Except Failure Schema) := walk (expand bound)

/-- Replaces the references of schemas, with at most so many expansions inside one another. -/
def resolveAll (bound : Nat) : List Schema → OnStacks (Except Failure (List Schema)) := walkList (expand bound)

/-- With some bound there comes the result, and the stacks are then those of the second scope. -/
def Returns {α : Type} (call : Nat → OnStacks (Except Failure α)) (scope : Scope) (r : Except Failure α)
    (after : Scope) : Prop :=
  ∃ bound, call bound scope = some (r, after)

/-! ## One step -/

/-- From the stacks of the scope there comes the result, and the stacks are left as they were. Nothing else comes, and
nothing at all only if the bound is not enough. -/
def Leaves {α : Type} (enough : Prop) (x : OnStacks (Except Failure α)) (scope : Scope) (r : Except Failure α) : Prop :=
  x scope = some (r, scope) ∨ ¬ enough ∧ x scope = none

section Steps

variable {α β : Type} {enough enough' : Prop} {scope : Scope} {x : OnStacks (Except Failure α)} {r : Except Failure α}

theorem leaves_pure (r : Except Failure α) : Leaves enough (pure r) scope r := .inl rfl

theorem Leaves.mono (h : Leaves enough x scope r) (he : enough' → enough) : Leaves enough' x scope r :=
  h.imp_right fun hn => ⟨mt he hn.1, hn.2⟩

theorem bind_apply (x : OnStacks α) (f : α → OnStacks β) (scope : Scope) :
    (x >>= f) scope = (x scope).bind fun p => f p.1 p.2 := rfl

theorem Leaves.bind (h : Leaves enough x scope r) {f : Except Failure α → OnStacks (Except Failure β)}
    {q : Except Failure β} (hf : Leaves enough (f r) scope q) : Leaves enough (x >>= f) scope q := by
  rcases h with hx | ⟨hn, hx⟩
  · rw [Leaves, bind_apply, hx]
    exact hf
  · refine .inr ⟨hn, ?_⟩
    rw [bind_apply, hx]
    rfl

theorem Leaves.map (h : Leaves enough x scope r) (f : α → β) :
    Leaves enough (do return (← x).map f) scope (r.map f) :=
  h.bind (leaves_pure _)

/-- Between a push and its pop, the stacks are left as they were pushed; after the pop, they are as before the push. The
result of what comes between does not matter. -/
theorem leaves_between {push pop : Scope → Scope} (hpop : pop (push scope) = scope)
    (h : Leaves enough x (push scope) r) :
    Leaves enough (do modify push; let result ← x; modify pop; return result) scope r := by
  have heq : (do modify push; let result ← x; modify pop; return result : OnStacks (Except Failure α)) scope =
      (x (push scope)).bind fun p => some (p.1, pop p.2) := rfl
  rcases h with hx | ⟨hn, hx⟩
  · refine .inl ?_
    rw [heq, hx, Option.bind_some, hpop]
  · refine .inr ⟨hn, ?_⟩
    rw [heq, hx]
    rfl

end Steps

/-! ## Parts -/

section Walk

variable {enough : Prop} {f : String → OnStacks (Except Failure Schema)} {scope : Scope}

/-- A dictionary is there for its body only. -/
theorem walk_leaves_defs {definitions : List (String × Schema)} {body : Schema} {r : Except Failure Schema}
    (h : Leaves enough (walk f body) (scope.enter definitions) r) :
    Leaves enough (walk f (.defs definitions body)) scope r := by
  rw [walk]
  exact leaves_between (scope.leave_enter definitions) h

theorem walkList_leaves {ss : List Schema} (h : ∀ s ∈ ss, Leaves enough (walk f s) scope (resolveIn scope s)) :
    Leaves enough (walkList f ss) scope (resolveListIn scope ss) := by
  induction ss with
  | nil =>
    rw [walkList, resolveListIn]
    exact leaves_pure _
  | cons s ss ih =>
    obtain ⟨hs, hss⟩ := List.forall_mem_cons.1 h
    rw [walkList, resolveListIn_cons]
    refine hs.bind ?_
    cases resolveIn scope s with
    | error e => exact leaves_pure _
    | ok t => exact (ih hss).map _

theorem resolveEntriesIn_cons (scope : Scope) (name : String) (s : Schema) (es : List (String × Schema)) :
    resolveEntriesIn scope ((name, s) :: es) =
      (resolveIn scope s).bind fun t => (resolveEntriesIn scope es).map ((name, t) :: ·) := by
  rw [resolveEntriesIn]
  cases resolveIn scope s with
  | error _ => rfl
  | ok t => cases resolveEntriesIn scope es <;> rfl

theorem walkEntries_leaves {es : List (String × Schema)}
    (h : ∀ s ∈ es.map (·.2), Leaves enough (walk f s) scope (resolveIn scope s)) :
    Leaves enough (walkEntries f es) scope (resolveEntriesIn scope es) := by
  induction es with
  | nil =>
    rw [walkEntries, resolveEntriesIn]
    exact leaves_pure _
  | cons e es ih =>
    obtain ⟨name, s⟩ := e
    obtain ⟨hs, hes⟩ := List.forall_mem_cons.1 h
    rw [walkEntries, resolveEntriesIn_cons]
    refine hs.bind ?_
    cases resolveIn scope s with
    | error e => exact leaves_pure _
    | ok t => exact (ih hes).map _

/-- If the parts leave the stacks as they were, so does the schema that is composed of them. -/
theorem walk_leaves_composed {s : Schema} (hs : isComposed s = true)
    (h : ∀ u ∈ s.parts, Leaves enough (walk f u) scope (resolveIn scope u)) :
    Leaves enough (walk f s) scope (resolveIn scope s) := by
  cases s with
  | ref _ | defs _ _ => cases hs
  | enumeration _ | boolean | unconstrained =>
    rw [walk, resolveIn]
    exact leaves_pure _
  | object properties =>
    have hin : resolveIn scope (.object properties) = (resolveEntriesIn scope properties).map .object := by
      rw [resolveIn]
      cases resolveEntriesIn scope properties <;> rfl
    rw [walk, hin]
    exact (walkEntries_leaves h).map _
  | uniform item =>
    have hin : resolveIn scope (.uniform item) = (resolveIn scope item).map .uniform := by
      rw [resolveIn]
      cases resolveIn scope item <;> rfl
    rw [walk, hin]
    exact (h item List.mem_cons_self).map _
  | positional ss | anyOf ss | oneOf ss | sequence ss =>
    rw [walk, resolveIn_composed rfl]
    exact (walkList_leaves h).map _

end Walk

/-! ## Every call -/

section Calls

variable {bound : Nat} {scope : Scope}

/-- From any stacks, a schema is resolved as in their scope and the stacks are left as they were, if this is so for each
reference. -/
theorem walk_leaves {f : String → OnStacks (Except Failure Schema)}
    (hf : ∀ scope name, Leaves (scope.room [] ≤ bound) (f name) scope (resolveIn scope (.ref name))) (scope : Scope)
    (s : Schema) : Leaves (scope.room (definedNames s) ≤ bound) (walk f s) scope (resolveIn scope s) := by
  induction s using kindInduction generalizing scope with
  | ref name =>
    rw [walk]
    exact hf scope name
  | defs definitions body _ ih =>
    rw [resolveIn_defs]
    exact walk_leaves_defs ((ih _).mono fun h => Nat.le_trans (scope.room_enter definitions body) h)
  | composed s hs ih =>
    exact walk_leaves_composed hs fun u hu => (ih u hu scope).mono fun h => Nat.le_trans (room_of_mem_parts scope hu) h

theorem expand_outside (h : scope.dictionaries = []) (name : String) :
    expand bound name scope = some (.ok (.ref name), scope) := by
  unfold expand
  show (if scope.dictionaries.isEmpty = true then _ else _ : OnStacks (Except Failure Schema)) scope = _
  rw [if_pos (List.isEmpty_iff.2 h)]
  rfl

theorem expand_inside (h : scope.dictionaries ≠ []) (name : String) :
    expand bound name scope =
      match scope.definition true name with
      | .error e => some (.error e, scope)
      | .ok definition =>
        match bound with
        | 0 => none
        | bound + 1 => (do
          modify (·.expand name)
          let resolved ← resolve bound definition
          modify Scope.finish
          return resolved : OnStacks (Except Failure Schema)) scope := by
  unfold expand
  show (if scope.dictionaries.isEmpty = true then _ else _ : OnStacks (Except Failure Schema)) scope = _
  rw [if_neg (by simpa using h)]
  cases scope.definition true name with
  | error e => rfl
  | ok definition => cases bound <;> rfl

/-- A name is being expanded as long as its definition is resolved, and no longer. Each expansion takes up room, so a
bound as large as the room is enough. -/
theorem expand_leaves (bound : Nat) (scope : Scope) (name : String) :
    Leaves (scope.room [] ≤ bound) (expand bound name) scope (resolveIn scope (.ref name)) := by
  induction bound using Nat.strongRecOn generalizing scope name with
  | ind bound ih =>
    by_cases ho : scope.dictionaries = []
    · rw [resolveIn_ref_outside ho]
      exact .inl (expand_outside ho name)
    · rw [Leaves, resolveIn_ref ho, expand_inside ho]
      cases hd : scope.definition true name with
      | error e => exact .inl rfl
      | ok definition =>
        have hroom : (scope.expand name).room (definedNames definition) < scope.room [] := room_of_definition hd
        cases bound with
        | zero => exact .inr ⟨by omega, rfl⟩
        | succ bound =>
          have hdefinition := walk_leaves (ih bound (Nat.lt_succ_self bound)) (scope.expand name) definition
          exact leaves_between (scope.finish_expand name) (hdefinition.mono fun h => by omega)

theorem resolve_leaves (bound : Nat) (scope : Scope) (s : Schema) :
    Leaves (scope.room (definedNames s) ≤ bound) (resolve bound s) scope (resolveIn scope s) :=
  walk_leaves (expand_leaves bound) scope s

/-- A list needs no more room than a sequence of its schemas. -/
theorem resolveAll_leaves (bound : Nat) (scope : Scope) (ss : List Schema) :
    Leaves (scope.room (definedNames (.sequence ss)) ≤ bound) (resolveAll bound ss) scope (resolveListIn scope ss) := by
  refine walkList_leaves fun s hs => (resolve_leaves bound scope s).mono fun h => ?_
  exact Nat.le_trans (room_of_mem_parts (s := .sequence ss) scope hs) h

/-- What leaves the stacks as they were with each bound, and comes with a bound that is large enough, is all that is
returned. -/
theorem returns_iff {α : Type} {call : Nat → OnStacks (Except Failure α)} {scope after : Scope} {r q : Except Failure α}
    {room : Nat} (h : ∀ bound, Leaves (room ≤ bound) (call bound) scope r) :
    Returns call scope q after ↔ q = r ∧ after = scope := by
  constructor
  · rintro ⟨bound, hbound⟩
    rcases h bound with hr | ⟨_, hnone⟩
    · rw [hr] at hbound
      cases hbound
      exact ⟨rfl, rfl⟩
    · rw [hnone] at hbound
      cases hbound
  · rintro ⟨rfl, rfl⟩
    exact ⟨room, (h room).resolve_right fun hn => hn.1 (Nat.le_refl room)⟩

end Calls

/-- Whatever the stacks hold, each of the calls returns, with the result of the resolver in that scope and no other, and
the stacks are then as they were, after a failure too. So a list resolves exactly if each of its schemas does from the
same stacks, and then gives what these give, in order. -/
theorem stacks_restored (scope : Scope) :
    (∀ s r after, Returns (resolve · s) scope r after ↔ r = resolveIn scope s ∧ after = scope) ∧
      (∀ ss r after, Returns (resolveAll · ss) scope r after ↔ r = resolveListIn scope ss ∧ after = scope) ∧
      (∀ name r after, Returns (expand · name) scope r after ↔ r = resolveIn scope (.ref name) ∧ after = scope) ∧
      ∀ ss ts after, Returns (resolveAll · ss) scope (.ok ts) after ↔
        after = scope ∧ List.Forall₂ (fun s t => Returns (resolve · s) scope (.ok t) scope) ss ts := by
  have hresolve : ∀ s r after, Returns (resolve · s) scope r after ↔ r = resolveIn scope s ∧ after = scope :=
    fun s _ _ => returns_iff fun bound => resolve_leaves bound scope s
  have hall : ∀ ss r after, Returns (resolveAll · ss) scope r after ↔ r = resolveListIn scope ss ∧ after = scope :=
    fun ss _ _ => returns_iff fun bound => resolveAll_leaves bound scope ss
  have hexpand : ∀ name r after,
      Returns (expand · name) scope r after ↔ r = resolveIn scope (.ref name) ∧ after = scope :=
    fun name _ _ => returns_iff fun bound => expand_leaves bound scope name
  refine ⟨hresolve, hall, hexpand, fun ss ts after => ?_⟩
  have hitem : ∀ s t, Returns (resolve · s) scope (.ok t) scope ↔ resolveIn scope s = .ok t := fun s t => by
    rw [hresolve, eq_comm]
    exact and_iff_left rfl
  simp only [hall, hitem, eq_comm (a := Except.ok ts), resolveListIn_ok_iff, and_comm]

end OnStacks

end LintInference.Schema
