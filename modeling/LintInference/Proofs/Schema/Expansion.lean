import LintInference.Proofs.Schema.Nodes
import LintInference.Schema.Limits

/-!
# Expansions inside one another

`resolveWithin` resolves with a bound on the number of expansions inside one another, by recursion on that bound. Nothing
comes of it if the bound is too small. With the check it refuses a name that is being expanded, as the resolver does;
without the check it looks names up in the same way and follows every reference.

What comes of a resolution carries over to scopes that do the same (`Simulation`). So a larger bound changes nothing
(`resolveWithin_mono`). With the check, a bound by the number of names that are defined and not being expanded is always
large enough, and what comes is what the resolver gives (`resolveWithin_eq_some`).
-/

namespace LintInference.Schema

/-! ## Walks -/

mutual

/-- Resolves a schema, where it is given what to do about references under a dictionary. -/
def walk (expand : Scope → String → Bounded Schema) (scope : Scope) : Schema → Bounded Schema
  | .defs definitions body => walk expand (scope.enter definitions) body
  | .ref name => if scope.dictionaries.isEmpty then pure (.ref name) else expand scope name
  | .object properties => do return .object (← walkEntries expand scope properties)
  | .uniform item => do return .uniform (← walk expand scope item)
  | .positional items => do return .positional (← walkList expand scope items)
  | .anyOf branches => do return .anyOf (← walkList expand scope branches)
  | .oneOf branches => do return .oneOf (← walkList expand scope branches)
  | .sequence elements => do return .sequence (← walkList expand scope elements)
  | .enumeration literals => pure (.enumeration literals)
  | .boolean => pure .boolean
  | .unconstrained => pure .unconstrained

/-- Resolves schemas, one after the other. -/
def walkList (expand : Scope → String → Bounded Schema) (scope : Scope) : List Schema → Bounded (List Schema)
  | [] => pure []
  | s :: ss => do return (← walk expand scope s) :: (← walkList expand scope ss)

/-- Resolves named schemas, one after the other. -/
def walkEntries (expand : Scope → String → Bounded Schema) (scope : Scope) :
    List (String × Schema) → Bounded (List (String × Schema))
  | [] => pure []
  | (name, s) :: es => do return (name, ← walk expand scope s) :: (← walkEntries expand scope es)

end

/-- The definition of a name, or why there is none to expand. With the check, a name that is being expanded is refused. -/
def Scope.definition (check : Bool) (scope : Scope) (name : String) : Except Failure Schema :=
  if check = true ∧ name ∈ scope.expanding then .error (.cyclicReference name)
  else
    match scope.lookup name with
    | none => .error (.unresolvedReference name)
    | some definition => .ok definition

/-- Expands a reference, with at most so many expansions inside one another. -/
def expandWithin (check : Bool) : Nat → Scope → String → Bounded Schema
  | 0, scope, name =>
    match scope.definition check name with
    | .error e => throw e
    | .ok _ => none
  | bound + 1, scope, name =>
    match scope.definition check name with
    | .error e => throw e
    | .ok definition => walk (expandWithin check bound) (scope.expand name) definition

/-- Resolves a schema, with at most so many expansions inside one another. -/
def resolveWithin (check : Bool) (bound : Nat) : Scope → Schema → Bounded Schema := walk (expandWithin check bound)

/-! ## Outcomes -/

namespace Bounded

variable {α β : Type}

theorem bind_eq_some_iff {x : Bounded α} {f : α → Bounded β} {r : Except Failure β} :
    (x >>= f : Bounded β) = some r ↔
      (∃ e, x = some (.error e) ∧ r = .error e) ∨ ∃ a, x = some (.ok a) ∧ f a = some r := by
  match x with
  | none =>
    refine iff_of_false (fun h => ?_) (by simp)
    cases h
  | some (.error e) =>
    refine ⟨fun h => .inl ⟨e, rfl, (Option.some.inj h).symm⟩, ?_⟩
    rintro (⟨_, he, rfl⟩ | ⟨_, he, _⟩)
    · cases he
      rfl
    · cases he
  | some (.ok a) =>
    refine ⟨fun h => .inr ⟨a, rfl, h⟩, ?_⟩
    rintro (⟨_, he, _⟩ | ⟨_, he, h⟩)
    · cases he
    · cases he
      exact h

/-- What comes of the first comes of the second too. Of failures this is said only for those given. -/
def Carries (failures : Failure → Prop) (x y : Bounded α) : Prop :=
  ∀ r, x = some r → (∀ e, r = .error e → failures e) → y = some r

variable {failures : Failure → Prop}

theorem Carries.bind {x y : Bounded α} {f g : α → Bounded β} (hx : Carries failures x y)
    (hf : ∀ a, Carries failures (f a) (g a)) : Carries failures (x >>= f) (y >>= g) := by
  intro r h hr
  rw [bind_eq_some_iff] at h ⊢
  rcases h with ⟨e, he, rfl⟩ | ⟨a, ha, h⟩
  · refine .inl ⟨e, hx _ he fun e' he' => ?_, rfl⟩
    cases he'
    exact hr e rfl
  · exact .inr ⟨a, hx _ ha (by simp), hf a r h hr⟩

theorem Carries.map {x y : Bounded α} (f : α → β) (hx : Carries failures x y) :
    Carries failures (f <$> x) (f <$> y) := by
  rw [map_eq_pure_bind, map_eq_pure_bind]
  exact hx.bind fun _ _ h _ => h

end Bounded

section Walk

variable {f g : Scope → String → Bounded Schema}

theorem walkEntries_eq (scope : Scope) (es : List (String × Schema)) :
    walkEntries f scope es = ((es.map (·.1)).zip ·) <$> walkList f scope (es.map (·.2)) := by
  induction es with
  | nil => simp [walkEntries, walkList]
  | cons e es ih => simp [walkEntries, walkList, ih]

/-- Walking through a composed schema is walking through its parts. -/
theorem walk_composed {s : Schema} (hs : isComposed s = true) (scope : Scope) :
    walk f scope s = s.withParts <$> walkList f scope s.parts := by
  cases s with
  | ref _ | defs _ _ => cases hs
  | enumeration _ | boolean | unconstrained => rfl
  | object properties =>
    simp only [walk, walkEntries_eq, bind_pure_comp, Functor.map_map]
    rfl
  | uniform item => simp [walk, walkList, parts, withParts]
  | positional _ | anyOf _ | oneOf _ | sequence _ =>
    simp only [walk, bind_pure_comp]
    rfl

end Walk

section Expand

variable {check : Bool} {scope : Scope} {name : String} {definition : Schema} {bound : Nat}

theorem definition_eq_ok_iff : scope.definition check name = .ok definition ↔
    ¬ (check = true ∧ name ∈ scope.expanding) ∧ scope.lookup name = some definition := by
  rw [Scope.definition]
  split
  next h => exact iff_of_false (by simp) fun hn => hn.1 h
  next h =>
    cases scope.lookup name with
    | none => simp
    | some d => simp [h]

/-- Outside all dictionaries no name has a definition. -/
theorem ne_nil_of_definition (h : scope.definition check name = .ok definition) : scope.dictionaries ≠ [] := by
  intro ho
  have hl := (definition_eq_ok_iff.1 h).2
  rw [Scope.lookup, ho, Scope.find?] at hl
  cases hl

theorem definition_eq_error_iff {e : Failure} : scope.definition check name = .error e ↔
    (check = true ∧ name ∈ scope.expanding ∧ e = .cyclicReference name) ∨
      ¬ (check = true ∧ name ∈ scope.expanding) ∧ scope.lookup name = none ∧ e = .unresolvedReference name := by
  rw [Scope.definition]
  split
  next h => simp [h, eq_comm]
  next h =>
    cases scope.lookup name with
    | none => simp only [Except.error.injEq, eq_comm]; grind
    | some d => simp only [reduceCtorEq]; grind

theorem expandWithin_error {e : Failure} (h : scope.definition check name = .error e) :
    expandWithin check bound scope name = some (.error e) := by
  cases bound <;> rw [expandWithin, h] <;> rfl

theorem expandWithin_zero (h : scope.definition check name = .ok definition) :
    expandWithin check 0 scope name = none := by
  rw [expandWithin, h]

theorem expandWithin_succ (h : scope.definition check name = .ok definition) :
    expandWithin check (bound + 1) scope name = resolveWithin check bound (scope.expand name) definition := by
  rw [expandWithin, h]
  rfl

end Expand

/-! ## Scopes that do the same -/

/-- The failure tells a name that has no definition. -/
def Unresolved (e : Failure) : Prop := ∃ name, e = .unresolvedReference name

/-- Under scopes so related references come to the same, as long as the first resolution comes to something. -/
structure Simulation (failures : Failure → Prop) (check check' : Bool) (R : Scope → Scope → Prop) : Prop where
  enter : ∀ {a b} definitions, R a b → R (a.enter definitions) (b.enter definitions)
  expand : ∀ {a b} name, R a b → R (a.expand name) (b.expand name)
  outside : ∀ {a b}, R a b → (a.dictionaries = [] ↔ b.dictionaries = [])
  definition : ∀ {a b} name r, R a b → a.definition check name = r → (∀ e, r = .error e → failures e) →
    b.definition check' name = r

namespace Simulation

variable {failures : Failure → Prop} {check check' : Bool} {R : Scope → Scope → Prop}
variable {f g : Scope → String → Bounded Schema}

theorem walkList_carries {a b : Scope} {ss : List Schema}
    (h : ∀ s ∈ ss, Bounded.Carries failures (walk f a s) (walk g b s)) :
    Bounded.Carries failures (walkList f a ss) (walkList g b ss) := by
  induction ss with
  | nil => exact fun _ h _ => h
  | cons s ss ih =>
    obtain ⟨hs, hss⟩ := List.forall_mem_cons.1 h
    rw [walkList, walkList]
    exact hs.bind fun t => (ih hss).bind fun ts _ h _ => h

theorem walk_carries (hR : Simulation failures check check' R)
    (hfg : ∀ a b name, R a b → Bounded.Carries failures (f a name) (g b name)) (s : Schema) {a b : Scope} (h : R a b) :
    Bounded.Carries failures (walk f a s) (walk g b s) := by
  induction s using kindInduction generalizing a b with
  | ref name =>
    rw [walk, walk]
    by_cases ha : a.dictionaries = []
    · rw [if_pos (List.isEmpty_iff.2 ha), if_pos (List.isEmpty_iff.2 ((hR.outside h).1 ha))]
      exact fun _ h _ => h
    · have hb : b.dictionaries ≠ [] := fun hb => ha ((hR.outside h).2 hb)
      rw [if_neg (by simpa using ha), if_neg (by simpa using hb)]
      exact hfg a b name h
  | defs definitions body _ ih =>
    rw [walk, walk]
    exact ih (hR.enter definitions h)
  | composed s hs ih =>
    rw [walk_composed hs, walk_composed hs]
    exact (walkList_carries fun u hu => ih u hu h).map _

theorem expandWithin_carries (hR : Simulation failures check check' R) (m : Nat) {n : Nat} (hmn : m ≤ n) {a b : Scope}
    (name : String) (h : R a b) :
    Bounded.Carries failures (expandWithin check m a name) (expandWithin check' n b name) := by
  intro r hr hkind
  cases hd : a.definition check name with
  | error e =>
    rw [expandWithin_error hd] at hr
    cases hr
    refine expandWithin_error (hR.definition name _ h hd fun e' he => ?_)
    cases he
    exact hkind e rfl
  | ok d =>
    have hd' : b.definition check' name = .ok d := hR.definition name _ h hd (by simp)
    cases m with
    | zero =>
      rw [expandWithin_zero hd] at hr
      cases hr
    | succ m =>
      obtain ⟨n, rfl⟩ : ∃ k, n = k + 1 := ⟨n - 1, by omega⟩
      rw [expandWithin_succ hd] at hr
      rw [expandWithin_succ hd']
      have hmn : m ≤ n := by omega
      exact hR.walk_carries (fun _ _ name h => hR.expandWithin_carries m hmn name h) d (hR.expand name h) r hr hkind

theorem resolveWithin_carries (hR : Simulation failures check check' R) {m n : Nat} (hmn : m ≤ n) (s : Schema)
    {a b : Scope} (h : R a b) :
    Bounded.Carries failures (resolveWithin check m a s) (resolveWithin check' n b s) :=
  hR.walk_carries (fun _ _ name h => hR.expandWithin_carries m hmn name h) s h

theorem refl (check : Bool) : Simulation (fun _ => True) check check Eq where
  enter := by rintro a _ d rfl; rfl
  expand := by rintro a _ name rfl; rfl
  outside := by rintro a _ rfl; rfl
  definition := by rintro a _ name r rfl h _; exact h

/-- Without the check, all that does not come of the check is the same. -/
theorem unchecked : Simulation Unresolved true false Eq where
  enter := by rintro a _ d rfl; rfl
  expand := by rintro a _ name rfl; rfl
  outside := by rintro a _ rfl; rfl
  definition := by
    rintro a _ name (e | d) rfl h hkind
    · obtain ⟨n, rfl⟩ := hkind e rfl
      rcases definition_eq_error_iff.1 h with ⟨_, _, he⟩ | ⟨_, hl, he⟩
      · cases he
      · exact definition_eq_error_iff.2 (.inr ⟨by simp, hl, he⟩)
    · exact definition_eq_ok_iff.2 ⟨by simp, (definition_eq_ok_iff.1 h).2⟩

/-- Fewer names that are being expanded. -/
theorem fewer : Simulation Unresolved true true fun a b =>
    a.dictionaries = b.dictionaries ∧ b.expanding ⊆ a.expanding where
  enter := by
    rintro a b d ⟨hd, he⟩
    exact ⟨congrArg (d :: ·) hd, he⟩
  expand := by
    rintro a b name ⟨hd, he⟩
    exact ⟨hd, List.cons_subset_cons name he⟩
  outside := by
    rintro a b ⟨hd, _⟩
    rw [hd]
  definition := by
    rintro a b name (e | d) ⟨hd, he⟩ h hkind
    · obtain ⟨n, rfl⟩ := hkind e rfl
      rcases definition_eq_error_iff.1 h with ⟨_, _, hcycle⟩ | ⟨hn, hl, heq⟩
      · cases hcycle
      · rw [Scope.lookup, hd] at hl
        exact definition_eq_error_iff.2 (.inr ⟨fun hc => hn ⟨rfl, he hc.2⟩, hl, heq⟩)
    · obtain ⟨hn, hl⟩ := definition_eq_ok_iff.1 h
      rw [Scope.lookup, hd] at hl
      exact definition_eq_ok_iff.2 ⟨fun hc => hn ⟨rfl, he hc.2⟩, hl⟩

end Simulation

section Bounds

variable {check : Bool} {scope : Scope} {s : Schema} {m n : Nat}

/-- A larger bound changes nothing once a bound is large enough. -/
theorem resolveWithin_mono {r : Except Failure Schema} (h : resolveWithin check m scope s = some r) (hmn : m ≤ n) :
    resolveWithin check n scope s = some r :=
  (Simulation.refl check).resolveWithin_carries hmn s rfl r h fun _ _ => trivial

theorem walkList_mono {ss : List Schema} {q : Except Failure (List Schema)}
    (h : walkList (expandWithin check m) scope ss = some q) (hmn : m ≤ n) :
    walkList (expandWithin check n) scope ss = some q :=
  Simulation.walkList_carries (fun s _ => (Simulation.refl check).resolveWithin_carries hmn s rfl) q h fun _ _ => trivial

/-- Whatever the bounds, resolution comes to one thing at most. -/
theorem resolveWithin_unique {q r : Except Failure Schema} (hq : resolveWithin check m scope s = some q)
    (hr : resolveWithin check n scope s = some r) : q = r := by
  have hq' := resolveWithin_mono hq (Nat.le_max_left m n)
  have hr' := resolveWithin_mono hr (Nat.le_max_right m n)
  exact Option.some.inj (hq'.symm.trans hr')

end Bounds

/-! ## The resolver needs no bound -/

theorem resolveIn_defs (scope : Scope) (definitions : List (String × Schema)) (body : Schema) :
    resolveIn scope (.defs definitions body) = resolveIn (scope.enter definitions) body := by
  rw [resolveIn]

theorem resolveIn_ref_outside {scope : Scope} (h : scope.dictionaries = []) (name : String) :
    resolveIn scope (.ref name) = .ok (.ref name) := by
  rw [resolveIn, if_pos (List.isEmpty_iff.2 h)]

/-- Under a dictionary, a reference is resolved by resolving its definition, with the check. -/
theorem resolveIn_ref {scope : Scope} (h : scope.dictionaries ≠ []) (name : String) :
    resolveIn scope (.ref name) = (scope.definition true name).bind (resolveIn (scope.expand name)) := by
  rw [resolveIn, if_neg (by simpa using h), Scope.definition]
  by_cases hn : name ∈ scope.expanding
  · rw [dif_pos hn, if_pos ⟨rfl, hn⟩]
    rfl
  · rw [dif_neg hn, if_neg fun hc => hn hc.2]
    split <;> simp_all [Except.bind]

/-- An expansion takes up room. -/
theorem room_of_definition {scope : Scope} {name : String} {definition : Schema}
    (h : scope.definition true name = .ok definition) :
    (scope.expand name).room (definedNames definition) < scope.room [] := by
  obtain ⟨hn, hl⟩ := definition_eq_ok_iff.1 h
  exact scope.room_expand hl fun hmem => hn ⟨rfl, hmem⟩

theorem resolveIn_ref_of_definition {scope : Scope} {name : String} {definition : Schema}
    (h : scope.definition true name = .ok definition) :
    resolveIn scope (.ref name) = resolveIn (scope.expand name) definition := by
  rw [resolveIn_ref (ne_nil_of_definition h), h]
  rfl

theorem walkList_resolveIn {f : Scope → String → Bounded Schema} {scope : Scope} {ss : List Schema}
    (h : ∀ s ∈ ss, walk f scope s = some (resolveIn scope s)) :
    walkList f scope ss = some (resolveListIn scope ss) := by
  induction ss with
  | nil =>
    rw [walkList, resolveListIn]
    rfl
  | cons s ss ih =>
    obtain ⟨hs, hss⟩ := List.forall_mem_cons.1 h
    rw [walkList, resolveListIn_cons, hs, ih hss]
    cases resolveIn scope s with
    | error _ => rfl
    | ok t => cases resolveListIn scope ss <;> rfl

/-- With room for no more names than the bound, a walk does what the resolver does if it does so at each reference. -/
theorem walk_resolveIn {f : Scope → String → Bounded Schema} {bound : Nat}
    (hf : ∀ scope name, scope.dictionaries ≠ [] → scope.room [] ≤ bound →
      f scope name = some (resolveIn scope (.ref name)))
    (s : Schema) {scope : Scope} (h : scope.room (definedNames s) ≤ bound) :
    walk f scope s = some (resolveIn scope s) := by
  induction s using kindInduction generalizing scope with
  | ref name =>
    rw [walk]
    by_cases hd : scope.dictionaries = []
    · rw [if_pos (List.isEmpty_iff.2 hd), resolveIn_ref_outside hd]
      rfl
    · rw [if_neg (by simpa using hd)]
      exact hf scope name hd h
  | defs definitions body _ ih =>
    rw [walk, resolveIn_defs]
    exact ih (Nat.le_trans (scope.room_enter definitions body) h)
  | composed s hs ih =>
    have hparts : walkList f scope s.parts = some (resolveListIn scope s.parts) := by
      refine walkList_resolveIn fun u hu => ih u hu ?_
      exact Nat.le_trans (room_of_mem_parts scope hu) h
    rw [walk_composed hs, resolveIn_composed hs, hparts]
    cases resolveListIn scope s.parts <;> rfl

/-- As many expansions inside one another as there is room for names are enough for the resolver. -/
theorem resolveWithin_eq_some {bound : Nat} {scope : Scope} {s : Schema} (h : scope.room (definedNames s) ≤ bound) :
    resolveWithin true bound scope s = some (resolveIn scope s) := by
  induction bound using Nat.strongRecOn generalizing scope s with
  | ind bound ih =>
    refine walk_resolveIn (fun scope name hd hroom => ?_) s h
    rw [resolveIn_ref hd]
    cases hdef : scope.definition true name with
    | error e => exact expandWithin_error hdef
    | ok d =>
      have hlt : (scope.expand name).room (definedNames d) < scope.room [] := room_of_definition hdef
      obtain ⟨k, rfl⟩ : ∃ k, bound = k + 1 := ⟨bound - 1, by omega⟩
      rw [expandWithin_succ hdef]
      exact ih k (Nat.lt_succ_self k) (by omega)

/-- The resolver gives the same tree in a scope that does the same. -/
theorem Simulation.resolveIn_eq_ok {failures : Failure → Prop} {R : Scope → Scope → Prop}
    (hR : Simulation failures true true R) {a b : Scope} (hab : R a b) {s t : Schema} (h : resolveIn a s = .ok t) :
    resolveIn b s = .ok t := by
  have ha : resolveWithin true (a.room (definedNames s)) a s = some (.ok t) := h ▸ resolveWithin_eq_some (Nat.le_refl _)
  have hb := hR.resolveWithin_carries (Nat.le_refl _) s hab _ ha (by simp)
  exact resolveWithin_unique (resolveWithin_eq_some (Nat.le_refl _)) hb

/-- Induction over what the resolver resolves, by the three kinds of schemas. -/
@[elab_as_elim]
theorem resolvedInduction {P : ∀ scope s t, resolveIn scope s = .ok t → Prop}
    (outside : ∀ {scope} name (ho : scope.dictionaries = []),
      P scope (.ref name) (.ref name) (resolveIn_ref_outside ho name))
    (ref : ∀ {scope name definition t} (hd : scope.definition true name = .ok definition)
      (h : resolveIn (scope.expand name) definition = .ok t), P (scope.expand name) definition t h →
        P scope (.ref name) t ((resolveIn_ref_of_definition hd).trans h))
    (defs : ∀ {scope definitions body t} (h : resolveIn (scope.enter definitions) body = .ok t),
      P (scope.enter definitions) body t h → P scope (.defs definitions body) t ((resolveIn_defs _ _ _).trans h))
    (composed : ∀ {scope s ts} (hs : isComposed s = true) (h : List.Forall₂ (fun u r => ∃ h, P scope u r h) s.parts ts),
      P scope s (s.withParts ts) ((resolveIn_composed_ok_iff hs).2 ⟨ts, h.imp fun _ _ hr => hr.1, rfl⟩))
    {scope : Scope} {s t : Schema} (h : resolveIn scope s = .ok t) : P scope s t h := by
  obtain ⟨bound, hbound⟩ : ∃ bound, scope.room (definedNames s) ≤ bound := ⟨_, Nat.le_refl _⟩
  induction bound using Nat.strongRecOn generalizing scope s t with
  | ind bound ihb =>
    induction s using kindInduction generalizing scope t with
    | ref name =>
      by_cases ho : scope.dictionaries = []
      · cases (resolveIn_ref_outside ho name).symm.trans h
        exact outside name ho
      · cases hd : scope.definition true name with
        | error e =>
          rw [resolveIn_ref ho, hd] at h
          cases h
        | ok d =>
          have hres : resolveIn (scope.expand name) d = .ok t := (resolveIn_ref_of_definition hd).symm.trans h
          have hlt : (scope.expand name).room (definedNames d) < bound :=
            Nat.lt_of_lt_of_le (room_of_definition hd) hbound
          exact ref hd hres (ihb _ hlt hres (Nat.le_refl _))
    | defs definitions body _ ih =>
      have hres : resolveIn (scope.enter definitions) body = .ok t := (resolveIn_defs _ _ _).symm.trans h
      exact defs hres (ih hres (Nat.le_trans (scope.room_enter definitions body) hbound))
    | composed s hs ih =>
      obtain ⟨ts, hts, rfl⟩ := (resolveIn_composed_ok_iff hs).1 h
      refine composed hs (forall₂_of_forall_mem (fun u hu r hr => ⟨hr, ih u hu hr ?_⟩) hts)
      exact Nat.le_trans (room_of_mem_parts scope hu) hbound

end LintInference.Schema
