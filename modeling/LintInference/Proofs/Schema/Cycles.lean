import LintInference.Proofs.Schema.Calls
import Mathlib.Data.Finite.Prod
import Mathlib.Data.Fintype.Pi
import Mathlib.Data.Set.Finite.Lattice
import Mathlib.Order.Monotone.Basic
import Mathlib.Order.Preorder.Finite

/-!
# Reported cycles

The resolver refuses a name that it meets while the name is being expanded. It compares names, and a dictionary inside a
definition may declare the name of that definition anew. Then the name stands for something else inside, and expanding it
may well come to an end.

Without the check, a resolution is endless exactly if some call returns: a later call is about the same schema and finds
all that the earlier one finds (`Call.Returns`). One direction replays the way between the two from the second one; the
other is that only finitely many schemas and definitions occur. An endless resolution is always reported
(`cyclicReference_of_unending`). What is reported is endless if no name has two definitions, and in general if the
definitions found at the first of both references are found at the second (`unending_of_cyclicReference`).
-/

namespace LintInference.Schema

/-- Without the check, no bound on the expansions inside one another is large enough. -/
def Unending (s : Schema) : Prop := ∀ bound, resolveWithin false bound {} s = none

theorem unending_iff {s : Schema} : Unending s ↔ ¬ Call.Ends false (.root s) := by
  constructor
  · rintro h ⟨bound, r, hr⟩
    cases (h bound).symm.trans hr
  · intro h bound
    match hr : resolveWithin false bound {} s with
    | none => rfl
    | some r => exact absurd ⟨bound, r, hr⟩ h

/-- An endless resolution is always reported as a cycle. -/
theorem cyclicReference_of_unending {s : Schema} (h : Unending s) :
    ∃ name, resolve s = .error (.cyclicReference name) := by
  obtain ⟨bound, hbound⟩ : ∃ bound, resolveWithin true bound {} s = some (resolve s) :=
    ⟨_, resolveWithin_eq_some (Nat.le_refl _)⟩
  have hother : ¬ ∀ e, resolve s = .error e → Unresolved e := by
    intro hkind
    have hsame : resolveWithin false bound {} s = some (resolve s) :=
      Simulation.unchecked.resolveWithin_carries (Nat.le_refl _) s rfl _ hbound hkind
    cases (h bound).symm.trans hsame
  obtain ⟨e, he, hkind⟩ : ∃ e, resolve s = .error e ∧ ¬ Unresolved e := by
    simpa using hother
  obtain ⟨c, name, _, _, hd⟩ := Call.exists_reaches_of_error (c := .root s) he
  rcases definition_eq_error_iff.1 hd with ⟨_, _, rfl⟩ | ⟨_, _, rfl⟩
  · exact ⟨name, he⟩
  · exact absurd ⟨name, rfl⟩ hkind

/-! ## Scopes that find as much -/

/-- What is found in the first scope is found in the second. -/
structure Scope.Extends (a b : Scope) : Prop where
  outside : a.dictionaries = [] ↔ b.dictionaries = []
  lookup : ∀ name definition, a.lookup name = some definition → b.lookup name = some definition

theorem Scope.Extends.enter {a b : Scope} (h : a.Extends b) (definitions : List (String × Schema)) :
    (a.enter definitions).Extends (b.enter definitions) where
  outside := iff_of_false (List.cons_ne_nil _ _) (List.cons_ne_nil _ _)
  lookup name definition hl := by
    rw [Scope.lookup, Scope.enter, Scope.find?, Option.or_eq_some_iff] at hl ⊢
    rcases hl with hl | ⟨hn, hl⟩
    · exact .inl hl
    · exact .inr ⟨hn, h.lookup name definition hl⟩

theorem Scope.Extends.expand {a b : Scope} (h : a.Extends b) (name : String) :
    (a.expand name).Extends (b.expand name) :=
  ⟨h.outside, h.lookup⟩

/-- Without the check, what comes of a schema comes of it wherever as much is found. -/
theorem Simulation.extending : Simulation (fun _ => False) false false Scope.Extends where
  enter definitions h := h.enter definitions
  expand name h := h.expand name
  outside h := h.outside
  definition := by
    rintro a b name (e | d) h hd hkind
    · exact (hkind e rfl).elim
    · have hl : a.lookup name = some d := (definition_eq_ok_iff.1 hd).2
      exact definition_eq_ok_iff.2 ⟨by simp, h.lookup name d hl⟩

namespace Call

/-! ## Calls that return -/

/-- The second call is about the schema of the first, and finds all that the first finds. -/
structure Returns (c d : Call) : Prop where
  schema : d.schema = c.schema
  scope : c.scope.Extends d.scope

/-- A step can be made again from where its call returns. -/
theorem Returns.step {c c' d : Call} (h : Returns c d) (hs : Step false c c') :
    ∃ d', Step false d d' ∧ Returns c' d' := by
  obtain ⟨scope, s⟩ := d
  obtain ⟨hschema, hscope⟩ := h
  cases hs with
  | part hp hb =>
    cases hschema
    refine ⟨⟨scope, _⟩, .part hp fun u hu => ?_, rfl, hscope⟩
    obtain ⟨bound, t, ht⟩ := hb u hu
    exact ⟨bound, t, Simulation.extending.resolveWithin_carries (Nat.le_refl _) u hscope _ ht (by simp)⟩
  | body _ definitions body =>
    cases hschema
    exact ⟨_, .body scope definitions body, rfl, hscope.enter definitions⟩
  | definition hd =>
    cases hschema
    have hd' := Simulation.extending.definition _ _ hscope hd (by simp)
    exact ⟨_, .definition hd', rfl, hscope.expand _⟩

theorem Returns.steps {c c' d : Call} (h : Returns c d) (hs : Relation.TransGen (Step false) c c') :
    ∃ d', Relation.TransGen (Step false) d d' ∧ Returns c' d' := by
  induction hs with
  | single hs =>
    obtain ⟨d', hd', hr⟩ := h.step hs
    exact ⟨d', .single hd', hr⟩
  | tail _ hs ih =>
    obtain ⟨d', hd', hr⟩ := ih
    obtain ⟨d'', hd'', hr⟩ := hr.step hs
    exact ⟨d'', hd'.tail hd'', hr⟩

/-- A call that returns never ends: the way to where it returns can be made again from there. -/
theorem not_ends_of_returns {c d : Call} (hs : Relation.TransGen (Step false) c d) (h : Returns c d) :
    ¬ Ends false c := by
  intro hends
  have hacc : Acc (fun d c => Relation.TransGen (Step false) c d) c := by
    have hswap : (fun d c => Relation.TransGen (Step false) c d) = Relation.TransGen fun d c => Step false c d := by
      funext d c
      exact propext Relation.transGen_swap.symm
    rw [hswap]
    exact (ends_iff_acc.1 hends).transGen
  clear hends
  -- on the transitive closure, as the call that `c` returns at may be many steps away
  induction hacc generalizing d with
  | intro c _ ih =>
    obtain ⟨e, he, hr⟩ := h.steps hs
    exact ih d hs he hr

theorem ends_of_reaches {check : Bool} {c d : Call} (h : Ends check c) (hr : Reaches check c d) : Ends check d := by
  rw [ends_iff_acc] at h ⊢
  induction hr with
  | refl => exact h
  | tail _ hs ih => exact ih.inv hs

/-! ## There are finitely many calls to tell apart -/

theorem finite_contains (s : Schema) : {u | s.Contains u}.Finite := by
  have children {s : Schema} (h : ∀ u ∈ s.children, {v | u.Contains v}.Finite) : {u | s.Contains u}.Finite := by
    have hunion : {v | ∃ u ∈ s.children, u.Contains v}.Finite := by
      have hall := Set.Finite.biUnion (List.finite_toSet s.children) h
      exact hall.subset fun v ⟨u, hu, hv⟩ => Set.mem_biUnion hu hv
    refine (hunion.insert s).subset fun v hv => ?_
    rcases contains_iff.1 hv with rfl | hv
    · exact Set.mem_insert _ _
    · exact Set.mem_insert_of_mem _ hv
  induction s using kindInduction with
  | ref name => exact children fun u hu => absurd hu List.not_mem_nil
  | defs definitions body ihs ih => exact children (List.forall_mem_cons.2 ⟨ih, List.forall_mem_map.2 ihs⟩)
  | composed s hs ih => exact children (children_composed hs ▸ ih)

/-- The schema of a call, and what it finds for the names of a schema. -/
def view (s : Schema) (c : Call) : Schema × Bool × ({name // name ∈ definedNames s} → Option Schema) :=
  (c.schema, c.scope.dictionaries.isEmpty, fun name => c.scope.lookup name)

theorem finite_views (s : Schema) : {v | ∃ c, Inside s c ∧ view s c = v}.Finite := by
  have hfound : (insert none (some '' {u | s.Contains u})).Finite := ((finite_contains s).image some).insert none
  have hlookups := Set.Finite.pi fun _ : {name // name ∈ definedNames s} => hfound
  refine (Set.Finite.prod (finite_contains s) (Set.Finite.prod Set.finite_univ hlookups)).subset ?_
  rintro _ ⟨c, hc, rfl⟩
  refine ⟨hc.schema, trivial, fun name _ => ?_⟩
  cases hl : c.scope.lookup name with
  | none => simp [view, hl]
  | some definition =>
    have hmem : s.Contains definition := (hc.of_lookup hl).2
    simp [view, hl, hmem]

theorem returns_of_view_eq {s : Schema} {c d : Call} (hc : Inside s c) (h : view s c = view s d) : Returns c d := by
  obtain ⟨hschema, hempty, hlookup⟩ : c.schema = d.schema ∧
      c.scope.dictionaries.isEmpty = d.scope.dictionaries.isEmpty ∧ _ = _ := by
    simpa only [view, Prod.mk.injEq] using h
  refine ⟨hschema.symm, ?_, fun name definition hl => ?_⟩
  · rw [← List.isEmpty_iff, ← List.isEmpty_iff, hempty]
  · have hname : name ∈ definedNames s := (hc.of_lookup hl).1
    exact (congrFun hlookup ⟨name, hname⟩).symm.trans hl

/-- In an endless resolution a call returns. -/
theorem exists_returns_of_not_ends {s : Schema} (h : ¬ Ends false (root s)) :
    ∃ c d, Reaches false (root s) c ∧ Relation.TransGen (Step false) c d ∧ Returns c d := by
  rw [ends_iff_acc, not_acc_iff_exists_descending_chain] at h
  obtain ⟨calls, hroot, hstep⟩ := h
  have hreach (i : Nat) : Reaches false (root s) (calls i) := by
    induction i with
    | zero => exact hroot ▸ .refl
    | succ i ih => exact ih.tail (hstep i)
  have hinside (i : Nat) : Inside s (calls i) := (inside_root s).of_reaches (hreach i)
  have hviews (i : Nat) : view s (calls i) ∈ {v | ∃ c, Inside s c ∧ view s c = v} := ⟨calls i, hinside i, rfl⟩
  -- the views are finitely many, so two of the endless way's calls have the same one
  obtain ⟨i, j, hlt, hview⟩ := (finite_views s).exists_lt_map_eq_of_forall_mem hviews
  have hway : Relation.TransGen (Step false) (calls i) (calls j) :=
    Nat.rel_of_forall_rel_succ_of_lt _ (fun i => .single (hstep i)) hlt
  exact ⟨calls i, calls j, hreach i, hway, returns_of_view_eq (hinside i) hview⟩

/-! ## The names being expanded -/

theorem Step.unchecked {c d : Call} (h : Step true c d) : Step false c d := by
  cases h with
  | part hp hb =>
    refine .part hp fun u hu => ?_
    obtain ⟨bound, t, ht⟩ := hb u hu
    exact ⟨bound, t, Simulation.unchecked.resolveWithin_carries (Nat.le_refl _) u rfl _ ht (by simp)⟩
  | body scope definitions body => exact .body scope definitions body
  | definition hd => exact .definition (Simulation.unchecked.definition _ _ rfl hd (by simp))

/-- For each name being expanded, the way has come past a reference to it. -/
theorem exists_first_of_mem_expanding {s : Schema} {c : Call} {check : Bool} {name : String}
    (hr : Reaches check (root s) c) (hn : name ∈ c.scope.expanding) :
    ∃ first, Reaches check (root s) first ∧ first.schema = .ref name ∧ Relation.TransGen (Step check) first c := by
  induction hr with
  | refl => cases hn
  | @tail c d hr hs ih =>
    have before (h : name ∈ c.scope.expanding) :
        ∃ first, Reaches check (root s) first ∧ first.schema = .ref name ∧ Relation.TransGen (Step check) first d := by
      obtain ⟨first, hfirst, hname, hway⟩ := ih h
      exact ⟨first, hfirst, hname, hway.tail hs⟩
    cases hs with
    | part _ _ => exact before hn
    | body _ _ _ => exact before hn
    | definition hd =>
      rcases List.mem_cons.1 hn with rfl | hn
      · exact ⟨_, hr, rfl, .single (.definition hd)⟩
      · exact before hn

/-- On a way, dictionaries only come to stand in front of others. -/
theorem suffix_of_step {check : Bool} {c d : Call} (h : Step check c d) :
    c.scope.dictionaries <:+ d.scope.dictionaries := by
  cases h with
  | part _ _ => exact List.suffix_refl _
  | body _ _ _ => exact List.suffix_cons _ _
  | definition _ => exact List.suffix_refl _

theorem suffix_of_steps {check : Bool} {c d : Call} (h : Relation.TransGen (Step check) c d) :
    c.scope.dictionaries <:+ d.scope.dictionaries := by
  induction h with
  | single hs => exact suffix_of_step hs
  | tail _ hs ih => exact ih.trans (suffix_of_step hs)

/-- A reference that is expanded stands under a dictionary. -/
theorem ne_nil_of_steps {check : Bool} {c d : Call} {name : String} (hname : c.schema = .ref name)
    (h : Relation.TransGen (Step check) c d) : c.scope.dictionaries ≠ [] := by
  obtain ⟨scope, schema⟩ := c
  cases hname
  obtain ⟨next, hstep, _⟩ := Relation.TransGen.head'_iff.1 h
  obtain ⟨_, hd, _⟩ := ref_of_step hstep
  exact ne_nil_of_definition hd

end Call

/-! ## Schemas that define each name once -/

/-- No two dictionaries of the schema have different definitions for a name. -/
def Unambiguous (s : Schema) : Prop :=
  ∀ ds body ds' body', s.Contains (.defs ds body) → s.Contains (.defs ds' body') → ∀ name definition definition',
    Entries.get? ds name = some definition → Entries.get? ds' name = some definition' → definition = definition'

theorem exists_find?_of_mem {ds : List (List (String × Schema))} {d : List (String × Schema)} (hd : d ∈ ds)
    {name : String} {definition : Schema} (h : Entries.get? d name = some definition) :
    ∃ definition', Scope.find? ds name = some definition' := by
  induction ds with
  | nil => cases hd
  | cons e ds ih =>
    rw [Scope.find?]
    rcases List.mem_cons.1 hd with rfl | hd
    · exact ⟨definition, by rw [h, Option.some_or]⟩
    · obtain ⟨definition', hf⟩ := ih hd
      cases he : Entries.get? e name with
      | none => exact ⟨definition', by rw [Option.none_or, hf]⟩
      | some d => exact ⟨d, Option.some_or⟩

/-- If each name has one definition, nothing that was found is lost on a way. -/
theorem Unambiguous.extends_of_steps {s : Schema} (hs : Unambiguous s) {check : Bool} {c d : Call}
    (hc : Call.Inside s c) (hd : Call.Inside s d) (hne : c.scope.dictionaries ≠ [])
    (hway : Relation.TransGen (Call.Step check) c d) : c.scope.Extends d.scope where
  outside := by
    refine iff_of_false hne fun hnil => hne ?_
    exact List.eq_nil_of_suffix_nil (hnil ▸ Call.suffix_of_steps hway)
  lookup name definition hl := by
    obtain ⟨ds, hmem, hget⟩ := Call.exists_mem_of_find? hl
    obtain ⟨definition', hl'⟩ := exists_find?_of_mem ((Call.suffix_of_steps hway).subset hmem) hget
    obtain ⟨ds', hmem', hget'⟩ := Call.exists_mem_of_find? hl'
    obtain ⟨body, hcontains⟩ := hc.dictionaries ds hmem
    obtain ⟨body', hcontains'⟩ := hd.dictionaries ds' hmem'
    cases hs ds body ds' body' hcontains hcontains' name definition definition' hget hget'
    exact hl'

/-- A dictionary that holds no others is unambiguous. -/
theorem unambiguous_defs {definitions : List (String × Schema)} {body : Schema} (hbody : body.DefsFree)
    (hdefs : ∀ e ∈ definitions, e.2.DefsFree) : Unambiguous (.defs definitions body) := by
  have only {ds : List (String × Schema)} {b : Schema} (h : (Schema.defs definitions body).Contains (.defs ds b)) :
      ds = definitions := by
    rcases contains_iff.1 h with heq | ⟨u, hu, hc⟩
    · cases heq
      rfl
    · rcases List.mem_cons.1 hu with rfl | hu
      · exact absurd hc (hbody ds b)
      · obtain ⟨e, he, rfl⟩ := List.mem_map.1 hu
        exact absurd hc (hdefs e he ds b)
  intro ds b ds' b' h h' name definition definition' hget hget'
  cases only h
  cases only h'
  exact Option.some.inj (hget.symm.trans hget')

/-! ## Which reported cycles are endless -/

theorem unending_of_returns {s : Schema} {c d : Call} (hr : Call.Reaches false (.root s) c)
    (hway : Relation.TransGen (Call.Step false) c d) (h : Call.Returns c d) : Unending s := by
  rw [unending_iff]
  intro hends
  exact Call.not_ends_of_returns hway h (Call.ends_of_reaches hends hr)

/-- A reported cycle is a way from a reference to another one to the same name. -/
theorem exists_steps_of_cyclicReference {s : Schema} {name : String} (h : resolve s = .error (.cyclicReference name)) :
    ∃ first again, Call.Reaches false (.root s) first ∧ first.schema = .ref name ∧
      Relation.TransGen (Call.Step false) first again ∧ again.schema = .ref name := by
  obtain ⟨again, n, hagain, hname', hd⟩ := Call.exists_reaches_of_error (c := .root s) h
  rcases definition_eq_error_iff.1 hd with ⟨_, hn, he⟩ | ⟨_, _, he⟩
  · cases he
    obtain ⟨first, hfirst, hname, hway⟩ := Call.exists_first_of_mem_expanding hagain hn
    have hfirst' : Call.Reaches false (.root s) first :=
      Relation.ReflTransGen.mono (fun _ _ => Call.Step.unchecked) _ _ hfirst
    have hway' : Relation.TransGen (Call.Step false) first again :=
      Relation.TransGen.mono (fun _ _ => Call.Step.unchecked) _ _ hway
    exact ⟨first, again, hfirst', hname, hway', hname'⟩
  · cases he

/-- If a cycle is reported, expanding the name leads to a reference to the same name again. Without the check the
resolution is then endless if all that is found at the first of the two references is found at the second, and so in each
schema that has one definition for each name. In general it is endless exactly if some call returns. -/
theorem unending_of_cyclicReference {s : Schema} {name : String} (h : resolve s = .error (.cyclicReference name)) :
    (∃ first again, Call.Reaches false (.root s) first ∧ first.schema = .ref name ∧
      Relation.TransGen (Call.Step false) first again ∧ again.schema = .ref name ∧
      (first.scope.Extends again.scope → Unending s)) ∧
    (Unambiguous s → Unending s) ∧
    (Unending s ↔
      ∃ c d, Call.Reaches false (.root s) c ∧ Relation.TransGen (Call.Step false) c d ∧ Call.Returns c d) := by
  obtain ⟨first, again, hfirst, hname, hway, hname'⟩ := exists_steps_of_cyclicReference h
  have hextends : first.scope.Extends again.scope → Unending s :=
    fun he => unending_of_returns hfirst hway ⟨hname'.trans hname.symm, he⟩
  refine ⟨⟨first, again, hfirst, hname, hway, hname', hextends⟩, fun hs => hextends ?_, fun hu => ?_, ?_⟩
  · have hinside {c : Call} (hr : Call.Reaches false (.root s) c) : Call.Inside s c :=
      (Call.inside_root s).of_reaches hr
    have hagain : Call.Reaches false (.root s) again := hfirst.trans hway.to_reflTransGen
    exact hs.extends_of_steps (hinside hfirst) (hinside hagain) (Call.ne_nil_of_steps hname hway) hway
  · exact Call.exists_returns_of_not_ends (unending_iff.1 hu)
  · rintro ⟨c, d, hr, hway, hret⟩
    exact unending_of_returns hr hway hret

/-- A definition that refers to itself in a union. -/
theorem unending_of_cyclicReference_loop :
    let s : Schema := .defs [("loop", .anyOf [.ref "loop"])] (.ref "loop")
    resolve s = .error (.cyclicReference "loop") ∧ Unending s := by
  intro s
  have h : resolve s = .error (.cyclicReference "loop") := by cbv
  have hone : Unambiguous s := by
    refine unambiguous_defs (hasDefs_eq_false_iff.1 rfl) ?_
    simp only [List.forall_mem_singleton, ← hasDefs_eq_false_iff]
    rfl
  exact ⟨h, (unending_of_cyclicReference h).2.1 hone⟩

/-- A definition with a dictionary that declares its name anew. The resolver reports a cycle, but without the check two
expansions lead to the literal. -/
theorem cyclicReference_of_redeclared :
    ∃ s, ofJson (.object [("defs", .object [("a", .object [("defs", .object [("a", .object
        [("enum", .array [.string "x"])])]), ("$ref", .string "#/defs/a")])]), ("$ref", .string "#/defs/a")]) = s ∧
      resolve s = .error (.cyclicReference "a") ∧
      resolveWithin false 2 {} s = some (.ok (.enumeration [.string "x"])) ∧ ¬ Unending s := by
  have hread : ofJson (.object [("defs", .object [("a", .object [("defs", .object [("a", .object
        [("enum", .array [.string "x"])])]), ("$ref", .string "#/defs/a")])]), ("$ref", .string "#/defs/a")]) =
      .defs [("a", .defs [("a", .enumeration [.string "x"])] (.ref "a"))] (.ref "a") := by
    simp [ofJson, ofJsonEntries, partsOf, ofNode, ofParts, refOf?, refName, refPrefix, allowsOthers, Entries.get?,
      Json.asString?, Json.asArray?]
  have hcycle : resolve (.defs [("a", .defs [("a", .enumeration [.string "x"])] (.ref "a"))] (.ref "a")) =
      .error (.cyclicReference "a") := by cbv
  have hends : resolveWithin false 2 {} (.defs [("a", .defs [("a", .enumeration [.string "x"])] (.ref "a"))] (.ref "a")) =
      some (.ok (.enumeration [.string "x"])) := by cbv
  exact ⟨_, hread, hcycle, hends, fun h => by cases (h 2).symm.trans hends⟩

end LintInference.Schema
