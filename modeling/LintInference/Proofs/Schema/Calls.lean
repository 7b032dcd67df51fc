import LintInference.Proofs.Entries
import LintInference.Proofs.Schema.Expansion
import Mathlib.Data.Finset.Card
import Mathlib.Order.WellFounded

/-!
# The calls of a resolution

A `Call` is a schema with the scope in which resolution comes to it, and `Call.Step` leads from a call to those made in
the course of it. A call comes to an end with some bound exactly if no endless way of calls starts from it
(`ends_iff_acc`).

With the check every call ends. The names being expanded are different and defined in the schema, so there are never more
of them than the schema defines, and between two expansions the way goes down into parts of the schema (`resolve_ends`).
-/

namespace LintInference.Schema

/-! ## From call to call -/

/-- A schema, with the scope in which resolution comes to it. -/
structure Call where
  scope : Scope
  schema : Schema

namespace Call

/-- The call for a whole schema. -/
def root (s : Schema) : Call := ⟨{}, s⟩

/-- From a call to those made in the course of it. The parts of a schema are resolved in order, so the call for a part is
made once those before it have been resolved. -/
inductive Step (check : Bool) : Call → Call → Prop where
  | part {scope : Scope} {p s : Schema} {before after : List Schema} : p.parts = before ++ s :: after →
      (∀ u ∈ before, ∃ bound t, resolveWithin check bound scope u = some (.ok t)) → Step check ⟨scope, p⟩ ⟨scope, s⟩
  | body (scope : Scope) (definitions : List (String × Schema)) (body : Schema) :
      Step check ⟨scope, .defs definitions body⟩ ⟨scope.enter definitions, body⟩
  | definition {scope : Scope} {name : String} {definition : Schema} : scope.definition check name = .ok definition →
      Step check ⟨scope, .ref name⟩ ⟨scope.expand name, definition⟩

/-- One call is made in the course of the other, or is that call. -/
def Reaches (check : Bool) : Call → Call → Prop := Relation.ReflTransGen (Step check)

/-- With some bound on the expansions inside one another, the call comes to an end. -/
def Ends (check : Bool) (c : Call) : Prop := ∃ bound r, resolveWithin check bound c.scope c.schema = some r

variable {check : Bool} {scope : Scope}

theorem ref_of_step {name : String} {c : Call} (h : Step check ⟨scope, .ref name⟩ c) :
    ∃ definition, scope.definition check name = .ok definition ∧ c = ⟨scope.expand name, definition⟩ := by
  cases h with
  | part hp _ => simp [parts] at hp
  | definition h => exact ⟨_, h, rfl⟩

theorem defs_of_step {definitions : List (String × Schema)} {body : Schema} {c : Call}
    (h : Step check ⟨scope, .defs definitions body⟩ c) : c = ⟨scope.enter definitions, body⟩ := by
  cases h with
  | part hp _ => simp [parts] at hp
  | body => rfl

theorem composed_of_step {s : Schema} (hs : isComposed s = true) {c : Call} (h : Step check ⟨scope, s⟩ c) :
    ∃ u before after, c = ⟨scope, u⟩ ∧ s.parts = before ++ u :: after ∧
      ∀ v ∈ before, ∃ bound t, resolveWithin check bound scope v = some (.ok t) := by
  cases h with
  | part hp hb => exact ⟨_, _, _, rfl, hp, hb⟩
  | body | definition _ => cases hs

/-! ## Calls that come to an end -/

theorem exists_walk_of_walkList {f : Scope → String → Bounded Schema} {before after : List Schema} {s : Schema}
    {q : Except Failure (List Schema)} (h : walkList f scope (before ++ s :: after) = some q)
    (hb : ∀ u ∈ before, ∀ e, walk f scope u ≠ some (.error e)) : ∃ r, walk f scope s = some r := by
  induction before generalizing q with
  | nil =>
    rw [List.nil_append, walkList, Bounded.bind_eq_some_iff] at h
    rcases h with ⟨e, he, _⟩ | ⟨t, ht, _⟩
    · exact ⟨_, he⟩
    · exact ⟨_, ht⟩
  | cons u before ih =>
    obtain ⟨hu, hb⟩ := List.forall_mem_cons.1 hb
    rw [List.cons_append, walkList, Bounded.bind_eq_some_iff] at h
    rcases h with ⟨e, he, _⟩ | ⟨t, _, h⟩
    · exact absurd he (hu e)
    · rcases Bounded.bind_eq_some_iff.1 h with ⟨e, he, _⟩ | ⟨ts, hts, _⟩
      · exact ih he hb
      · exact ih hts hb

/-- What a call that ends is made of ends too, and with fewer expansions for definitions. -/
theorem acc_of_resolveWithin (bound : Nat) (s : Schema) {r : Except Failure Schema}
    (h : resolveWithin check bound scope s = some r) : Acc (fun d c => Step check c d) ⟨scope, s⟩ := by
  induction bound using Nat.strongRecOn generalizing s scope r with
  | ind bound ihb =>
    induction s using kindInduction generalizing scope r with
    | ref name =>
      refine .intro _ fun c hc => ?_
      obtain ⟨d, hd, rfl⟩ := ref_of_step hc
      have hne : scope.dictionaries ≠ [] := ne_nil_of_definition hd
      rw [resolveWithin, walk, if_neg (by simpa using hne)] at h
      cases bound with
      | zero =>
        rw [expandWithin_zero hd] at h
        cases h
      | succ bound =>
        rw [expandWithin_succ hd] at h
        exact ihb bound (Nat.lt_succ_self bound) d h
    | defs definitions body _ ih =>
      refine .intro _ fun c hc => ?_
      rw [defs_of_step hc]
      rw [resolveWithin, walk] at h
      exact ih h
    | composed s hs ih =>
      refine .intro _ fun c hc => ?_
      obtain ⟨u, before, after, rfl, hp, hb⟩ := composed_of_step hs hc
      have hu : u ∈ s.parts := by simp [hp]
      rw [resolveWithin, walk_composed hs, map_eq_pure_bind, hp] at h
      have hlist : ∃ q, walkList (expandWithin check bound) scope (before ++ u :: after) = some q := by
        rcases Bounded.bind_eq_some_iff.1 h with ⟨e, he, _⟩ | ⟨ts, hts, _⟩
        · exact ⟨_, he⟩
        · exact ⟨_, hts⟩
      obtain ⟨q, hq⟩ := hlist
      obtain ⟨r', hr'⟩ := exists_walk_of_walkList hq fun v hv e he => by
        obtain ⟨n, t, ht⟩ := hb v hv
        cases resolveWithin_unique ht he
      exact ih u hu hr'

theorem exists_walkList {ss : List Schema} (before : List Schema)
    (hb : ∀ u ∈ before, ∃ bound t, resolveWithin check bound scope u = some (.ok t))
    (h : ∀ front u back, before ++ ss = front ++ u :: back →
      (∀ v ∈ front, ∃ bound t, resolveWithin check bound scope v = some (.ok t)) → Ends check ⟨scope, u⟩) :
    ∃ bound q, walkList (expandWithin check bound) scope ss = some q := by
  induction ss generalizing before with
  | nil => exact ⟨0, .ok [], rfl⟩
  | cons s ss ih =>
    obtain ⟨m, r, hr⟩ := h before s ss rfl hb
    cases r with
    | error e =>
      refine ⟨m, .error e, ?_⟩
      rw [walkList]
      exact Bounded.bind_eq_some_iff.2 (.inl ⟨e, hr, rfl⟩)
    | ok t =>
      have hb' : ∀ u ∈ before ++ [s], ∃ bound t, resolveWithin check bound scope u = some (.ok t) := by
        intro u hu
        rcases List.mem_append.1 hu with hu | hu
        · exact hb u hu
        · cases List.mem_singleton.1 hu
          exact ⟨m, t, hr⟩
      obtain ⟨n, q, hq⟩ := ih _ hb' fun front u back hf => h front u back (by simpa using hf)
      -- the larger of both bounds does for the part and for the rest
      have hr' : walk (expandWithin check (max m n)) scope s = some (.ok t) :=
        resolveWithin_mono hr (Nat.le_max_left m n)
      have hq' : walkList (expandWithin check (max m n)) scope ss = some q := walkList_mono hq (Nat.le_max_right m n)
      refine ⟨max m n, q.map (t :: ·), ?_⟩
      rw [walkList, hr', hq']
      cases q <;> rfl

theorem ends_of_steps {c : Call} (h : ∀ d, Step check c d → Ends check d) : Ends check c := by
  obtain ⟨scope, s⟩ := c
  induction s using kindInduction with
  | ref name =>
    by_cases ho : scope.dictionaries = []
    · refine ⟨0, .ok (.ref name), ?_⟩
      rw [resolveWithin, walk, if_pos (List.isEmpty_iff.2 ho)]
      rfl
    · cases hd : scope.definition check name with
      | error e =>
        refine ⟨0, .error e, ?_⟩
        rw [resolveWithin, walk, if_neg (by simpa using ho)]
        exact expandWithin_error hd
      | ok d =>
        obtain ⟨bound, r, hr⟩ := h _ (.definition hd)
        refine ⟨bound + 1, r, ?_⟩
        rw [resolveWithin, walk, if_neg (by simpa using ho), expandWithin_succ hd]
        exact hr
  | defs definitions body _ _ =>
    obtain ⟨bound, r, hr⟩ := h _ (.body scope definitions body)
    refine ⟨bound, r, ?_⟩
    rw [resolveWithin, walk]
    exact hr
  | composed s hs _ =>
    have hlist : ∃ bound q, walkList (expandWithin check bound) scope s.parts = some q :=
      exists_walkList [] (fun _ hu => absurd hu List.not_mem_nil) fun front u back hp hb => h _ (.part hp hb)
    obtain ⟨bound, q, hq⟩ := hlist
    refine ⟨bound, q.map s.withParts, ?_⟩
    rw [resolveWithin, walk_composed hs, hq]
    cases q <;> rfl

/-- A call ends exactly if no endless way of calls starts from it. -/
theorem ends_iff_acc {c : Call} : Ends check c ↔ Acc (fun d c => Step check c d) c := by
  constructor
  · rintro ⟨bound, r, h⟩
    exact acc_of_resolveWithin bound c.schema h
  · intro h
    induction h with
    | intro c _ ih => exact ends_of_steps ih

/-- With the check every call ends. -/
theorem ends_checked (c : Call) : Ends true c := ⟨_, _, resolveWithin_eq_some (Nat.le_refl _)⟩

/-- In the course of a resolution that succeeds, each call does. -/
theorem exists_ok_of_reaches {c d : Call} {t : Schema} (h : resolveIn c.scope c.schema = .ok t)
    (hr : Reaches true c d) : ∃ u, resolveIn d.scope d.schema = .ok u := by
  induction hr with
  | refl => exact ⟨t, h⟩
  | tail _ hs ih =>
    obtain ⟨u, hu⟩ := ih
    cases hs with
    | part hp _ => exact exists_ok_of_mem_parts hu (by simp [hp])
    | body scope definitions body => exact ⟨u, (resolveIn_defs scope definitions body).symm.trans hu⟩
    | definition hd => exact ⟨u, (resolveIn_ref_of_definition hd).symm.trans hu⟩

theorem exists_error_of_resolveListIn {ss : List Schema} {e : Failure} (h : resolveListIn scope ss = .error e) :
    ∃ before s after, ss = before ++ s :: after ∧ (∀ u ∈ before, ∃ t, resolveIn scope u = .ok t) ∧
      resolveIn scope s = .error e := by
  induction ss with
  | nil =>
    rw [resolveListIn] at h
    cases h
  | cons s ss ih =>
    rw [resolveListIn_cons, bind_eq_error_iff] at h
    rcases h with hs | ⟨t, hs, h⟩
    · exact ⟨[], s, ss, rfl, by simp, hs⟩
    · obtain ⟨before, u, after, rfl, hb, hu⟩ := ih (map_eq_error_iff.1 h)
      exact ⟨s :: before, u, after, rfl, List.forall_mem_cons.2 ⟨⟨t, hs⟩, hb⟩, hu⟩

/-- If a resolution fails, it comes to a reference with this failure. -/
theorem exists_reaches_of_error {c : Call} {e : Failure} (h : resolveIn c.scope c.schema = .error e) :
    ∃ d name, Reaches true c d ∧ d.schema = .ref name ∧ d.scope.definition true name = .error e := by
  have hacc : Acc (fun d c => Step true c d) c := ends_iff_acc.1 (ends_checked c)
  induction hacc with
  | intro c _ ih =>
    -- it is enough to find the reference from one of the next calls
    have next {d : Call} (hd : Step true c d) (h : resolveIn d.scope d.schema = .error e) :
        ∃ d name, Reaches true c d ∧ d.schema = .ref name ∧ d.scope.definition true name = .error e := by
      obtain ⟨d', name, hr, hname, he⟩ := ih d hd h
      exact ⟨d', name, .head hd hr, hname, he⟩
    obtain ⟨scope, s⟩ := c
    induction s using kindInduction with
    | ref name =>
      by_cases ho : scope.dictionaries = []
      · cases (resolveIn_ref_outside ho name).symm.trans h
      · rw [resolveIn_ref ho] at h
        cases hd : scope.definition true name with
        | error e' =>
          rw [hd] at h
          cases h
          exact ⟨_, name, .refl, rfl, hd⟩
        | ok d =>
          rw [hd] at h
          exact next (.definition hd) h
    | defs definitions body _ _ =>
      rw [resolveIn_defs] at h
      exact next (.body scope definitions body) h
    | composed s hs _ =>
      rw [resolveIn_composed hs] at h
      obtain ⟨before, u, after, hp, hb, hu⟩ := exists_error_of_resolveListIn (map_eq_error_iff.1 h)
      refine next (.part hp fun v hv => ?_) hu
      obtain ⟨t, ht⟩ := hb v hv
      exact ⟨_, t, ht ▸ resolveWithin_eq_some (Nat.le_refl _)⟩

/-! ## What calls stay inside of -/

theorem exists_mem_of_find? {ds : List (List (String × Schema))} {name : String} {definition : Schema}
    (h : Scope.find? ds name = some definition) : ∃ d ∈ ds, Entries.get? d name = some definition := by
  induction ds with
  | nil => cases h
  | cons d ds ih =>
    rw [Scope.find?, Option.or_eq_some_iff] at h
    rcases h with h | ⟨_, h⟩
    · exact ⟨d, List.mem_cons_self, h⟩
    · obtain ⟨d', hd', h⟩ := ih h
      exact ⟨d', List.mem_cons_of_mem _ hd', h⟩

/-- The call is about what stands in the schema. -/
structure Inside (s : Schema) (c : Call) : Prop where
  schema : s.Contains c.schema
  dictionaries : ∀ d ∈ c.scope.dictionaries, ∃ body, s.Contains (.defs d body)
  expanding : ∀ name ∈ c.scope.expanding, name ∈ definedNames s

theorem inside_root (s : Schema) : Inside s (root s) where
  schema := .refl
  dictionaries := by simp [root]
  expanding := by simp [root]

/-- What such a call looks up is a definition of the schema. -/
theorem Inside.of_lookup {s : Schema} {c : Call} (h : Inside s c) {name : String} {definition : Schema}
    (hl : c.scope.lookup name = some definition) : name ∈ definedNames s ∧ s.Contains definition := by
  obtain ⟨d, hmem, hget⟩ := exists_mem_of_find? hl
  obtain ⟨body, hc⟩ := h.dictionaries d hmem
  have hentry : (name, definition) ∈ d := Entries.mem_of_get? hget
  have hdef : definition ∈ d.map (·.2) := List.mem_map_of_mem hentry
  refine ⟨mem_definedNames_iff.2 ⟨d, body, hc, Entries.mem_keys_of_mem hentry⟩, ?_⟩
  exact hc.tail (List.mem_cons_of_mem _ hdef)

theorem Inside.step {s : Schema} {c d : Call} (h : Inside s c) (hs : Step check c d) : Inside s d := by
  cases hs with
  | @part scope p u before after hp _ =>
    have hu : u ∈ p.parts := by simp [hp]
    exact ⟨h.schema.tail (mem_children_of_mem_parts hu), h.dictionaries, h.expanding⟩
  | body scope definitions body =>
    refine ⟨h.schema.tail List.mem_cons_self, ?_, h.expanding⟩
    exact List.forall_mem_cons.2 ⟨⟨body, h.schema⟩, h.dictionaries⟩
  | @definition scope name definition hd =>
    obtain ⟨hname, hdef⟩ := h.of_lookup (definition_eq_ok_iff.1 hd).2
    exact ⟨hdef, h.dictionaries, List.forall_mem_cons.2 ⟨hname, h.expanding⟩⟩

theorem Inside.of_reaches {s : Schema} {c d : Call} (h : Inside s c) (hr : Reaches check c d) : Inside s d := by
  induction hr with
  | refl => exact h
  | tail _ hs ih => exact ih.step hs

/-- With the check, no name is expanded inside its own expansion. -/
theorem nodup_of_step {c d : Call} (h : c.scope.expanding.Nodup) (hs : Step true c d) : d.scope.expanding.Nodup := by
  cases hs with
  | part _ _ => exact h
  | body _ _ _ => exact h
  | definition hd => exact List.nodup_cons.2 ⟨fun hmem => (definition_eq_ok_iff.1 hd).1 ⟨rfl, hmem⟩, h⟩

theorem nodup_of_reaches {c d : Call} (h : c.scope.expanding.Nodup) (hr : Reaches true c d) :
    d.scope.expanding.Nodup := by
  induction hr with
  | refl => exact h
  | tail _ hs ih => exact nodup_of_step ih hs

/-- A call leads to the expansion of a reference, or down into the schema. -/
theorem step_cases {c d : Call} (h : Step check c d) :
    (∃ name, c.schema = .ref name ∧ c.scope.lookup name = some d.schema ∧ d.scope = c.scope.expand name) ∨
      (d.scope.expanding = c.scope.expanding ∧ d.schema ∈ c.schema.children) := by
  cases h with
  | @part scope p u before after hp _ =>
    have hu : u ∈ p.parts := by simp [hp]
    exact .inr ⟨rfl, mem_children_of_mem_parts hu⟩
  | body scope definitions body => exact .inr ⟨rfl, List.mem_cons_self⟩
  | @definition scope name definition hd => exact .inl ⟨name, rfl, (definition_eq_ok_iff.1 hd).2, rfl⟩

end Call

/-! ## The end of every resolution -/

/-- Counting the names that are not seen is counting a set. -/
theorem unseen_eq_card (names seen : List String) : unseen names seen = (names.toFinset \ seen.toFinset).card := by
  induction names generalizing seen with
  | nil => simp [unseen]
  | cons n names ih =>
    rw [unseen, List.toFinset_cons]
    split
    next hn =>
      rw [ih, Finset.insert_sdiff_of_mem _ (List.mem_toFinset.2 hn)]
    next hn =>
      have hn' : n ∉ seen.toFinset := fun h => hn (List.mem_toFinset.1 h)
      have hcard := Finset.card_erase_add_one (Finset.mem_insert_self n (names.toFinset \ seen.toFinset))
      rw [Finset.erase_insert_eq_erase] at hcard
      rw [ih, Finset.insert_sdiff_of_notMem _ hn', List.toFinset_cons, Finset.sdiff_insert]
      omega

/-- Every resolution ends. As many expansions inside one another as the schema defines names are enough, and no way of
calls goes on for ever. On every way the names being expanded are different and keys of dictionaries of the schema, so
there are no more of them than the schema defines; and a call that is not the expansion of a reference is about a schema
right below that of the call before, which stands in the schema. -/
theorem resolve_ends (s : Schema) :
    (∀ bound, (definedNames s).toFinset.card ≤ bound → resolveWithin true bound {} s = some (resolve s)) ∧
      (¬ ∃ calls : Nat → Call, calls 0 = .root s ∧ ∀ i, Call.Step true (calls i) (calls (i + 1))) ∧
      ∀ c, Call.Reaches true (.root s) c →
        c.scope.expanding.Nodup ∧
        (∀ name ∈ c.scope.expanding, ∃ definitions body,
          s.Contains (.defs definitions body) ∧ name ∈ Entries.keys definitions) ∧
        c.scope.expanding.length ≤ (definedNames s).toFinset.card ∧
        s.Contains c.schema ∧
        ∀ d, Call.Step true c d →
          (∃ name, c.schema = .ref name ∧ c.scope.lookup name = some d.schema ∧ d.scope = c.scope.expand name) ∨
            (d.scope.expanding = c.scope.expanding ∧ d.schema ∈ c.schema.children) := by
  have hbound : ∀ bound, (definedNames s).toFinset.card ≤ bound → resolveWithin true bound {} s = some (resolve s) := by
    intro bound h
    refine resolveWithin_eq_some (Nat.le_trans (Nat.le_of_eq ?_) h)
    simp [Scope.room, Scope.namesOf, unseen_eq_card]
  refine ⟨hbound, ?_, fun c hc => ?_⟩
  · have hends : Call.Ends true (.root s) := ⟨_, _, hbound _ (Nat.le_refl _)⟩
    exact fun hendless => not_acc_iff_exists_descending_chain.2 hendless (Call.ends_iff_acc.1 hends)
  · have hinside : Call.Inside s c := (Call.inside_root s).of_reaches hc
    have hnodup : c.scope.expanding.Nodup := Call.nodup_of_reaches List.nodup_nil hc
    have hsub : c.scope.expanding.toFinset ⊆ (definedNames s).toFinset := by
      intro name h
      exact List.mem_toFinset.2 (hinside.expanding name (List.mem_toFinset.1 h))
    have hlength : c.scope.expanding.length ≤ (definedNames s).toFinset.card := by
      rw [← List.toFinset_card_of_nodup hnodup]
      exact Finset.card_le_card hsub
    have hkeys : ∀ name ∈ c.scope.expanding, ∃ definitions body,
        s.Contains (.defs definitions body) ∧ name ∈ Entries.keys definitions :=
      fun name h => mem_definedNames_iff.1 (hinside.expanding name h)
    exact ⟨hnodup, hkeys, hlength, hinside.schema, fun d hd => Call.step_cases hd⟩

/-- Two definitions that refer to each other. -/
theorem resolve_ends_mutual :
    let s : Schema := .defs [("a", .anyOf [.ref "b"]), ("b", .ref "a")] (.ref "a")
    resolveWithin true 2 {} s = some (.error (.cyclicReference "a")) ∧
      ∀ c, Call.Reaches true (.root s) c → c.scope.expanding.length ≤ 2 := by
  intro s
  have h : resolve s = .error (.cyclicReference "a") := by cbv
  have hcard : (definedNames s).toFinset.card = 2 := by decide
  obtain ⟨hbound, _, hcalls⟩ := resolve_ends s
  rw [hcard] at hcalls
  refine ⟨h ▸ hbound 2 (Nat.le_of_eq hcard), fun c hc => ?_⟩
  obtain ⟨_, _, hlength, _⟩ := hcalls c hc
  exact hlength

end LintInference.Schema
