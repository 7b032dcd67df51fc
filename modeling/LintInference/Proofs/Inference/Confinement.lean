import LintInference.Proofs.Inference.Leftovers

/-!
# What an operation may change

Probes and tries write to the options of one session, and each of their questions may be the last. Nothing is assumed of
the linter here. `Engine.Confined` says how the grammar may differ from the one a run started with, at its end and at
each of its questions, whatever the answers. A probe sets its own feature, the search for a dialect sets the dialect,
and a try leaves the grammar alone (`Operation.perform_confined`). In a sequence of operations all other flags keep their
values, and no flag loses its place (`Operation.performAll_confined`).
-/

namespace LintInference

variable {σ α β : Type} {linter : Linter σ} {text rule : String}

/-! ## Flags that are kept -/

namespace Grammar

/-- All flags but those of the features have the same values, and the flags of the first grammar come first in the
second, in the same order. -/
structure SameBut (features : List Feature) (g g' : Grammar) : Prop where
  kept : ∀ flag, (∀ f ∈ features, flag ≠ f.flag) → Entries.get? g'.features flag = Entries.get? g.features flag
  order : Entries.keys g.features <+: Entries.keys g'.features

namespace SameBut

variable {features : List Feature} {g g' g'' : Grammar}

/-- The dialect does not count. -/
theorem of_features_eq (h : g'.features = g.features) : SameBut features g g' :=
  ⟨fun _ _ => by rw [h], h ▸ List.prefix_rfl⟩

theorem weaken {features' : List Feature} (h : SameBut features g g') (hf : features ⊆ features') :
    SameBut features' g g' :=
  ⟨fun flag hflag => h.kept flag fun f hmem => hflag f (hf hmem), h.order⟩

theorem trans (h : SameBut features g g') (h' : SameBut features g' g'') : SameBut features g g'' :=
  ⟨fun flag hf => (h'.kept flag hf).trans (h.kept flag hf), h.order.trans h'.order⟩

theorem setFeature {f : Feature} (hf : f ∈ features) (g : Grammar) (on : Bool) :
    SameBut features g (g.setFeature f on) := by
  refine ⟨fun flag h => Entries.get?_put_of_ne _ on (h f hf), ?_⟩
  by_cases hk : f.flag ∈ Entries.keys g.features
  · have hkeys : Entries.keys (g.setFeature f on).features = Entries.keys g.features :=
      Entries.keys_put_of_mem _ on hk
    simp only [hkeys, List.prefix_rfl]
  · rw [Grammar.setFeature, Entries.keys_put_of_not_mem _ on hk]
    exact List.prefix_append _ _

end SameBut

end Grammar

/-! ## Runs that are confined -/

/-- The grammar of the second session, and those that questions were asked under on the way to it, are related to the
grammar of the first. No question had more than one rule active. -/
structure Session.Within (R : Grammar → Grammar → Prop) (s t : Session σ) : Prop where
  grammar : R s.options.grammar t.options.grammar
  asked : ∃ es, t.events = s.events ++ es ∧
    ∀ x ∈ exchanges es, R s.options.grammar x.call.options.grammar ∧ x.call.options.rules.length ≤ 1

namespace Session.Within

variable {R R' : Grammar → Grammar → Prop} {s t u : Session σ}

theorem mono (h : s.Within R t) (hR : ∀ g g', R g g' → R' g g') : s.Within R' t := by
  obtain ⟨hg, es, hes, hx⟩ := h
  exact ⟨hR _ _ hg, es, hes, fun x hmem => ⟨hR _ _ (hx x hmem).1, (hx x hmem).2⟩⟩

/-- If the relation passes on, it holds all the way. -/
theorem trans (htrans : ∀ g g' g'', R g g' → R g' g'' → R g g'') (h : s.Within R t) (h' : t.Within R u) :
    s.Within R u := by
  obtain ⟨hg, es, hes, hx⟩ := h
  obtain ⟨hg', es', hes', hx'⟩ := h'
  refine ⟨htrans _ _ _ hg hg', es ++ es', by rw [hes', hes, List.append_assoc], fun x hmem => ?_⟩
  rw [exchanges_append, List.mem_append] at hmem
  rcases hmem with hmem | hmem
  · exact hx x hmem
  · exact ⟨htrans _ _ _ hg (hx' x hmem).1, (hx' x hmem).2⟩

end Session.Within

namespace Engine

/-- From every session the run leads to one within the relation. -/
def Confined (m : Engine σ α) (R : Grammar → Grammar → Prop) : Prop :=
  ∀ s : Session σ, s.Within R (m s).2

namespace Confined

variable {R R' : Grammar → Grammar → Prop}

theorem mono {m : Engine σ α} (h : m.Confined R) (hR : ∀ g g', R g g' → R' g g') : m.Confined R' :=
  fun s => (h s).mono hR

/-- A run is confined as it is without what it does to the result. -/
theorem map {m : Engine σ α} (h : m.Confined R) (f : α → β) : (m >>= fun a => pure (f a)).Confined R := by
  intro s
  rw [bind_pure_apply]
  exact h s

/-- If the relation passes on, a run is confined to it as its parts are. -/
protected theorem bind {m : Engine σ α} {f : α → Engine σ β} (htrans : ∀ g g' g'', R g g' → R g' g'' → R g g'')
    (hm : m.Confined R) (hf : ∀ a, (f a).Confined R) : (m >>= f).Confined R := by
  intro s
  rcases bind_cases m f s with ⟨e, _, h⟩ | ⟨a, _, h⟩
  · rw [h]
    exact hm s
  · rw [h]
    exact (hm s).trans htrans (hf a _)

end Confined

/-- The event is a question under options with the property. -/
def AsksUnder (I : Options → Prop) (e : Event) : Prop := ∃ call answer, e = .call call answer ∧ I call.options

/-- A run that keeps no rules active and the grammar related, once the options are set, is confined. -/
theorem confined_of_keeps {f : Options → Options} {k : Unit → Engine σ α} {R : Grammar → Grammar → Prop}
    (hf : ∀ o, (f o).rules = [] ∧ R o.grammar (f o).grammar)
    (hk : ∀ g, (k ()).Keeps (fun o => o.rules = [] ∧ R g o.grammar) (AsksUnder fun o => o.rules = [] ∧ R g o.grammar)) :
    (modify f >>= k).Confined R := by
  intro s
  obtain ⟨⟨_, hg⟩, es, hes, hasked⟩ := hk s.options.grammar { s with options := f s.options } (hf s.options)
  rw [modify_bind_apply]
  refine ⟨hg, es, hes, fun x hx => ?_⟩
  obtain ⟨call, answer, he, hrules, hcall⟩ := hasked _ (mem_exchanges_iff.1 hx)
  cases he
  exact ⟨hcall, by simp [hrules]⟩

end Engine

open Engine (AsksUnder confined_of_keeps)

/-! ## Probes -/

namespace Probe

theorem feature_confined (f : Feature) :
    (feature linter text f).Confined fun g g' => ∃ on, g' = g.setFeature f on := by
  have hfeature : feature linter text f =
      (Engine.modify (fun o => o.clearRules.setFeature f false) >>= fun _ => do
        let report ← Engine.ask linter text
        if report.hasErrors then
          Engine.modify (·.setFeature f true)
          let _ ← Engine.ask linter text
        return report.hasErrors) := rfl
  rw [hfeature]
  refine confined_of_keeps (fun o => ⟨rfl, false, rfl⟩) fun g => ?_
  have asks {o : Options} (ho : o.rules = [] ∧ ∃ on, o.grammar = g.setFeature f on) (answer : Except Failure Report) :
      AsksUnder (fun o => o.rules = [] ∧ ∃ on, o.grammar = g.setFeature f on) (.call ⟨text, o⟩ answer) :=
    ⟨_, answer, rfl, ho⟩
  refine .bind (.ask fun _ => asks) fun report => ?_
  cases report.hasErrors with
  | false => exact .pure _
  | true =>
    refine .bind (.modify ?_) fun _ => .bind (.ask fun _ => asks) fun _ => .pure _
    rintro o ⟨hrules, on, hg⟩
    exact ⟨hrules, true, by rw [Options.setFeature, hg, Grammar.setFeature_setFeature_self]⟩

theorem dialect_confined : (dialect linter text).Confined fun g g' => ∃ d, g' = inDialect g d := by
  refine confined_of_keeps (fun o => ⟨rfl, (o.grammar.version, o.grammar.sourceType), rfl⟩) fun g => ?_
  have search (ds : List Dialect) :
      (firstDialect linter text ds).Keeps (fun o => o.rules = [] ∧ ∃ d, o.grammar = inDialect g d)
        (AsksUnder fun o => o.rules = [] ∧ ∃ d, o.grammar = inDialect g d) := by
    induction ds with
    | nil => exact .bind .options fun _ => .fail _
    | cons d ds ih =>
      refine .bind (.modify ?_) fun _ => .bind (.ask fun o ho answer => ⟨_, answer, rfl, ho⟩) fun report => ?_
      · rintro o ⟨hrules, d', hg⟩
        exact ⟨hrules, d, by rw [setDialect, hg]; rfl⟩
      · cases report.hasErrors with
        | true => exact ih
        | false => exact .pure d
  exact search dialects

theorem grammar_confined : (grammar linter text).Confined (Grammar.SameBut probed) := by
  have feature {f : Feature} (hf : f ∈ probed) : (feature linter text f).Confined (Grammar.SameBut probed) := by
    refine (feature_confined f).mono ?_
    rintro g _ ⟨on, rfl⟩
    exact .setFeature hf g on
  have dialect : (dialect linter text).Confined (Grammar.SameBut probed) := by
    refine dialect_confined.mono ?_
    rintro g _ ⟨d, rfl⟩
    exact .of_features_eq rfl
  have trans := fun g g' g'' => @Grammar.SameBut.trans probed g g' g''
  refine .bind trans (feature (by decide)) fun _ => .bind trans (feature (by decide)) fun _ =>
    .bind trans (feature (by decide)) fun _ => .bind trans dialect fun _ => ?_
  exact fun s => ⟨.of_features_eq rfl, [], (List.append_nil _).symm, nofun⟩

end Probe

/-! ## Tries -/

namespace Suggestion

variable {registry : Registry}

theorem passes_confined (c : Candidate) : (passes linter text rule c).Confined fun g g' => g' = g := by
  intro s
  obtain ⟨answer, _, hg, hes⟩ := passes_apply linter text rule c s
  exact ⟨hg, _, hes, List.forall_mem_singleton.2 ⟨rfl, Nat.le_refl 1⟩⟩

/-- All questions about a rule are about one of its candidates alone. -/
theorem Suggests.asked {g : Grammar} {es : List Event} {r : Except Failure Candidate}
    (h : Suggests registry text g rule es r) : ∀ x ∈ exchanges es, ∃ c, x.call = question text g rule c := by
  cases h with
  | broken _ => exact nofun
  | tried _ ht =>
    intro x hx
    obtain ⟨c, _, hc⟩ := List.mem_map.1 (ht.block.tried.subset (List.mem_map_of_mem hx))
    exact ⟨c, hc.symm⟩

theorem suggest_confined : (suggest linter registry text rule).Confined fun g g' => g' = g := by
  intro s
  obtain ⟨hg, es, hes, hsuggests⟩ := suggest_suggests linter registry text rule s
  refine ⟨hg, es, hes, fun x hx => ?_⟩
  obtain ⟨c, hc⟩ := hsuggests.asked x hx
  rw [hc]
  exact ⟨rfl, Nat.le_refl 1⟩

/-- Tries that fail have asked. -/
theorem Tries.ne_nil_of_error {g : Grammar} {cs : List Candidate} {es : List Event} {e : Failure}
    (h : Tries text g rule cs es (.error e)) : es ≠ [] := by
  cases h <;> exact List.cons_ne_nil _ _

/-- A suggestion without candidates to try fails at once. -/
theorem suggest_of_error {e : Failure} (h : registry.candidates rule = .error e) (s : Session σ) :
    suggest linter registry text rule s = (.error e, s) := by
  rw [suggest_eq, h]
  rfl

/-- A suggestion fails before its first question exactly if it has no candidates to try. -/
theorem candidates_eq_error_iff {s : Session σ} {e : Failure} : registry.candidates rule = .error e ↔
    (suggest linter registry text rule s).1 = .error e ∧
      (suggest linter registry text rule s).2.events = s.events := by
  constructor
  · intro h
    rw [suggest_of_error h]
    exact ⟨rfl, rfl⟩
  · rintro ⟨hfail, hevents⟩
    obtain ⟨_, es, hes, hsuggests⟩ := suggest_suggests linter registry text rule s
    have hnil : es = [] := List.append_right_eq_self.1 (hes.symm.trans hevents)
    rw [hfail] at hsuggests
    rcases suggests_error_iff.1 hsuggests with ⟨hc, _⟩ | ⟨cs, _, htries⟩
    · exact hc
    · exact absurd hnil htries.ne_nil_of_error

end Suggestion

/-! ## Sequences of operations -/

namespace Operation

/-- The features that an operation sets. -/
def sets : Operation → List Feature
  | .feature _ f => [f]
  | .grammar _ => Probe.probed
  | .dialect _ | .passes _ _ _ | .suggest _ _ _ => []

/-- What an operation may change about the grammar. -/
def Changes : Operation → Grammar → Grammar → Prop
  | .feature _ f, g, g' => ∃ on, g' = g.setFeature f on
  | .dialect _, g, g' => ∃ d, g' = Probe.inDialect g d
  | .grammar _, g, g' => g.SameBut Probe.probed g'
  | .passes _ _ _, g, g' | .suggest _ _ _, g, g' => g' = g

theorem perform_confined (operation : Operation) : (perform linter operation).Confined operation.Changes := by
  cases operation with
  | feature text f => exact (Probe.feature_confined f).map _
  | dialect text => exact Probe.dialect_confined.map _
  | grammar text => exact Probe.grammar_confined.map _
  | passes text rule c => exact (Suggestion.passes_confined c).map _
  | suggest registry text rule => exact Suggestion.suggest_confined.map _

variable {features : List Feature}

theorem Changes.sameBut {operation : Operation} {g g' : Grammar} (hsets : operation.sets ⊆ features)
    (h : operation.Changes g g') : g.SameBut features g' := by
  cases operation with
  | feature text f =>
    obtain ⟨on, rfl⟩ := h
    exact .setFeature (hsets (List.mem_singleton_self f)) g on
  | dialect text =>
    obtain ⟨d, rfl⟩ := h
    exact .of_features_eq rfl
  | grammar text => exact h.weaken hsets
  | passes text rule c => exact .of_features_eq (congrArg Grammar.features h)
  | suggest registry text rule => exact .of_features_eq (congrArg Grammar.features h)

/-- What the operations of a sequence may change, it may change. The induction is on the operations, for all sessions:
each operation starts from what the ones before it left. -/
theorem performAll_within {operations : List Operation} (hsets : ∀ operation ∈ operations, operation.sets ⊆ features)
    (s : Session σ) : ∀ outcome ∈ performAll linter operations s, s.Within (Grammar.SameBut features) outcome.2 := by
  induction operations generalizing s with
  | nil => exact nofun
  | cons operation operations ih =>
    obtain ⟨hhead, htail⟩ := List.forall_mem_cons.1 hsets
    have hfirst : s.Within (Grammar.SameBut features) (perform linter operation s).2 :=
      (perform_confined operation s).mono fun _ _ => Changes.sameBut hhead
    refine List.forall_mem_cons.2 ⟨hfirst, fun outcome hmem => ?_⟩
    exact hfirst.trans (fun _ _ _ => .trans) (ih htail _ outcome hmem)

/-- What an engine may change, whatever the linter answers. After each operation of a sequence, and at each of its
questions, the flags of all features that no operation sets have the values that they started with, the flags that were
there stand first, in the same order, and no more than one rule is active. Each operation alone changes no more than
its `Changes`. A suggestion that fails before its first question, because it has no candidates to try, leaves the
session as it was. -/
theorem performAll_confined (linter : Linter σ) :
    (∀ operations features, (∀ operation ∈ operations, sets operation ⊆ features) → ∀ s : Session σ,
      ∀ outcome ∈ performAll linter operations s, s.Within (Grammar.SameBut features) outcome.2) ∧
    (∀ operation, (perform linter operation).Confined operation.Changes) ∧
    ∀ registry text rule (s : Session σ) e,
      (registry.candidates rule = .error e ↔ (Suggestion.suggest linter registry text rule s).1 = .error e ∧
        (Suggestion.suggest linter registry text rule s).2.events = s.events) ∧
      (registry.candidates rule = .error e → (Suggestion.suggest linter registry text rule s).2 = s) := by
  refine ⟨fun _ _ => performAll_within, perform_confined, fun registry text rule s e => ?_⟩
  refine ⟨Suggestion.candidates_eq_error_iff, fun h => ?_⟩
  rw [Suggestion.suggest_of_error h]

/-- A linter that gives up at its second question, and a grammar with a flag that the library does not know and without
the one for JSX. The flag keeps its value and its place in front, and a rule that is not known is left at once. -/
theorem performAll_confined_unknown :
    let linter : Linter Nat :=
      ⟨fun _ asked => (if asked = 1 then .error (.linter "timeout") else .ok .clean, asked + 1)⟩
    let operations : List Operation := [.grammar "a", .suggest ⟨[]⟩ "a" "semi", .feature "a" .jsx]
    let s : Session Nat := ⟨⟨⟨5, .script, [("decorators", true)]⟩, [("no-var", .error)]⟩, 0, []⟩
    (∀ operation ∈ operations, sets operation ⊆ Probe.probed) ∧
      (∀ outcome ∈ performAll linter operations s,
        Entries.get? outcome.2.options.grammar.features "decorators" = some true ∧
          ["decorators"] <+: outcome.2.options.grammar.features.keys) ∧
      (performAll linter operations s).length = 3 ∧
      (Suggestion.suggest linter ⟨[]⟩ "a" "semi" s).2 = s := by
  intro linter operations s
  have hsets : ∀ operation ∈ operations, sets operation ⊆ Probe.probed := by decide
  obtain ⟨hall, _, hsuggest⟩ := performAll_confined linter
  refine ⟨hsets, fun outcome hmem => ?_, rfl, (hsuggest ⟨[]⟩ "a" "semi" s _).2 rfl⟩
  have hsame := (hall operations Probe.probed hsets s outcome hmem).grammar
  exact ⟨(hsame.kept "decorators" (by decide)).trans rfl, hsame.order⟩

end Operation

end LintInference
