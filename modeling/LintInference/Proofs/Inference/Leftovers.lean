import LintInference.Proofs.Inference.Protocol

/-!
# Rules that were left active

Probes and suggestions share the options of a session, and each may leave a rule active, or leave the rules alone, as
when it fails before its first question. No later operation shows which: every one of them sets the rules before it
asks.

`Engine.Respects` compares two runs of one program from related sessions. For sessions that differ in their active rules
only, setting the rules makes both the same (`Engine.Respects.overwrite`), so each operation respects that relation, and
a sequence of operations does, whatever the linter answers (`Operation.performAll_of_rules`).
-/

namespace LintInference

variable {σ α β : Type} {linter : Linter σ} {text rule : String}

/-- The answer depends on the call alone; it may be a failure. -/
def Linter.Determined (linter : Linter σ) (answer : Call → Except Failure Report) : Prop :=
  ∀ call state, (linter.check call state).1 = answer call

namespace Session

/-- The sessions have the same grammar. -/
def SameGrammar (s t : Session σ) : Prop := s.options.grammar = t.options.grammar

/-- The sessions differ in nothing but the active rules. -/
structure SameButRules (s t : Session σ) : Prop where
  grammar : s.options.grammar = t.options.grammar
  state : s.state = t.state
  history : s.history = t.history

theorem SameButRules.refl (s : Session σ) : SameButRules s s := ⟨rfl, rfl, rfl⟩

end Session

namespace Engine

/-- From related sessions the run has the same result, and it ends in related ones. -/
def Respects (m : Engine σ α) (R : Session σ → Session σ → Prop) : Prop :=
  ∀ s t, R s t → (m s).1 = (m t).1 ∧ R (m s).2 (m t).2

namespace Respects

variable {R : Session σ → Session σ → Prop}

protected theorem pure (a : α) : (pure a : Engine σ α).Respects R := fun _ _ h => ⟨rfl, h⟩

protected theorem lift (r : Except Failure α) : (lift r : Engine σ α).Respects R := fun _ _ h => ⟨rfl, h⟩

protected theorem bind {m : Engine σ α} {f : α → Engine σ β} (hm : m.Respects R) (hf : ∀ a, (f a).Respects R) :
    (m >>= f).Respects R := by
  intro s t h
  obtain ⟨hr, hR⟩ := hm s t h
  rcases bind_cases m f s with ⟨e, he, hs⟩ | ⟨a, ha, hs⟩
  · rcases bind_cases m f t with ⟨e', he', ht⟩ | ⟨a, ha, _⟩
    · rw [he, he'] at hr
      cases hr
      rw [hs, ht]
      exact ⟨rfl, hR⟩
    · rw [he, ha] at hr
      cases hr
  · rcases bind_cases m f t with ⟨e, he, _⟩ | ⟨a', ha', ht⟩
    · rw [ha, he] at hr
      cases hr
    · rw [ha, ha'] at hr
      cases hr
      rw [hs, ht]
      exact hf a _ _ hR

/-- Where the options are set by the grammar alone, nothing that follows shows what rules were active. -/
theorem overwrite {f : Options → Options} (hf : ∀ o o', o.grammar = o'.grammar → f o = f o') (k : Unit → Engine σ α) :
    (modify f >>= k).Respects Session.SameButRules := by
  rintro ⟨o, state, history⟩ ⟨o', _, _⟩ ⟨hg, rfl, rfl⟩
  have ho : f o = f o' := hf o o' hg
  rw [modify_bind_apply, modify_bind_apply, ho]
  exact ⟨rfl, .refl _⟩

end Respects

end Engine

/-! ## Probes and suggestions -/

theorem Options.clearRules_congr {o o' : Options} (h : o.grammar = o'.grammar) : o.clearRules = o'.clearRules := by
  rw [Options.clearRules, Options.clearRules, h]

theorem Options.setOnlyRule_congr {o o' : Options} (h : o.grammar = o'.grammar) (rule : String) (c : Candidate) :
    o.setOnlyRule rule c = o'.setOnlyRule rule c := by
  rw [Options.setOnlyRule, Options.setOnlyRule, h]

namespace Probe

theorem feature_respects (f : Feature) : (feature linter text f).Respects Session.SameButRules :=
  .overwrite (fun _ _ => Options.clearRules_congr) _

theorem dialect_respects : (dialect linter text).Respects Session.SameButRules :=
  .overwrite (fun _ _ => Options.clearRules_congr) _

theorem grammar_respects : (grammar linter text).Respects Session.SameButRules := by
  refine .bind (feature_respects .jsx) fun _ => .bind (feature_respects .globalReturn) fun _ =>
    .bind (feature_respects .objectRestSpread) fun _ => .bind dialect_respects fun _ => ?_
  intro s t h
  exact ⟨congrArg Except.ok h.grammar, h⟩

end Probe

namespace Suggestion

variable {R : Session σ → Session σ → Prop} {registry : Registry}

theorem passes_respects (c : Candidate) : (passes linter text rule c).Respects Session.SameButRules :=
  .overwrite (fun _ _ h => Options.setOnlyRule_congr h rule c) _

/-- With a linter whose answers depend on the call alone, sessions with one grammar give the same answer. -/
theorem passes_respects_grammar {answer : Call → Except Failure Report} (hl : linter.Determined answer)
    (c : Candidate) : (passes linter text rule c).Respects Session.SameGrammar := by
  intro s t h
  let s' : Session σ := { s with options := s.options.setOnlyRule rule c }
  let t' : Session σ := { t with options := t.options.setOnlyRule rule c }
  have hoptions : s'.options = t'.options := Options.setOnlyRule_congr h rule c
  have hask : (Engine.ask linter text s').1 = (Engine.ask linter text t').1 :=
    calc (Engine.ask linter text s').1 = answer ⟨text, s'.options⟩ := hl _ _
      _ = answer ⟨text, t'.options⟩ := by rw [hoptions]
      _ = (Engine.ask linter text t').1 := (hl _ _).symm
  rw [passes, Engine.modify_bind_apply, Engine.modify_bind_apply, Engine.bind_pure_apply, Engine.bind_pure_apply, hask]
  exact ⟨rfl, h⟩

/-- A suggestion respects what the tries of its candidates respect. -/
theorem suggest_respects (h : ∀ c, (passes linter text rule c).Respects R) :
    (suggest linter registry text rule).Respects R := by
  have hfirst (cs : List Candidate) : (firstPassing linter text rule cs).Respects R := by
    induction cs with
    | nil => exact .pure none
    | cons c cs ih =>
      refine .bind (h c) fun passed => ?_
      cases passed with
      | true => exact .pure (some c)
      | false => exact ih
  rw [suggest_eq]
  exact .bind (.lift _) fun cs => .bind (hfirst cs) fun _ => .pure _

end Suggestion

/-! ## Sequences of operations -/

/-- What can be done in a session. -/
inductive Operation where
  | feature (text : String) (f : Feature)
  | dialect (text : String)
  | grammar (text : String)
  | passes (text rule : String) (c : Candidate)
  | suggest (registry : Registry) (text rule : String)

namespace Operation

/-- The result of an operation that does not fail. -/
inductive Outcome where
  | flag (b : Bool)
  | dialect (d : Probe.Dialect)
  | grammar (g : Grammar)
  | candidate (c : Candidate)

/-- Performs an operation. -/
def perform (linter : Linter σ) : Operation → Engine σ Outcome
  | .feature text f => return .flag (← Probe.feature linter text f)
  | .dialect text => return .dialect (← Probe.dialect linter text)
  | .grammar text => return .grammar (← Probe.grammar linter text)
  | .passes text rule c => return .flag (← Suggestion.passes linter text rule c)
  | .suggest registry text rule => return .candidate (← Suggestion.suggest linter registry text rule)

/-- Performs operations one after the other, also after a failure. Each result stands with the session after it. -/
def performAll (linter : Linter σ) : List Operation → Session σ → List (Except Failure Outcome × Session σ)
  | [], _ => []
  | operation :: operations, s =>
    perform linter operation s :: performAll linter operations (perform linter operation s).2

theorem perform_respects (operation : Operation) : (perform linter operation).Respects Session.SameButRules := by
  cases operation with
  | feature text f => exact .bind (Probe.feature_respects f) fun _ => .pure _
  | dialect text => exact .bind Probe.dialect_respects fun _ => .pure _
  | grammar text => exact .bind Probe.grammar_respects fun _ => .pure _
  | passes text rule c => exact .bind (Suggestion.passes_respects c) fun _ => .pure _
  | suggest registry text rule => exact .bind (Suggestion.suggest_respects Suggestion.passes_respects) fun _ => .pure _

/-- What each operation respects, a sequence of them does. -/
theorem performAll_forall₂ {R : Session σ → Session σ → Prop} {operations : List Operation}
    (h : ∀ operation ∈ operations, (perform linter operation).Respects R) {s t : Session σ} (hst : R s t) :
    List.Forall₂ (fun a b => a.1 = b.1 ∧ R a.2 b.2) (performAll linter operations s)
      (performAll linter operations t) := by
  induction operations generalizing s t with
  | nil => exact .nil
  | cons operation operations ih =>
    obtain ⟨hhead, htail⟩ := List.forall_mem_cons.1 h
    obtain ⟨hr, hR⟩ := hhead s t hst
    exact .cons ⟨hr, hR⟩ (ih htail hR)

/-- From two sessions that differ in the active rules only, a sequence of operations has the same results, and after
each operation the same questions were asked and the same grammar is left, whatever the linter answers and whichever
operations fail. So a suggestion is the same when it is repeated, if the answers of the linter depend on the call
alone. -/
theorem performAll_of_rules (linter : Linter σ) (operations : List Operation) (g : Grammar)
    (rules rules' : Entries Candidate) (state : σ) (history : List Event) :
    List.Forall₂ (fun a b => a.1 = b.1 ∧ Session.SameButRules a.2 b.2)
        (performAll linter operations ⟨⟨g, rules⟩, state, history⟩)
        (performAll linter operations ⟨⟨g, rules'⟩, state, history⟩) ∧
      ∀ answer, linter.Determined answer → ∀ registry text rule (s : Session σ),
        (Suggestion.suggest linter registry text rule (Suggestion.suggest linter registry text rule s).2).1 =
          (Suggestion.suggest linter registry text rule s).1 := by
  refine ⟨performAll_forall₂ (fun operation _ => perform_respects operation) ⟨rfl, rfl, rfl⟩, ?_⟩
  intro answer hl registry text rule s
  have hgrammar := (Suggestion.suggest_suggests linter registry text rule s).1
  exact (Suggestion.suggest_respects (Suggestion.passes_respects_grammar hl) _ s hgrammar).1

/-- A rule with two candidates: the linter rejects the first and fails at the second, so a suggestion fails and leaves
the second one active. Repeated, it fails in the same way. -/
theorem performAll_of_rules_repeated :
    let answer : Call → Except Failure Report := fun call =>
      match call.options.rules with
      | [(_, [_, .string "double"])] => .ok (.single [.violation "quotes" "Strings must use singlequote."])
      | [(_, [_, .string "single"])] => .error (.linter "configuration rejected")
      | _ => .ok .clean
    let linter : Linter Nat := ⟨fun call calls => (answer call, calls + 1)⟩
    let registry : Registry := ⟨[("quotes", .object [("enum", .array [.string "double", .string "single"])])]⟩
    let suggest := Suggestion.suggest linter registry "'a'" "quotes"
    let operations : List Operation := [.suggest registry "'a'" "quotes", .dialect "'a'"]
    let s : Session Nat := ⟨⟨.permissive, [("no-var", .error)]⟩, 0, []⟩
    List.Forall₂ (fun a b => a.1 = b.1 ∧ Session.SameButRules a.2 b.2)
        (performAll linter operations ⟨⟨.permissive, []⟩, 0, []⟩) (performAll linter operations s) ∧
      linter.Determined answer ∧ (suggest s).1 = .error (.linter "configuration rejected") ∧
      (suggest (suggest s).2).1 = (suggest s).1 := by
  intro answer linter registry suggest operations s
  have hl : linter.Determined answer := fun _ _ => rfl
  have hschema : registry.schema "quotes" = .ok (.enumeration [.string "double", .string "single"]) := by rfl
  have hcs : (Schema.enumeration [.string "double", .string "single"]).candidates =
      .ok [[.string "error", .string "double"], [.string "error", .string "single"]] := by cbv
  have hcandidates : registry.candidates "quotes" =
      .ok [[.string "error", .string "double"], [.string "error", .string "single"]] := by
    rw [Registry.candidates, hschema]
    exact hcs
  have hfirst : (suggest s).1 = .error (.linter "configuration rejected") := by
    show (Suggestion.suggest linter registry "'a'" "quotes" s).1 = _
    rw [Suggestion.suggest_eq, hcandidates]
    rfl
  obtain ⟨hsame, hrepeated⟩ := performAll_of_rules linter operations .permissive [] [("no-var", .error)] 0 []
  exact ⟨hsame, hl, hfirst, hrepeated answer hl registry "'a'" "quotes" s⟩

end Operation

end LintInference
