import LintInference.Proofs.Inference.FirstMatch
import LintInference.Proofs.Linter.Events
import LintInference.Proofs.Probe.Search
import Mathlib.Data.List.Forall2

/-!
# The questions of an inference

What an inference asks, whatever the linter answers and wherever it fails. First come the questions of the probes, with
no rules active; then a block of questions for each rule, one for each candidate that is tried (`Suggestion.Tries`),
with the progress in between (`Inference.Decides`). All blocks are asked under the grammar that the probes found, and a
failure ends the run at once (`Inference.protocol_of_run`).
-/

namespace LintInference

variable {σ : Type} {linter : Linter σ} {registry : Registry} {text rule : String} {g : Grammar}

/-! ## Probes -/

namespace Probe

/-- The event is a question about the text with no rules active. -/
def AsksWithoutRules (text : String) (e : Event) : Prop := ∃ g answer, e = .call ⟨text, ⟨g, []⟩⟩ answer

/-- The failure is that no dialect was found. -/
def NoDialect (e : Failure) : Prop := ∃ version, e = .undetectableDialect version

theorem asksWithoutRules {o : Options} (h : o.rules = []) (answer : Except Failure Report) :
    AsksWithoutRules text (.call ⟨text, o⟩ answer) := by
  obtain ⟨g, rules⟩ := o
  cases h
  exact ⟨g, answer, rfl⟩

theorem feature_keeps (f : Feature) : (feature linter text f).Keeps (·.rules = []) (AsksWithoutRules text) := by
  refine .bind (.modify fun _ _ => rfl) fun _ => .bind (.modify fun _ h => h) fun _ =>
    .bind (.ask fun _ => asksWithoutRules) fun report => ?_
  cases report.hasErrors with
  | true => exact .bind (.modify fun _ h => h) fun _ => .bind (.ask fun _ => asksWithoutRules) fun _ => .pure _
  | false => exact .pure _

theorem firstDialect_keeps (ds : List Dialect) :
    (firstDialect linter text ds).Keeps (·.rules = []) (AsksWithoutRules text) := by
  induction ds with
  | nil => exact .bind .options fun _ => .fail _
  | cons d ds ih =>
    refine .bind (.modify fun _ h => h) fun _ => .bind (.ask fun _ => asksWithoutRules) fun report => ?_
    cases report.hasErrors with
    | true => exact ih
    | false => exact .pure d

theorem grammar_keeps (linter : Linter σ) (text : String) :
    (grammar linter text).Keeps (·.rules = []) (AsksWithoutRules text) :=
  .bind (feature_keeps .jsx) fun _ => .bind (feature_keeps .globalReturn) fun _ =>
    .bind (feature_keeps .objectRestSpread) fun _ =>
      .bind (.bind (.modify fun _ _ => rfl) fun _ => firstDialect_keeps dialects) fun _ =>
        .bind .options fun _ => .pure _

theorem feature_stops {P : Failure → Prop} (f : Feature) : (feature linter text f).Stops P := by
  refine .bind (.modify _) fun _ => .bind (.modify _) fun _ => .bind .ask fun report => ?_
  cases report.hasErrors with
  | true => exact .bind (.modify _) fun _ => .bind .ask fun _ => .pure _
  | false => exact .pure _

theorem firstDialect_stops (ds : List Dialect) : (firstDialect linter text ds).Stops NoDialect := by
  induction ds with
  | nil => exact .bind .options fun o => .fail ⟨o.grammar.version.toNat, rfl⟩
  | cons d ds ih =>
    refine .bind (.modify _) fun _ => .bind .ask fun report => ?_
    cases report.hasErrors with
    | true => exact ih
    | false => exact .pure d

theorem grammar_stops (linter : Linter σ) (text : String) : (grammar linter text).Stops NoDialect :=
  .bind (feature_stops .jsx) fun _ => .bind (feature_stops .globalReturn) fun _ =>
    .bind (feature_stops .objectRestSpread) fun _ =>
      .bind (.bind (.modify _) fun _ => firstDialect_stops dialects) fun _ => .bind .options fun _ => .pure _

/-- A feature adds events to those of the session. -/
theorem events_of_feature {f : Feature} {b : Bool} {s t : Session σ} (h : feature linter text f s = (.ok b, t)) :
    ∃ es, t.events = s.events ++ es := by
  have hstops : (feature linter text f).Stops NoDialect := feature_stops f
  obtain ⟨es, hes, _⟩ := hstops s
  rw [h] at hes
  exact ⟨es, hes⟩

/-- The probes that find a grammar end with a question under it, and the answer had no errors. -/
theorem grammar_asked {p : Grammar} {s t : Session σ} (h : grammar linter text s = (.ok p, t)) :
    ∃ es report, report.hasErrors = false ∧
      t.events = s.events ++ (es ++ [.call ⟨text, t.options⟩ (.ok report)]) := by
  obtain ⟨_, s₁, h₁, h⟩ := Engine.bind_apply_eq_ok_iff.1 h
  obtain ⟨_, s₂, h₂, h⟩ := Engine.bind_apply_eq_ok_iff.1 h
  obtain ⟨_, s₃, h₃, h⟩ := Engine.bind_apply_eq_ok_iff.1 h
  obtain ⟨_, u, hdialect, h⟩ := Engine.bind_apply_eq_ok_iff.1 h
  obtain ⟨_, v, hclear, hsearch⟩ := Engine.bind_apply_eq_ok_iff.1 hdialect
  cases h
  cases hclear
  obtain ⟨es₁, he₁⟩ := events_of_feature h₁
  obtain ⟨es₂, he₂⟩ := events_of_feature h₂
  obtain ⟨es₃, he₃⟩ := events_of_feature h₃
  obtain ⟨report, es, hr, hh⟩ := firstDialect_asked hsearch
  have hsearched : t.events = s₃.events ++ es.reverse ++ [.call ⟨text, t.options⟩ (.ok report)] := by
    simp [Session.events, hh]
  refine ⟨es₁ ++ es₂ ++ es₃ ++ es.reverse, report, hr, ?_⟩
  rw [hsearched, he₃, he₂, he₁]
  simp only [List.append_assoc]

/-- The exchanges of the probes, with what comes of them. -/
structure Probing (text : String) (r : Except Failure Grammar) (probing : List Exchange) : Prop where
  /-- They ask about the text with no rules active. -/
  asked : ∀ x ∈ probing, x.call.text = text ∧ x.call.options.rules = []
  stops : Engine.StopsWith NoDialect probing r
  /-- The last one is under the grammar that is found, and the answer has no errors. -/
  found : ∀ g, r = .ok g → ∃ x ∈ probing.getLast?, x.call.options.grammar = g ∧
    ∃ report, x.answer = .ok report ∧ report.hasErrors = false

theorem grammar_probing (linter : Linter σ) (text : String) {s : Session σ} (hs : s.options.rules = []) :
    ∃ es, (grammar linter text s).2.events = s.events ++ es ∧
      Probing text (grammar linter text s).1 (exchanges es) := by
  obtain ⟨-, es, hes, hkeeps⟩ := grammar_keeps linter text s hs
  obtain ⟨es', hes', hstops⟩ := grammar_stops linter text s
  obtain rfl : es = es' := List.append_cancel_left (hes.symm.trans hes')
  refine ⟨es, hes, ⟨fun x hx => ?_, hstops, fun g hg => ?_⟩⟩
  · obtain ⟨g, answer, he⟩ := hkeeps _ (mem_exchanges_iff.1 hx)
    cases x
    cases he
    exact ⟨rfl, rfl⟩
  · have hrun : grammar linter text s = (.ok g, (grammar linter text s).2) := Prod.ext hg rfl
    obtain ⟨es', report, hreport, hasked⟩ := grammar_asked hrun
    obtain rfl := List.append_cancel_left (hes.symm.trans hasked)
    exact ⟨⟨⟨text, (grammar linter text s).2.options⟩, .ok report⟩, by simp, grammar_eq_ok hrun, report, rfl, hreport⟩

end Probe

/-! ## One rule -/

/-- The candidates of a rule. -/
def Registry.candidates (registry : Registry) (rule : String) : Except Failure (List Candidate) := do
  (← registry.schema rule).candidates

namespace Suggestion

/-- The question about one candidate. -/
def question (text : String) (g : Grammar) (rule : String) (c : Candidate) : Call := ⟨text, ⟨g, [(rule, c)]⟩⟩

/-- What happens while candidates are tried under a grammar, and what comes of it. -/
inductive Tries (text : String) (g : Grammar) (rule : String) :
    List Candidate → List Event → Except Failure (Option Candidate) → Prop where
  | exhausted : Tries text g rule [] [] (.ok none)
  | failed (c : Candidate) (cs : List Candidate) (e : Failure) :
      Tries text g rule (c :: cs) [.call (question text g rule c) (.error e)] (.error e)
  | passed (c : Candidate) (cs : List Candidate) {report : Report} : report.firstUnitErrors = 0 →
      Tries text g rule (c :: cs) [.call (question text g rule c) (.ok report)] (.ok (some c))
  | rejected {c : Candidate} {cs : List Candidate} {report : Report} {es : List Event}
      {r : Except Failure (Option Candidate)} : report.firstUnitErrors ≠ 0 → Tries text g rule cs es r →
      Tries text g rule (c :: cs) (.call (question text g rule c) (.ok report) :: es) r

/-- Whatever rules were active before, the question is about the candidate alone. -/
theorem passes_apply (linter : Linter σ) (text rule : String) (c : Candidate) (s : Session σ) : ∃ answer,
    (passes linter text rule c s).1 = answer.map (·.firstUnitErrors == 0) ∧
      (passes linter text rule c s).2.options.grammar = s.options.grammar ∧
      (passes linter text rule c s).2.events =
        s.events ++ [.call (question text s.options.grammar rule c) answer] := by
  let s' : Session σ := { s with options := s.options.setOnlyRule rule c }
  refine ⟨(Engine.ask linter text s').1, ?_⟩
  rw [passes, Engine.modify_bind_apply, Engine.bind_pure_apply]
  exact ⟨rfl, rfl, s'.events_ask⟩

/-- The candidates are tried under the grammar of the session, which stays. -/
theorem firstPassing_tries (linter : Linter σ) (text rule : String) (cs : List Candidate) (s : Session σ) :
    (firstPassing linter text rule cs s).2.options.grammar = s.options.grammar ∧
      ∃ es, (firstPassing linter text rule cs s).2.events = s.events ++ es ∧
        Tries text s.options.grammar rule cs es (firstPassing linter text rule cs s).1 := by
  induction cs generalizing s with
  | nil => exact ⟨rfl, [], by simp [firstPassing], .exhausted⟩
  | cons c cs ih =>
    obtain ⟨answer, hr, hg, hes⟩ := passes_apply linter text rule c s
    rw [firstPassing]
    rcases Engine.bind_cases (passes linter text rule c)
      (fun passed => if passed then return some c else firstPassing linter text rule cs) s
      with ⟨e, he, h⟩ | ⟨passed, hp, h⟩
    · cases answer with
      | ok report => cases he.symm.trans hr
      | error e' =>
        cases he.symm.trans hr
        rw [h]
        exact ⟨hg, _, hes, .failed c cs e⟩
    · cases answer with
      | error e => cases hp.symm.trans hr
      | ok report =>
        cases hp.symm.trans hr
        rw [h]
        by_cases hzero : report.firstUnitErrors = 0
        · rw [if_pos (by simp [hzero])]
          exact ⟨hg, _, hes, .passed c cs hzero⟩
        · rw [if_neg (by simp [hzero])]
          obtain ⟨hg', es, hes', htries⟩ := ih (passes linter text rule c s).2
          rw [hg] at hg' htries
          refine ⟨hg', _, ?_, .rejected hzero htries⟩
          rw [hes', hes, List.append_assoc]
          rfl

/-- What happens while the configuration of a rule is decided. -/
inductive Suggests (registry : Registry) (text : String) (g : Grammar) (rule : String) :
    List Event → Except Failure Candidate → Prop where
  | broken {e : Failure} : registry.candidates rule = .error e → Suggests registry text g rule [] (.error e)
  | tried {cs : List Candidate} {es : List Event} {r : Except Failure (Option Candidate)} :
      registry.candidates rule = .ok cs → Tries text g rule cs es r →
      Suggests registry text g rule es (r.map (·.getD .off))

/-- A failure is that of the candidates, or of the tries. -/
theorem suggests_error_iff {es : List Event} {e : Failure} : Suggests registry text g rule es (.error e) ↔
    (registry.candidates rule = .error e ∧ es = []) ∨
      ∃ cs, registry.candidates rule = .ok cs ∧ Tries text g rule cs es (.error e) := by
  constructor
  · generalize hr : Except.error e = r
    rintro (hc | @⟨cs, _, _ | _, hc, ht⟩)
    · cases hr
      exact .inl ⟨hc, rfl⟩
    · cases hr
      exact .inr ⟨cs, hc, ht⟩
    · cases hr
  · rintro (⟨hc, rfl⟩ | ⟨cs, hc, ht⟩)
    · exact .broken hc
    · exact .tried hc ht

theorem suggests_ok_iff {es : List Event} {c : Candidate} : Suggests registry text g rule es (.ok c) ↔
    ∃ cs found, registry.candidates rule = .ok cs ∧ Tries text g rule cs es (.ok found) ∧ c = found.getD .off := by
  constructor
  · generalize hr : Except.ok c = r
    rintro (_ | @⟨cs, _, _ | found, hc, ht⟩)
    · cases hr
    · cases hr
    · cases hr
      exact ⟨cs, found, hc, ht, rfl⟩
  · rintro ⟨cs, found, hc, ht, rfl⟩
    exact .tried hc ht

theorem suggest_eq (linter : Linter σ) (registry : Registry) (text rule : String) :
    suggest linter registry text rule = (Engine.lift (registry.candidates rule) >>= fun cs =>
      firstPassing linter text rule cs >>= fun c => pure (c.getD Candidate.off)) := by
  funext s
  rw [suggest, Registry.candidates]
  cases registry.schema rule <;> rfl

theorem suggest_suggests (linter : Linter σ) (registry : Registry) (text rule : String) (s : Session σ) :
    (suggest linter registry text rule s).2.options.grammar = s.options.grammar ∧
      ∃ es, (suggest linter registry text rule s).2.events = s.events ++ es ∧
        Suggests registry text s.options.grammar rule es (suggest linter registry text rule s).1 := by
  rw [suggest_eq]
  cases hc : registry.candidates rule with
  | error e => exact ⟨rfl, [], (List.append_nil _).symm, .broken hc⟩
  | ok cs =>
    have h : (Engine.lift (.ok cs) >>= fun cs => firstPassing linter text rule cs >>= fun c =>
        pure (c.getD Candidate.off)) s =
          (firstPassing linter text rule cs >>= fun c => pure (c.getD Candidate.off)) s := rfl
    rw [h, Engine.bind_pure_apply]
    obtain ⟨hg, es, hes, htries⟩ := firstPassing_tries linter text rule cs s
    exact ⟨hg, es, hes, .tried hc htries⟩

end Suggestion

/-! ## Blocks -/

/-- The answer has errors in its first unit. -/
def Exchange.Rejected (x : Exchange) : Prop := ∃ report, x.answer = .ok report ∧ report.firstUnitErrors ≠ 0

namespace Suggestion

/-- The exchanges about one rule under a grammar. -/
structure Block (text : String) (g : Grammar) (rule : String) (cs : List Candidate) (block : List Exchange) : Prop where
  /-- They ask about the candidates from the first one on, each as the only rule. -/
  tried : block.map (·.call) <+: cs.map (question text g rule)
  /-- All answers but the last have errors in their first unit. -/
  goes_on : ∀ x ∈ block.dropLast, x.Rejected
  /-- They end with the last candidate or with the first answer of another kind. -/
  ends : block.length = cs.length ∨ ∃ x ∈ block.getLast?, ¬ x.Rejected

theorem Block.single {c : Candidate} {answer : Except Failure Report}
    (h : ¬ Exchange.Rejected ⟨question text g rule c, answer⟩) (cs : List Candidate) :
    Block text g rule (c :: cs) [⟨question text g rule c, answer⟩] :=
  ⟨by simp, by simp, .inr ⟨_, rfl, h⟩⟩

theorem Block.cons {c : Candidate} {cs : List Candidate} {block : List Exchange} {answer : Except Failure Report}
    (h : Exchange.Rejected ⟨question text g rule c, answer⟩) (hb : Block text g rule cs block) :
    Block text g rule (c :: cs) (⟨question text g rule c, answer⟩ :: block) := by
  refine ⟨List.prefix_cons_inj _ |>.2 hb.tried, ?_, ?_⟩
  · cases block with
    | nil => simp
    | cons x xs => exact List.forall_mem_cons.2 ⟨h, hb.goes_on⟩
  · rcases hb.ends with hlen | ⟨x, hx, hn⟩
    · exact .inl (congrArg (· + 1) hlen)
    · exact .inr ⟨x, List.mem_getLast?_cons hx, hn⟩

theorem Tries.block {cs : List Candidate} {es : List Event} {r : Except Failure (Option Candidate)}
    (h : Tries text g rule cs es r) : Block text g rule cs (exchanges es) := by
  induction h with
  | exhausted => exact ⟨List.nil_prefix, by simp, .inl rfl⟩
  | failed c cs e => exact .single (fun ⟨_, h, _⟩ => nomatch h) cs
  | passed c cs hzero =>
    refine .single ?_ cs
    rintro ⟨_, ⟨⟩, hne⟩
    exact hne hzero
  | rejected hne _ ih => exact .cons ⟨_, rfl, hne⟩ ih

/-- Tries stop at an answer that fails, and for no other reason. -/
theorem Tries.stops {cs : List Candidate} {es : List Event} {r : Except Failure (Option Candidate)}
    (h : Tries text g rule cs es r) : Engine.StopsWith (fun _ => False) (exchanges es) r := by
  induction h with
  | exhausted => exact .nil fun _ h => nomatch h
  | failed c cs e => exact (Engine.StopsWith.single _).congr fun e' => by simp
  | passed c cs hzero => exact (Engine.StopsWith.single _).congr fun e' => by simp
  | @rejected c _ report _ _ _ _ ih =>
    have hfirst : Engine.StopsWith (fun _ => False) [⟨question text g rule c, .ok report⟩] (.ok report) := .single _
    exact hfirst.append ih

end Suggestion

/-! ## One rule after the other -/

namespace Inference

open Suggestion

/-- What happens while the rules are decided in turn, the progress included; `completed` of `total` are decided. -/
inductive Decides (registry : Registry) (text : String) (g : Grammar) (total : Nat) :
    Nat → List String → List Event → Except Failure (Entries Candidate) → Prop where
  | done (completed : Nat) : Decides registry text g total completed [] [] (.ok [])
  | failed {completed : Nat} {rule : String} (rules : List String) {es : List Event} {e : Failure} :
      Suggests registry text g rule es (.error e) →
      Decides registry text g total completed (rule :: rules) (.progress ⟨total, completed, some rule⟩ :: es) (.error e)
  | decided {completed : Nat} {rule : String} {rules : List String} {es es' : List Event} {c : Candidate}
      {r : Except Failure (Entries Candidate)} : Suggests registry text g rule es (.ok c) →
      Decides registry text g total (completed + 1) rules es' r →
      Decides registry text g total completed (rule :: rules)
        (.progress ⟨total, completed, some rule⟩ :: (es ++ es')) (r.map ((rule, c) :: ·))

theorem suggestEach_decides (linter : Linter σ) (registry : Registry) (text : String) (total completed : Nat)
    (rules : List String) (s : Session σ) : ∃ es,
      (suggestEach linter registry text total completed rules s).2.events = s.events ++ es ∧
      Decides registry text s.options.grammar total completed rules es
        (suggestEach linter registry text total completed rules s).1 := by
  induction rules generalizing completed s with
  | nil => exact ⟨[], by simp [suggestEach], .done completed⟩
  | cons rule rules ih =>
    let s' : Session σ := (Engine.report ⟨total, completed, some rule⟩ s).2
    have hs' : s'.events = s.events ++ [.progress ⟨total, completed, some rule⟩] := s.events_report _
    obtain ⟨hg, es, hes, hsuggests⟩ := suggest_suggests linter registry text rule s'
    have hstart : suggestEach linter registry text total completed (rule :: rules) s =
        (suggest linter registry text rule >>= fun suggestion =>
          suggestEach linter registry text total (completed + 1) rules >>= fun others =>
            pure ((rule, suggestion) :: others)) s' := rfl
    rw [hstart]
    rcases Engine.bind_cases (suggest linter registry text rule) (fun suggestion =>
      suggestEach linter registry text total (completed + 1) rules >>= fun others =>
        pure ((rule, suggestion) :: others)) s' with ⟨e, hr, h⟩ | ⟨c, hr, h⟩
    · rw [h]
      rw [hr] at hsuggests
      exact ⟨_, by rw [hes, hs', List.append_assoc]; rfl, .failed rules hsuggests⟩
    · rw [h, Engine.bind_pure_apply]
      rw [hr] at hsuggests
      obtain ⟨es', hes', hdecides⟩ := ih (completed + 1) (suggest linter registry text rule s').2
      rw [hg] at hdecides
      refine ⟨_, ?_, .decided hsuggests hdecides⟩
      rw [hes', hes, hs']
      simp

/-- The block of a rule. -/
def RuleBlock (registry : Registry) (text : String) (g : Grammar) (rule : String) (block : List Exchange) : Prop :=
  ∃ cs, registry.candidates rule = .ok cs ∧ Block text g rule cs block

/-- Blocks for the first of the rules: for all of them if there is an outcome, and otherwise as far as the one of the
failure. -/
structure Blocks {α : Type} (registry : Registry) (text : String) (g : Grammar) (rules : List String)
    (r : Except Failure α) (blocks : List (List Exchange)) : Prop where
  each : List.Forall₂ (RuleBlock registry text g) (rules.take blocks.length) blocks
  complete : ∀ i, r = .ok i → blocks.length = rules.length
  stops : Engine.StopsWith
    (fun e => ∃ rule, rules[blocks.length]? = some rule ∧ registry.candidates rule = .error e) blocks.flatten r

theorem Blocks.map {α β : Type} {rules : List String} {r : Except Failure α} {blocks : List (List Exchange)}
    (h : Blocks registry text g rules r blocks) (f : α → β) : Blocks registry text g rules (r.map f) blocks := by
  refine ⟨h.each, fun i hi => ?_, h.stops.map f⟩
  cases r with
  | error e => cases hi
  | ok a => exact h.complete a rfl

/-- The rule of the failure has the last block, or none if it has no candidates to try. -/
theorem Blocks.failed {es : List Event} {e : Failure} (h : Suggests registry text g rule es (.error e))
    (rules : List String) : ∃ blocks, exchanges es = blocks.flatten ∧
      Blocks registry text g (rule :: rules) (.error e : Except Failure (Entries Candidate)) blocks := by
  rcases suggests_error_iff.1 h with ⟨hc, rfl⟩ | ⟨cs, hc, ht⟩
  · refine ⟨[], rfl, .nil, fun _ h => (nomatch h), .nil ?_⟩
    rintro _ ⟨⟩
    exact ⟨rule, rfl, hc⟩
  · have hflat : [exchanges es].flatten = exchanges es := List.append_nil _
    refine ⟨[exchanges es], hflat.symm, .cons ⟨cs, hc, ht.block⟩ .nil, fun _ h => (nomatch h), ?_⟩
    rw [hflat]
    exact (ht.stops.mono fun _ => False.elim).congr fun e' => by simp

/-- A rule that is decided has its block before those of the others. -/
theorem Blocks.decided {es : List Event} {c : Candidate} {rules : List String} {r : Except Failure (Entries Candidate)}
    {blocks : List (List Exchange)} (h : Suggests registry text g rule es (.ok c))
    (hb : Blocks registry text g rules r blocks) :
    Blocks registry text g (rule :: rules) (r.map ((rule, c) :: ·)) (exchanges es :: blocks) := by
  obtain ⟨cs, found, hc, ht, _⟩ := suggests_ok_iff.1 h
  refine ⟨.cons ⟨cs, hc, ht.block⟩ hb.each, fun i hi => ?_, (ht.stops.append hb.stops).map _⟩
  cases r with
  | error e => cases hi
  | ok others => exact congrArg (· + 1) (hb.complete others rfl)

theorem Decides.blocks {total completed : Nat} {rules : List String} {es : List Event}
    {r : Except Failure (Entries Candidate)} (h : Decides registry text g total completed rules es r) :
    ∃ blocks, exchanges es = blocks.flatten ∧ Blocks registry text g rules r blocks := by
  induction h with
  | done completed => exact ⟨[], rfl, .nil, fun _ _ => rfl, .nil fun _ h => nomatch h⟩
  | failed rules hs => exact Blocks.failed hs rules
  | decided hs _ ih =>
    obtain ⟨blocks, hes, hb⟩ := ih
    exact ⟨_ :: blocks, by simp [hes], hb.decided hs⟩

/-! ## The whole run -/

/-- What is left of an inference once the grammar is found. -/
def conclude (linter : Linter σ) (registry : Registry) (text : String) (rules : List String) (g : Grammar) :
    Engine σ Inferred :=
  suggestEach linter registry text rules.length 0 rules >>= fun suggestions =>
    Engine.modify Options.clearRules >>= fun _ =>
      Engine.report ⟨rules.length, rules.length, none⟩ >>= fun _ => pure ⟨g, suggestions⟩

theorem run_eq (linter : Linter σ) (registry : Registry) (selection : Selection) (text : String) :
    run linter registry selection text =
      Engine.apart (Probe.grammar linter text >>= conclude linter registry text (selected registry selection)) := rfl

/-- Once the grammar is found the rules are decided, and nothing else is asked. -/
theorem conclude_apply (linter : Linter σ) (registry : Registry) (text : String) (rules : List String) (g : Grammar)
    (t : Session σ) :
    (conclude linter registry text rules g t).1 =
        (suggestEach linter registry text rules.length 0 rules t).1.map (⟨g, ·⟩) ∧
      exchanges (conclude linter registry text rules g t).2.events =
        exchanges (suggestEach linter registry text rules.length 0 rules t).2.events := by
  rw [conclude]
  rcases Engine.bind_cases (suggestEach linter registry text rules.length 0 rules) (fun suggestions =>
    Engine.modify Options.clearRules >>= fun _ => Engine.report ⟨rules.length, rules.length, none⟩ >>= fun _ =>
      pure (⟨g, suggestions⟩ : Inferred)) t with ⟨e, hr, h⟩ | ⟨suggestions, hr, h⟩
  · rw [h, hr]
    exact ⟨rfl, rfl⟩
  · rw [h, hr]
    refine ⟨rfl, ?_⟩
    show exchanges (Engine.report _ (Engine.modify _ _).2).2.events = _
    simp

theorem conclude_blocks (linter : Linter σ) (registry : Registry) (text : String) (rules : List String) {g : Grammar}
    {t : Session σ} (ht : t.options.grammar = g) : ∃ blocks,
      exchanges (conclude linter registry text rules g t).2.events = exchanges t.events ++ blocks.flatten ∧
      Blocks registry text g rules (conclude linter registry text rules g t).1 blocks ∧
      ∀ i, (conclude linter registry text rules g t).1 = .ok i → i.grammar = g := by
  obtain ⟨es, hes, hdecides⟩ := suggestEach_decides linter registry text rules.length 0 rules t
  obtain ⟨blocks, hflat, hblocks⟩ := (ht ▸ hdecides).blocks
  obtain ⟨hresult, hevents⟩ := conclude_apply linter registry text rules g t
  refine ⟨blocks, ?_, hresult ▸ hblocks.map _, fun i hi => ?_⟩
  · rw [hevents, hes, exchanges_append, hflat]
  · rw [hresult] at hi
    cases hd : (suggestEach linter registry text rules.length 0 rules t).1 with
    | error e =>
      rw [hd] at hi
      cases hi
    | ok suggestions =>
      rw [hd] at hi
      cases hi
      rfl

theorem Decides.keys_eq {total completed : Nat} {rules : List String} {es : List Event}
    {r : Except Failure (Entries Candidate)} (h : Decides registry text g total completed rules es r)
    {suggestions : Entries Candidate} (hr : r = .ok suggestions) : suggestions.keys = rules := by
  induction h generalizing suggestions with
  | done completed =>
    cases hr
    rfl
  | failed rules hs => cases hr
  | @decided _ rule _ _ _ _ r _ _ ih =>
    cases r with
    | error e => cases hr
    | ok others =>
      cases hr
      exact congrArg (rule :: ·) (ih rfl)

/-- An inference that succeeds has a configuration for each rule that takes part, and for no other. -/
theorem keys_of_run {linter : Linter σ} {selection : Selection} {s : Session σ} {i : Inferred}
    (h : (run linter registry selection text s).1 = .ok i) : i.rules.keys = selected registry selection := by
  rw [run_eq, Engine.apart_fst_eq_ok_iff] at h
  obtain ⟨s', h⟩ := h
  obtain ⟨g, t, -, h⟩ := Engine.bind_apply_eq_ok_iff.1 h
  have hresult := (conclude_apply linter registry text (selected registry selection) g t).1
  obtain ⟨es, -, hdecides⟩ := suggestEach_decides linter registry text (selected registry selection).length 0
    (selected registry selection) t
  rw [h] at hresult
  cases hd : (suggestEach linter registry text (selected registry selection).length 0
      (selected registry selection) t).1 with
  | error e =>
    rw [hd] at hresult
    cases hresult
  | ok suggestions =>
    rw [hd] at hresult
    cases hresult
    exact hdecides.keys_eq hd

/-- What an inference asks: the questions of the probes, and then a block for each rule. -/
structure Protocol (registry : Registry) (selection : Selection) (text : String) (r : Except Failure Inferred)
    (g : Grammar) (probing : List Exchange) (blocks : List (List Exchange)) : Prop where
  /-- The rules are those of the registry that take part. -/
  names : (selected registry selection).Perm (registry.schemas.keys.filter selection.includes)
  /-- They stand in ascending order of the bytes of their names. -/
  ascending : (selected registry selection).Pairwise fun a b => Text.toBytes a ≤ Text.toBytes b
  /-- The probes ask about the text with no rules active. -/
  asked : ∀ x ∈ probing, x.call.text = text ∧ x.call.options.rules = []
  /-- Unless the run fails before the first block, they end under the grammar of the blocks, which is accepted. -/
  probed : (blocks = [] ∧ ∃ e, r = .error e) ∨ ∃ x ∈ probing.getLast?, x.call.options.grammar = g ∧
    ∃ report, x.answer = .ok report ∧ report.hasErrors = false
  /-- The rules have a block each, in order, up to the one of a failure. -/
  each : List.Forall₂ (RuleBlock registry text g) ((selected registry selection).take blocks.length) blocks
  /-- An outcome has that grammar, and there is a block for every rule. -/
  complete : ∀ i, r = .ok i → i.grammar = g ∧ blocks.length = (selected registry selection).length
  /-- A question that fails is the last one, and its failure that of the run. There is no other failure but that no
  dialect is found, before the first block, and that the rule after the last block has no candidates. -/
  stops : Engine.StopsWith (fun e => (blocks = [] ∧ Probe.NoDialect e) ∨
    ∃ rule, (selected registry selection)[blocks.length]? = some rule ∧ registry.candidates rule = .error e)
      (probing ++ blocks.flatten) r

end Inference

end LintInference
