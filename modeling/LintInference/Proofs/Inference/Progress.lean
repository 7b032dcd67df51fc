import LintInference.Proofs.Inference.Protocol

/-!
# The progress of an inference

Reports and questions to the linter are events of one run. The reports are the milestones of the rules that take part,
from the first one on: all of them if there is an outcome, none if the probes fail, and otherwise as far as the rule
whose suggestion fails. What is asked about a rule comes after its report and before the next one
(`Inference.reporting_of_run`).

Which rule is tried when is said by the sessions that the suggestions begin in (`Inference.Turn`). So nothing is assumed
of the linter: its answers may depend on all that happened before, and any of them may be a failure.
-/

namespace LintInference

variable {σ : Type} {linter : Linter σ} {registry : Registry} {text rule : String} {g : Grammar}

/-! ## Reports and questions among events -/

/-- The progress that an event reports, if it does. -/
def Event.progress? : Event → Option Progress
  | .call _ _ => none
  | .progress p => some p

/-- The reports among events. -/
def reports (es : List Event) : List Progress := es.filterMap Event.progress?

@[simp] theorem reports_nil : reports [] = [] := rfl

@[simp] theorem reports_progress (p : Progress) (es : List Event) : reports (.progress p :: es) = p :: reports es := rfl

@[simp] theorem reports_append (es es' : List Event) : reports (es ++ es') = reports es ++ reports es' :=
  List.filterMap_append

/-- The event is a question about the rule alone. -/
def Event.AsksAbout (text rule : String) (x : Event) : Prop :=
  ∃ g c answer, x = .call (Suggestion.question text g rule c) answer

theorem reports_eq_nil {es : List Event} (h : ∀ x ∈ es, ∃ call answer, x = .call call answer) : reports es = [] := by
  refine List.filterMap_eq_nil_iff.2 fun x hx => ?_
  obtain ⟨_, _, rfl⟩ := h x hx
  rfl

theorem reports_of_asksAbout {es : List Event} (h : ∀ x ∈ es, x.AsksAbout text rule) : reports es = [] := by
  refine reports_eq_nil fun x hx => ?_
  obtain ⟨g, c, answer, rfl⟩ := h x hx
  exact ⟨_, answer, rfl⟩

namespace Suggestion

theorem Tries.asksAbout {cs : List Candidate} {es : List Event} {r : Except Failure (Option Candidate)}
    (h : Tries text g rule cs es r) : ∀ x ∈ es, x.AsksAbout text rule := by
  induction h with
  | exhausted => exact nofun
  | failed c cs e => exact List.forall_mem_singleton.2 ⟨g, c, _, rfl⟩
  | passed c cs _ => exact List.forall_mem_singleton.2 ⟨g, c, _, rfl⟩
  | @rejected c _ _ _ _ _ _ ih => exact List.forall_mem_cons.2 ⟨⟨g, c, _, rfl⟩, ih⟩

theorem Suggests.asksAbout {es : List Event} {r : Except Failure Candidate} (h : Suggests registry text g rule es r) :
    ∀ x ∈ es, x.AsksAbout text rule := by
  cases h with
  | broken _ => exact nofun
  | tried _ ht => exact ht.asksAbout

/-- All that happens while a rule is tried are questions about it. -/
theorem suggest_asksAbout (linter : Linter σ) (registry : Registry) (text rule : String) (s : Session σ) :
    ∃ own, (suggest linter registry text rule s).2.events = s.events ++ own ∧ ∀ x ∈ own, x.AsksAbout text rule := by
  obtain ⟨-, own, hown, hsuggests⟩ := suggest_suggests linter registry text rule s
  exact ⟨own, hown, hsuggests.asksAbout⟩

end Suggestion

namespace Inference

open Suggestion (suggest suggest_asksAbout)

variable {rules : List String} {j k : Nat} {s t u : Session σ} {es : List Event}

/-! ## Milestones -/

/-- The report before the rule at a position. After the last rule it has no rule. -/
def milestone (rules : List String) (k : Nat) : Progress := ⟨rules.length, k, rules[k]?⟩

/-- The reports of a complete run. -/
def milestones (rules : List String) : List Progress := (List.range (rules.length + 1)).map (milestone rules)

/-- The reports from one position up to another, which is not included. -/
def between (rules : List String) (j m : Nat) : List Progress := (List.range' j (m - j)).map (milestone rules)

theorem between_self (rules : List String) (j : Nat) : between rules j j = [] := by simp [between]

theorem between_eq_cons {m : Nat} (h : j < m) : between rules j m = milestone rules j :: between rules (j + 1) m := by
  rw [between, between, ← Nat.sub_sub, ← List.map_cons, ← List.range'_succ, Nat.sub_add_cancel (by omega)]

theorem between_succ {m : Nat} (h : j ≤ m) : between rules j (m + 1) = between rules j m ++ [milestone rules m] := by
  have hlast : j + (m - j) = m := by omega
  rw [between, between, Nat.succ_sub h, List.range'_1_concat, hlast, List.map_append, List.map_singleton]

theorem length_milestones (rules : List String) : (milestones rules).length = rules.length + 1 := by
  rw [milestones, List.length_map, List.length_range]

theorem between_zero {m : Nat} (h : m ≤ rules.length + 1) : between rules 0 m = (milestones rules).take m := by
  rw [between, milestones, ← List.map_take, List.take_range, Nat.min_eq_left h, List.range_eq_range', Nat.sub_zero]

/-! ## Turns -/

/-- From the rule at a position on, in a session before its report, the run comes to a rule: the suggestions before that
succeed, and its own begins, after its report, in the last session. -/
inductive Turn (linter : Linter σ) (registry : Registry) (text : String) (rules : List String) :
    Nat → Session σ → Nat → String → Session σ → Prop where
  | here {j : Nat} {s : Session σ} {rule : String} : rules[j]? = some rule →
      Turn linter registry text rules j s j rule (Engine.report (milestone rules j) s).2
  | later {j k : Nat} {s t u : Session σ} {rule next : String} {c : Candidate} : rules[j]? = some rule →
      suggest linter registry text rule (Engine.report (milestone rules j) s).2 = (.ok c, u) →
      Turn linter registry text rules (j + 1) u k next t → Turn linter registry text rules j s k next t

theorem Turn.le (h : Turn linter registry text rules j s k rule t) : j ≤ k ∧ rules[k]? = some rule := by
  induction h with
  | here hr => exact ⟨Nat.le_refl _, hr⟩
  | later _ _ _ ih => exact ⟨Nat.le_of_succ_le ih.1, ih.2⟩

theorem Turn.lt (h : Turn linter registry text rules j s k rule t) : k < rules.length :=
  (List.getElem?_eq_some_iff.1 h.le.2).1

theorem Turn.milestone_eq (h : Turn linter registry text rules j s k rule t) :
    milestone rules k = ⟨rules.length, k, some rule⟩ := by
  rw [milestone, h.le.2]

/-- What happens from the rule at a position on, up to the last report or to a failure. -/
inductive Proceeds (linter : Linter σ) (registry : Registry) (text : String) (rules : List String) :
    Nat → Session σ → List Event → Except Failure Unit → Prop where
  | ended (s : Session σ) :
      Proceeds linter registry text rules rules.length s [.progress (milestone rules rules.length)] (.ok ())
  | failed {j : Nat} {s u : Session σ} {rule : String} {own : List Event} {e : Failure} : rules[j]? = some rule →
      suggest linter registry text rule (Engine.report (milestone rules j) s).2 = (.error e, u) →
      u.events = s.events ++ .progress (milestone rules j) :: own → (∀ x ∈ own, x.AsksAbout text rule) →
      Proceeds linter registry text rules j s (.progress (milestone rules j) :: own) (.error e)
  | decided {j : Nat} {s u : Session σ} {rule : String} {own es : List Event} {c : Candidate}
      {r : Except Failure Unit} : rules[j]? = some rule →
      suggest linter registry text rule (Engine.report (milestone rules j) s).2 = (.ok c, u) →
      u.events = s.events ++ .progress (milestone rules j) :: own → (∀ x ∈ own, x.AsksAbout text rule) →
      Proceeds linter registry text rules (j + 1) u es r →
      Proceeds linter registry text rules j s (.progress (milestone rules j) :: (own ++ es)) r

theorem Proceeds.exists_cons {r : Except Failure Unit} (h : Proceeds linter registry text rules j s es r) :
    ∃ es', es = .progress (milestone rules j) :: es' := by
  cases h <;> exact ⟨_, rfl⟩

theorem Proceeds.le {r : Except Failure Unit} (h : Proceeds linter registry text rules j s es r) : j ≤ rules.length := by
  cases h with
  | ended => exact Nat.le_refl _
  | failed hr _ _ _ | decided hr _ _ _ _ => exact Nat.le_of_lt (List.getElem?_eq_some_iff.1 hr).1

/-- Everything from a position on is reported, or a suggestion fails and its rule is the last one reported. -/
theorem Proceeds.reports {r : Except Failure Unit} (h : Proceeds linter registry text rules j s es r) :
    (r = .ok () ∧ reports es = between rules j (rules.length + 1)) ∨
    ∃ k rule t e, Turn linter registry text rules j s k rule t ∧ (suggest linter registry text rule t).1 = .error e ∧
      r = .error e ∧ LintInference.reports es = between rules j (k + 1) := by
  induction h with
  | ended s =>
    refine .inl ⟨rfl, ?_⟩
    rw [between_succ (Nat.le_refl _), between_self]
    rfl
  | @failed j s u rule own e hr hs _ hown =>
    refine .inr ⟨j, rule, _, e, .here hr, congrArg Prod.fst hs, rfl, ?_⟩
    rw [between_succ (Nat.le_refl _), between_self, reports_progress, reports_of_asksAbout hown]
    rfl
  | @decided j s u rule own es c r hr hs _ hown hrest ih =>
    have hreports : LintInference.reports (.progress (milestone rules j) :: (own ++ es)) =
        milestone rules j :: LintInference.reports es := by
      rw [reports_progress, reports_append, reports_of_asksAbout hown, List.nil_append]
    obtain ⟨hok, he⟩ | ⟨k, next, t, e, ht, hf, he, hk⟩ := ih
    · refine .inl ⟨hok, ?_⟩
      rw [hreports, he, ← between_eq_cons (Nat.lt_of_lt_of_le (Nat.lt_succ_self j) (Nat.le_succ_of_le hrest.le))]
    · refine .inr ⟨k, next, t, e, .later hr hs ht, hf, he, ?_⟩
      rw [hreports, hk, ← between_eq_cons (Nat.lt_succ_of_lt ht.le.1)]

/-- From the first rule on, the reports are milestones in order. -/
theorem Proceeds.reports_prefix {r : Except Failure Unit} (h : Proceeds linter registry text rules 0 s es r) :
    LintInference.reports es <+: milestones rules := by
  obtain ⟨_, he⟩ | ⟨k, rule, t, e, ht, _, _, he⟩ := h.reports
  · rw [he, between_zero (Nat.le_refl _)]
    exact List.take_prefix _ _
  · rw [he, between_zero (Nat.succ_le_succ (Nat.le_of_lt ht.lt))]
    exact List.take_prefix _ _

theorem Proceeds.reports_eq_iff {r : Except Failure Unit} (h : Proceeds linter registry text rules 0 s es r) :
    LintInference.reports es = milestones rules ↔ r = .ok () := by
  obtain ⟨hok, he⟩ | ⟨k, rule, t, e, ht, _, herr, he⟩ := h.reports
  · rw [he, between_zero (Nat.le_refl _), ← length_milestones, List.take_length]
    exact ⟨fun _ => hok, fun _ => rfl⟩
  · have hlt := ht.lt
    rw [he, between_zero (by omega), herr]
    refine ⟨fun hwhole => ?_, fun h => nomatch h⟩
    have hlength := congrArg List.length hwhole
    rw [List.length_take, length_milestones] at hlength
    omega

/-- What happens in a turn: what is asked about the rule stands between its report and the next one. -/
structure Stretch (linter : Linter σ) (registry : Registry) (text : String) (rules : List String) (s : Session σ)
    (k : Nat) (rule : String) (t : Session σ) (before own after : List Event) : Prop where
  begun : t.events = s.events ++ (before ++ [.progress (milestone rules k)])
  tried : (suggest linter registry text rule t).2.events = t.events ++ own
  asked : ∀ x ∈ own, x.AsksAbout text rule
  /-- If anything comes after it, the next report comes first. -/
  goes_on : ∀ x ∈ after.head?, x = .progress (milestone rules (k + 1))

theorem Turn.stretch {r : Except Failure Unit} (ht : Turn linter registry text rules j s k rule t)
    (h : Proceeds linter registry text rules j s es r) : ∃ before own after,
      es = before ++ .progress (milestone rules k) :: (own ++ after) ∧ reports before = between rules j k ∧
      Stretch linter registry text rules s k rule t before own after ∧
      ∀ e, (suggest linter registry text rule t).1 = .error e → r = .error e ∧ after = [] := by
  induction ht generalizing es r with
  | @here j s rule hr =>
    have hbegun : (Engine.report (milestone rules j) s).2.events = s.events ++ ([] ++ [.progress (milestone rules j)]) :=
      s.events_report _
    cases h with
    | ended => exact absurd (List.getElem?_eq_some_iff.1 hr).1 (Nat.lt_irrefl _)
    | @failed _ _ u _ own e hr' hs hown hasked =>
      cases hr.symm.trans hr'
      refine ⟨[], own, [], by simp, (between_self rules j).symm, ⟨hbegun, ?_, hasked, nofun⟩, fun e' he => ?_⟩
      · rw [hs, hbegun, hown]
        simp
      · rw [hs] at he
        cases he
        exact ⟨rfl, rfl⟩
    | @decided _ _ u _ own es c _ hr' hs hown hasked hrest =>
      cases hr.symm.trans hr'
      obtain ⟨es', rfl⟩ := hrest.exists_cons
      refine ⟨[], own, _, rfl, (between_self rules j).symm, ⟨hbegun, ?_, hasked, ?_⟩, fun e' he => ?_⟩
      · rw [hs, hbegun, hown]
        simp
      · rintro _ ⟨⟩
        rfl
      · rw [hs] at he
        cases he
  | @later j k s t u rule next c hr hs hturn ih =>
    cases h with
    | ended => exact absurd (List.getElem?_eq_some_iff.1 hr).1 (Nat.lt_irrefl _)
    | failed hr' hs' _ _ =>
      cases hr.symm.trans hr'
      cases hs.symm.trans hs'
    | @decided _ _ u' _ own es c' _ hr' hs' hown hasked hrest =>
      cases hr.symm.trans hr'
      cases hs.symm.trans hs'
      obtain ⟨before, own', after, rfl, hbefore, ⟨hbegun, htried, hasked', hnext⟩, hfails⟩ := ih hrest
      refine ⟨.progress (milestone rules j) :: (own ++ before), own', after, by simp, ?_, ⟨?_, htried, hasked', hnext⟩,
        hfails⟩
      · rw [reports_progress, reports_append, reports_of_asksAbout hasked, List.nil_append, hbefore,
          ← between_eq_cons hturn.le.1]
      · rw [hbegun, hown]
        simp

/-- If the suggestion of a turn fails, its report is the last one. -/
theorem Turn.reports_of_error {r : Except Failure Unit} {e : Failure}
    (ht : Turn linter registry text rules j s k rule t) (he : (suggest linter registry text rule t).1 = .error e)
    (h : Proceeds linter registry text rules j s es r) : r = .error e ∧ reports es = between rules j (k + 1) := by
  obtain ⟨before, own, after, rfl, hbefore, hstretch, hfails⟩ := ht.stretch h
  obtain ⟨hr, rfl⟩ := hfails e he
  refine ⟨hr, ?_⟩
  rw [reports_append, reports_progress, reports_append, reports_of_asksAbout hstretch.asked, hbefore,
    between_succ ht.le.1]
  rfl

/-! ## The whole run -/

/-- Only failures are left of a result. -/
theorem map_unit_map {α β : Type} (r : Except Failure α) (f : α → β) :
    ((r.map f).map fun _ => ()) = r.map fun _ => () := by
  cases r <;> rfl

/-- The report at the end of rules that were all decided. -/
def lastReport {α : Type} (rules : List String) : Except Failure α → List Event
  | .ok _ => [.progress (milestone rules rules.length)]
  | .error _ => []

theorem lastReport_map {α β : Type} (rules : List String) (r : Except Failure α) (f : α → β) :
    lastReport rules (r.map f) = lastReport rules r := by
  cases r <;> rfl

/-- The rules that are left are decided one after the other. -/
theorem suggestEach_proceeds (linter : Linter σ) (registry : Registry) (text : String) (rules : List String)
    {rest : List String} (hrest : rules.drop j = rest) (hj : j ≤ rules.length) (s : Session σ) : ∃ es,
      (suggestEach linter registry text rules.length j rest s).2.events ++
          lastReport rules (suggestEach linter registry text rules.length j rest s).1 = s.events ++ es ∧
        Proceeds linter registry text rules j s es
          ((suggestEach linter registry text rules.length j rest s).1.map fun _ => ()) := by
  induction rest generalizing j s with
  | nil =>
    obtain rfl : j = rules.length := Nat.le_antisymm hj (List.drop_eq_nil_iff.1 hrest)
    exact ⟨_, rfl, .ended s⟩
  | cons rule rest ih =>
    have hrule : rules[j]? = some rule := by
      have hdrop : (rules.drop j)[0]? = rules[j + 0]? := List.getElem?_drop
      exact hdrop.symm.trans (by rw [hrest]; rfl)
    have htail : rules.drop (j + 1) = rest := by rw [← List.tail_drop, hrest, List.tail_cons]
    let s' : Session σ := (Engine.report (milestone rules j) s).2
    have hs' : s'.events = s.events ++ [.progress (milestone rules j)] := s.events_report _
    have hstart : suggestEach linter registry text rules.length j (rule :: rest) s =
        (suggest linter registry text rule >>= fun suggestion =>
          suggestEach linter registry text rules.length (j + 1) rest >>= fun others =>
            pure ((rule, suggestion) :: others)) s' := by
      rw [suggestEach, Engine.bind_apply]
      show _ = (suggest linter registry text rule >>= _) (Engine.report ⟨rules.length, j, rules[j]?⟩ s).2
      rw [hrule]
      rfl
    obtain ⟨own, hown, hasked⟩ := suggest_asksAbout linter registry text rule s'
    have hevents : (suggest linter registry text rule s').2.events =
        s.events ++ .progress (milestone rules j) :: own := by
      rw [hown, hs', List.append_assoc, List.singleton_append]
    rw [hstart]
    rcases Engine.bind_cases (suggest linter registry text rule) (fun suggestion =>
      suggestEach linter registry text rules.length (j + 1) rest >>= fun others =>
        pure ((rule, suggestion) :: others)) s' with ⟨e, hr, h⟩ | ⟨c, hr, h⟩
    · rw [h]
      exact ⟨_, by rw [lastReport, List.append_nil, hevents], .failed hrule (Prod.ext hr rfl) hevents hasked⟩
    · have hlt : j < rules.length := (List.getElem?_eq_some_iff.1 hrule).1
      obtain ⟨es, hes, hproceeds⟩ := ih htail hlt (suggest linter registry text rule s').2
      rw [h, Engine.bind_pure_apply]
      refine ⟨.progress (milestone rules j) :: (own ++ es), ?_, ?_⟩
      · rw [lastReport_map, hes, hevents, List.append_assoc, List.cons_append]
      · rw [map_unit_map]
        exact .decided hrule (Prod.ext hr rfl) hevents hasked hproceeds

/-- Once the grammar is found, the run is that of the rules, with the last report at its end. -/
theorem conclude_events (linter : Linter σ) (registry : Registry) (text : String) (rules : List String) (g : Grammar)
    (t : Session σ) : (conclude linter registry text rules g t).2.events =
      (suggestEach linter registry text rules.length 0 rules t).2.events ++
        lastReport rules (suggestEach linter registry text rules.length 0 rules t).1 := by
  have hlast : (⟨rules.length, rules.length, none⟩ : Progress) = milestone rules rules.length := by
    rw [milestone, List.getElem?_eq_none (Nat.le_refl _)]
  rw [conclude]
  rcases Engine.bind_cases (suggestEach linter registry text rules.length 0 rules) (fun suggestions =>
    Engine.modify Options.clearRules >>= fun _ => Engine.report ⟨rules.length, rules.length, none⟩ >>= fun _ =>
      pure (⟨g, suggestions⟩ : Inferred)) t with ⟨e, hr, h⟩ | ⟨suggestions, hr, h⟩
  · rw [h, hr]
    exact (List.append_nil _).symm
  · rw [h, hr, hlast]
    exact Session.events_report _ _

theorem conclude_proceeds (linter : Linter σ) (registry : Registry) (text : String) (rules : List String) (g : Grammar)
    (t : Session σ) : ∃ es, (conclude linter registry text rules g t).2.events = t.events ++ es ∧
      Proceeds linter registry text rules 0 t es ((conclude linter registry text rules g t).1.map fun _ => ()) := by
  obtain ⟨es, hes, hproceeds⟩ := suggestEach_proceeds linter registry text rules rfl (Nat.zero_le _) t
  refine ⟨es, (conclude_events linter registry text rules g t).trans hes, ?_⟩
  rw [(conclude_apply linter registry text rules g t).1, map_unit_map]
  exact hproceeds

/-- In a run from the session, the rule at the position is tried, and its suggestion begins in the last session. -/
def Comes (linter : Linter σ) (registry : Registry) (selection : Selection) (text : String) (s : Session σ) (k : Nat)
    (rule : String) (t : Session σ) : Prop :=
  ∃ g u, Probe.grammar linter text { s with options := .initial } = (.ok g, u) ∧
    Turn linter registry text (selected registry selection) 0 u k rule t

/-- How the events that a run adds report its progress. -/
structure Reporting (linter : Linter σ) (registry : Registry) (selection : Selection) (text : String) (s : Session σ)
    (es : List Event) : Prop where
  added : (run linter registry selection text s).2.events = s.events ++ es
  /-- The reports are the milestones from the first one on. -/
  reported : reports es <+: milestones (selected registry selection)
  /-- All of them are reported exactly if there is an outcome. -/
  whole_iff : reports es = milestones (selected registry selection) ↔
    ∃ i, (run linter registry selection text s).1 = .ok i
  /-- Nothing is reported exactly if the probes fail. -/
  none_iff : reports es = [] ↔ ∃ e, (Probe.grammar linter text { s with options := .initial }).1 = .error e
  /-- If the suggestion for a rule fails, the run fails with it, and the report of that rule is the last one. -/
  failing : ∀ k rule t e, Comes linter registry selection text s k rule t →
    (suggest linter registry text rule t).1 = .error e → (run linter registry selection text s).1 = .error e ∧
      reports es = (milestones (selected registry selection)).take (k + 1) ∧
      (reports es).getLast? = some ⟨(selected registry selection).length, k, some rule⟩
  /-- There is no other failure but that of the probes. -/
  cause : ∀ e, (run linter registry selection text s).1 = .error e →
    (Probe.grammar linter text { s with options := .initial }).1 = .error e ∨
      ∃ k rule t, Comes linter registry selection text s k rule t ∧ (suggest linter registry text rule t).1 = .error e
  /-- What is asked about a rule stands between its report and the next one. -/
  stretches : ∀ k rule t, Comes linter registry selection text s k rule t → ∃ before own after,
    es = before ++ .progress ⟨(selected registry selection).length, k, some rule⟩ :: (own ++ after) ∧
    reports before = (milestones (selected registry selection)).take k ∧
    Stretch linter registry text (selected registry selection) s k rule t before own after

theorem milestones_ne_nil (rules : List String) : milestones rules ≠ [] := by
  simp [milestones]

/-- A run fails with the probes, or concludes with what they find. -/
theorem run_cases (linter : Linter σ) (registry : Registry) (selection : Selection) (text : String) (s : Session σ) :
    (∃ e, (Probe.grammar linter text { s with options := .initial }).1 = .error e ∧
      (run linter registry selection text s).1 = .error e ∧
      (run linter registry selection text s).2.events =
        (Probe.grammar linter text { s with options := .initial }).2.events) ∨
    ∃ g u, Probe.grammar linter text { s with options := .initial } = (.ok g, u) ∧
      (run linter registry selection text s).1 =
        (conclude linter registry text (selected registry selection) g u).1 ∧
      (run linter registry selection text s).2.events =
        (conclude linter registry text (selected registry selection) g u).2.events := by
  have hfst : (run linter registry selection text s).1 = ((Probe.grammar linter text >>=
      conclude linter registry text (selected registry selection)) { s with options := .initial }).1 := rfl
  rw [hfst, run_eq, s.events_apart]
  rcases Engine.bind_cases (Probe.grammar linter text) (conclude linter registry text (selected registry selection))
    { s with options := .initial } with ⟨e, hr, h⟩ | ⟨g, hr, h⟩
  · exact .inl ⟨e, hr, congrArg Prod.fst h, congrArg (fun r => r.2.events) h⟩
  · exact .inr ⟨g, _, Prod.ext hr rfl, congrArg Prod.fst h, congrArg (fun r => r.2.events) h⟩

theorem map_unit_eq_error_iff {α : Type} {r : Except Failure α} {e : Failure} :
    (r.map fun _ => ()) = .error e ↔ r = .error e := by
  cases r <;> simp [Except.map]

theorem map_unit_eq_ok_iff {α : Type} {r : Except Failure α} : (r.map fun _ => ()) = .ok () ↔ ∃ a, r = .ok a := by
  cases r <;> simp [Except.map]

/-- What the rules in turn report is what the run reports. -/
theorem reporting_of_proceeds {selection : Selection} {g : Grammar} {probing : List Event}
    (hg : Probe.grammar linter text { s with options := .initial } = (.ok g, u))
    (hu : u.events = s.events ++ probing) (hprobing : reports probing = [])
    (hrun : (run linter registry selection text s).2.events = u.events ++ es)
    (h : Proceeds linter registry text (selected registry selection) 0 u es
      ((run linter registry selection text s).1.map fun _ => ())) :
    Reporting linter registry selection text s (probing ++ es) := by
  have hreports : reports (probing ++ es) = reports es := by rw [reports_append, hprobing, List.nil_append]
  have hcomes : ∀ {k rule t}, Comes linter registry selection text s k rule t →
      Turn linter registry text (selected registry selection) 0 u k rule t := by
    rintro k rule t ⟨g', u', hg', hturn⟩
    cases hg.symm.trans hg'
    exact hturn
  refine ⟨by rw [hrun, hu, List.append_assoc], ?_, ?_, ?_, ?_, ?_, ?_⟩
  · rw [hreports]
    exact h.reports_prefix
  · rw [hreports, h.reports_eq_iff, map_unit_eq_ok_iff]
  · rw [hreports, hg]
    obtain ⟨es', rfl⟩ := h.exists_cons
    exact ⟨nofun, nofun⟩
  · intro k rule t e hc he
    have ht := hcomes hc
    obtain ⟨herr, hk⟩ := ht.reports_of_error he h
    refine ⟨map_unit_eq_error_iff.1 herr, ?_, ?_⟩
    · rw [hreports, hk, between_zero (Nat.succ_le_succ (Nat.le_of_lt ht.lt))]
    · rw [hreports, hk, between_succ (Nat.zero_le k), List.getLast?_concat, ht.milestone_eq]
  · intro e he
    obtain ⟨hok, _⟩ | ⟨k, rule, t, e', ht, hf, herr, _⟩ := h.reports
    · rw [he] at hok
      cases hok
    · cases he.symm.trans (map_unit_eq_error_iff.1 herr)
      exact .inr ⟨k, rule, t, ⟨g, u, hg, ht⟩, hf⟩
  · intro k rule t hc
    have ht := hcomes hc
    obtain ⟨before, own, after, rfl, hbefore, ⟨hbegun, htried, hasked, hnext⟩, _⟩ := ht.stretch h
    refine ⟨probing ++ before, own, after, ?_, ?_, ⟨?_, htried, hasked, hnext⟩⟩
    · rw [ht.milestone_eq, List.append_assoc]
    · rw [reports_append, hprobing, List.nil_append, hbefore, between_zero (Nat.le_succ_of_le (Nat.le_of_lt ht.lt))]
    · rw [hbegun, hu]
      simp

/-- Every run reports its progress exactly, whatever the linter does and from whatever session it starts. -/
theorem reporting_of_run (linter : Linter σ) (registry : Registry) (selection : Selection) (text : String)
    (s : Session σ) : ∃ es, Reporting linter registry selection text s es := by
  obtain ⟨-, probing, hevents, hasks⟩ := Probe.grammar_keeps linter text { s with options := .initial } rfl
  have hprobing : reports probing = [] := by
    refine reports_eq_nil fun x hx => ?_
    obtain ⟨g, answer, rfl⟩ := hasks x hx
    exact ⟨_, answer, rfl⟩
  obtain ⟨e, hg, hr, hrun⟩ | ⟨g, u, hg, hr, hrun⟩ := run_cases linter registry selection text s
  · -- the probes fail, and nothing is reported
    have hnot : ∀ {k rule t}, ¬ Comes linter registry selection text s k rule t := by
      rintro k rule t ⟨_, _, hg', _⟩
      rw [hg'] at hg
      cases hg
    refine ⟨probing, ⟨hrun.trans hevents, ?_, ?_, ?_, ?_, ?_, ?_⟩⟩
    · rw [hprobing]
      exact List.nil_prefix
    · rw [hprobing, hr]
      exact ⟨fun h => absurd h.symm (milestones_ne_nil _), fun ⟨_, h⟩ => nomatch h⟩
    · exact ⟨fun _ => ⟨e, hg⟩, fun _ => hprobing⟩
    · exact fun k rule t e hc => absurd hc hnot
    · intro e' he'
      cases hr.symm.trans he'
      exact .inl hg
    · exact fun k rule t hc => absurd hc hnot
  · -- a grammar is found, and the rules are tried in turn
    obtain ⟨es, hes, hproceeds⟩ := conclude_proceeds linter registry text (selected registry selection) g u
    rw [hg] at hevents
    rw [← hr] at hproceeds
    exact ⟨_, reporting_of_proceeds hg hevents hprobing (hrun.trans hes) hproceeds⟩

end Inference

end LintInference
