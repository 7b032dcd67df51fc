import LintInference.Probe
import LintInference.Proofs.Linter.Answers
import Mathlib.Data.List.Permutation

/-!
# What the probes find

With a linter that answers as a function, each probe is a function of the grammar it starts under: a feature is settled by
one question (`settle`), and the dialects are searched for the first one in which the linter reports no errors. The whole
of the probes ends in one of two ways (`grammar_cases`). What is returned is therefore in the oldest dialect for the
features that were settled, and the last question of the session was asked under it (`oldest_of_grammar`).
-/

namespace LintInference.Probe

variable {σ : Type} {linter : Linter σ} {answer : Call → Report} {text : String}

/-- Does the linter report errors for the text under the grammar, with no rules active? -/
def rejects (answer : Call → Report) (text : String) (g : Grammar) : Bool := (answer ⟨text, ⟨g, []⟩⟩).hasErrors

/-- The grammar in another dialect. -/
def inDialect (g : Grammar) (d : Dialect) : Grammar := { g with version := d.1, sourceType := d.2 }

theorem inDialect_setFeature (g : Grammar) (f : Feature) (on : Bool) (d : Dialect) :
    inDialect (g.setFeature f on) d = (inDialect g d).setFeature f on := rfl

/-! ## Features -/

/-- The grammar with the feature on if the linter reports errors without it, and off otherwise. -/
def settle (answer : Call → Report) (text : String) (g : Grammar) (f : Feature) : Grammar :=
  g.setFeature f (rejects answer text (g.setFeature f false))

/-- Whatever rules were active, the question is about the grammar alone, and no rules are left. -/
theorem feature_takes (hl : linter.Answers answer) (f : Feature) (o : Options) :
    (feature linter text f).Takes o (.ok (rejects answer text (o.grammar.setFeature f false)))
      ⟨settle answer text o.grammar f, []⟩ := by
  refine .bind_ok (.modify _) (.bind_ok (.modify _) (.bind_ok (.ask hl text) ?_))
  have hasked : o.clearRules.setFeature f false = ⟨o.grammar.setFeature f false, []⟩ := rfl
  rw [hasked, rejects, settle, rejects]
  cases (answer ⟨text, ⟨o.grammar.setFeature f false, []⟩⟩).hasErrors with
  | true =>
    have hon : (⟨o.grammar.setFeature f false, []⟩ : Options).setFeature f true = ⟨o.grammar.setFeature f true, []⟩ := by
      rw [Options.setFeature, Grammar.setFeature_setFeature_self]
    refine .bind_ok (.modify _) ?_
    rw [hon]
    exact .bind_ok (.ask hl text) (.pure true)
  | false => exact .pure false

/-- The features that are probed, in order. -/
def probed : List Feature := [.jsx, .globalReturn, .objectRestSpread]

/-- The grammar with all of them settled, one after the other. -/
def settled (answer : Call → Report) (text : String) (g : Grammar) : Grammar := probed.foldl (settle answer text) g

/-! ## Dialects -/

example : dialects = [(3, .script), (5, .script), (6, .script), (7, .script), (8, .script),
    (6, .module), (7, .module), (8, .module)] := rfl

/-- One question of the search: errors lead on to the next dialect. -/
theorem firstDialect_takes_of_rejects (hl : linter.Answers answer) {d : Dialect} {ds : List Dialect} {g : Grammar}
    {r : Except Failure Dialect} {o : Options} (hd : rejects answer text (inDialect g d) = true)
    (h : (firstDialect linter text ds).Takes ⟨inDialect g d, []⟩ r o) :
    (firstDialect linter text (d :: ds)).Takes ⟨g, []⟩ r o := by
  refine .bind_ok (.modify _) (.bind_ok (.ask hl text) ?_)
  have herrors : (answer ⟨text, setDialect d ⟨g, []⟩⟩).hasErrors = true := hd
  rw [if_pos herrors]
  exact h

/-- No errors end it. -/
theorem firstDialect_takes_of_accepts (hl : linter.Answers answer) {d : Dialect} {g : Grammar} (ds : List Dialect)
    (hd : rejects answer text (inDialect g d) = false) :
    (firstDialect linter text (d :: ds)).Takes ⟨g, []⟩ (.ok d) ⟨inDialect g d, []⟩ := by
  refine .bind_ok (.modify _) (.bind_ok (.ask hl text) ?_)
  have herrors : (answer ⟨text, setDialect d ⟨g, []⟩⟩).hasErrors = false := hd
  rw [if_neg (by rw [herrors]; decide)]
  exact .pure d

/-- The first dialect without errors is found, and left. -/
theorem firstDialect_takes_ok (hl : linter.Answers answer) {d : Dialect} {ds : List Dialect} {g : Grammar}
    (h : ds.find? (fun d => !rejects answer text (inDialect g d)) = some d) :
    (firstDialect linter text ds).Takes ⟨g, []⟩ (.ok d) ⟨inDialect g d, []⟩ := by
  induction ds generalizing g with
  | nil => cases h
  | cons c ds ih =>
    cases hc : rejects answer text (inDialect g c) with
    | true =>
      rw [List.find?_cons_of_neg (by simp [hc])] at h
      exact firstDialect_takes_of_rejects hl hc (ih h)
    | false =>
      rw [List.find?_cons_of_pos (by simp [hc])] at h
      cases h
      exact firstDialect_takes_of_accepts hl ds hc

/-- If there is none, the last one is left. -/
theorem firstDialect_takes_error (hl : linter.Answers answer) {ds : List Dialect} {g : Grammar}
    (h : ∀ d ∈ ds, rejects answer text (inDialect g d) = true) :
    (firstDialect linter text ds).Takes ⟨g, []⟩ (.error (.undetectableDialect (ds.foldl inDialect g).version.toNat))
      ⟨ds.foldl inDialect g, []⟩ := by
  induction ds generalizing g with
  | nil => exact .bind_ok .options (.fail _)
  | cons d ds ih =>
    obtain ⟨hd, hds⟩ := List.forall_mem_cons.1 h
    exact firstDialect_takes_of_rejects hl hd (ih hds)

/-- A dialect that is found was asked about in a question of the search, the last one, and the answer had no errors. -/
theorem firstDialect_asked {d : Dialect} {ds : List Dialect} {s t : Session σ}
    (h : firstDialect linter text ds s = (.ok d, t)) : ∃ report es, report.hasErrors = false ∧
      t.history = .call ⟨text, t.options⟩ (.ok report) :: (es ++ s.history) := by
  induction ds generalizing s with
  | nil =>
    obtain ⟨_, _, _, h⟩ := Engine.bind_apply_eq_ok_iff.1 h
    cases h
  | cons c ds ih =>
    obtain ⟨_, u, hu, h⟩ := Engine.bind_apply_eq_ok_iff.1 h
    cases hu
    obtain ⟨report, v, hask, h⟩ := Engine.bind_apply_eq_ok_iff.1 h
    obtain ⟨ho, hh⟩ := Engine.ask_eq_ok hask
    cases hr : report.hasErrors with
    | true =>
      rw [if_pos hr] at h
      obtain ⟨report', es, hr', hes⟩ := ih h
      exact ⟨report', es ++ [.call ⟨text, setDialect c s.options⟩ (.ok report)], hr', by rw [hes, hh]; simp⟩
    | false =>
      rw [if_neg (by rw [hr]; decide)] at h
      cases h
      exact ⟨report, [], hr, by rw [ho, hh]; rfl⟩

/-! ## All of the probes -/

section Grammar

variable (answer text) in
/-- The first dialect without errors for a grammar. -/
def oldest? (g : Grammar) : Option Dialect := dialects.find? fun d => !rejects answer text (inDialect g d)

theorem oldest?_eq_some {g : Grammar} {d : Dialect} (h : oldest? answer text g = some d) :
    rejects answer text (inDialect g d) = false ∧ ∃ earlier later, dialects = earlier ++ d :: later ∧
      ∀ c ∈ earlier, rejects answer text (inDialect g c) = true := by
  obtain ⟨hd, earlier, later, hds, hc⟩ := List.find?_eq_some_iff_append.1 h
  exact ⟨by simpa using hd, earlier, later, hds, fun c hmem => by simpa using hc c hmem⟩

theorem oldest?_eq_none_iff {g : Grammar} :
    oldest? answer text g = none ↔ ∀ d ∈ dialects, rejects answer text (inDialect g d) = true := by simp [oldest?]

/-- The probes end with the first dialect for the features that they settle, or in the last dialect of all. -/
theorem grammar_takes (hl : linter.Answers answer) (text : String) (o : Options) :
    (grammar linter text).Takes o
      (match oldest? answer text (settled answer text o.grammar) with
        | some d => .ok (inDialect (settled answer text o.grammar) d)
        | none => .error (.undetectableDialect 8))
      ⟨inDialect (settled answer text o.grammar)
        ((oldest? answer text (settled answer text o.grammar)).getD (8, .module)), []⟩ := by
  refine .bind_ok (feature_takes hl .jsx o) (.bind_ok (feature_takes hl .globalReturn _)
    (.bind_ok (feature_takes hl .objectRestSpread _) ?_))
  have hsettled : settle answer text (settle answer text (settle answer text o.grammar .jsx) .globalReturn)
      .objectRestSpread = settled answer text o.grammar := rfl
  rw [hsettled]
  cases h : oldest? answer text (settled answer text o.grammar) with
  | none => exact .bind_error (.bind_ok (.modify _) (firstDialect_takes_error hl (oldest?_eq_none_iff.1 h)))
  | some d =>
    refine .bind_ok (.bind_ok (.modify _) (firstDialect_takes_ok hl h)) ?_
    exact .bind_ok .options (.pure _)

/-- Either a dialect is found, returned and left, or there is none and the last one is left. -/
theorem grammar_cases (hl : linter.Answers answer) (text : String) (s : Session σ) :
    (∃ d, oldest? answer text (settled answer text s.options.grammar) = some d ∧
      (grammar linter text s).1 = .ok (inDialect (settled answer text s.options.grammar) d) ∧
      (grammar linter text s).2.options = ⟨inDialect (settled answer text s.options.grammar) d, []⟩) ∨
    (oldest? answer text (settled answer text s.options.grammar) = none ∧
      (grammar linter text s).1 = .error (.undetectableDialect 8) ∧
      (grammar linter text s).2.options = ⟨inDialect (settled answer text s.options.grammar) (8, .module), []⟩) := by
  have h := grammar_takes hl text s.options s rfl
  cases hd : oldest? answer text (settled answer text s.options.grammar) with
  | some d =>
    rw [hd] at h
    exact .inl ⟨d, rfl, h⟩
  | none =>
    rw [hd] at h
    exact .inr ⟨rfl, h⟩

theorem grammar_eq_ok_iff (hl : linter.Answers answer) {s : Session σ} {p : Grammar} :
    (grammar linter text s).1 = .ok p ↔ ∃ d, oldest? answer text (settled answer text s.options.grammar) = some d ∧
      p = inDialect (settled answer text s.options.grammar) d := by
  rcases grammar_cases hl text s with ⟨d, hd, hr, _⟩ | ⟨hn, hr, _⟩
  · rw [hr, hd]
    constructor
    · rintro ⟨⟩
      exact ⟨d, rfl, rfl⟩
    · rintro ⟨_, ⟨⟩, rfl⟩
      rfl
  · rw [hr, hn]
    exact iff_of_false nofun nofun

/-- There is no outcome exactly if the features that are settled have no dialect. -/
theorem grammar_undetectable_iff (hl : linter.Answers answer) {s : Session σ} :
    (∃ v, (grammar linter text s).1 = .error (.undetectableDialect v)) ↔
      oldest? answer text (settled answer text s.options.grammar) = none := by
  rcases grammar_cases hl text s with ⟨d, hd, hr, _⟩ | ⟨hn, hr, _⟩
  · rw [hr, hd]
    exact iff_of_false nofun nofun
  · exact iff_of_true ⟨8, hr⟩ hn

/-- What the probes return was asked about in the last question, and the answer had no errors. -/
theorem grammar_last {p : Grammar} {s t : Session σ} (h : grammar linter text s = (.ok p, t)) :
    ∃ report rest, report.hasErrors = false ∧ t.history = .call ⟨text, t.options⟩ (.ok report) :: rest := by
  obtain ⟨_, _, _, h⟩ := Engine.bind_apply_eq_ok_iff.1 h
  obtain ⟨_, _, _, h⟩ := Engine.bind_apply_eq_ok_iff.1 h
  obtain ⟨_, _, _, h⟩ := Engine.bind_apply_eq_ok_iff.1 h
  obtain ⟨_, u, hdialect, h⟩ := Engine.bind_apply_eq_ok_iff.1 h
  obtain ⟨_, v, _, hsearch⟩ := Engine.bind_apply_eq_ok_iff.1 hdialect
  cases h
  obtain ⟨report, _, hr, hh⟩ := firstDialect_asked hsearch
  exact ⟨report, _, hr, hh⟩

/-- The grammar that is returned is accepted, and was the last one to be asked about; all dialects before its own are
rejected with its features. If no dialect is found, all of them are rejected with the features that are left, and the
last one is left. There is no other outcome, whatever the state of the linter and of the session. -/
theorem oldest_of_grammar (hl : linter.Answers answer) (s : Session σ) :
    (∀ p t, grammar linter text s = (.ok p, t) →
      rejects answer text p = false ∧
      (∃ earlier later, dialects = earlier ++ (p.version, p.sourceType) :: later ∧
        ∀ d ∈ earlier, rejects answer text (inDialect p d) = true) ∧
      t.options = ⟨p, []⟩ ∧
      ∃ report rest, report.hasErrors = false ∧ t.history = .call ⟨text, ⟨p, []⟩⟩ (.ok report) :: rest) ∧
    (∀ v t, grammar linter text s = (.error (.undetectableDialect v), t) →
      (∀ d ∈ dialects, rejects answer text (inDialect t.options.grammar d) = true) ∧
      t.options.grammar.version = 8 ∧ t.options.grammar.sourceType = .module ∧ t.options.rules = [] ∧ v = 8) ∧
    ((∃ p, (grammar linter text s).1 = .ok p) ∨ ∃ v, (grammar linter text s).1 = .error (.undetectableDialect v)) := by
  refine ⟨fun p t h => ?_, fun v t h => ?_, ?_⟩
  · rcases grammar_cases hl text s with ⟨d, hd, hr, ho⟩ | ⟨_, hr, _⟩
    · rw [h] at hr ho
      cases hr
      obtain ⟨hp, earlier, later, hds, hearlier⟩ := oldest?_eq_some hd
      obtain ⟨report, rest, hreport, hlast⟩ := grammar_last h
      rw [ho] at hlast
      exact ⟨hp, ⟨earlier, later, hds, hearlier⟩, ho, report, rest, hreport, hlast⟩
    · rw [h] at hr
      cases hr
  · rcases grammar_cases hl text s with ⟨_, _, hr, _⟩ | ⟨hn, hr, ho⟩
    · rw [h] at hr
      cases hr
    · rw [h] at hr ho
      cases hr
      have ho : t.options = ⟨inDialect (settled answer text s.options.grammar) (8, .module), []⟩ := ho
      rw [ho]
      exact ⟨oldest?_eq_none_iff.1 hn, rfl, rfl, rfl, rfl⟩
  · rcases grammar_cases hl text s with ⟨_, _, hr, _⟩ | ⟨_, hr, _⟩
    · exact .inl ⟨_, hr⟩
    · exact .inr ⟨_, hr⟩

/-- A module with an element in it, from options for old scripts with a flag of their own and a rule left active. -/
theorem oldest_of_grammar_module :
    let answer : Call → Report := fun call =>
      if call.options.rules.isEmpty && call.options.grammar.has .jsx && call.options.grammar.sourceType == .module then
        .clean
      else .single [.parseError "Unexpected token"]
    let linter : Linter Nat := ⟨fun call calls => (.ok (answer call), calls + 1)⟩
    let s : Session Nat := ⟨⟨⟨3, .script, [("own", true), ("jsx", false)]⟩, [("no-var", .error)]⟩, 0, []⟩
    let p : Grammar := ⟨6, .module, [("own", true), ("jsx", true), ("globalReturn", true),
      ("experimentalObjectRestSpread", true)]⟩
    linter.Answers answer ∧ ∃ t, grammar linter "export default <a/>" s = (.ok p, t) ∧
      rejects answer "export default <a/>" p = false ∧
      (∃ earlier later, dialects = earlier ++ (p.version, p.sourceType) :: later ∧
        ∀ d ∈ earlier, rejects answer "export default <a/>" (inDialect p d) = true) ∧
      t.options = ⟨p, []⟩ ∧
      ∃ report rest, report.hasErrors = false ∧
        t.history = .call ⟨"export default <a/>", ⟨p, []⟩⟩ (.ok report) :: rest := by
  intro answer linter s p
  have hl : linter.Answers answer := fun _ _ => rfl
  have hr : (grammar linter "export default <a/>" s).1 = .ok p := by cbv
  obtain ⟨t, h⟩ := Engine.exists_of_fst_eq hr
  exact ⟨hl, t, h, (oldest_of_grammar hl s).1 p t h⟩

end Grammar

end LintInference.Probe
