import LintInference.Proofs.Inference.FirstMatch
import LintInference.Proofs.Probe.Search
import Mathlib.Algebra.GroupWithZero.Nat

/-!
# All rules at once

An inference has the linter look at one rule at a time, or at none. What it writes has all rules active together. If the
errors of a linter add up over the active rules (`Additive`), that makes no difference: the probes have shown that there
are no errors without rules, and the tries that no rule adds any (`Suggestion.errors_of_suggestion`), so the whole
outcome has none (`Inference.hasErrors_together_of_run`).
-/

namespace LintInference

variable {σ : Type} {linter : Linter σ} {answer : Call → Report} {registry : Registry} {text rule : String} {g : Grammar}
  {base : Grammar → Nat} {errors : Grammar → String → Candidate → Nat}

/-- The reports on a text are each built over a single unit, with the errors that there are without rules and those that
each active rule adds. A rule that is turned off adds none. -/
structure Additive (answer : Call → Report) (text : String) (base : Grammar → Nat)
    (errors : Grammar → String → Candidate → Nat) : Prop where
  single : ∀ g rules, ∃ unit, answer ⟨text, ⟨g, rules⟩⟩ = .ofResults [unit] ∧
    unit.errorCount = base g + (rules.map fun e => errors g e.1 e.2).sum
  off : ∀ g rule, errors g rule .off = 0

namespace Additive

variable (ha : Additive answer text base errors)
include ha

/-- The count of the whole report is that of its unit. -/
theorem errorCount_eq (g : Grammar) (rules : Entries Candidate) :
    (answer ⟨text, ⟨g, rules⟩⟩).errorCount = base g + (rules.map fun e => errors g e.1 e.2).sum := by
  obtain ⟨unit, hanswer, hcount⟩ := ha.single g rules
  rw [hanswer, ← hcount]
  rfl

theorem firstUnitErrors_eq (g : Grammar) (rules : Entries Candidate) :
    (answer ⟨text, ⟨g, rules⟩⟩).firstUnitErrors = base g + (rules.map fun e => errors g e.1 e.2).sum := by
  obtain ⟨unit, hanswer, hcount⟩ := ha.single g rules
  rw [hanswer, ← hcount]
  rfl

/-- There are no errors exactly if the grammar has none without rules and no active rule adds any. -/
theorem hasErrors_eq_false_iff {rules : Entries Candidate} : (answer ⟨text, ⟨g, rules⟩⟩).hasErrors = false ↔
    base g = 0 ∧ ∀ e ∈ rules, errors g e.1 e.2 = 0 := by
  rw [Report.hasErrors, ha.errorCount_eq, decide_eq_false_iff_not, Nat.not_lt, Nat.le_zero, Nat.add_eq_zero_iff,
    List.sum_eq_zero_iff_forall_eq_nat, List.forall_mem_map]

theorem rejects_eq_false_iff : Probe.rejects answer text g = false ↔ base g = 0 := by
  simp [Probe.rejects, ha.hasErrors_eq_false_iff]

theorem accepts_iff {c : Candidate} :
    Suggestion.accepts answer text g rule c = true ↔ base g = 0 ∧ errors g rule c = 0 := by
  simp [Suggestion.accepts, ha.firstUnitErrors_eq]

end Additive

/-- A suggestion adds no errors: either it passed, or it turns the rule off. -/
theorem Suggestion.errors_of_suggestion (ha : Additive answer text base errors) {c : Candidate}
    (h : suggestion answer registry text g rule = .ok c) : errors g rule c = 0 := by
  obtain ⟨schema, cs, _, _, rfl⟩ := suggestion_eq_ok h
  cases hf : cs.find? (accepts answer text g rule) with
  | none => exact ha.off g rule
  | some c => exact (ha.accepts_iff.1 (List.find?_some hf)).2

namespace Inference

/-- With all its rules active at once, under its own grammar, an inference has no errors. -/
theorem hasErrors_together_of_run (hl : linter.Answers answer) (ha : Additive answer text base errors)
    {selection : Selection} {s : Session σ} {i : Inferred} (h : (run linter registry selection text s).1 = .ok i) :
    (answer ⟨text, ⟨i.grammar, i.rules⟩⟩).hasErrors = false := by
  obtain ⟨hgrammar, hrules⟩ := (run_eq_ok_iff hl).1 h
  obtain ⟨d, hd, hi⟩ := (Probe.grammar_eq_ok_iff hl).1 hgrammar
  have haccepted : Probe.rejects answer text i.grammar = false := hi ▸ (Probe.oldest?_eq_some hd).1
  have hadded : ∀ e ∈ i.rules, errors i.grammar e.1 e.2 = 0 := fun e he =>
    Suggestion.errors_of_suggestion ha ((suggestions_eq_ok hrules).2 e he)
  exact ha.hasErrors_eq_false_iff.2 ⟨ha.rejects_eq_false_iff.1 haccepted, hadded⟩

/-- Old scripts have an error without rules, one rule has no configuration that passes, and the other passes with its
second candidate. -/
theorem hasErrors_together_of_run_quotes :
    let registry : Registry :=
      ⟨[("no-var", .array []), ("quotes", .object [("enum", .array [.string "double", .string "single"])])]⟩
    let base : Grammar → Nat := fun g => if g.version < 6 then 1 else 0
    let errors : Grammar → String → Candidate → Nat := fun _ _ c => match c with
      | [.string "error"] => 2
      | [_, .string "double"] => 1
      | _ => 0
    let answer : Call → Report := fun call => .ofResults [{ errorCount := base call.options.grammar +
      (call.options.rules.map fun e => errors call.options.grammar e.1 e.2).sum }]
    let linter : Linter Unit := ⟨fun call state => (.ok (answer call), state)⟩
    let grammar : Grammar := ⟨6, .script, [("globalReturn", false), ("impliedStrict", true), ("jsx", false),
      ("experimentalObjectRestSpread", false)]⟩
    let i : Inferred := ⟨grammar, [("no-var", .off), ("quotes", [.string "error", .string "single"])]⟩
    linter.Answers answer ∧ Additive answer "let x" base errors ∧
      (run linter registry ⟨[], none⟩ "let x" ⟨.initial, (), []⟩).1 = .ok i ∧
      (answer ⟨"let x", ⟨i.grammar, i.rules⟩⟩).hasErrors = false := by
  intro registry base errors answer linter grammar i
  have hl : linter.Answers answer := fun _ _ => rfl
  have ha : Additive answer "let x" base errors := ⟨fun _ _ => ⟨_, rfl, rfl⟩, fun _ _ => rfl⟩
  have hg : (Probe.grammar linter "let x" ⟨.initial, (), []⟩).1 = .ok grammar := by cbv
  have hnames : registry.names = ["no-var", "quotes"] := List.mergeSort_of_pairwise (by decide)
  have hselected : selected registry ⟨[], none⟩ = ["no-var", "quotes"] := by
    rw [selected, hnames]
    rfl
  have hquotes : registry.schema "quotes" = .ok (.enumeration [.string "double", .string "single"]) := by rfl
  have hcs : (Schema.enumeration [.string "double", .string "single"]).candidates =
      .ok [[.string "error", .string "double"], [.string "error", .string "single"]] := by cbv
  have hvar : registry.schema "no-var" = .ok .unconstrained := by rfl
  have hcs' : Schema.unconstrained.candidates = .ok [[.string "error"]] := by cbv
  have hs : suggestions answer registry "let x" grammar ["no-var", "quotes"] = .ok i.rules := by
    rw [suggestions, suggestions, suggestions, Suggestion.suggestion, Suggestion.suggestion, hquotes, hvar]
    simp only [bind, Except.bind]
    rw [hcs, hcs']
    rfl
  have h : (run linter registry ⟨[], none⟩ "let x" ⟨.initial, (), []⟩).1 = .ok i :=
    (run_eq_ok_iff hl).2 ⟨hg, hselected ▸ hs⟩
  exact ⟨hl, ha, h, hasErrors_together_of_run hl ha h⟩

end Inference

end LintInference
