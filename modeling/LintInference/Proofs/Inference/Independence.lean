import LintInference.Proofs.Entries
import LintInference.Proofs.Inference.FirstMatch
import LintInference.Proofs.Probe.Search

/-!
# Rules do not influence each other

With a linter that answers as a function, the grammar that an inference finds depends on the text alone
(`Inference.grammar_eq`), and what it has for a rule depends on the grammar and the schema of that rule
(`Inference.suggestion_congr`). So any two inferences for one text agree about the rules that they share. The order in
which the rules of a registry were entered is not even seen: every run goes the same way (`Inference.run_eq_of_perm`).
-/

namespace LintInference

open Schema (bind_eq_ok_iff)

variable {σ : Type} {linter : Linter σ} {answer : Call → Report} {registry registry' : Registry} {text rule : String}

namespace Registry

/-- The registry that results from entering the rules one after the other. -/
def ofInsertions (es : List (String × Json)) : Registry := es.foldl (fun r e => r.insert e.1 e.2) {}

theorem schemas_ofInsertions (es : List (String × Json)) : (ofInsertions es).schemas = Entries.ofList es := by
  induction es using List.reverseRecOn with
  | nil => rfl
  | append_singleton es e ih =>
    rw [ofInsertions, List.foldl_append, Entries.ofList_concat, ← ih]
    rfl

theorem schema_congr (h : Entries.get? registry.schemas rule = Entries.get? registry'.schemas rule) :
    registry.schema rule = registry'.schema rule := by rw [schema, schema, h]

end Registry

namespace Inference

open Suggestion (suggestion suggest)

/-! ## One rule -/

/-- A suggestion depends on the schema of its own rule, and on no other. -/
theorem suggestion_congr (h : Entries.get? registry.schemas rule = Entries.get? registry'.schemas rule) (g : Grammar) :
    suggestion answer registry text g rule = suggestion answer registry' text g rule := by
  rw [suggestion, suggestion, Registry.schema_congr h]

/-- The grammar is found before any rule is looked at. -/
theorem grammar_eq (hl : linter.Answers answer) {selection selection' : Selection} {s s' : Session σ} {i i' : Inferred}
    (h : (run linter registry selection text s).1 = .ok i) (h' : (run linter registry' selection' text s').1 = .ok i') :
    i.grammar = i'.grammar := by
  have hg (u : Session σ) (hu : u.options = .initial) := (Probe.grammar_takes hl text .initial u hu).1
  have hok := (hg { s with options := .initial } rfl).symm.trans ((run_eq_ok_iff hl).1 h).1
  have hok' := (hg { s' with options := .initial } rfl).symm.trans ((run_eq_ok_iff hl).1 h').1
  exact Except.ok.inj (hok.symm.trans hok')

/-- An inference has the suggestion for each rule that takes part, under the grammar that it returns. -/
theorem rule?_of_run (hl : linter.Answers answer) {selection : Selection} {s : Session σ} {i : Inferred}
    (h : (run linter registry selection text s).1 = .ok i) (hr : rule ∈ selected registry selection) :
    ∃ c, i.rule? rule = some c ∧ suggestion answer registry text i.grammar rule = .ok c := by
  obtain ⟨hk, he⟩ := suggestions_eq_ok ((run_eq_ok_iff hl).1 h).2
  obtain ⟨c, hc, hm⟩ := Entries.exists_get?_of_mem_keys (hk ▸ hr)
  exact ⟨c, hc, he _ hm⟩

/-! ## The registry in a run -/

theorem suggest_congr (h : Entries.get? registry.schemas rule = Entries.get? registry'.schemas rule) :
    suggest linter registry text rule = suggest linter registry' text rule := by
  rw [suggest, suggest, Registry.schema_congr h]

theorem suggestEach_congr (total completed : Nat) {rules : List String}
    (h : ∀ rule ∈ rules, Entries.get? registry.schemas rule = Entries.get? registry'.schemas rule) :
    suggestEach linter registry text total completed rules =
      suggestEach linter registry' text total completed rules := by
  induction rules generalizing completed with
  | nil => rfl
  | cons rule rules ih =>
    obtain ⟨hrule, hrules⟩ := List.forall_mem_cons.1 h
    rw [suggestEach, suggestEach, suggest_congr hrule, ih (completed + 1) hrules]

/-- Rules in ascending order do not show the order in which they came. -/
theorem selected_eq_of_perm {selection : Selection}
    (hp : (registry.schemas.keys.filter selection.includes).Perm (registry'.schemas.keys.filter selection.includes)) :
    selected registry selection = selected registry' selection :=
  List.Perm.eq_of_pairwise (fun _ _ _ _ => String.le_antisymm) ((names_pairwise registry).filter _)
    ((names_pairwise registry').filter _)
    ((selected_perm registry selection).trans (hp.trans (selected_perm registry' selection).symm))

/-- A run reads of a registry which rules take part, and their schemas. -/
theorem run_congr {selection : Selection} (hs : selected registry selection = selected registry' selection)
    (h : ∀ rule ∈ selected registry' selection,
      Entries.get? registry.schemas rule = Entries.get? registry'.schemas rule) :
    run linter registry selection text = run linter registry' selection text := by
  simp only [run, hs, suggestEach_congr _ _ h]

/-! ## The order of the registry -/

section Order

variable (hk : registry.schemas.keys.Nodup) (hp : registry.schemas.Perm registry'.schemas)

include hk hp

/-- Nothing in a run depends on the order of the registry, whatever linter is asked. -/
theorem run_eq_of_perm (selection : Selection) :
    run linter registry selection text = run linter registry' selection text := by
  exact run_congr (selected_eq_of_perm ((Entries.keys_perm hp).filter _)) fun rule _ =>
    Entries.get?_eq_of_perm hk hp rule

end Order

/-- Two inferences for one text, with whatever registries and selections and in whatever sessions, have the same
grammar, and the same candidate for each rule that takes part in both and has one schema. A registry of the same rules,
entered in another order, gives the same run. -/
theorem rule?_eq_of_run (hl : linter.Answers answer) (text : String) :
    (∀ (registry registry' : Registry) (selection selection' : Selection) (s s' : Session σ) (i i' : Inferred),
      (run linter registry selection text s).1 = .ok i → (run linter registry' selection' text s').1 = .ok i' →
        i.grammar = i'.grammar ∧
          ∀ rule ∈ selected registry selection, rule ∈ selected registry' selection' →
            Entries.get? registry.schemas rule = Entries.get? registry'.schemas rule →
              ∃ c, i.rule? rule = some c ∧ i'.rule? rule = some c) ∧
    ∀ es es' : List (String × Json), es.Perm es' → (∀ e ∈ es, ∀ f ∈ es, e.1 = f.1 → e.2 = f.2) →
      ∀ selection, run linter (.ofInsertions es) selection text = run linter (.ofInsertions es') selection text := by
  refine ⟨fun registry registry' selection selection' s s' i i' h h' => ?_, fun es es' hp hv selection => ?_⟩
  · have hg := grammar_eq hl h h'
    refine ⟨hg, fun rule hr hr' hschema => ?_⟩
    obtain ⟨c, hc, hs⟩ := rule?_of_run hl h hr
    obtain ⟨c', hc', hs'⟩ := rule?_of_run hl h' hr'
    rw [← hg, ← suggestion_congr hschema, hs] at hs'
    cases hs'
    exact ⟨c, hc, hc'⟩
  · refine run_eq_of_perm ?_ ?_ selection
    · rw [Registry.schemas_ofInsertions]
      exact Entries.nodup_keys_ofList es
    · rw [Registry.schemas_ofInsertions, Registry.schemas_ofInsertions]
      exact Entries.ofList_perm hp hv

/-- A rule shared by two registries, next to a rule that is turned off in one and to a rule that is skipped in the
other; and the first registry entered the other way round. -/
theorem rule?_eq_of_run_quotes :
    let schema : Json := .object [("enum", .array [.string "double", .string "single"])]
    let registry : Registry := .ofInsertions [("no-var", .array []), ("quotes", schema)]
    let registry' : Registry := .ofInsertions [("quotes", schema), ("semi", .array [])]
    let answer : Call → Report := fun
      | ⟨_, ⟨_, []⟩⟩ => .clean
      | ⟨_, ⟨_, [(_, [_, .string "single"])]⟩⟩ => .clean
      | _ => .single [.violation "" "Unexpected."]
    let linter : Linter Unit := ⟨fun call state => (.ok (answer call), state)⟩
    let grammar : Grammar := ⟨3, .script, [("globalReturn", false), ("impliedStrict", true), ("jsx", false),
      ("experimentalObjectRestSpread", false)]⟩
    let i : Inferred := ⟨grammar, [("no-var", .off), ("quotes", [.string "error", .string "single"])]⟩
    let i' : Inferred := ⟨grammar, [("quotes", [.string "error", .string "single"])]⟩
    let s : Session Unit := ⟨.initial, (), []⟩
    linter.Answers answer ∧ (run linter registry ⟨[], none⟩ "var x" s).1 = .ok i ∧
      (run linter registry' ⟨["semi"], none⟩ "var x" s).1 = .ok i' ∧
      (∃ c, i.rule? "quotes" = some c ∧ i'.rule? "quotes" = some c) ∧
      run linter registry ⟨[], none⟩ "var x" =
        run linter (.ofInsertions [("quotes", schema), ("no-var", .array [])]) ⟨[], none⟩ "var x" := by
  intro schema registry registry' answer linter grammar i i' s
  have hl : linter.Answers answer := fun _ _ => rfl
  have hg : (Probe.grammar linter "var x" s).1 = .ok grammar := by rfl
  have hnames : registry.names = ["no-var", "quotes"] := List.mergeSort_of_pairwise (by decide)
  have hnames' : registry'.names = ["quotes", "semi"] := List.mergeSort_of_pairwise (by decide)
  have hselected : selected registry ⟨[], none⟩ = ["no-var", "quotes"] := by
    rw [selected, hnames]
    rfl
  have hselected' : selected registry' ⟨["semi"], none⟩ = ["quotes"] := by
    rw [selected, hnames']
    rfl
  have hvar : suggestion answer registry "var x" grammar "no-var" = .ok .off := by
    have hcs : Schema.unconstrained.candidates = .ok [[.string "error"]] := by cbv
    have hschema : registry.schema "no-var" = .ok .unconstrained := by rfl
    rw [suggestion, hschema, bind_eq_ok_iff]
    exact ⟨_, rfl, bind_eq_ok_iff.2 ⟨_, hcs, rfl⟩⟩
  have hquotes : suggestion answer registry "var x" grammar "quotes" = .ok [.string "error", .string "single"] := by
    have hcs : (Schema.enumeration [.string "double", .string "single"]).candidates =
        .ok [[.string "error", .string "double"], [.string "error", .string "single"]] := by cbv
    have hschema : registry.schema "quotes" = .ok (.enumeration [.string "double", .string "single"]) := by rfl
    rw [suggestion, hschema, bind_eq_ok_iff]
    exact ⟨_, rfl, bind_eq_ok_iff.2 ⟨_, hcs, rfl⟩⟩
  have hsame : Entries.get? registry.schemas "quotes" = Entries.get? registry'.schemas "quotes" := by rfl
  have h : (run linter registry ⟨[], none⟩ "var x" s).1 = .ok i := by
    refine (run_eq_ok_iff hl).2 ⟨hg, ?_⟩
    rw [hselected, suggestions, suggestions, suggestions, hvar, hquotes]
    rfl
  have h' : (run linter registry' ⟨["semi"], none⟩ "var x" s).1 = .ok i' := by
    refine (run_eq_ok_iff hl).2 ⟨hg, ?_⟩
    rw [hselected', suggestions, suggestions, ← suggestion_congr hsame, hquotes]
    rfl
  have hboth := (rule?_eq_of_run hl "var x").1 registry registry' ⟨[], none⟩ ⟨["semi"], none⟩ s s i i' h h'
  exact ⟨hl, h, h', hboth.2 "quotes" (by simp [hselected]) (by simp [hselected']) hsame,
    (rule?_eq_of_run hl "var x").2 _ _ (.swap _ _ _) (by simp) ⟨[], none⟩⟩

end Inference

end LintInference
