import LintInference.Proofs.Inference.Independence
import LintInference.Proofs.Inference.Protocol
import LintInference.Proofs.Schema.Termination

/-!
# When an inference fails

With a linter that answers as a function, an inference has two ways to fail. The probes may find no dialect, and then no
rule is looked at. Or else a rule that takes part has a schema that enumeration fails on (`Registry.Breaks`), and then
the failure is that of the first such rule (`Inference.causes_of_run`). Names and schemas come from one registry, so a
rule that takes part is never unknown. A rule that takes no part is not even seen: a run is that of the part of the
registry which is selected (`Inference.run_part`).
-/

namespace LintInference

open Schema (bind_eq_error_iff map_eq_error_iff)

variable {σ : Type} {linter : Linter σ} {answer : Call → Report} {registry : Registry} {selection : Selection}
  {text rule : String} {g : Grammar} {e : Failure}

/-- Enumeration fails only on references. -/
theorem Schema.reference_of_candidates_error {s : Schema} (h : s.candidates = .error e) :
    (∃ name, e = .unresolvedReference name) ∨ ∃ name, e = .cyclicReference name :=
  (reference_of_enumerate_error h).1

namespace Registry

/-! ## Broken schemas -/

/-- The rule has a schema, and enumeration fails on it. -/
def Breaks (registry : Registry) (rule : String) (e : Failure) : Prop :=
  ∃ schema, registry.schema rule = .ok schema ∧ schema.candidates = .error e

/-- A rule that is known has a schema. -/
theorem exists_schema_of_mem_keys (h : rule ∈ registry.schemas.keys) : ∃ schema, registry.schema rule = .ok schema := by
  obtain ⟨v, hv, _⟩ := Entries.exists_get?_of_mem_keys h
  exact ⟨.ofJson v, by rw [schema, hv]⟩

theorem candidates_eq_error_iff_breaks (h : rule ∈ registry.schemas.keys) :
    registry.candidates rule = .error e ↔ registry.Breaks rule e := by
  obtain ⟨schema, hs⟩ := exists_schema_of_mem_keys h
  have hc : registry.candidates rule = schema.candidates := by
    rw [candidates, hs]
    rfl
  rw [hc, Breaks, hs]
  constructor
  · exact fun he => ⟨schema, rfl, he⟩
  · rintro ⟨_, ⟨⟩, he⟩
    exact he

/-! ## The part of a registry that is selected -/

/-- The registry without the rules that take no part. -/
def part (registry : Registry) (selection : Selection) : Registry :=
  ⟨registry.schemas.filter fun entry => selection.includes entry.1⟩

/-- What is entered for a rule that takes no part is not seen. -/
theorem part_insert (registry : Registry) (v : Json) (h : selection.includes rule = false) :
    (registry.insert rule v).part selection = registry.part selection := by
  rw [part, part, insert, Entries.filter_put h]

end Registry

namespace Suggestion

/-- A suggestion has what the candidates have, and no failure of its own. -/
theorem suggestion_eq_map : suggestion answer registry text g rule =
    (registry.candidates rule).map fun cs => (cs.find? (accepts answer text g rule)).getD .off := by
  rw [suggestion, Registry.candidates]
  cases registry.schema rule with
  | error e => rfl
  | ok schema =>
    show (schema.candidates >>= fun cs => _) = schema.candidates.map _
    cases schema.candidates <;> rfl

theorem suggestion_eq_error_iff :
    suggestion answer registry text g rule = .error e ↔ registry.candidates rule = .error e := by
  rw [suggestion_eq_map, map_eq_error_iff]

end Suggestion

namespace Inference

open Suggestion (suggestion suggestion_eq_error_iff)

/-! ## The first failure -/

theorem mem_selected_iff : rule ∈ selected registry selection ↔
    rule ∈ registry.schemas.keys ∧ selection.includes rule = true := by
  rw [(selected_perm registry selection).mem_iff, List.mem_filter]

/-- The rule takes part and has a broken schema, and no rule before it has. -/
structure FirstBroken (registry : Registry) (selection : Selection) (rule : String) (e : Failure) : Prop where
  selected : rule ∈ selected registry selection
  breaks : registry.Breaks rule e
  first : ∀ rule' ∈ Inference.selected registry selection, ∀ e', registry.Breaks rule' e' →
    Text.toBytes rule ≤ Text.toBytes rule'

/-- There is no more than one such rule. -/
theorem FirstBroken.failure_unique {rule' : String} {e' : Failure} (h : FirstBroken registry selection rule e)
    (h' : FirstBroken registry selection rule' e') : e = e' := by
  have hle := Text.toBytes_le_iff.1 (h.first rule' h'.selected e' h'.breaks)
  have hge := Text.toBytes_le_iff.1 (h'.first rule h.selected e h.breaks)
  obtain rfl := String.le_antisymm hle hge
  obtain ⟨schema, hs, he⟩ := h.breaks
  obtain ⟨schema', hs', he'⟩ := h'.breaks
  cases hs.symm.trans hs'
  exact Except.error.inj (he.symm.trans he')

theorem FirstBroken.reference (h : FirstBroken registry selection rule e) :
    (∃ name, e = .unresolvedReference name) ∨ ∃ name, e = .cyclicReference name := by
  obtain ⟨schema, _, he⟩ := h.breaks
  exact Schema.reference_of_candidates_error he

/-- Suggestions fail at a rule before which all have one. -/
theorem exists_first_of_suggestions_error {rules : List String}
    (h : suggestions answer registry text g rules = .error e) : ∃ earlier rule later, rules = earlier ++ rule :: later ∧
      (∀ rule' ∈ earlier, ∃ c, suggestion answer registry text g rule' = .ok c) ∧
        suggestion answer registry text g rule = .error e := by
  induction rules with
  | nil => cases h
  | cons rule rules ih =>
    rcases bind_eq_error_iff.1 h with he | ⟨c, hc, h⟩
    · exact ⟨[], rule, rules, rfl, nofun, he⟩
    · rcases bind_eq_error_iff.1 h with hrest | ⟨others, _, h⟩
      · obtain ⟨earlier, rule', later, rfl, hearlier, he⟩ := ih hrest
        exact ⟨rule :: earlier, rule', later, rfl, List.forall_mem_cons.2 ⟨⟨c, hc⟩, hearlier⟩, he⟩
      · cases h

theorem suggestion_eq_error_iff_breaks (h : rule ∈ selected registry selection) :
    suggestion answer registry text g rule = .error e ↔ registry.Breaks rule e :=
  suggestion_eq_error_iff.trans (Registry.candidates_eq_error_iff_breaks (mem_selected_iff.1 h).1)

/-- Where all rules that take part have a suggestion, none of them has a broken schema. -/
theorem not_breaks_of_suggestions_ok {es : Entries Candidate}
    (h : suggestions answer registry text g (selected registry selection) = .ok es)
    (hr : rule ∈ selected registry selection) : ¬ registry.Breaks rule e := by
  intro hbreaks
  obtain ⟨hk, hes⟩ := suggestions_eq_ok h
  obtain ⟨c, _, hc⟩ := Entries.exists_get?_of_mem_keys (hk ▸ hr)
  cases (hes _ hc).symm.trans ((suggestion_eq_error_iff_breaks hr).2 hbreaks)

theorem firstBroken_of_suggestions_error
    (h : suggestions answer registry text g (selected registry selection) = .error e) :
    ∃ rule, FirstBroken registry selection rule e := by
  obtain ⟨earlier, rule, later, hsplit, hearlier, he⟩ := exists_first_of_suggestions_error h
  have hmem : rule ∈ selected registry selection := by simp [hsplit]
  refine ⟨rule, hmem, (suggestion_eq_error_iff_breaks hmem).1 he, fun rule' hmem' e' hbreaks => ?_⟩
  have hsorted := selected_pairwise registry selection
  rw [hsplit, List.pairwise_append, List.pairwise_cons] at hsorted
  have hmem := hmem'
  rw [hsplit, List.mem_append, List.mem_cons] at hmem
  rcases hmem with hmem | rfl | hmem
  · obtain ⟨c, hc⟩ := hearlier rule' hmem
    cases hc.symm.trans ((suggestion_eq_error_iff_breaks hmem').2 hbreaks)
  · exact Text.toBytes_le_iff.2 (String.le_refl _)
  · exact hsorted.2.1.1 rule' hmem

/-- The suggestions for the rules that take part fail exactly as the first rule with a broken schema does. -/
theorem suggestions_eq_error_iff : suggestions answer registry text g (selected registry selection) = .error e ↔
    ∃ rule, FirstBroken registry selection rule e := by
  refine ⟨firstBroken_of_suggestions_error, fun ⟨rule, hfirst⟩ => ?_⟩
  cases h : suggestions answer registry text g (selected registry selection) with
  | error e' =>
    obtain ⟨rule', hfirst'⟩ := firstBroken_of_suggestions_error h
    rw [hfirst.failure_unique hfirst']
  | ok es => exact absurd hfirst.breaks (not_breaks_of_suggestions_ok h hfirst.selected)

/-! ## The whole run -/

/-- The result of a run: the suggestions under the grammar that the probes find. -/
theorem run_fst (hl : linter.Answers answer) (s : Session σ) : (run linter registry selection text s).1 =
    (Probe.grammar linter text { s with options := .initial }).1 >>= fun g =>
      (suggestions answer registry text g (selected registry selection)).map (⟨g, ·⟩) := by
  have hrun : (run linter registry selection text s).1 =
      ((Probe.grammar linter text >>= conclude linter registry text (selected registry selection))
        { s with options := .initial }).1 := rfl
  rw [hrun]
  rcases Engine.bind_cases (Probe.grammar linter text) (conclude linter registry text (selected registry selection))
    { s with options := .initial } with ⟨e, he, h⟩ | ⟨g, hg, h⟩
  · rw [h, he]
    rfl
  · have ht := Probe.grammar_eq_ok (Prod.ext hg rfl)
    rw [h, hg, (conclude_apply _ _ _ _ _ _).1, (suggestEach_gives hl _ _ 0 _ ht).1]
    rfl

/-- A run sees only the rules that take part. -/
theorem run_part (linter : Linter σ) (registry : Registry) (selection : Selection) (text : String) :
    run linter (registry.part selection) selection text = run linter registry selection text := by
  refine run_congr (selected_eq_of_perm ?_) fun rule hrule => Entries.get?_filter (mem_selected_iff.1 hrule).2
  rw [Registry.part, Entries.keys_filter, List.filter_filter]
  simp

/-- Why an inference fails, given what the probes find under the most permissive options. -/
structure Causes (registry : Registry) (selection : Selection) (probes : Except Failure Grammar)
    (result : Except Failure Inferred) : Prop where
  /-- There are two reasons, and no other. -/
  reasons : (∃ e, result = .error e) ↔
    (∃ e, probes = .error e) ∨ ∃ rule ∈ selected registry selection, ∃ e, registry.Breaks rule e
  /-- Without a grammar no rule is looked at. -/
  dialect : ∀ e, probes = .error e → result = .error e ∧ e = .undetectableDialect 8
  /-- With a grammar the failure is that of the first rule with a broken schema. -/
  first : ∀ g, probes = .ok g → ∀ e, result = .error e ↔ ∃ rule, FirstBroken registry selection rule e
  /-- Such a rule has a reference that is not defined, or that is met again. -/
  reference : ∀ rule e, FirstBroken registry selection rule e →
    (∃ name, e = .unresolvedReference name) ∨ ∃ name, e = .cyclicReference name
  /-- All rules that take part are known. -/
  known : ∀ rule message, result ≠ .error (.registry rule message)

namespace Causes

theorem undetectable :
    Causes registry selection (.error (.undetectableDialect 8)) (.error (.undetectableDialect 8)) where
  reasons := iff_of_true ⟨_, rfl⟩ (.inl ⟨_, rfl⟩)
  dialect e h := by
    cases h
    exact ⟨rfl, rfl⟩
  first := nofun
  reference _ _ := FirstBroken.reference
  known := nofun

/-- Under a grammar the suggestions decide. -/
theorem of_grammar (answer : Call → Report) (registry : Registry) (selection : Selection) (text : String)
    (g : Grammar) : Causes registry selection (.ok g)
      ((suggestions answer registry text g (selected registry selection)).map (⟨g, ·⟩)) where
  reasons := by
    simp only [map_eq_error_iff]
    cases h : suggestions answer registry text g (selected registry selection) with
    | error e =>
      obtain ⟨rule, hfirst⟩ := suggestions_eq_error_iff.1 h
      exact iff_of_true ⟨e, rfl⟩ (.inr ⟨rule, hfirst.selected, e, hfirst.breaks⟩)
    | ok es =>
      refine iff_of_false nofun ?_
      rintro (⟨e, ⟨⟩⟩ | ⟨rule, hr, e, hbreaks⟩)
      exact not_breaks_of_suggestions_ok h hr hbreaks
  dialect := nofun
  first _ _ e := map_eq_error_iff.trans suggestions_eq_error_iff
  reference _ _ := FirstBroken.reference
  known rule message h := by
    obtain ⟨_, hfirst⟩ := suggestions_eq_error_iff.1 (map_eq_error_iff.1 h)
    rcases hfirst.reference with ⟨_, ⟨⟩⟩ | ⟨_, ⟨⟩⟩

end Causes

end Inference

end LintInference
