import LintInference.Inference
import LintInference.Proofs.Linter.Answers
import LintInference.Proofs.Schema.Suffixes
import LintInference.Proofs.Text.ByteOrder

/-!
# The first match is chosen

With a linter that answers as a function, what is suggested for a rule is a function of the grammar alone
(`Suggestion.suggest_gives`): neither the probes nor the rules before it have a part in it. An inference therefore finds
the first match of each rule under the grammar that it returns (`Inference.firstMatches_of_run`).
-/

namespace LintInference

open Schema (bind_eq_ok_iff pure_eq_ok_iff)

variable {σ : Type} {linter : Linter σ} {answer : Call → Report} {registry : Registry} {text rule : String} {g : Grammar}

namespace Suggestion

/-- Has the first unit no errors under the grammar, with the rule in the given configuration as the only one? -/
def accepts (answer : Call → Report) (text : String) (g : Grammar) (rule : String) (c : Candidate) : Bool :=
  (answer ⟨text, ⟨g, [(rule, c)]⟩⟩).firstUnitErrors == 0

/-- What is suggested for a rule under a grammar. -/
def suggestion (answer : Call → Report) (registry : Registry) (text : String) (g : Grammar) (rule : String) :
    Except Failure Candidate := do
  let schema ← registry.schema rule
  let candidates ← schema.candidates
  return (candidates.find? (accepts answer text g rule)).getD .off

/-! ## What the runs give -/

/-- The options that a configuration is tried under have the grammar of the session and that rule alone. -/
theorem passes_gives (hl : linter.Answers answer) (c : Candidate) :
    (passes linter text rule c).Gives g (.ok (accepts answer text g rule c)) := by
  intro s hs
  obtain ⟨t, ha, ht⟩ := Engine.ask_apply hl text { s with options := s.options.setOnlyRule rule c }
  have hp : passes linter text rule c s = (.ok (accepts answer text g rule c), t) := by
    subst hs
    rw [passes, Engine.modify_bind_apply, Engine.bind_apply, ha]
    rfl
  rw [hp]
  refine ⟨rfl, ?_⟩
  rw [ht]
  exact hs

/-- Candidates are tried in order until one passes. -/
theorem firstPassing_gives (hl : linter.Answers answer) (cs : List Candidate) :
    (firstPassing linter text rule cs).Gives g (.ok (cs.find? (accepts answer text g rule))) := by
  induction cs with
  | nil => exact .pure none
  | cons c cs ih =>
    refine .bind_ok (passes_gives hl c) ?_
    cases hc : accepts answer text g rule c with
    | true =>
      rw [List.find?_cons_of_pos hc]
      exact .pure (some c)
    | false =>
      rw [List.find?_cons_of_neg (by rw [hc]; decide)]
      exact ih

/-- The suggestion depends on what came before in the grammar alone. -/
theorem suggest_gives (hl : linter.Answers answer) :
    (suggest linter registry text rule).Gives g (suggestion answer registry text g rule) := by
  refine .bind (.lift _) fun schema => .bind (.lift _) fun cs => ?_
  exact .bind_ok (firstPassing_gives hl cs) (.pure _)

/-! ## What is suggested -/

/-- No candidate of a schema turns the rule off, as each one starts with another severity. -/
theorem isOff_eq_false {schema : Schema} {cs : List Candidate} (h : schema.candidates = .ok cs) {c : Candidate}
    (hc : c ∈ cs) : c.isOff = false := by
  obtain ⟨c₀, h₀, w, rfl⟩ := Schema.prefix_of_mem_enumerate h hc
  rw [List.mem_singleton.1 h₀]
  cases w <;> rfl

/-- A suggestion turns the rule off if, and only if, no candidate passes. -/
theorem isOff_getD_find? {schema : Schema} {cs : List Candidate} (h : schema.candidates = .ok cs)
    (p : Candidate → Bool) : ((cs.find? p).getD .off).isOff = true ↔ ∀ c ∈ cs, p c = false := by
  cases hf : cs.find? p with
  | none => exact iff_of_true Candidate.isOff_off fun c hc => by simpa using List.find?_eq_none.1 hf c hc
  | some c =>
    have hp := List.find?_some hf
    have hc := List.mem_of_find?_eq_some hf
    refine iff_of_false ?_ fun hn => ?_
    · rw [Option.getD_some, isOff_eq_false h hc]
      decide
    · rw [hn c hc] at hp
      cases hp

theorem suggestion_eq_ok {c : Candidate} (h : suggestion answer registry text g rule = .ok c) :
    ∃ schema cs, registry.schema rule = .ok schema ∧ schema.candidates = .ok cs ∧
      c = (cs.find? (accepts answer text g rule)).getD .off := by
  obtain ⟨schema, hs, h⟩ := bind_eq_ok_iff.1 h
  obtain ⟨cs, hc, h⟩ := bind_eq_ok_iff.1 h
  exact ⟨schema, cs, hs, hc, (pure_eq_ok_iff.1 h).symm⟩

end Suggestion

/-- The probes leave the session under the grammar that they find. -/
theorem Probe.grammar_eq_ok {s t : Session σ} (h : Probe.grammar linter text s = (.ok g, t)) :
    t.options.grammar = g := by
  obtain ⟨_, _, _, h⟩ := Engine.bind_apply_eq_ok_iff.1 h
  obtain ⟨_, _, _, h⟩ := Engine.bind_apply_eq_ok_iff.1 h
  obtain ⟨_, _, _, h⟩ := Engine.bind_apply_eq_ok_iff.1 h
  obtain ⟨_, _, _, h⟩ := Engine.bind_apply_eq_ok_iff.1 h
  cases h
  rfl

namespace Inference

open Suggestion

/-- The suggestions for rules under a grammar. -/
def suggestions (answer : Call → Report) (registry : Registry) (text : String) (g : Grammar) :
    List String → Except Failure (Entries Candidate)
  | [] => return []
  | rule :: rules => do
    let suggestion ← suggestion answer registry text g rule
    let others ← suggestions answer registry text g rules
    return (rule, suggestion) :: others

/-- No suggestion has a part in those after it. -/
theorem suggestEach_gives (hl : linter.Answers answer) (total : Nat) (rules : List String) :
    ∀ completed, (suggestEach linter registry text total completed rules).Gives g
      (suggestions answer registry text g rules) := by
  induction rules with
  | nil => exact fun _ => .pure []
  | cons rule rules ih =>
    intro completed
    refine .bind_ok (.report _) (.bind (suggest_gives hl) fun c => .bind (ih (completed + 1)) fun others => ?_)
    exact .pure _

theorem suggestions_eq_ok {rules : List String} : ∀ {es : Entries Candidate},
    suggestions answer registry text g rules = .ok es →
      Entries.keys es = rules ∧ ∀ e ∈ es, suggestion answer registry text g e.1 = .ok e.2 := by
  induction rules with
  | nil =>
    intro es h
    cases h
    exact ⟨rfl, fun e he => nomatch he⟩
  | cons rule rules ih =>
    intro es h
    obtain ⟨c, hc, h⟩ := bind_eq_ok_iff.1 h
    obtain ⟨others, ho, h⟩ := bind_eq_ok_iff.1 h
    cases h
    obtain ⟨hk, he⟩ := ih ho
    refine ⟨congrArg (rule :: ·) hk, fun e hm => ?_⟩
    rcases List.mem_cons.1 hm with rfl | hm
    · exact hc
    · exact he e hm

/-- An inference is the outcome of the probes, with what is suggested under its grammar. -/
theorem run_eq_ok_iff (hl : linter.Answers answer) {selection : Selection} {s : Session σ} {i : Inferred} :
    (run linter registry selection text s).1 = .ok i ↔
      (Probe.grammar linter text { s with options := .initial }).1 = .ok i.grammar ∧
        suggestions answer registry text i.grammar (selected registry selection) = .ok i.rules := by
  have hs {g : Grammar} {t : Session σ} (hg : Probe.grammar linter text { s with options := .initial } = (.ok g, t)) :
      (suggestEach linter registry text (selected registry selection).length 0 (selected registry selection) t).1 =
        suggestions answer registry text g (selected registry selection) :=
    (suggestEach_gives hl _ _ 0 t (Probe.grammar_eq_ok hg)).1
  rw [run, Engine.apart_fst_eq_ok_iff]
  constructor
  · rintro ⟨v, h⟩
    obtain ⟨g, t, hg, h⟩ := Engine.bind_apply_eq_ok_iff.1 h
    obtain ⟨es, u, he, h⟩ := Engine.bind_apply_eq_ok_iff.1 h
    have hes := hs hg
    rw [he] at hes
    cases h
    exact ⟨by rw [hg], hes.symm⟩
  · rintro ⟨hg, he⟩
    rcases hp : Probe.grammar linter text { s with options := .initial } with ⟨r, t⟩
    rw [hp] at hg
    subst hg
    rw [← hs hp] at he
    rcases hes : suggestEach linter registry text (selected registry selection).length 0 (selected registry selection) t
      with ⟨r, u⟩
    rw [hes] at he
    subst he
    exact ⟨_, Engine.bind_apply_eq_ok_iff.2 ⟨_, t, hp, Engine.bind_apply_eq_ok_iff.2 ⟨_, u, hes, rfl⟩⟩⟩

/-- The rules that take part are those of the registry, in order. -/
theorem selected_perm (registry : Registry) (selection : Selection) :
    (selected registry selection).Perm (registry.schemas.keys.filter selection.includes) :=
  (List.mergeSort_perm _ _).filter _

theorem names_pairwise (registry : Registry) : registry.names.Pairwise (· ≤ ·) := by
  have hs : registry.names.Pairwise fun a b => decide (a ≤ b) = true :=
    List.pairwise_mergeSort (fun a b c hab hbc => ?_) (fun a b => ?_) _
  · exact hs.imp of_decide_eq_true
  · exact decide_eq_true (String.le_trans (of_decide_eq_true hab) (of_decide_eq_true hbc))
  · simpa using String.le_total a b

theorem selected_pairwise (registry : Registry) (selection : Selection) :
    (selected registry selection).Pairwise fun a b => Text.toBytes a ≤ Text.toBytes b :=
  ((names_pairwise registry).filter _).imp Text.toBytes_le_iff.2

/-- The rules turned off are those with a suggestion to that end. -/
theorem mem_disabled_iff {i : Inferred} : rule ∈ i.disabled ↔ ∃ c, (rule, c) ∈ i.rules ∧ c.isOff = true := by
  simp only [Inferred.disabled, Entries.keys, List.mem_map, List.mem_filter]
  constructor
  · rintro ⟨⟨_, c⟩, h, rfl⟩
    exact ⟨c, h⟩
  · rintro ⟨c, h⟩
    exact ⟨(rule, c), h, rfl⟩

/-- What an inference has under its own grammar, for a linter with the given answers. -/
structure FirstMatches (answer : Call → Report) (registry : Registry) (selection : Selection) (text : String)
    (i : Inferred) : Prop where
  /-- The rules are those of the registry that take part. -/
  names : i.rules.keys.Perm (registry.schemas.keys.filter selection.includes)
  /-- They stand in ascending order of the bytes of their names. -/
  ascending : i.rules.keys.Pairwise fun a b => Text.toBytes a ≤ Text.toBytes b
  /-- Each has its first candidate that passes, and is turned off exactly if none does. -/
  matched : ∀ rule ∈ i.rules.keys, ∃ schema cs, registry.schema rule = .ok schema ∧ schema.candidates = .ok cs ∧
    (∀ k (hk : k < cs.length), accepts answer text i.grammar rule cs[k] = true →
      (∀ j (hj : j < k), accepts answer text i.grammar rule cs[j] = false) → i.rule? rule = some cs[k]) ∧
    (i.rule? rule = some .off ↔ ∀ c ∈ cs, accepts answer text i.grammar rule c = false) ∧
    (rule ∈ i.disabled ↔ ∀ c ∈ cs, accepts answer text i.grammar rule c = false)
  /-- Only rules that take part are listed as turned off, in the same order. -/
  disabled_sublist : i.disabled.Sublist i.rules.keys

/-- An inference that succeeds has the first match of every rule that takes part, whatever the state of the linter and
of the session. -/
theorem firstMatches_of_run (hl : linter.Answers answer) {selection : Selection} {s : Session σ} {i : Inferred}
    (h : (run linter registry selection text s).1 = .ok i) : FirstMatches answer registry selection text i := by
  obtain ⟨hk, he⟩ := suggestions_eq_ok ((run_eq_ok_iff hl).1 h).2
  refine ⟨hk ▸ selected_perm registry selection, hk ▸ selected_pairwise registry selection, fun rule hr => ?_,
    List.filter_sublist.map _⟩
  obtain ⟨c, hget, hc⟩ := Entries.exists_get?_of_mem_keys hr
  have hsug : suggestion answer registry text i.grammar rule = .ok c := he _ hc
  obtain ⟨schema, cs, hs, hcs, rfl⟩ := suggestion_eq_ok hsug
  have hoff := isOff_getD_find? hcs (accepts answer text i.grammar rule)
  refine ⟨schema, cs, hs, hcs, fun k hk hp hj => ?_, ?_, ?_⟩
  · have hf : cs.find? (accepts answer text i.grammar rule) = some cs[k] :=
      List.find?_eq_some_iff_getElem.2 ⟨hp, k, hk, rfl, fun j hjk => by rw [hj j hjk]; rfl⟩
    rw [Inferred.rule?, hget, hf, Option.getD_some]
  · rw [← hoff, Inferred.rule?, hget, Option.some_inj]
    refine ⟨fun h => by rw [h]; exact Candidate.isOff_off, fun h => ?_⟩
    rw [List.find?_eq_none.2 fun c hc => by rw [hoff.1 h c hc]; decide, Option.getD_none]
  · rw [← hoff, mem_disabled_iff]
    refine ⟨?_, fun h => ⟨_, hc, h⟩⟩
    rintro ⟨c, hm, h⟩
    cases (he _ hm).symm.trans hsug
    exact h

/-- A linter that accepts single quotes only, and no configuration of the other rule. -/
theorem firstMatches_of_run_quotes :
    let registry : Registry :=
      ⟨[("no-var", .array []), ("quotes", .object [("enum", .array [.string "double", .string "single"])])]⟩
    let answer : Call → Report := fun
      | ⟨_, ⟨_, []⟩⟩ => .clean
      | ⟨_, ⟨_, [(_, [_, .string "single"])]⟩⟩ => .clean
      | _ => .single [.violation "" "Unexpected."]
    let linter : Linter Unit := ⟨fun call state => (.ok (answer call), state)⟩
    let grammar : Grammar := ⟨3, .script, [("globalReturn", false), ("impliedStrict", true), ("jsx", false),
      ("experimentalObjectRestSpread", false)]⟩
    let i : Inferred := ⟨grammar, [("no-var", .off), ("quotes", [.string "error", .string "single"])]⟩
    linter.Answers answer ∧ (run linter registry ⟨[], none⟩ "var x" ⟨.initial, (), []⟩).1 = .ok i ∧
      FirstMatches answer registry ⟨[], none⟩ "var x" i := by
  intro registry answer linter grammar i
  have hl : linter.Answers answer := fun _ _ => rfl
  have hg : (Probe.grammar linter "var x" ⟨.initial, (), []⟩).1 = .ok grammar := by rfl
  have hnames : registry.names = ["no-var", "quotes"] := List.mergeSort_of_pairwise (by decide)
  have hselected : selected registry ⟨[], none⟩ = ["no-var", "quotes"] := by
    rw [selected, hnames]
    rfl
  have hquotes : registry.schema "quotes" = .ok (.enumeration [.string "double", .string "single"]) := by rfl
  have hcs : (Schema.enumeration [.string "double", .string "single"]).candidates =
      .ok [[.string "error", .string "double"], [.string "error", .string "single"]] := by cbv
  have hvar : registry.schema "no-var" = .ok .unconstrained := by rfl
  have hcs' : Schema.unconstrained.candidates = .ok [[.string "error"]] := by cbv
  have hs : suggestions answer registry "var x" grammar ["no-var", "quotes"] = .ok i.rules := by
    rw [suggestions, suggestions, suggestions, suggestion, suggestion, hquotes, hvar]
    simp only [bind, Except.bind]
    rw [hcs, hcs']
    rfl
  have h : (run linter registry ⟨[], none⟩ "var x" ⟨.initial, (), []⟩).1 = .ok i :=
    (run_eq_ok_iff hl).2 ⟨hg, hselected ▸ hs⟩
  exact ⟨hl, h, firstMatches_of_run hl h⟩

end Inference

end LintInference
