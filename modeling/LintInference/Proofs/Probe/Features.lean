import LintInference.Proofs.Probe.Search

/-!
# Probes from the most permissive grammar

An inference starts its probes under `Grammar.permissive`. From there on only the dialect and the probed features change,
so every grammar on the way is a `profile` in some dialect.

- A feature is on in the outcome exactly if the text was rejected without it where it was probed: in the newest dialect
  for modules, the features before it as settled and those after it on. If the linter takes that dialect, and more
  features, for more permissive, then the text is rejected in the dialect of the outcome as well once such a feature is
  taken away (`needed_of_grammar`). A text for scripts alone shows that it has to (`not_needed_script`).
- A text that is accepted under the most permissive grammar is never given up. If more features never do harm, only a
  text that is rejected with all of them in every dialect is (`undetectable_iff`).
-/

namespace LintInference.Probe

variable {σ : Type} {linter : Linter σ} {answer : Call → Report} {text : String}

/-! ## Features where they are probed -/

/-- What a feature is probed under: the features before it are as in the outcome of the probes, and it is off. -/
def probedUnder (features : List Feature) (start outcome : Grammar) (f : Feature) : Grammar :=
  ((features.takeWhile (· ≠ f)).foldl (fun g f' => g.setFeature f' (outcome.has f')) start).setFeature f false

theorem has_settle_self (g : Grammar) (f : Feature) :
    (settle answer text g f).has f = rejects answer text (g.setFeature f false) := g.has_setFeature_self f _

theorem has_settle_of_ne (g : Grammar) {f f' : Feature} (h : f' ≠ f) : (settle answer text g f).has f' = g.has f' :=
  g.has_setFeature_of_ne _ h

theorem has_foldl_settle_of_not_mem {features : List Feature} {f : Feature} (h : f ∉ features) (g : Grammar) :
    (features.foldl (settle answer text) g).has f = g.has f := by
  induction features generalizing g with
  | nil => rfl
  | cons c features ih =>
    have hc : f ≠ c := List.ne_of_not_mem_cons h
    have hf : f ∉ features := List.not_mem_of_not_mem_cons h
    rw [List.foldl_cons, ih hf, has_settle_of_ne g hc]

/-- Each feature is settled where the ones before it are settled already. -/
theorem has_foldl_settle {features : List Feature} (hn : features.Nodup) {f : Feature} (hf : f ∈ features)
    (g : Grammar) : (features.foldl (settle answer text) g).has f =
      rejects answer text (probedUnder features g (features.foldl (settle answer text) g) f) := by
  induction features generalizing g with
  | nil => cases hf
  | cons c features ih =>
    obtain ⟨hc, hn⟩ := List.nodup_cons.1 hn
    have hfirst : ((c :: features).foldl (settle answer text) g).has c = rejects answer text (g.setFeature c false) := by
      rw [List.foldl_cons, has_foldl_settle_of_not_mem hc, has_settle_self]
    by_cases h : f = c
    · subst h
      rw [hfirst, probedUnder, List.takeWhile_cons_of_neg (by simp), List.foldl_nil]
    · have hmem : f ∈ features := (List.mem_cons.1 hf).resolve_left h
      have hunder (outcome : Grammar) : probedUnder (c :: features) g outcome f =
          probedUnder features (g.setFeature c (outcome.has c)) outcome f := by
        rw [probedUnder, List.takeWhile_cons_of_pos (by simpa using Ne.symm h), List.foldl_cons, probedUnder]
      rw [hunder, hfirst]
      exact ih hn hmem (settle answer text g c)

/-! ## Profiles -/

/-- The most permissive grammar, but for the features that are probed. -/
def profile (jsx globalReturn objectRestSpread : Bool) : Grammar :=
  ⟨Grammar.latestVersion, .module, [("globalReturn", globalReturn), ("impliedStrict", true), ("jsx", jsx),
    ("experimentalObjectRestSpread", objectRestSpread)]⟩

section Profiles

variable (j g o on : Bool)

theorem permissive_eq_profile : Grammar.permissive = profile true true true := rfl

@[simp] theorem profile_setFeature_jsx : (profile j g o).setFeature .jsx on = profile on g o := by
  simp [profile, Grammar.setFeature, Feature.flag, Entries.put]

@[simp] theorem profile_setFeature_globalReturn : (profile j g o).setFeature .globalReturn on = profile j on o := by
  simp [profile, Grammar.setFeature, Feature.flag, Entries.put]

@[simp] theorem profile_setFeature_objectRestSpread :
    (profile j g o).setFeature .objectRestSpread on = profile j g on := by
  simp [profile, Grammar.setFeature, Feature.flag, Entries.put]

end Profiles

variable (answer text) in
/-- The features are settled one after the other, those still to come being on. -/
theorem settled_eq_profile : ∃ j g o, settled answer text .permissive = profile j g o ∧
    j = rejects answer text (profile false true true) ∧ g = rejects answer text (profile j false true) ∧
    o = rejects answer text (profile j g false) := by
  refine ⟨_, _, _, ?_, rfl, rfl, rfl⟩
  simp [settled, probed, settle, permissive_eq_profile]

/-- Features are settled in the newest dialect. -/
theorem settled_inDialect_newest :
    inDialect (settled answer text .permissive) (Grammar.latestVersion, .module) = settled answer text .permissive := by
  obtain ⟨j, g, o, hs, _⟩ := settled_eq_profile answer text
  rw [hs]
  rfl

/-- What is accepted with all features on is accepted with those that are settled. -/
theorem settled_accepts (h : rejects answer text .permissive = false) :
    rejects answer text (settled answer text .permissive) = false := by
  obtain ⟨j, g, o, hs, hj, hg, ho⟩ := settled_eq_profile answer text
  have h₁ : rejects answer text (profile j true true) = false := by
    cases j with
    | true => exact h
    | false => exact hj.symm
  have h₂ : rejects answer text (profile j g true) = false := by
    cases g with
    | true => exact h₁
    | false => exact hg.symm
  rw [hs]
  cases o with
  | true => exact h₂
  | false => exact ho.symm

theorem profile_has_jsx (j g o : Bool) : (profile j g o).has .jsx = j := by
  simp [profile, Grammar.has, Feature.flag, Entries.get?]

theorem profile_has_globalReturn (j g o : Bool) : (profile j g o).has .globalReturn = g := by
  simp [profile, Grammar.has, Feature.flag, Entries.get?]

theorem profile_has_objectRestSpread (j g o : Bool) : (profile j g o).has .objectRestSpread = o := by
  simp [profile, Grammar.has, Feature.flag, Entries.get?]

/-! ## Linters for which more is more permissive -/

variable (answer text) in
/-- More features never make the linter reject the text. -/
def FeaturesAdd : Prop := ∀ (g : Grammar), ∀ f ∈ probed,
  rejects answer text (g.setFeature f false) = false → rejects answer text (g.setFeature f true) = false

variable (answer text) in
/-- The newest dialect for modules never makes the linter reject the text. -/
def NewestAdds : Prop := ∀ g d,
  rejects answer text (inDialect g d) = false → rejects answer text (inDialect g (Grammar.latestVersion, .module)) = false

theorem FeaturesAdd.setFeature (h : FeaturesAdd answer text) {g : Grammar} {f : Feature} (hf : f ∈ probed) {b c : Bool}
    (hbc : b = true → c = true) (hg : rejects answer text (g.setFeature f b) = false) :
    rejects answer text (g.setFeature f c) = false := by
  cases b with
  | true =>
    rw [hbc rfl]
    exact hg
  | false =>
    cases c with
    | true => exact h g f hf hg
    | false => exact hg

/-- A profile with more features is accepted too. -/
theorem FeaturesAdd.profile_accepts (h : FeaturesAdd answer text) {j g o j' g' o' : Bool} (hj : j = true → j' = true)
    (hg : g = true → g' = true) (ho : o = true → o' = true) (hp : rejects answer text (profile j g o) = false) :
    rejects answer text (profile j' g' o') = false := by
  have h₁ : rejects answer text (profile j' g o) = false := by
    simpa using h.setFeature (g := profile j g o) (f := .jsx) (by decide) hj (by simpa using hp)
  have h₂ : rejects answer text (profile j' g' o) = false := by
    simpa using h.setFeature (g := profile j' g o) (f := .globalReturn) (by decide) hg (by simpa using h₁)
  simpa using h.setFeature (g := profile j' g' o) (f := .objectRestSpread) (by decide) ho (by simpa using h₂)

/-- What is rejected with all features is rejected with fewer, so all of them stay on. -/
theorem FeaturesAdd.settled_permissive (h : FeaturesAdd answer text) (hp : rejects answer text .permissive = true) :
    settled answer text .permissive = .permissive := by
  have hfewer (j g o : Bool) : rejects answer text (profile j g o) = true := by
    cases hr : rejects answer text (profile j g o) with
    | true => rfl
    | false =>
      have hall := h.profile_accepts (fun _ => rfl) (fun _ => rfl) (fun _ => rfl) hr
      cases hp.symm.trans hall
  obtain ⟨j, g, o, hs, hj, hg, ho⟩ := settled_eq_profile answer text
  rw [hs, hj, hg, ho, hfewer, hfewer, hfewer]
  rfl

/-- What is rejected without a feature where it is probed is rejected without it after the features to come are settled. -/
theorem FeaturesAdd.settled_needed (h : FeaturesAdd answer text) {f : Feature} (hf : f ∈ probed)
    (hon : (settled answer text .permissive).has f = true) :
    rejects answer text ((settled answer text .permissive).setFeature f false) = true := by
  obtain ⟨j, g, o, hprofile, hj, hg, ho⟩ := settled_eq_profile answer text
  rw [hprofile] at hon ⊢
  cases hr : rejects answer text ((profile j g o).setFeature f false) with
  | true => rfl
  | false =>
    simp only [probed, List.mem_cons, List.not_mem_nil, or_false] at hf
    rcases hf with rfl | rfl | rfl
    · rw [profile_setFeature_jsx] at hr
      rw [profile_has_jsx, hj, h.profile_accepts id (fun _ => rfl) (fun _ => rfl) hr] at hon
      cases hon
    · rw [profile_setFeature_globalReturn] at hr
      rw [profile_has_globalReturn, hg, h.profile_accepts id id (fun _ => rfl) hr] at hon
      cases hon
    · rw [profile_setFeature_objectRestSpread] at hr
      rw [profile_has_objectRestSpread, ho, hr] at hon
      cases hon

/-! ## Outcomes -/

/-- A feature that is on was needed where it was probed, and one that is off was not. For a linter that takes the newest
dialect and more features for more permissive, a feature that is on is needed in the outcome too. -/
theorem needed_of_grammar (hl : linter.Answers answer) {s : Session σ} (hs : s.options = .initial) {p : Grammar}
    (h : (grammar linter text s).1 = .ok p) :
    (∀ f ∈ probed, p.has f = rejects answer text (probedUnder probed .permissive p f)) ∧
      (FeaturesAdd answer text → NewestAdds answer text →
        ∀ f ∈ probed, p.has f = true → rejects answer text (p.setFeature f false) = true) := by
  have hstart : s.options.grammar = .permissive := by rw [hs]; rfl
  obtain ⟨d, _, rfl⟩ := (grammar_eq_ok_iff hl).1 h
  rw [hstart]
  refine ⟨fun f hf => has_foldl_settle (by decide) hf .permissive, fun hfeatures hnewest f hf hon => ?_⟩
  have hneeded := hfeatures.settled_needed hf hon
  cases hr : rejects answer text ((inDialect (settled answer text .permissive) d).setFeature f false) with
  | true => rfl
  | false =>
    -- what is accepted without the feature in some dialect is accepted so where features are settled
    have hnew := hnewest ((settled answer text .permissive).setFeature f false) d hr
    have hdialect : inDialect ((settled answer text .permissive).setFeature f false) (Grammar.latestVersion, .module) =
        (settled answer text .permissive).setFeature f false := by
      rw [inDialect_setFeature, settled_inDialect_newest]
    rw [hdialect, hneeded] at hnew
    cases hnew

/-- A script with an element in it. -/
theorem needed_of_grammar_element :
    let answer : Call → Report := fun call =>
      if call.options.grammar.has .jsx && decide (6 ≤ call.options.grammar.version) then .clean
      else .single [.parseError "Unexpected token"]
    let linter : Linter Unit := ⟨fun call state => (.ok (answer call), state)⟩
    let s : Session Unit := ⟨.initial, (), []⟩
    let p : Grammar := ⟨6, .script, [("globalReturn", false), ("impliedStrict", true), ("jsx", true),
      ("experimentalObjectRestSpread", false)]⟩
    linter.Answers answer ∧ s.options = .initial ∧ (grammar linter "let a = <a/>" s).1 = .ok p ∧
      (∀ f ∈ probed, p.has f = rejects answer "let a = <a/>" (probedUnder probed .permissive p f)) ∧
      FeaturesAdd answer "let a = <a/>" ∧ NewestAdds answer "let a = <a/>" ∧
      ∀ f ∈ probed, p.has f = true → rejects answer "let a = <a/>" (p.setFeature f false) = true := by
  intro answer linter s p
  have hl : linter.Answers answer := fun _ _ => rfl
  have h : (grammar linter "let a = <a/>" s).1 = .ok p := by cbv
  have haccepts (g : Grammar) : rejects answer "let a = <a/>" g = false ↔ g.has .jsx = true ∧ 6 ≤ g.version := by
    have hrejects : rejects answer "let a = <a/>" g = !(g.has .jsx && decide (6 ≤ g.version)) := by
      simp only [rejects, answer]
      cases g.has .jsx && decide (6 ≤ g.version) <;> rfl
    rw [hrejects]
    simp
  have hfeatures : FeaturesAdd answer "let a = <a/>" := by
    intro g f _ hg
    rw [haccepts] at hg ⊢
    refine ⟨?_, hg.2⟩
    by_cases hf : Feature.jsx = f
    · subst hf
      exact g.has_setFeature_self _ _
    · rw [g.has_setFeature_of_ne _ hf] at hg ⊢
      exact hg.1
  have hnewest : NewestAdds answer "let a = <a/>" := by
    intro g d hg
    rw [haccepts] at hg ⊢
    exact ⟨hg.1, (by decide : (6 : UInt32) ≤ Grammar.latestVersion)⟩
  obtain ⟨hprobed, hneeded⟩ := needed_of_grammar hl (s := s) rfl h
  exact ⟨hl, rfl, h, hprobed, hfeatures, hnewest, hneeded hfeatures hnewest⟩

/-- A text for scripts alone is rejected wherever features are probed, so all of them are on in the outcome. None of them
is needed there. -/
theorem not_needed_script :
    let answer : Call → Report := fun call =>
      if call.options.grammar.sourceType == .module then .single [.parseError "'with' in strict mode"] else .clean
    let linter : Linter Unit := ⟨fun call state => (.ok (answer call), state)⟩
    let p : Grammar := ⟨3, .script, [("globalReturn", true), ("impliedStrict", true), ("jsx", true),
      ("experimentalObjectRestSpread", true)]⟩
    linter.Answers answer ∧ (grammar linter "with (a) {}" ⟨.initial, (), []⟩).1 = .ok p ∧
      ∀ f ∈ probed, p.has f = true ∧ rejects answer "with (a) {}" (p.setFeature f false) = false := by
  intro answer linter p
  have hl : linter.Answers answer := fun _ _ => rfl
  have h : (grammar linter "with (a) {}" ⟨.initial, (), []⟩).1 = .ok p := by cbv
  exact ⟨hl, h, by decide +kernel⟩

/-- A text that is accepted under the most permissive grammar has an outcome. If more features never do harm, a text has
none exactly if it is rejected with all of them in every dialect. -/
theorem undetectable_iff (hl : linter.Answers answer) {s : Session σ} (hs : s.options = .initial) :
    (rejects answer text .permissive = false → ∃ p, (grammar linter text s).1 = .ok p) ∧
      (FeaturesAdd answer text → ((∃ v, (grammar linter text s).1 = .error (.undetectableDialect v)) ↔
        ∀ d ∈ dialects, rejects answer text (inDialect .permissive d) = true)) := by
  have hstart : s.options.grammar = .permissive := by rw [hs]; rfl
  have hnewest : (Grammar.latestVersion, SourceType.module) ∈ dialects := by decide
  have hfound : rejects answer text .permissive = false → oldest? answer text (settled answer text .permissive) ≠ none := by
    intro hp hn
    have hlast := oldest?_eq_none_iff.1 hn _ hnewest
    rw [settled_inDialect_newest, settled_accepts hp] at hlast
    cases hlast
  refine ⟨fun hp => ?_, fun hfeatures => ?_⟩
  · obtain ⟨d, hd⟩ := Option.ne_none_iff_exists'.1 (hfound hp)
    exact ⟨_, (grammar_eq_ok_iff hl).2 ⟨d, by rw [hstart, hd], rfl⟩⟩
  · rw [grammar_undetectable_iff hl, hstart]
    cases hp : rejects answer text .permissive with
    | false => exact iff_of_false (hfound hp) fun hall => by cases hp.symm.trans (hall _ hnewest)
    | true => rw [hfeatures.settled_permissive hp, oldest?_eq_none_iff]

/-- A text that is accepted under the most permissive grammar, and one for scripts alone, which is not but has an outcome
too. -/
theorem undetectable_iff_script :
    let answer : Call → Report := fun call =>
      if call.text == "with (a) {}" && call.options.grammar.sourceType == .module then
        .single [.parseError "'with' in strict mode"]
      else .clean
    let linter : Linter Unit := ⟨fun call state => (.ok (answer call), state)⟩
    let s : Session Unit := ⟨.initial, (), []⟩
    linter.Answers answer ∧ s.options = .initial ∧
      rejects answer "a = 1" .permissive = false ∧ (∃ p, (grammar linter "a = 1" s).1 = .ok p) ∧
      rejects answer "with (a) {}" .permissive = true ∧ FeaturesAdd answer "with (a) {}" ∧
      ((∃ v, (grammar linter "with (a) {}" s).1 = .error (.undetectableDialect v)) ↔
        ∀ d ∈ dialects, rejects answer "with (a) {}" (inDialect .permissive d) = true) ∧
      ¬ ∃ v, (grammar linter "with (a) {}" s).1 = .error (.undetectableDialect v) := by
  intro answer linter s
  have hl : linter.Answers answer := fun _ _ => rfl
  have hp : rejects answer "a = 1" .permissive = false := by decide
  have hok : ∃ p, (grammar linter "a = 1" s).1 = .ok p := (undetectable_iff hl (s := s) rfl).1 hp
  have hfeatures : FeaturesAdd answer "with (a) {}" := fun _ _ _ h => h
  have hiff : (∃ v, (grammar linter "with (a) {}" s).1 = .error (.undetectableDialect v)) ↔
      ∀ d ∈ dialects, rejects answer "with (a) {}" (inDialect .permissive d) = true :=
    (undetectable_iff hl (s := s) rfl).2 hfeatures
  have hscript : rejects answer "with (a) {}" (inDialect .permissive (3, .script)) = false := by decide
  refine ⟨hl, rfl, hp, hok, by decide, hfeatures, hiff, fun hv => ?_⟩
  cases hscript.symm.trans (hiff.1 hv (3, .script) (by decide))

end LintInference.Probe
