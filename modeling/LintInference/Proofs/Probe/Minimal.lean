import LintInference.Proofs.Probe.Features

/-!
# No feature too many

The probes decide one feature after the other, each while the later ones are still on. If more features never make the
linter reject the text, what they leave is minimal all the same: the text is accepted with the features that are on, and
with no smaller choice of them (`irredundant_of_features`). A feature that was needed with the later ones on is needed
without them as well.
-/

namespace LintInference.Probe

variable {σ : Type} {linter : Linter σ} {answer : Call → Report} {text : String}

/-- The three probes leave their features settled, with no rules active. -/
theorem features_takes (hl : linter.Answers answer) (text : String) (o : Options) : ∃ b,
    (jsx linter text >>= fun _ => globalReturn linter text >>= fun _ => objectRestSpread linter text).Takes o (.ok b)
      ⟨settled answer text o.grammar, []⟩ :=
  ⟨_, .bind_ok (feature_takes hl .jsx o) (.bind_ok (feature_takes hl .globalReturn _)
    (feature_takes hl .objectRestSpread _))⟩

section Choices

variable {j g o j' g' o' : Bool}

/-- Profiles with the same probed features are the same. -/
theorem profile_eq_of_has (h : ∀ f ∈ probed, (profile j' g' o').has f = (profile j g o).has f) :
    profile j' g' o' = profile j g o := by
  have hj := h .jsx (by decide)
  have hg := h .globalReturn (by decide)
  have ho := h .objectRestSpread (by decide)
  rw [profile_has_jsx, profile_has_jsx] at hj
  rw [profile_has_globalReturn, profile_has_globalReturn] at hg
  rw [profile_has_objectRestSpread, profile_has_objectRestSpread] at ho
  rw [hj, hg, ho]

/-- What is accepted with some of the features, and without a certain one, is accepted with all but that one. -/
theorem FeaturesAdd.accepts_without (h : FeaturesAdd answer text)
    (hfewer : ∀ f ∈ probed, (profile j' g' o').has f = true → (profile j g o).has f = true)
    (ha : rejects answer text (profile j' g' o') = false) {f : Feature} (hf : f ∈ probed)
    (hoff : (profile j' g' o').has f = false) : rejects answer text ((profile j g o).setFeature f false) = false := by
  have hj : j' = true → j = true := by simpa [profile_has_jsx] using hfewer .jsx (by decide)
  have hg : g' = true → g = true := by simpa [profile_has_globalReturn] using hfewer .globalReturn (by decide)
  have ho : o' = true → o = true := by simpa [profile_has_objectRestSpread] using hfewer .objectRestSpread (by decide)
  simp only [probed, List.mem_cons, List.not_mem_nil, or_false] at hf
  rcases hf with rfl | rfl | rfl
  · obtain rfl : j' = false := by rwa [profile_has_jsx] at hoff
    rw [profile_setFeature_jsx]
    exact h.profile_accepts id hg ho ha
  · obtain rfl : g' = false := by rwa [profile_has_globalReturn] at hoff
    rw [profile_setFeature_globalReturn]
    exact h.profile_accepts hj id ho ha
  · obtain rfl : o' = false := by rwa [profile_has_objectRestSpread] at hoff
    rw [profile_setFeature_objectRestSpread]
    exact h.profile_accepts hj hg id ha

/-- The text is accepted with no smaller choice of the features that are settled. -/
theorem FeaturesAdd.settled_minimal (h : FeaturesAdd answer text)
    (hfewer : ∀ f ∈ probed, (profile j g o).has f = true → (settled answer text .permissive).has f = true)
    (ha : rejects answer text (profile j g o) = false) : profile j g o = settled answer text .permissive := by
  obtain ⟨_, _, _, hs, _⟩ := settled_eq_profile answer text
  rw [hs] at hfewer ⊢
  refine profile_eq_of_has fun f hf => Bool.eq_iff_iff.2 ⟨hfewer f hf, fun hon => ?_⟩
  cases hoff : (profile j g o).has f with
  | true => rfl
  | false =>
    -- the feature is needed beside the others, but the choice does without it
    have hneeded := h.settled_needed hf (hs ▸ hon)
    rw [hs, h.accepts_without hfewer ha hf hoff] at hneeded
    cases hneeded

end Choices

/-- For a text that is accepted under the most permissive grammar, and a linter for which more features never do harm,
the three probes end with features with which the text is accepted in the newest dialect for modules. Each of those that
are on is needed there, and no smaller choice is accepted. -/
theorem irredundant_of_features (hl : linter.Answers answer) {s : Session σ} (hs : s.options = .initial)
    (hfeatures : FeaturesAdd answer text) (hp : rejects answer text .permissive = false) : ∃ b t p,
    (do let _ ← jsx linter text; let _ ← globalReturn linter text; objectRestSpread linter text) s = (.ok b, t) ∧
      p = (⟨8, .module, t.options.grammar.features⟩ : Grammar) ∧ rejects answer text p = false ∧
      (∀ f ∈ probed, p.has f = true → rejects answer text (p.setFeature f false) = true) ∧
      ∀ j g o, (∀ f ∈ probed, (profile j g o).has f = true → p.has f = true) →
        rejects answer text (profile j g o) = false → profile j g o = p := by
  obtain ⟨b, htakes⟩ := features_takes hl text .initial
  obtain ⟨hr, ho⟩ := htakes s hs
  refine ⟨b, _, settled answer text .permissive, Prod.ext hr rfl, ?_, settled_accepts hp,
    fun f hf => hfeatures.settled_needed hf, fun j g o => hfeatures.settled_minimal⟩
  rw [ho]
  exact settled_inDialect_newest.symm

/-- A text with an element and a return outside of functions; the linter wants one feature for each. -/
theorem irredundant_of_features_element :
    let answer : Call → Report := fun call =>
      if call.options.grammar.has .jsx && call.options.grammar.has .globalReturn then .clean
      else .single [.parseError "Unexpected token"]
    let linter : Linter Nat := ⟨fun call calls => (.ok (answer call), calls + 1)⟩
    let s : Session Nat := ⟨.initial, 0, []⟩
    linter.Answers answer ∧ s.options = .initial ∧ FeaturesAdd answer "return <a/>" ∧
      rejects answer "return <a/>" .permissive = false ∧ ∃ b t p,
      (do let _ ← jsx linter "return <a/>"; let _ ← globalReturn linter "return <a/>"
          objectRestSpread linter "return <a/>") s = (.ok b, t) ∧
        p = (⟨8, .module, t.options.grammar.features⟩ : Grammar) ∧ rejects answer "return <a/>" p = false ∧
        (∀ f ∈ probed, p.has f = true → rejects answer "return <a/>" (p.setFeature f false) = true) ∧
        ∀ j g o, (∀ f ∈ probed, (profile j g o).has f = true → p.has f = true) →
          rejects answer "return <a/>" (profile j g o) = false → profile j g o = p := by
  intro answer linter s
  have hl : linter.Answers answer := fun _ _ => rfl
  have haccepts (g : Grammar) :
      rejects answer "return <a/>" g = false ↔ g.has .jsx = true ∧ g.has .globalReturn = true := by
    have hrejects : rejects answer "return <a/>" g = !(g.has .jsx && g.has .globalReturn) := by
      simp only [rejects, answer]
      cases g.has .jsx && g.has .globalReturn <;> rfl
    rw [hrejects]
    simp
  have hfeatures : FeaturesAdd answer "return <a/>" := by
    intro g f _ hg
    have hon (f' : Feature) (h : (g.setFeature f false).has f' = true) : (g.setFeature f true).has f' = true := by
      by_cases hf : f' = f
      · rw [hf, g.has_setFeature_self]
      · rwa [g.has_setFeature_of_ne _ hf] at h ⊢
    rw [haccepts] at hg ⊢
    exact ⟨hon _ hg.1, hon _ hg.2⟩
  have hp : rejects answer "return <a/>" .permissive = false := by decide
  exact ⟨hl, rfl, hfeatures, hp, irredundant_of_features hl rfl hfeatures hp⟩

end LintInference.Probe
