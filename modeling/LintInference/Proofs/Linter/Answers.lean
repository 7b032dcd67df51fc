import LintInference.Linter.Session

/-!
# Linters that answer as functions

- `Linter.Answers`: the linter never fails, and its answer depends on the call alone, whatever its state;
- `Engine.Ends`: what a run results in and how it ends, by how it starts. Runs are put together from their parts by
  `Engine.Ends.bind_ok` and `Engine.Ends.bind_error`;
- `Engine.Gives`: what a run results in under a grammar, which it leaves as it finds it;
- `Engine.Takes`: what a run results in from given options, and the options that it leaves.
-/

namespace LintInference

variable {σ α β : Type}

/-- The linter never fails, and its answer depends on the call alone. -/
def Linter.Answers (linter : Linter σ) (answer : Call → Report) : Prop :=
  ∀ call state, (linter.check call state).1 = .ok (answer call)

namespace Engine

/-- A run that succeeds is a run of its first part and of the rest. -/
theorem bind_apply_eq_ok_iff {m : Engine σ α} {f : α → Engine σ β} {s s' : Session σ} {b : β} :
    (m >>= f) s = (.ok b, s') ↔ ∃ a t, m s = (.ok a, t) ∧ f a t = (.ok b, s') := by
  rw [bind_apply]
  rcases m s with ⟨_ | a, t⟩
  · refine ⟨fun h => ?_, ?_⟩
    · cases h
    · rintro ⟨a, t', h, _⟩
      cases h
  · refine ⟨fun h => ⟨a, t, rfl, h⟩, ?_⟩
    rintro ⟨a', t', h, hf⟩
    cases h
    exact hf

/-- A run with a result ends in some session. -/
theorem exists_of_fst_eq {m : Engine σ α} {s : Session σ} {r : Except Failure α} (h : (m s).1 = r) :
    ∃ t, m s = (r, t) := ⟨(m s).2, Prod.ext h rfl⟩

theorem modify_bind_apply (f : Options → Options) (k : Unit → Engine σ α) (s : Session σ) :
    (modify f >>= k) s = k () { s with options := f s.options } := rfl

/-- A run apart succeeds as the run does from the most permissive options. -/
theorem apart_fst_eq_ok_iff {m : Engine σ α} {s : Session σ} {a : α} :
    (apart m s).1 = .ok a ↔ ∃ t, m { s with options := .initial } = (.ok a, t) := by
  refine ⟨fun h => exists_of_fst_eq h, ?_⟩
  rintro ⟨t, h⟩
  rw [apart, h]

/-- The answer is that to the text under the options of the session, which stay. -/
theorem ask_apply {linter : Linter σ} {answer : Call → Report} (hl : linter.Answers answer) (text : String)
    (s : Session σ) : ∃ t, ask linter text s = (.ok (answer ⟨text, s.options⟩), t) ∧ t.options = s.options :=
  ⟨(ask linter text s).2, Prod.ext (hl ⟨text, s.options⟩ s.state) rfl, rfl⟩

/-- A question that is answered is the latest event, under the options of the session, which stay. -/
theorem ask_eq_ok {linter : Linter σ} {text : String} {s t : Session σ} {report : Report}
    (h : ask linter text s = (.ok report, t)) :
    t.options = s.options ∧ t.history = .call ⟨text, s.options⟩ (.ok report) :: s.history := by
  have hanswer : (linter.check ⟨text, s.options⟩ s.state).1 = .ok report := congrArg Prod.fst h
  have ht : (ask linter text s).2 = t := congrArg Prod.snd h
  rw [← ht, ← hanswer]
  exact ⟨rfl, rfl⟩

/-! ## Results and ends -/

/-- From every session of the first kind the run has the result, and it ends in one of the second kind. -/
def Ends (m : Engine σ α) (P : Session σ → Prop) (r : Except Failure α) (Q : Session σ → Prop) : Prop :=
  ∀ s, P s → (m s).1 = r ∧ Q (m s).2

namespace Ends

variable {P Q R : Session σ → Prop}

/-- After a part with a result the run goes on from where that part ends. -/
theorem bind_ok {m : Engine σ α} {f : α → Engine σ β} {a : α} {r : Except Failure β} (hm : m.Ends P (.ok a) Q)
    (hf : (f a).Ends Q r R) : (m >>= f).Ends P r R := by
  intro s hs
  obtain ⟨hr, ht⟩ := hm s hs
  rw [bind_apply]
  rcases hms : m s with ⟨r', t⟩
  rw [hms] at hr ht
  subst hr
  exact hf t ht

/-- The failure of a part is that of the run. -/
theorem bind_error {m : Engine σ α} {f : α → Engine σ β} {e : Failure} (hm : m.Ends P (.error e) Q) :
    (m >>= f).Ends P (.error e) Q := by
  intro s hs
  obtain ⟨hr, ht⟩ := hm s hs
  rw [bind_apply]
  rcases hms : m s with ⟨r', t⟩
  rw [hms] at hr ht
  subst hr
  exact ⟨rfl, ht⟩

end Ends

/-! ## Results under a grammar -/

/-- Under the grammar the run has the result, and it leaves the grammar as it is. -/
def Gives (m : Engine σ α) (g : Grammar) (r : Except Failure α) : Prop :=
  ∀ s, s.options.grammar = g → (m s).1 = r ∧ (m s).2.options.grammar = g

namespace Gives

variable {g : Grammar}

theorem iff_ends {m : Engine σ α} {r : Except Failure α} :
    m.Gives g r ↔ m.Ends (·.options.grammar = g) r (·.options.grammar = g) := Iff.rfl

protected theorem pure (a : α) : (pure a : Engine σ α).Gives g (.ok a) := fun _ hs => ⟨rfl, hs⟩

protected theorem lift (r : Except Failure α) : (lift r : Engine σ α).Gives g r := fun _ hs => ⟨rfl, hs⟩

protected theorem report (p : Progress) : (report p : Engine σ Unit).Gives g (.ok ()) := fun _ hs => ⟨rfl, hs⟩

theorem bind_ok {m : Engine σ α} {f : α → Engine σ β} {a : α} {r : Except Failure β} (hm : m.Gives g (.ok a))
    (hf : (f a).Gives g r) : (m >>= f).Gives g r :=
  (iff_ends.1 hm).bind_ok (iff_ends.1 hf)

/-- Runs are put together as their results are. -/
protected theorem bind {m : Engine σ α} {f : α → Engine σ β} {r : Except Failure α} {k : α → Except Failure β}
    (hm : m.Gives g r) (hf : ∀ a, (f a).Gives g (k a)) : (m >>= f).Gives g (r >>= k) := by
  cases r with
  | error e => exact (iff_ends.1 hm).bind_error
  | ok a => exact bind_ok hm (hf a)

end Gives

/-! ## From options to options -/

/-- From the first options the run has the result, and it leaves the second ones. -/
def Takes (m : Engine σ α) (o : Options) (r : Except Failure α) (o' : Options) : Prop :=
  m.Ends (·.options = o) r (·.options = o')

namespace Takes

variable {o o' o'' : Options}

protected theorem pure (a : α) : (pure a : Engine σ α).Takes o (.ok a) o := fun _ hs => ⟨rfl, hs⟩

protected theorem fail (e : Failure) : (fail e : Engine σ α).Takes o (.error e) o := fun _ hs => ⟨rfl, hs⟩

protected theorem options : (options : Engine σ Options).Takes o (.ok o) o :=
  fun _ hs => ⟨congrArg Except.ok hs, hs⟩

protected theorem modify (f : Options → Options) : (modify f : Engine σ Unit).Takes o (.ok ()) (f o) :=
  fun _ hs => ⟨rfl, congrArg f hs⟩

protected theorem ask {linter : Linter σ} {answer : Call → Report} (hl : linter.Answers answer) (text : String) :
    (ask linter text).Takes o (.ok (answer ⟨text, o⟩)) o := by
  rintro s rfl
  exact ⟨hl ⟨text, s.options⟩ s.state, rfl⟩

theorem bind_ok {m : Engine σ α} {f : α → Engine σ β} {a : α} {r : Except Failure β} (hm : m.Takes o (.ok a) o')
    (hf : (f a).Takes o' r o'') : (m >>= f).Takes o r o'' := Ends.bind_ok hm hf

theorem bind_error {m : Engine σ α} {f : α → Engine σ β} {e : Failure} (hm : m.Takes o (.error e) o') :
    (m >>= f).Takes o (.error e) o' := Ends.bind_error hm

end Takes

end Engine

end LintInference
