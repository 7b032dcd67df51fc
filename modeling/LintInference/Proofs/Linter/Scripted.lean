import LintInference.Linter.Scripted
import LintInference.Proofs.Linter.Replay

/-!
# What scripted linters answer

The first clause that fits a call answers it (`answerOf_cases`). The clauses may ask which call it is, so along a run the
questions are answered by their numbers (`answered_of_composed`). A script that does not ask answers each call the same
way whenever it comes; if it has no failures either, its linter is one that `Linter.Answers` (`exists_answers`).
-/

namespace LintInference.Linter

open Engine (Composed)

variable {script : List Clause} {α : Type}

/-- A text contains another one where it stands somewhere in it. -/
theorem contains_iff (text part : List Char) : contains text part = true ↔ part <:+: text := by
  induction text with
  | nil => simp [contains]
  | cons c text ih => rw [contains, Bool.or_eq_true, List.isPrefixOf_iff_prefix, ih, List.infix_cons_iff]

/-! ## The first clause that fits -/

/-- All conditions of the clause hold of the call with this number. -/
def Clause.Fits (clause : Clause) (number : Nat) (call : Call) : Prop :=
  ∀ c ∈ clause.conditions, c.holds number call = true

theorem answerOf_cases (script : List Clause) (number : Nat) (call : Call) :
    (∃ before clause after, script = before ++ clause :: after ∧ (∀ c ∈ before, ¬ c.Fits number call) ∧
      clause.Fits number call ∧ answerOf script number call = clause.reply.answer) ∨
    ((∀ c ∈ script, ¬ c.Fits number call) ∧ answerOf script number call = .ok .clean) := by
  rw [answerOf]
  split
  next clause hfind =>
    obtain ⟨hfits, before, after, rfl, hbefore⟩ := List.find?_eq_some_iff_append.1 hfind
    refine .inl ⟨before, clause, after, rfl, fun c hc hf => ?_, List.all_eq_true.1 hfits, rfl⟩
    have hnot := hbefore c hc
    rw [List.all_eq_true.2 hf] at hnot
    cases hnot
  next hfind =>
    exact .inr ⟨fun c hc hf => List.find?_eq_none.1 hfind c hc (List.all_eq_true.2 hf), rfl⟩

theorem answerOf_cons (clause : Clause) (script : List Clause) (number : Nat) (call : Call) :
    answerOf (clause :: script) number call =
      if clause.conditions.all (·.holds number call) then clause.reply.answer else answerOf script number call := by
  rw [answerOf, List.find?_cons]
  cases clause.conditions.all (·.holds number call) <;> rfl

/-- To fail always is a script of one clause. -/
theorem failing_eq_scripted (message : String) : failing message = scripted [⟨[], .failure message⟩] := rfl

/-! ## By number -/

/-- The exchanges are those of a script, from the number of the calls before on. -/
def Answered (script : List Clause) (calls : Nat) (xs : List Exchange) : Prop :=
  ∀ k (hk : k < xs.length), xs[k].answer = answerOf script (calls + k + 1) xs[k].call

theorem Answered.nil (calls : Nat) : Answered script calls [] := fun _ hk => absurd hk (Nat.not_lt_zero _)

theorem Answered.append {calls : Nat} {xs ys : List Exchange} (hx : Answered script calls xs)
    (hy : Answered script (calls + xs.length) ys) : Answered script calls (xs ++ ys) := by
  intro k hk
  by_cases hkx : k < xs.length
  · rw [List.getElem_append_left hkx]
    exact hx k hkx
  · obtain ⟨j, rfl⟩ := Nat.exists_eq_add_of_le (Nat.le_of_not_lt hkx)
    have hj : j < ys.length := by
      rw [List.length_append] at hk
      omega
    rw [List.getElem_append_right (Nat.le_add_right _ _)]
    simp only [Nat.add_sub_cancel_left, ← Nat.add_assoc]
    exact hy j hj

/-- A run adds questions that are answered by their numbers, and it leaves the number of the last one. -/
theorem answered_of_composed {m : Engine Nat α} (h : Composed (scripted script) m) (s : Session Nat) : ∃ es,
    (m s).2.events = s.events ++ es ∧ (m s).2.state = s.state + (exchanges es).length ∧
      Answered script s.state (exchanges es) := by
  induction h generalizing s with
  | pure _ | lift _ | options | modify _ => exact ⟨[], (List.append_nil _).symm, rfl, .nil _⟩
  | report p => exact ⟨_, s.events_report p, rfl, .nil _⟩
  | ask text =>
    refine ⟨_, s.events_ask, rfl, fun k hk => ?_⟩
    obtain rfl : k = 0 := Nat.lt_one_iff.1 hk
    rfl
  | @bind _ _ m f _ _ ihm ihf =>
    obtain ⟨es, hes, hstate, hanswered⟩ := ihm s
    rcases Engine.bind_cases m f s with ⟨e, _, h⟩ | ⟨a, _, h⟩
    · rw [h]
      exact ⟨es, hes, hstate, hanswered⟩
    · obtain ⟨es', hes', hstate', hanswered'⟩ := ihf a (m s).2
      rw [hstate] at hstate' hanswered'
      rw [h]
      refine ⟨es ++ es', by rw [hes', hes, List.append_assoc], ?_, ?_⟩
      · rw [hstate', exchanges_append, List.length_append, Nat.add_assoc]
      · rw [exchanges_append]
        exact hanswered.append hanswered'
  | apart _ ih => exact ih { s with options := .initial }

/-! ## Whatever the number -/

/-- The condition does not ask which call it is. -/
def Condition.Timeless : Condition → Prop
  | .number _ | .after _ => False
  | _ => True

theorem Condition.Timeless.holds_eq {c : Condition} (h : c.Timeless) (n m : Nat) (call : Call) :
    c.holds n call = c.holds m call := by
  cases c with
  | number _ | after _ => cases h
  | _ => rfl

theorem answerOf_eq_of_timeless (h : ∀ clause ∈ script, ∀ c ∈ clause.conditions, c.Timeless) (n m : Nat)
    (call : Call) : answerOf script n call = answerOf script m call := by
  induction script with
  | nil => rfl
  | cons clause script ih =>
    obtain ⟨hclause, hscript⟩ := List.forall_mem_cons.1 h
    have hfits : clause.conditions.all (·.holds n call) = clause.conditions.all (·.holds m call) := by
      rw [Bool.eq_iff_iff, List.all_eq_true, List.all_eq_true]
      exact forall₂_congr fun c hc => by rw [(hclause c hc).holds_eq n m call]
    rw [answerOf_cons, answerOf_cons, hfits, ih hscript]

/-- Without questions about the number, and without failures, the answer depends on the call alone. -/
theorem exists_answers (htimeless : ∀ clause ∈ script, ∀ c ∈ clause.conditions, c.Timeless)
    (hok : ∀ clause ∈ script, ∃ report, clause.reply.answer = .ok report) :
    ∃ answer, (scripted script).Answers answer ∧ ∀ n call, answerOf script n call = .ok (answer call) := by
  have hreport (call : Call) : ∃ report, answerOf script 0 call = .ok report := by
    rcases answerOf_cases script 0 call with ⟨before, clause, after, rfl, -, -, h⟩ | ⟨-, h⟩
    · rw [h]
      exact hok clause (by simp)
    · exact ⟨.clean, h⟩
  obtain ⟨answer, hanswer⟩ := Classical.skolem.1 hreport
  have hall (n : Nat) (call : Call) : answerOf script n call = .ok (answer call) :=
    (answerOf_eq_of_timeless htimeless n 0 call).trans (hanswer call)
  exact ⟨answer, fun call calls => hall (calls + 1) call, hall⟩

end LintInference.Linter
