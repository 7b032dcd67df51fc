import LintInference.Proofs.Linter.Answers

/-!
# What happens in a run

Nothing is assumed of the linter here: its answers may depend on all that happened before, and any of them may be a
failure. The events of a session only grow, so a run is known by the events that it adds:

- `Engine.Keeps`: what all these events have in common, and what the run keeps of the options;
- `Engine.Stops`: a question that fails is the last one of the run, and its failure is that of the run.

Both are put together from the parts of a run by `Engine.Keeps.bind` and `Engine.Stops.bind`.
-/

namespace LintInference

variable {σ α β : Type} {linter : Linter σ} {text : String}

/-- A question to a linter with the answer to it. -/
structure Exchange where
  call : Call
  answer : Except Failure Report

/-- The exchange that an event is, if it is one. -/
def Event.exchange? : Event → Option Exchange
  | .call c answer => some ⟨c, answer⟩
  | .progress _ => none

/-- The exchanges among events. -/
def exchanges (es : List Event) : List Exchange := es.filterMap Event.exchange?

@[simp] theorem exchanges_nil : exchanges [] = [] := rfl

@[simp] theorem exchanges_call (call : Call) (answer : Except Failure Report) (es : List Event) :
    exchanges (.call call answer :: es) = ⟨call, answer⟩ :: exchanges es := rfl

@[simp] theorem exchanges_progress (p : Progress) (es : List Event) :
    exchanges (.progress p :: es) = exchanges es := rfl

@[simp] theorem exchanges_append (es es' : List Event) : exchanges (es ++ es') = exchanges es ++ exchanges es' :=
  List.filterMap_append

theorem mem_exchanges_iff {es : List Event} {x : Exchange} : x ∈ exchanges es ↔ .call x.call x.answer ∈ es := by
  simp only [exchanges, List.mem_filterMap]
  constructor
  · rintro ⟨e, he, hx⟩
    cases e with
    | call _ _ =>
      cases hx
      exact he
    | progress _ => cases hx
  · exact fun h => ⟨_, h, rfl⟩

namespace Session

variable (s : Session σ)

@[simp] theorem events_modify (f : Options → Options) : (Engine.modify f s).2.events = s.events := rfl

@[simp] theorem events_report (p : Progress) : (Engine.report p s).2.events = s.events ++ [.progress p] := by
  simp [Engine.report, events]

@[simp] theorem events_ask : (Engine.ask linter text s).2.events =
    s.events ++ [.call ⟨text, s.options⟩ (Engine.ask linter text s).1] := by
  simp [Engine.ask, events]

@[simp] theorem events_apart (m : Engine σ α) :
    (Engine.apart m s).2.events = (m { s with options := .initial }).2.events := rfl

end Session

namespace Engine

/-- A run fails in its first part, or goes on with the rest. -/
theorem bind_cases (m : Engine σ α) (f : α → Engine σ β) (s : Session σ) :
    (∃ e, (m s).1 = .error e ∧ (m >>= f) s = (.error e, (m s).2)) ∨
      ∃ a, (m s).1 = .ok a ∧ (m >>= f) s = f a (m s).2 := by
  rw [bind_apply]
  rcases m s with ⟨_ | a, t⟩
  · exact .inl ⟨_, rfl, rfl⟩
  · exact .inr ⟨a, rfl, rfl⟩

/-- A run with its result changed. -/
theorem bind_pure_apply (m : Engine σ α) (f : α → β) (s : Session σ) :
    (m >>= fun a => pure (f a)) s = ((m s).1.map f, (m s).2) := by
  rcases bind_cases m (fun a => pure (f a)) s with ⟨e, hr, h⟩ | ⟨a, hr, h⟩
  · rw [h, hr]
    rfl
  · rw [h, hr]
    rfl

/-! ## What is kept -/

/-- From options with the first property the run leaves options with it, and all that happens has the second one. -/
def Keeps (m : Engine σ α) (I : Options → Prop) (E : Event → Prop) : Prop :=
  ∀ s, I s.options → I (m s).2.options ∧ ∃ es, (m s).2.events = s.events ++ es ∧ ∀ e ∈ es, E e

namespace Keeps

variable {I : Options → Prop} {E : Event → Prop}

/-- A run that leaves the session alone keeps everything. -/
theorem of_still {m : Engine σ α} (h : ∀ s, (m s).2 = s) : m.Keeps I E := by
  intro s hs
  rw [h s]
  exact ⟨hs, [], by simp, by simp⟩

protected theorem pure (a : α) : (pure a : Engine σ α).Keeps I E := .of_still fun _ => rfl

protected theorem fail (e : Failure) : (fail e : Engine σ α).Keeps I E := .of_still fun _ => rfl

protected theorem options : (options : Engine σ Options).Keeps I E := .of_still fun _ => rfl

protected theorem modify {f : Options → Options} (h : ∀ o, I o → I (f o)) : (modify f : Engine σ Unit).Keeps I E :=
  fun s hs => ⟨h s.options hs, [], by simp, by simp⟩

protected theorem ask (h : ∀ o, I o → ∀ answer, E (.call ⟨text, o⟩ answer)) : (ask linter text).Keeps I E :=
  fun s hs => ⟨hs, _, s.events_ask, by simpa using h s.options hs _⟩

protected theorem bind {m : Engine σ α} {f : α → Engine σ β} (hm : m.Keeps I E) (hf : ∀ a, (f a).Keeps I E) :
    (m >>= f).Keeps I E := by
  intro s hs
  obtain ⟨hi, es, hes, he⟩ := hm s hs
  rcases bind_cases m f s with ⟨e, _, h⟩ | ⟨a, _, h⟩
  · rw [h]
    exact ⟨hi, es, hes, he⟩
  · obtain ⟨hi', es', hes', he'⟩ := hf a (m s).2 hi
    rw [h]
    refine ⟨hi', es ++ es', by rw [hes', hes, List.append_assoc], fun e hmem => ?_⟩
    exact (List.mem_append.1 hmem).elim (he e) (he' e)

end Keeps

/-! ## Where a run stops -/

/-- A question that fails is the last one, with the failure that is the result; a failure of another kind has the
property. -/
structure StopsWith (P : Failure → Prop) (xs : List Exchange) (r : Except Failure α) : Prop where
  failed_last : ∀ k (hk : k < xs.length) e, xs[k].answer = .error e → k + 1 = xs.length ∧ r = .error e
  cause : ∀ e, r = .error e → (∃ x ∈ xs.getLast?, x.answer = .error e) ∨ P e

/-- The run stops at the first question that fails. Its failures of another kind have the property. -/
def Stops (m : Engine σ α) (P : Failure → Prop) : Prop :=
  ∀ s, ∃ es, (m s).2.events = s.events ++ es ∧ StopsWith P (exchanges es) (m s).1

namespace StopsWith

variable {P : Failure → Prop} {xs ys : List Exchange}

/-- Where nothing is asked, only the failures of another kind are left. -/
theorem nil {r : Except Failure α} (h : ∀ e, r = .error e → P e) : StopsWith P [] r :=
  ⟨fun _ hk => absurd hk (Nat.not_lt_zero _), fun e he => .inr (h e he)⟩

theorem single (x : Exchange) : StopsWith P [x] x.answer := by
  refine ⟨fun k hk e he => ?_, fun e he => .inl ⟨x, rfl, he⟩⟩
  obtain rfl : k = 0 := by simpa using hk
  exact ⟨rfl, he⟩

/-- Only failures count in the result. -/
theorem congr {r : Except Failure α} {r' : Except Failure β} (h : StopsWith P xs r)
    (hr : ∀ e, r = .error e ↔ r' = .error e) : StopsWith P xs r' :=
  ⟨fun k hk e he => (h.failed_last k hk e he).imp_right (hr e).1, fun e he => h.cause e ((hr e).2 he)⟩

theorem map {r : Except Failure α} (h : StopsWith P xs r) (f : α → β) : StopsWith P xs (r.map f) :=
  h.congr fun e => by cases r <;> simp [Except.map]

theorem mono {Q : Failure → Prop} {r : Except Failure α} (h : StopsWith P xs r) (hPQ : ∀ e, P e → Q e) :
    StopsWith Q xs r := ⟨h.failed_last, fun e he => (h.cause e he).imp_right (hPQ e)⟩

/-- After questions that were all answered the run stops as the rest of it does. -/
theorem append {Q : Failure → Prop} {a : α} {r : Except Failure β} (hx : StopsWith Q xs (.ok a : Except Failure α))
    (hy : StopsWith P ys r) : StopsWith P (xs ++ ys) r := by
  refine ⟨fun k hk e he => ?_, fun e he => ?_⟩
  · by_cases hkx : k < xs.length
    · rw [List.getElem_append_left hkx] at he
      cases (hx.failed_last k hkx e he).2
    · have hky : k - xs.length < ys.length := by
        rw [List.length_append] at hk
        omega
      rw [List.getElem_append_right (by omega)] at he
      obtain ⟨hlast, hr⟩ := hy.failed_last _ hky e he
      refine ⟨?_, hr⟩
      rw [List.length_append]
      omega
  · refine (hy.cause e he).imp_left ?_
    rintro ⟨x, hlast, hxe⟩
    exact ⟨x, by simp [Option.mem_def.1 hlast], hxe⟩

end StopsWith

namespace Stops

variable {P : Failure → Prop}

theorem of_still {m : Engine σ α} (h : ∀ s, (m s).2 = s) (hP : ∀ s e, (m s).1 = .error e → P e) : m.Stops P :=
  fun s => ⟨[], by rw [h s, List.append_nil], .nil (hP s)⟩

protected theorem pure (a : α) : (pure a : Engine σ α).Stops P := .of_still (fun _ => rfl) fun _ _ h => nomatch h

protected theorem fail {e : Failure} (h : P e) : (fail e : Engine σ α).Stops P :=
  .of_still (fun _ => rfl) fun _ _ he => by
    cases he
    exact h

protected theorem options : (options : Engine σ Options).Stops P := .of_still (fun _ => rfl) fun _ _ h => nomatch h

protected theorem modify (f : Options → Options) : (modify f : Engine σ Unit).Stops P :=
  fun s => ⟨[], by simp, .nil fun _ h => nomatch h⟩

protected theorem ask : (ask linter text).Stops P := fun s => ⟨_, s.events_ask, .single _⟩

protected theorem bind {m : Engine σ α} {f : α → Engine σ β} (hm : m.Stops P) (hf : ∀ a, (f a).Stops P) :
    (m >>= f).Stops P := by
  intro s
  obtain ⟨es, hes, hstop⟩ := hm s
  rcases bind_cases m f s with ⟨e, hr, h⟩ | ⟨a, hr, h⟩
  · rw [h]
    rw [hr] at hstop
    exact ⟨es, hes, hstop.congr fun e' => by simp⟩
  · obtain ⟨es', hes', hstop'⟩ := hf a (m s).2
    rw [h]
    rw [hr] at hstop
    refine ⟨es ++ es', by rw [hes', hes, List.append_assoc], ?_⟩
    rw [exchanges_append]
    exact hstop.append hstop'

end Stops

end Engine

end LintInference
