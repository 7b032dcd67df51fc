import LintInference.Inference
import LintInference.Proofs.Linter.Events

/-!
# The questions of a run, asked again

A run reaches the linter by its questions alone. `Engine.Composed` says that a run is put together from the steps of a
session, with questions to one linter only; what the steps have in common and `>>=` keeps, such a run has by induction.
Probes, suggestions and whole inferences are of this kind (`Inference.run_composed`).

So the history of a session tells the state that the linter is left in, and all the states that it was in before: ask
the questions of the history again, one after the other (`Engine.Composed.replays`).
-/

namespace LintInference

variable {σ α β : Type} {linter : Linter σ} {text : String}

/-- The questions among events. -/
def questions (es : List Event) : List Call := (exchanges es).map (·.call)

@[simp] theorem questions_append (es es' : List Event) : questions (es ++ es') = questions es ++ questions es' := by
  simp [questions]

/-- The state that a linter is in after questions. -/
def Linter.replay (linter : Linter σ) (state : σ) (calls : List Call) : σ :=
  calls.foldl (fun state call => (linter.check call state).2) state

theorem Linter.replay_append (linter : Linter σ) (state : σ) (calls calls' : List Call) :
    linter.replay state (calls ++ calls') = linter.replay (linter.replay state calls) calls' := List.foldl_append

/-- What each answer keeps of the states, all of them keep. -/
theorem Linter.replay_rel {R : σ → σ → Prop} (hrefl : ∀ a, R a a) (htrans : ∀ a b c, R a b → R b c → R a c)
    (hcheck : ∀ call state, R state (linter.check call state).2) (state : σ) (calls : List Call) :
    R state (linter.replay state calls) := by
  induction calls generalizing state with
  | nil => exact hrefl state
  | cons call calls ih => exact htrans _ _ _ (hcheck call state) (ih _)

namespace Engine

/-- The run is put together from the steps of a session; its questions go to the linter. -/
inductive Composed (linter : Linter σ) : {α : Type} → Engine σ α → Prop where
  | pure {α : Type} (a : α) : Composed linter (pure a : Engine σ α)
  | lift {α : Type} (r : Except Failure α) : Composed linter (lift r)
  | options : Composed linter options
  | modify (f : Options → Options) : Composed linter (modify f)
  | ask (text : String) : Composed linter (ask linter text)
  | report (p : Progress) : Composed linter (report p)
  | bind {α β : Type} {m : Engine σ α} {f : α → Engine σ β} : Composed linter m → (∀ a, Composed linter (f a)) →
      Composed linter (m >>= f)
  | apart {α : Type} {m : Engine σ α} : Composed linter m → Composed linter (apart m)

/-- The state at the end of the run is the one after its questions. -/
theorem Composed.replays {m : Engine σ α} (h : Composed linter m) (s : Session σ) : ∃ es,
    (m s).2.events = s.events ++ es ∧ (m s).2.state = linter.replay s.state (questions es) := by
  induction h generalizing s with
  | pure _ | lift _ | options | modify _ => exact ⟨[], (List.append_nil _).symm, rfl⟩
  | ask text => exact ⟨_, s.events_ask, rfl⟩
  | report p => exact ⟨_, s.events_report p, rfl⟩
  | @bind _ _ m f _ _ ihm ihf =>
    obtain ⟨es, hes, hstate⟩ := ihm s
    rcases bind_cases m f s with ⟨e, _, h⟩ | ⟨a, _, h⟩
    · rw [h]
      exact ⟨es, hes, hstate⟩
    · obtain ⟨es', hes', hstate'⟩ := ihf a (m s).2
      rw [h]
      refine ⟨es ++ es', by rw [hes', hes, List.append_assoc], ?_⟩
      rw [hstate', hstate, questions_append, Linter.replay_append]
  | apart _ ih => exact ih { s with options := .initial }

end Engine

/-! ## Probes, suggestions and inferences -/

open Engine (Composed)

namespace Probe

theorem feature_composed (f : Feature) : Composed linter (feature linter text f) := by
  refine .bind (.modify _) fun _ => .bind (.modify _) fun _ => .bind (.ask text) fun report => ?_
  cases report.hasErrors with
  | true => exact .bind (.modify _) fun _ => .bind (.ask text) fun _ => .pure _
  | false => exact .pure _

theorem firstDialect_composed (ds : List Dialect) : Composed linter (firstDialect linter text ds) := by
  induction ds with
  | nil => exact .bind .options fun o => .lift (.error (.undetectableDialect o.grammar.version.toNat))
  | cons d ds ih =>
    refine .bind (.modify _) fun _ => .bind (.ask text) fun report => ?_
    cases report.hasErrors with
    | true => exact ih
    | false => exact .pure d

theorem grammar_composed : Composed linter (grammar linter text) :=
  .bind (feature_composed .jsx) fun _ => .bind (feature_composed .globalReturn) fun _ =>
    .bind (feature_composed .objectRestSpread) fun _ =>
      .bind (.bind (.modify _) fun _ => firstDialect_composed dialects) fun _ => .bind .options fun _ => .pure _

end Probe

namespace Suggestion

theorem passes_composed (rule : String) (c : Candidate) : Composed linter (passes linter text rule c) :=
  .bind (.modify _) fun _ => .bind (.ask text) fun _ => .pure _

theorem firstPassing_composed (rule : String) (cs : List Candidate) :
    Composed linter (firstPassing linter text rule cs) := by
  induction cs with
  | nil => exact .pure none
  | cons c cs ih =>
    refine .bind (passes_composed rule c) fun passed => ?_
    cases passed with
    | true => exact .pure (some c)
    | false => exact ih

theorem suggest_composed (registry : Registry) (rule : String) : Composed linter (suggest linter registry text rule) :=
  .bind (.lift _) fun _ => .bind (.lift _) fun cs => .bind (firstPassing_composed rule cs) fun _ => .pure _

end Suggestion

namespace Inference

theorem suggestEach_composed (registry : Registry) (total completed : Nat) (rules : List String) :
    Composed linter (suggestEach linter registry text total completed rules) := by
  induction rules generalizing completed with
  | nil => exact .pure []
  | cons rule rules ih =>
    exact .bind (.report _) fun _ => .bind (Suggestion.suggest_composed registry rule) fun _ =>
      .bind (ih (completed + 1)) fun _ => .pure _

theorem run_composed (linter : Linter σ) (registry : Registry) (selection : Selection) (text : String) :
    Composed linter (run linter registry selection text) :=
  .apart (.bind Probe.grammar_composed fun _ => .bind (suggestEach_composed registry _ _ _) fun _ =>
    .bind (.modify _) fun _ => .bind (.report _) fun _ => .pure _)

end Inference

end LintInference
