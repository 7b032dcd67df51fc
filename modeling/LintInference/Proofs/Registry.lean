import LintInference.Command.Run
import LintInference.Proofs.Entries
import LintInference.Proofs.Inference.FirstMatch

/-!
# The rules of a registry

An object that is read from a text has each name once. So does a registry that was loaded, from wherever it came, and
then its listing is strictly ascending (`Registry.names_ascending`).
-/

namespace LintInference

theorem mapError_eq_ok_iff {ε ε' α : Type} {x : Except ε α} {f : ε → ε'} {a : α} :
    x.mapError f = .ok a ↔ x = .ok a := by
  cases x <;> simp [Except.mapError]

namespace Json

/-- What is read, if anything is, has the property. -/
def Yields {α : Type} (P : α → Prop) (r : Except ReadError (α × Cursor)) : Prop := ∀ v c, r = .ok (v, c) → P v

namespace Yields

variable {α β : Type} {P : α → Prop}

theorem ok {v : α} {c : Cursor} (h : P v) : Yields P (.ok (v, c)) := by
  rintro _ _ ⟨⟩
  exact h

theorem error (e : ReadError) : Yields P (.error e) := fun _ _ h => nomatch h

theorem bind {r : Except ReadError β} {f : β → Except ReadError (α × Cursor)} (h : ∀ b, Yields P (f b)) :
    Yields P (r >>= f) := by
  cases r with
  | error e => exact error e
  | ok b => exact h b

theorem ite {p : Prop} [Decidable p] {r r' : Except ReadError (α × Cursor)} (h : Yields P r) (h' : Yields P r') :
    Yields P (if p then r else r') := by
  split
  · exact h
  · exact h'

end Yields

/-- If the value is an object, it has each name once. -/
def NamesOnce : Json → Prop
  | .object es => (Entries.keys es).Nodup
  | _ => True

theorem valueWith_yields (fuel : Nat) (nested : Option (Reader Json)) (c : Cursor) :
    Yields NamesOnce (valueWith fuel nested c) := by
  simp only [valueWith]
  split
  next => exact .error _
  next => exact .error _
  next =>
    refine .ite (.bind fun (_, _) => .ok trivial) <| .ite (.bind fun (_, _) => .ok trivial) <|
      .ite (.bind fun (_, _) => .ok trivial) <| .ite (.bind fun (_, _) => .ok trivial) <|
      .ite (.bind fun (_, _) => .ok trivial) <| .ite (.bind fun (_, _) => .ok trivial) <|
      .ite ?array <| .ite ?object <| .error _
    case array =>
      cases nested with
      | none => exact .error _
      | some item => exact .bind fun (_, _) => .ok trivial
    case object =>
      cases nested with
      | none => exact .error _
      | some item => exact .bind fun (es, _) => .ok (Entries.nodup_keys_ofList es)

theorem namesOnce_of_read {text : String} {v : Json} (h : read text = .ok v) : NamesOnce v := by
  rw [read, readAll] at h
  cases hv : readValue (2 * (Text.pieces text).length + 2) maxDepth (Cursor.start (Text.pieces text)) with
  | error e =>
    rw [hv] at h
    cases h
  | ok r =>
    obtain ⟨v', c⟩ := r
    rw [hv] at h
    simp only [bind, Except.bind] at h
    split at h
    next =>
      cases h
      exact valueWith_yields _ _ _ _ _ hv
    next => cases h

end Json

namespace Registry

/-! ## Where registries come from -/

theorem nodup_of_read {text : String} {registry : Registry} (h : read text = .ok registry) :
    registry.schemas.keys.Nodup := by
  obtain ⟨v, hv, h⟩ := Schema.bind_eq_ok_iff.1 h
  rw [mapError_eq_ok_iff] at hv
  cases v with
  | object es =>
    cases h
    exact Json.namesOnce_of_read hv
  | null | bool _ | number _ | string _ | array _ => cases h

theorem nodup_of_ofFile {d : Disk} {path : String} {registry : Registry} (h : ofFile d path = .ok registry) :
    registry.schemas.keys.Nodup := by
  rw [ofFile] at h
  split at h
  next => exact nodup_of_read h
  next => cases h

theorem nodup_of_ofInstallation {host : Host} {node : String} {directory : Option String} {d : Disk}
    {registry : Registry} (h : (ofInstallation host node directory d).1 = .ok registry) :
    registry.schemas.keys.Nodup := by
  rw [ofInstallation] at h
  split at h
  next execution _ _ =>
    simp only [ofExecution] at h
    split at h
    next => exact nodup_of_read h
    next => cases h
  next => cases h

end Registry

/-- A registry that a command loads has each rule once. -/
theorem Command.nodup_of_loadRegistry {host : Host} {c : Configuration} {d : Disk} {registry : Registry}
    (h : (loadRegistry host c d).1 = .ok registry) : registry.schemas.keys.Nodup := by
  rw [loadRegistry] at h
  split at h
  next => exact Registry.nodup_of_ofFile (mapError_eq_ok_iff.1 h)
  next => exact Registry.nodup_of_ofInstallation (mapError_eq_ok_iff.1 h)

namespace Registry

/-! ## The listing of the names -/

variable (registry : Registry)

theorem names_perm : registry.names.Perm registry.schemas.keys := List.mergeSort_perm _ _

variable {registry}

/-- The names are listed in ascending order of their bytes, none of them twice. -/
theorem names_ascending (h : registry.schemas.keys.Nodup) :
    registry.names.Pairwise fun a b => Text.toBytes a < Text.toBytes b := by
  have hnodup : registry.names.Nodup := (names_perm registry).nodup_iff.2 h
  refine (List.pairwise_and_iff.2 ⟨Inference.names_pairwise registry, hnodup⟩).imp fun ⟨hle, hne⟩ => ?_
  rw [Text.toBytes_lt_iff]
  by_contra hlt
  exact hne (String.le_antisymm hle hlt)

end Registry

end LintInference
