/-!
# Named entries in order of arrival

An ordered map is a list of named entries. `Entries.put` leaves a name that is already there at its place and puts a new
name at the end, so a map built by `Entries.ofList` has each name once, at its first place and with its last value.
-/

namespace LintInference

/-- Named entries, in the order in which their names first arrived. -/
abbrev Entries (α : Type) := List (String × α)

namespace Entries

variable {α β : Type}

/-- The names, in order. -/
def keys (m : Entries α) : List String := m.map (·.1)

/-- The value under a name. -/
def get? : Entries α → String → Option α
  | [], _ => none
  | (k', v) :: m, k => if k' = k then some v else get? m k

/-- Gives a name a value: in place if the name is there, else at the end. -/
def put : Entries α → String → α → Entries α
  | [], k, v => [(k, v)]
  | (k', v') :: m, k, v => if k' = k then (k, v) :: m else (k', v') :: put m k v

/-- The map that results from entering the pairs one after the other. -/
def ofList (l : List (String × α)) : Entries α := l.foldl (fun m e => put m e.1 e.2) []

/-- Applies a function to every value; names and order stay. -/
def mapValues (f : α → β) (m : Entries α) : Entries β := m.map fun e => (e.1, f e.2)

/-! ## What each operation does to the names and to look-up -/

@[simp] theorem get?_put_self (m : Entries α) (k : String) (v : α) : get? (put m k v) k = some v := by
  induction m with
  | nil => simp [put, get?]
  | cons e m ih => by_cases h : e.1 = k <;> simp [put, get?, h, ih]

theorem get?_put_of_ne (m : Entries α) {k k' : String} (v : α) (h : k' ≠ k) :
    get? (put m k v) k' = get? m k' := by
  induction m with
  | nil => simp [put, get?, h.symm]
  | cons e m ih =>
    by_cases he : e.1 = k
    · subst he
      simp [put, get?, h.symm]
    · by_cases hk : e.1 = k'
      · subst hk
        simp [put, get?, h]
      · simp [put, get?, he, hk, ih]

/-- The value entered last counts. -/
@[simp] theorem put_put_self (m : Entries α) (k : String) (v w : α) : put (put m k v) k w = put m k w := by
  induction m with
  | nil => simp [put]
  | cons e m ih => by_cases h : e.1 = k <;> simp [put, h, ih]

theorem keys_put_of_mem (m : Entries α) {k : String} (v : α) (h : k ∈ keys m) : keys (put m k v) = keys m := by
  induction m with
  | nil => simp [keys] at h
  | cons e m ih =>
    by_cases he : e.1 = k
    · simp [put, keys, he]
    · have hm : k ∈ keys m := by
        have := h
        simp only [keys, List.map_cons, List.mem_cons] at this
        exact this.resolve_left fun hk => he hk.symm
      have := ih hm
      simp only [keys] at this
      simp [put, keys, he, this]

theorem keys_put_of_not_mem (m : Entries α) {k : String} (v : α) (h : k ∉ keys m) :
    keys (put m k v) = keys m ++ [k] := by
  induction m with
  | nil => simp [put, keys]
  | cons e m ih =>
    have he : e.1 ≠ k := fun he => h (by simp [keys, he])
    have hm : k ∉ keys m := fun hm => h (by simp only [keys, List.map_cons, List.mem_cons]; exact .inr hm)
    have := ih hm
    simp only [keys] at this
    simp [put, keys, he, this]

/-- A name is looked up with one of its values. -/
theorem exists_get?_of_mem_keys {m : Entries α} {k : String} (h : k ∈ keys m) : ∃ v, get? m k = some v ∧ (k, v) ∈ m := by
  induction m with
  | nil => simp [keys] at h
  | cons e m ih =>
    by_cases he : e.1 = k
    · subst he
      exact ⟨e.2, by simp [get?], List.mem_cons_self⟩
    · have hm : k ∈ keys m := (List.mem_cons.1 h).resolve_left fun hk => he hk.symm
      obtain ⟨v, hv, hmem⟩ := ih hm
      exact ⟨v, by simp [get?, he, hv], List.mem_cons_of_mem e hmem⟩

end Entries

end LintInference
