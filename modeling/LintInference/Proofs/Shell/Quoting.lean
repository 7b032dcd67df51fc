import LintInference.Shell.Evaluation
import Mathlib.Data.List.TakeDrop

/-!
# Quoted words

A text in single quotes is a word that stands for the text, whatever is in it: it is not expanded, split or taken for a
pattern, and it is one argument even if it is empty. So the texts of a line (`quotedLine`) are read as words
(`simple_quotedLine`), and the words become the texts again (`fieldsOfWords_quoted`).
-/

namespace LintInference.Shell

variable {lines n : Nat} {t : Raw} {ts : List Raw}

/-- The texts in single quotes, with a blank before each. -/
def quotedLine : List Raw → Raw
  | [] => []
  | t :: ts => ' ' :: '\'' :: (t ++ '\'' :: quotedLine ts)

/-! ## Reading -/

theorem part_quote (h : '\'' ∉ t) (cs : Raw) :
    part lines (n + 1) false ('\'' :: (t ++ '\'' :: cs)) = some ([.quoted t], cs) := by
  have hpos : ∀ c ∈ t, (!decide (c = '\'')) = true := by
    intro c hc
    rw [decide_eq_false fun hq : c = '\'' => h (hq ▸ hc), Bool.not_false]
  have htake : (t ++ '\'' :: cs).takeWhile (fun c => !decide (c = '\'')) = t := by
    rw [List.takeWhile_append_of_pos hpos]
    simp
  have hdrop : (t ++ '\'' :: cs).dropWhile (fun c => !decide (c = '\'')) = '\'' :: cs := by
    rw [List.dropWhile_append_of_pos hpos]
    simp
  simp [part, htake, hdrop]

/-- A word ends before a blank, and at the end. -/
theorem word_quotedLine (ts : List Raw) : word lines (n + 1) (quotedLine ts) = some ([], quotedLine ts) := by
  cases ts with
  | nil => rw [quotedLine, word]
  | cons t ts =>
    rw [quotedLine, word]
    exact if_pos (by decide)

theorem word_quote (h : '\'' ∉ t) (ts : List Raw) :
    word lines (n + 2) ('\'' :: (t ++ '\'' :: quotedLine ts)) = some ([.quoted t], quotedLine ts) := by
  have hmeta : isMeta '\'' = false := by decide
  rw [word, hmeta, if_neg Bool.false_ne_true, part_quote h]
  simp [word_quotedLine]

theorem redirection_quote (cs : Raw) : redirection lines (n + 1) ('\'' :: cs) = some none := by
  rw [redirection.eq_def]
  rfl

/-- The texts are read as the words of a command. -/
theorem simple_quotedLine (h : ∀ t ∈ ts, '\'' ∉ t) (begun : Bool) (hn : 2 * ts.length + 4 ≤ n) :
    simple lines n begun (quotedLine ts) = some (([], ts.map fun t => [.quoted t], []), []) := by
  induction ts generalizing n begun with
  | nil =>
    obtain ⟨m, rfl⟩ := Nat.exists_eq_add_of_le' hn
    rfl
  | cons t ts ih =>
    obtain ⟨m, rfl⟩ : ∃ m, n = m + 4 := ⟨n - 4, by simp only [List.length_cons] at hn; omega⟩
    obtain ⟨ht, hts⟩ := List.forall_mem_cons.1 h
    have hspaces : spaces (quotedLine (t :: ts)) = '\'' :: (t ++ '\'' :: quotedLine ts) := rfl
    rw [simple]
    dsimp only
    rw [hspaces, redirection_quote]
    have hrest := ih hts true (n := m + 2) (by simp only [List.length_cons] at hn; omega)
    have hname : takeName ('\'' :: (t ++ '\'' :: quotedLine ts)) = ([], '\'' :: (t ++ '\'' :: quotedLine ts)) := rfl
    simp [hname, simpleWord, word_quote ht, hrest]

/-! ## Expanding -/

/-- Only the field itself comes of a quoted text, even if there are names that the text matches. -/
theorem namesFor_quoted (s : State) (t : Raw) : s.namesFor (t.map (·, true)) = [t] := by
  have hpattern : Field.isPattern (t.map (·, true)) = false := by
    rw [Field.isPattern, List.any_map, List.any_eq_false]
    exact fun c _ => Bool.false_ne_true
  have htext : Field.text (t.map (·, true)) = t := by
    rw [Field.text, List.map_map]
    exact List.map_id t
  rw [State.namesFor, hpattern, if_neg Bool.false_ne_true, htext]

/-- The words of quoted texts are the texts, whatever the state of the script, and the state stays. -/
theorem fieldsOfWords_quoted (ts : List Raw) (s : State) (hn : ts.length + 3 ≤ n) :
    fieldsOfWords n (ts.map fun t => [.quoted t]) s = (ts, s) := by
  induction ts generalizing n with
  | nil =>
    obtain ⟨m, rfl⟩ := Nat.exists_eq_add_of_le' hn
    rfl
  | cons t ts ih =>
    rw [List.length_cons] at hn
    obtain ⟨m, rfl⟩ : ∃ m, n = m + 3 := ⟨n - 3, by omega⟩
    have hexpand : expand (m + 2) [.quoted t] s = ([.quoted t], s) := rfl
    have hfields : fieldsOf s.separators [.quoted t] = [t.map (·, true)] := rfl
    rw [List.map_cons, fieldsOfWords]
    · rw [hexpand]
      dsimp only
      rw [hfields, ih (by omega), List.flatMap_singleton, namesFor_quoted]
      rfl
    · intro hparameters
      cases hparameters

end LintInference.Shell
