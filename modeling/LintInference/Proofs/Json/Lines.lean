import LintInference.Candidate

/-!
# Compact JSON is a single line

A text without a line feed is unbroken. The text of a number is unbroken, a line feed inside a string is escaped, and no
other part of the compact text of a value has one (`Json.unbroken_compact`). So what is laid out value by value has as
many lines as there are values.
-/

namespace LintInference

/-- The text has no line feed. -/
def Unbroken (s : String) : Prop := '\n' ∉ s.toList

instance (s : String) : Decidable (Unbroken s) := inferInstanceAs (Decidable ('\n' ∉ s.toList))

theorem Unbroken.append {s t : String} (hs : Unbroken s) (ht : Unbroken t) : Unbroken (s ++ t) := by
  rw [Unbroken, String.toList_append, List.mem_append]
  exact not_or.2 ⟨hs, ht⟩

theorem Unbroken.ite {p : Prop} [Decidable p] {s t : String} (hs : Unbroken s) (ht : Unbroken t) :
    Unbroken (if p then s else t) := by
  split
  · exact hs
  · exact ht

/-- A part of an unbroken text is unbroken. -/
theorem Unbroken.take {s : String} (h : Unbroken s) (n : Nat) : Unbroken (s.take n).toString :=
  fun hm => h (List.mem_of_mem_take (by simpa using hm))

theorem Unbroken.drop {s : String} (h : Unbroken s) (n : Nat) : Unbroken (s.drop n).toString :=
  fun hm => h (List.mem_of_mem_drop (by simpa using hm))

/-! ## Numbers -/

theorem unbroken_toString_nat (n : Nat) : Unbroken (toString n) := by
  intro h
  rw [Nat.toString_eq_repr, Nat.toList_repr] at h
  exact absurd (Nat.isDigit_of_mem_toDigits (by decide) (by decide) h) (by decide)

theorem unbroken_toString_int (n : Int) : Unbroken (toString n) := by
  cases n with
  | ofNat m => exact unbroken_toString_nat m
  | negSucc m => exact .append (s := "-") (by decide) (unbroken_toString_nat (m + 1))

namespace Json

theorem unbroken_intText (n : Int) : Unbroken (intText n) := by
  cases n with
  | ofNat m => exact unbroken_toString_nat m
  | negSucc m => exact .append (by decide) (unbroken_toString_nat (m + 1))

/-- The digits of a number, cut wherever, with signs and zeros. -/
theorem unbroken_floatText (x : Binary64) : Unbroken (floatText x) := by
  have hdigits := unbroken_toString_nat x.shortest.digits
  have hzeros (k : Nat) : Unbroken (String.ofList (List.replicate k '0')) := by
    rw [Unbroken, String.toList_ofList]
    exact fun h => absurd (List.eq_of_mem_replicate h) (by decide)
  simp only [floatText]
  refine .ite (.append (by decide) ?body) ?body
  refine .ite (.ite ?whole (.ite ?cut ?small)) (.append ?mantissa ?exponent)
  case whole => exact .append (.append hdigits (hzeros _)) (by decide)
  case cut => exact .append (.append (hdigits.take _) (by decide)) (hdigits.drop _)
  case small => exact .append (.append (by decide) (hzeros _)) hdigits
  case mantissa => exact .append (hdigits.take 1) (.ite (by decide) (.append (by decide) (hdigits.drop 1)))
  case exponent =>
    exact .ite (.append (by decide) (unbroken_toString_int _)) (.append (by decide) (unbroken_toString_int _))

/-! ## Strings -/

theorem hexDigit_ne_newline {n : Nat} (h : n < 16) : hexDigit n ≠ '\n' := by
  revert n
  decide

/-- Whatever the character is, it is written without a line feed. -/
theorem newline_notMem_escapeChar (c : Char) : '\n' ∉ escapeChar c := by
  fun_cases escapeChar c with
  | case8 _ _ _ _ _ _ _ h =>
    simp [(hexDigit_ne_newline (n := c.toNat / 16) (by omega)).symm,
      (hexDigit_ne_newline (n := c.toNat % 16) (by omega)).symm]
  | case9 _ _ h => simpa using Ne.symm h
  | _ => decide

theorem newline_notMem_quote (s : String) : '\n' ∉ quote s := by
  simp [quote, escape, newline_notMem_escapeChar]

/-! ## Values -/

theorem newline_notMem_atomText (v : Json) : '\n' ∉ atomText v := by
  cases v with
  | null => decide
  | bool b => cases b <;> decide
  | number n =>
    cases n with
    | int n => exact unbroken_intText n
    | float x => exact unbroken_floatText x
  | string s => exact newline_notMem_quote s
  | array _ => simp [atomText]
  | object _ => simp [atomText]

mutual

theorem newline_notMem_compactChars : (v : Json) → '\n' ∉ compactChars v
  | .array [] => by simp [compactChars]
  | .array (v :: vs) => by
    simp [compactChars, newline_notMem_compactChars v, newline_notMem_compactItems vs]
  | .object [] => by simp [compactChars]
  | .object ((k, v) :: es) => by
    simp [compactChars, newline_notMem_quote k, newline_notMem_compactChars v, newline_notMem_compactEntries es]
  | .null => newline_notMem_atomText .null
  | .bool b => newline_notMem_atomText (.bool b)
  | .number n => newline_notMem_atomText (.number n)
  | .string s => newline_notMem_atomText (.string s)

theorem newline_notMem_compactItems : (vs : List Json) → '\n' ∉ compactItems vs
  | [] => by simp [compactItems]
  | v :: vs => by
    simp [compactItems, newline_notMem_compactChars v, newline_notMem_compactItems vs]

theorem newline_notMem_compactEntries : (es : List (String × Json)) → '\n' ∉ compactEntries es
  | [] => by simp [compactEntries]
  | (k, v) :: es => by
    simp [compactEntries, newline_notMem_quote k, newline_notMem_compactChars v, newline_notMem_compactEntries es]

end

/-- The compact text of a value is a single line. -/
theorem unbroken_compact (v : Json) : Unbroken v.compact := by
  rw [Unbroken, compact, String.toList_ofList]
  exact newline_notMem_compactChars v

end Json

end LintInference
