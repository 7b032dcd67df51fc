import LintInference.Json.Token

/-!
# Words, numbers and strings read back

What the writer makes of a string or of a whole number, the reader takes for that string and that number, whatever comes
before it in the text and whatever follows: nothing that could go on with a number may follow one
(`stops_readString`, `stops_readNumber`).

Where a reader stops is said by what is left of the text (`Stops`); the line and the column do not matter.
-/

namespace LintInference.Json

open Text (Piece)

/-- The reading succeeds with the value, and the given part of the text is left. -/
def Stops {α : Type} (r : Except ReadError (α × Cursor)) (a : α) (tail : List Piece) : Prop :=
  ∃ c, r = .ok (a, c) ∧ c.rest = tail

@[simp] theorem ok_bind {ε α β : Type} (a : α) (f : α → Except ε β) : (Except.ok a >>= f) = f a := rfl

@[simp] theorem pure_eq_ok {ε α : Type} (a : α) : (pure a : Except ε α) = .ok a := rfl

namespace Cursor

variable {c : Cursor} {p : Piece} {x y : Char} {r : List Piece}

theorem rest_past (h : c.rest = p :: r) : c.past.rest = r := by
  simp [past, h]

theorem length_past_le (c : Cursor) : c.past.rest.length ≤ c.rest.length := by
  rw [past]
  split
  next => exact Nat.le_refl _
  next h => simp [h]

theorem isAt_eq (h : c.rest = .char y :: r) : c.isAt x = decide (y = x) := by
  simp [isAt, h]

/-- Nothing but blanks. -/
def Blank (l : List Char) : Prop := ∀ x ∈ l, isBlank (.char x) = true

theorem rest_skip {blanks : List Char} (hb : Blank blanks) (hy : isBlank (.char y) = false) (p : Place) :
    (skip (blanks.map .char ++ .char y :: r) p).rest = .char y :: r := by
  induction blanks generalizing p with
  | nil => simp [skip, hy]
  | cons x blanks ih =>
    obtain ⟨hx, hb⟩ := List.forall_mem_cons.1 hb
    simpa [skip, hx] using ih hb (p.past (.char x))

theorem length_skip_le (r : List Piece) (p : Place) : (skip r p).rest.length ≤ r.length := by
  induction r generalizing p with
  | nil => exact Nat.le_refl 0
  | cons q r ih =>
    rw [skip]
    split
    next => exact Nat.le_succ_of_le (ih (p.past q))
    next => exact Nat.le_refl _

theorem length_skipBlanks_le (c : Cursor) : c.skipBlanks.rest.length ≤ c.rest.length := length_skip_le c.rest c.place

theorem rest_skipBlanks {blanks : List Char} (h : c.rest = blanks.map .char ++ .char y :: r) (hb : Blank blanks)
    (hy : isBlank (.char y) = false) : c.skipBlanks.rest = .char y :: r := by
  rw [skipBlanks, h]
  exact rest_skip hb hy c.place

theorem skipBlanks_eq (h : c.rest = .char y :: r) (hy : isBlank (.char y) = false) :
    c.skipBlanks.rest = .char y :: r :=
  @rest_skipBlanks c y r [] h (List.forall_mem_nil _) hy

theorem skipBlanks_eq_nil (h : c.rest = []) : c.skipBlanks.rest = [] := by
  rw [skipBlanks, h, skip]

end Cursor

open Cursor

variable {c : Cursor} {tail : List Piece}

/-! ## Words -/

theorem stops_readWord (word : List Char) (h : c.rest = word.map .char ++ tail) : Stops (readWord word c) () tail := by
  induction word generalizing c with
  | nil => exact ⟨c, rfl, h⟩
  | cons x word ih =>
    have hc : c.rest = .char x :: (word.map .char ++ tail) := h
    rw [readWord, hc]
    simpa using ih (rest_past hc)

/-! ## Strings -/

section Strings

variable {n : Nat} {acc : List Char} {x y : Char}

/-- An escape by letter stands for one character. -/
theorem stringBody_letter (h : c.rest = .char '\\' :: .char x :: tail) (hx : x ≠ 'u') (hy : unescape? x = some y) :
    ∃ c', stringBody (n + 1) acc false c = stringBody n (y :: acc) false c' ∧ c'.rest = tail := by
  have hpast := rest_past h
  refine ⟨c.past.past, ?_, rest_past hpast⟩
  have hescape : escapeSequence c.past = .ok (y, c.past.past) := by
    simp [escapeSequence, hpast, hx, hy]
  simp [stringBody, h, hescape]

theorem hexValue?_hexDigit {n : Nat} (h : n < 16) : hexValue? (.char (hexDigit n)) = some n := by
  revert n
  decide

theorem utf8Size_hexDigit {n : Nat} (h : n < 16) : (hexDigit n).utf8Size = 1 := by
  revert n
  decide

/-- An escape by number, as control characters have it. -/
theorem stringBody_number (hx : x.toNat < 32)
    (h : c.rest = .char '\\' :: .char 'u' :: .char '0' :: .char '0' :: .char (hexDigit (x.toNat / 16)) ::
      .char (hexDigit (x.toNat % 16)) :: tail) :
    ∃ c', stringBody (n + 1) acc false c = stringBody n (x :: acc) false c' ∧ c'.rest = tail := by
  have hpast := rest_past h
  have hlow : x.toNat % 16 < 16 := by omega
  have hhigh : x.toNat / 16 < 16 := by omega
  have hvalue : x.toNat / 16 * 16 + x.toNat % 16 = x.toNat := by omega
  have hzero : hexValue? (.char '0') = some 0 := by decide
  have hzeroSize : '0'.utf8Size = 1 := by decide
  obtain ⟨c', hc', hrest⟩ : Stops (hexEscape c.past.past) x.toNat tail := by
    rw [hexEscape, rest_past hpast]
    simp [hexFour?, hexValue?_hexDigit, utf8Size_hexDigit, placeAfter, Piece.width, hlow, hhigh, hzero, hzeroSize,
      hvalue, Stops]
  refine ⟨c', ?_, hrest⟩
  have hescape : escapeSequence c.past = .ok (x, c') := by
    simp [escapeSequence, hpast, numberedEscape, hc',
      show ¬ (0xDC00 ≤ x.toNat ∧ x.toNat ≤ 0xDFFF) by omega, show x.toNat < 0xD800 by omega]
  simp [stringBody, h, hescape]

/-- What a character is written as is taken for that character. -/
theorem stringBody_escapeChar (n : Nat) (acc : List Char) (h : c.rest = (escapeChar x).map .char ++ tail) :
    ∃ c', stringBody (n + 1) acc false c = stringBody n (x :: acc) false c' ∧ c'.rest = tail := by
  revert h
  -- seven characters have a letter, other control characters a number, all else stands for itself
  fun_cases escapeChar x with
  | case1 hx => exact fun h => stringBody_letter h (by decide) (by rw [hx]; rfl)
  | case2 _ hx => exact fun h => stringBody_letter h (by decide) (by rw [hx]; rfl)
  | case3 _ _ hx => exact fun h => stringBody_letter h (by decide) (by rw [hx]; rfl)
  | case4 _ _ _ hx => exact fun h => stringBody_letter h (by decide) (by rw [hx]; rfl)
  | case5 _ _ _ _ hx => exact fun h => stringBody_letter h (by decide) (by rw [hx]; rfl)
  | case6 _ _ _ _ _ hx =>
    exact fun h => stringBody_letter h (by decide) (by rw [← Char.ofNat_toNat x, hx]; rfl)
  | case7 _ _ _ _ _ _ hx =>
    exact fun h => stringBody_letter h (by decide) (by rw [← Char.ofNat_toNat x, hx]; rfl)
  | case8 _ _ _ _ _ _ _ hx => exact stringBody_number hx
  | case9 hquote hbackslash _ _ _ _ _ hx =>
    intro h
    have hc : c.rest = .char x :: tail := h
    exact ⟨c.past, by simp [stringBody, hc, hquote, hbackslash, hx], rest_past hc⟩

theorem stops_stringBody (acc : List Char) {s : List Char} (hn : s.length < n)
    (h : c.rest = (escape s ++ ['"']).map .char ++ tail) :
    Stops (stringBody n acc false c) (String.ofList (acc.reverse ++ s)) tail := by
  induction s generalizing n acc c with
  | nil =>
    obtain ⟨n, rfl⟩ := Nat.exists_eq_add_of_lt hn
    have hc : c.rest = .char '"' :: tail := h
    exact ⟨c.past, by simp [stringBody, hc], rest_past hc⟩
  | cons x s ih =>
    cases n with
    | zero => cases hn
    | succ n =>
      have hc : c.rest = (escapeChar x).map .char ++ ((escape s ++ ['"']).map .char ++ tail) := by
        simpa [escape] using h
      obtain ⟨c', hstep, hc'⟩ := stringBody_escapeChar n acc hc
      rw [hstep]
      simpa using ih (x :: acc) (Nat.lt_of_succ_lt_succ hn) hc'

theorem length_le_length_escape (s : List Char) : s.length ≤ (escape s).length := by
  induction s with
  | nil => exact Nat.le_refl 0
  | cons x s ih =>
    have hx : 0 < (escapeChar x).length := by fun_cases escapeChar x <;> simp
    simp only [escape, List.flatMap_cons, List.length_append, List.length_cons] at ih ⊢
    omega

theorem stops_readString {s : String} (h : c.rest = (escape s.toList ++ ['"']).map .char ++ tail)
    (hn : c.rest.length ≤ n) : Stops (readString n c) s tail := by
  have hs : s.toList.length < n := by
    have := length_le_length_escape s.toList
    simp only [h, List.length_append, List.length_map, List.length_singleton] at hn
    omega
  simpa [readString] using stops_stringBody [] hs h

end Strings

/-! ## Whole numbers -/

/-- Nothing that a number could go on with is next. -/
def Ends (tail : List Piece) : Prop :=
  ∀ p ∈ tail.head?, digit? p = none ∧ p ≠ .char '.' ∧ p ≠ .char 'e' ∧ p ≠ .char 'E'

section Numbers

variable {m : Nat} {text : List Char}

theorem digit?_of_isDigit {x : Char} (hx : x.isDigit = true) : digit? (.char x) = some (x.toNat - 48) := by
  simp only [Char.isDigit, Bool.and_eq_true, decide_eq_true_eq] at hx
  exact if_pos hx

/-- All digits are read, and their values are those of the characters. -/
theorem digitsFrom_eq (hd : ∀ x ∈ text, x.isDigit = true) (ht : ∀ p ∈ tail.head?, digit? p = none) (p : Place) :
    ∃ q, digitsFrom (text.map .char ++ tail) p = (text.map fun x => x.toNat - 48, ⟨tail, q⟩) := by
  induction text generalizing p with
  | nil =>
    cases tail with
    | nil => exact ⟨p, rfl⟩
    | cons q tail => exact ⟨p, by simp [digitsFrom, ht q rfl]⟩
  | cons x text ih =>
    obtain ⟨hx, hd⟩ := List.forall_mem_cons.1 hd
    obtain ⟨q, hq⟩ := ih hd (p.past (.char x))
    exact ⟨q, by simp [digitsFrom, digit?_of_isDigit hx, hq]⟩

theorem le_foldl_digits (n : Nat) (ds : List Nat) : n ≤ ds.foldl (fun n d => 10 * n + d) n := by
  induction ds generalizing n with
  | nil => exact Nat.le_refl n
  | cons d ds ih => exact Nat.le_trans (by omega) (ih (10 * n + d))

/-- Digits whose number fits 64 bits are all taken. -/
theorem absorb_eq {n : Nat} {ds : List Nat} (h : ds.foldl (fun n d => 10 * n + d) n < UInt64.size) :
    absorb n ds = (ds.foldl (fun n d => 10 * n + d) n, ds.length) := by
  induction ds generalizing n with
  | nil => rfl
  | cons d ds ih =>
    have hstep : 10 * n + d < UInt64.size := Nat.lt_of_le_of_lt (le_foldl_digits _ ds) h
    simp [absorb, hstep, ih h]

theorem foldl_toDigits (m : Nat) :
    ((Nat.toDigits 10 m).map fun x => x.toNat - 48).foldl (fun n d => 10 * n + d) 0 = m := by
  rw [List.foldl_map]
  exact Nat.ofDigitChars_ten_toDigits

theorem exists_digit (m : Nat) : ∃ x l, Nat.toDigits 10 m = x :: l ∧ x.isDigit = true := by
  obtain ⟨x, l, hl⟩ := List.exists_cons_of_ne_nil (Nat.toDigits_ne_nil (n := m) (b := 10))
  exact ⟨x, l, hl, Nat.isDigit_of_mem_toDigits (b := 10) (n := m) (by decide) (by decide) (hl ▸ List.mem_cons_self)⟩

/-- A number that is not zero does not begin with a zero. -/
theorem toDigits_eq_cons (hm : 0 < m) : ∃ x l, Nat.toDigits 10 m = x :: l ∧ x.toNat - 48 ≠ 0 := by
  induction m using Nat.strongRecOn with
  | ind m ih =>
    by_cases h : m < 10
    · refine ⟨_, [], Nat.toDigits_of_lt_base h, ?_⟩
      rw [Nat.toNat_digitChar_sub_48_of_lt_ten h]
      omega
    · obtain ⟨x, l, hl, hx⟩ := ih (m / 10) (by omega) (by omega)
      refine ⟨x, l ++ [(m % 10).digitChar], ?_, hx⟩
      rw [Nat.toDigits_of_base_le (by decide) (Nat.le_of_not_lt h), hl, List.cons_append]

theorem stops_afterWhole (negative : Bool) (m : Nat) (h : c.rest = tail) (ht : Ends tail) :
    Stops (afterWhole negative m 0 c) (whole negative m) tail := by
  refine ⟨c, ?_, h⟩
  have hnot (x : Char) (hx : ∀ p ∈ tail.head?, p ≠ .char x) : c.isAt x = false := by
    rw [isAt, h]
    cases tail with
    | nil => rfl
    | cons p tail =>
      have := hx p rfl
      cases p <;> simp_all
  simp [afterWhole, hnot '.' fun p hp => (ht p hp).2.1, hnot 'e' fun p hp => (ht p hp).2.2.1,
    hnot 'E' fun p hp => (ht p hp).2.2.2]

theorem readNumber_eq_of_digits {negative : Bool} {d : Nat} {ds : List Nat} {after : Cursor}
    (h : digits c = (d.succ :: ds, after)) : readNumber negative c =
      afterWhole negative (absorb 0 (d.succ :: ds)).1 ((d.succ :: ds).length - (absorb 0 (d.succ :: ds)).2) after := by
  rw [readNumber, h]
  rfl

/-- The digits of a number that fits 64 bits. -/
theorem stops_readNumber (negative : Bool) (hm : m < UInt64.size)
    (h : c.rest = (Nat.toDigits 10 m).map .char ++ tail) (ht : Ends tail) :
    Stops (readNumber negative c) (whole negative m) tail := by
  have hdigit : ∀ x ∈ Nat.toDigits 10 m, x.isDigit = true :=
    fun x hx => Nat.isDigit_of_mem_toDigits (by decide) (by decide) hx
  obtain ⟨q, hq⟩ := digitsFrom_eq hdigit (fun p hp => (ht p hp).1) c.place
  have hdigits : digits c = ((Nat.toDigits 10 m).map fun x => x.toNat - 48, ⟨tail, q⟩) := by rw [digits, h, hq]
  have habsorb := absorb_eq ((foldl_toDigits m).symm ▸ hm)
  rw [foldl_toDigits] at habsorb
  -- a zero alone has a branch of its own, and a zero in front of other digits is refused
  obtain rfl | hpos := Nat.eq_zero_or_pos m
  · rw [readNumber, hdigits, Nat.toDigits_zero]
    exact stops_afterWhole negative 0 rfl ht
  · obtain ⟨x, l, hl, hx⟩ := toDigits_eq_cons hpos
    obtain ⟨d, hd⟩ := Nat.exists_eq_succ_of_ne_zero hx
    rw [hl, List.map_cons, hd] at habsorb hdigits
    rw [readNumber_eq_of_digits hdigits, habsorb, Nat.sub_self]
    exact stops_afterWhole negative m rfl ht

end Numbers

end LintInference.Json
