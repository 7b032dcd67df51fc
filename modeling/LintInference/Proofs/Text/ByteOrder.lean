import LintInference.Text.Utf8

/-!
# Order of texts and order of their bytes

Texts are compared character by character. As a character with a higher number has the higher bytes, whatever follows
(`encodeChar_lt`), that is the order of their UTF-8 bytes (`toBytes_le_iff`).
-/

namespace LintInference.Text

open String (utf8EncodeChar)

/-- The first byte decides, or else the rest does. -/
theorem cons_byte_lt_iff {a b : Nat} (ha : a < 256) (hb : b < 256) (l m : Bytes) :
    UInt8.ofNat a :: l < UInt8.ofNat b :: m ↔ a < b ∨ a = b ∧ l < m := by
  rw [List.cons_lt_cons_iff, UInt8.lt_iff_toNat_lt, ← UInt8.toNat_inj, UInt8.toNat_ofNat', UInt8.toNat_ofNat',
    Nat.mod_eq_of_lt ha, Nat.mod_eq_of_lt hb]

/-- A number in base 64, as the bytes of a character have it: the low three digits, and the rest in front. -/
theorem digits_of_nat (n : Nat) : ∃ a b c d, b < 64 ∧ c < 64 ∧ d < 64 ∧ n = 262144 * a + 4096 * b + 64 * c + d ∧
    n / 262144 = a ∧ n / 4096 = 64 * a + b ∧ n / 64 = 4096 * a + 64 * b + c ∧ n % 64 = d := by
  refine ⟨n / 262144, n / 4096 % 64, n / 64 % 64, n % 64, ?_, ?_, ?_, ?_, rfl, ?_, ?_, rfl⟩ <;> omega

/-- The lower of two characters has the lower bytes. -/
theorem encodeChar_lt {c d : Char} (h : c < d) (x y : Bytes) : utf8EncodeChar c ++ x < utf8EncodeChar d ++ y := by
  have hlt : c.val.toNat < d.val.toNat := h
  have hd : d.val.toNat < 0x110000 := by rcases d.valid with h | h <;> omega
  have width (n : Nat) : n ≤ 0x7f ∨ 0x7f < n ∧ n ≤ 0x7ff ∨ 0x7ff < n ∧ n ≤ 0xffff ∨ 0xffff < n := by omega
  simp only [utf8EncodeChar]
  generalize c.val.toNat = v at *
  generalize d.val.toNat = w at *
  obtain ⟨v₃, v₂, v₁, v₀, hv₂, hv₁, hv₀, hv, ev₃, ev₂, ev₁, ev₀⟩ := digits_of_nat v
  obtain ⟨w₃, w₂, w₁, w₀, hw₂, hw₁, hw₀, hw, ew₃, ew₂, ew₁, ew₀⟩ := digits_of_nat w
  rw [ev₃, ev₂, ev₁, ev₀, ew₃, ew₂, ew₁, ew₀]
  clear ev₃ ev₂ ev₁ ev₀ ew₃ ew₂ ew₁ ew₀
  -- either the first bytes are of different width and decide, or the digits are compared
  rcases width v with h | h | h | h <;> rcases width w with h' | h' | h' | h' <;>
    simp (disch := omega) only [if_pos, if_neg, List.cons_append, List.nil_append, cons_byte_lt_iff] <;> omega

theorem flatMap_encodeChar_lt {l m : List Char} (h : l < m) :
    l.flatMap utf8EncodeChar < m.flatMap utf8EncodeChar := by
  induction h with
  | @nil d m =>
    cases hd : utf8EncodeChar d with
    | nil => exact absurd hd String.utf8EncodeChar_ne_nil
    | cons b bs =>
      rw [List.flatMap_cons, hd]
      exact List.nil_lt_cons _ _
  | rel h => exact encodeChar_lt h _ _
  | cons _ ih => exact List.append_left_lt ih

/-- Reading the bytes of an array from a position on. -/
theorem loop_toByteArray (l acc : Bytes) (i : Nat) :
    ByteArray.toList.loop l.toByteArray i acc = acc.reverse ++ l.drop i := by
  rw [ByteArray.toList.loop]
  by_cases h : i < l.length
  · have hget : l.toByteArray.get! i = l[i] := by simp [ByteArray.get!, h]
    rw [if_pos (by rwa [List.size_toByteArray]), hget, loop_toByteArray, List.reverse_cons, List.append_assoc,
      List.drop_eq_getElem_cons h]
    rfl
  · rw [if_neg (by rwa [List.size_toByteArray]), List.drop_eq_nil_of_le (Nat.le_of_not_lt h), List.append_nil]
termination_by l.length - i

/-- The bytes of a text are those of its characters, one character after the other. -/
theorem toBytes_eq_flatMap (s : String) : toBytes s = s.toList.flatMap utf8EncodeChar := by
  conv => lhs; rw [← String.ofList_toList (s := s)]
  rw [toBytes, String.toUTF8_eq_toByteArray, String.toByteArray_ofList, List.utf8Encode, ByteArray.toList,
    loop_toByteArray, List.reverse_nil, List.nil_append, List.drop_zero]

theorem toBytes_lt_iff {a b : String} : toBytes a < toBytes b ↔ a < b := by
  rw [toBytes_eq_flatMap, toBytes_eq_flatMap]
  refine ⟨fun h => ?_, flatMap_encodeChar_lt⟩
  by_cases hab : a.toList < b.toList
  · exact hab
  · rcases List.le_iff_lt_or_eq.1 (List.not_lt.1 hab) with hba | hba
    · exact absurd (flatMap_encodeChar_lt hba) (List.lt_asymm h)
    · rw [hba] at h
      exact absurd h (List.lt_irrefl _)

/-- The order of texts is the order of their bytes. -/
theorem toBytes_le_iff {a b : String} : toBytes a ≤ toBytes b ↔ a ≤ b := not_congr toBytes_lt_iff

end LintInference.Text
