import LintInference.Proofs.Text.ByteOrder

/-!
# Reading what was written

The bytes of a character are read as that character, whatever follows them (`decode_encodeChar`). So a text is read back
from its bytes (`ofBytes?_toBytes`), and nothing in them is stray.
-/

namespace LintInference.Text

open String (utf8EncodeChar)

variable {a b c d : Nat} {r : Bytes}

/-! ## Bytes as numbers -/

theorem toNat_ofNat_of_lt (ha : a < 256) : (UInt8.ofNat a).toNat = a := by
  rw [UInt8.toNat_ofNat', Nat.mod_eq_of_lt ha]

theorem ofNat_lt_iff (ha : a < 256) (x : UInt8) : UInt8.ofNat a < x ↔ a < x.toNat := by
  rw [UInt8.lt_iff_toNat_lt, toNat_ofNat_of_lt ha]

theorem ofNat_le_iff (ha : a < 256) (x : UInt8) : UInt8.ofNat a ≤ x ↔ a ≤ x.toNat := by
  rw [UInt8.le_iff_toNat_le, toNat_ofNat_of_lt ha]

theorem le_ofNat_iff (ha : a < 256) (x : UInt8) : x ≤ UInt8.ofNat a ↔ x.toNat ≤ a := by
  rw [UInt8.le_iff_toNat_le, toNat_ofNat_of_lt ha]

theorem ofNat_beq_iff (ha : a < 256) (x : UInt8) : (UInt8.ofNat a == x) = true ↔ a = x.toNat := by
  rw [beq_iff_eq, ← UInt8.toNat_inj, toNat_ofNat_of_lt ha]

theorem isTail_ofNat (hb : b < 64) : isTail (UInt8.ofNat (b + 128)) = true := by
  simp (disch := omega) only [isTail, ofNat_le_iff, le_ofNat_iff, UInt8.reduceToNat, Bool.and_eq_true,
    decide_eq_true_eq]
  omega

/-! ## Characters of one to four bytes -/

theorem decode_one (ha : a < 128) : decode (UInt8.ofNat a :: r) = .char (Char.ofNat a) :: decode r := by
  rw [decode.eq_def]
  simp (disch := omega) only [ofNat_lt_iff, UInt8.reduceToNat, if_pos, toNat_ofNat_of_lt]

theorem decode_two (hlow : 2 ≤ a) (ha : a < 32) (hb : b < 64) :
    decode (UInt8.ofNat (a + 192) :: UInt8.ofNat (b + 128) :: r) = .char (Char.ofNat (64 * a + b)) :: decode r := by
  have hn : (a + 192) % 32 * 64 + (b + 128) % 64 = 64 * a + b := by omega
  rw [decode.eq_def]
  simp (disch := omega) only [ofNat_lt_iff, ofNat_le_iff, le_ofNat_iff, UInt8.reduceToNat, if_neg, if_pos, if_true,
    isTail_ofNat, Bool.and_eq_true, decide_eq_true_eq, toNat_ofNat_of_lt, assemble, List.foldl_cons, List.foldl_nil, hn]

/-- Three bytes: the number is not one for two of them, nor a surrogate. -/
theorem decode_three (hlow : a = 0 → 32 ≤ b) (hgap : a = 13 → b < 32) (ha : a < 16) (hb : b < 64) (hc : c < 64) :
    decode (UInt8.ofNat (a + 224) :: UInt8.ofNat (b + 128) :: UInt8.ofNat (c + 128) :: r) =
      .char (Char.ofNat (4096 * a + 64 * b + c)) :: decode r := by
  have hn : ((a + 224) % 16 * 64 + (b + 128) % 64) * 64 + (c + 128) % 64 = 4096 * a + 64 * b + c := by omega
  have hfits : fitsThree (UInt8.ofNat (a + 224)) (UInt8.ofNat (b + 128)) = true := by
    simp (disch := omega) only [fitsThree, ofNat_beq_iff, ofNat_le_iff, le_ofNat_iff, UInt8.reduceToNat]
    split
    · simp only [Bool.and_eq_true, decide_eq_true_eq]
      omega
    · split
      · simp only [Bool.and_eq_true, decide_eq_true_eq]
        omega
      · exact isTail_ofNat hb
  rw [decode.eq_def]
  simp (disch := omega) only [ofNat_lt_iff, ofNat_le_iff, le_ofNat_iff, UInt8.reduceToNat, if_neg, if_pos, if_true,
    hfits, isTail_ofNat, Bool.and_eq_true, decide_eq_true_eq, toNat_ofNat_of_lt, assemble, List.foldl_cons,
    List.foldl_nil, hn]

/-- Four bytes: the number is not one for three of them, nor above all characters. -/
theorem decode_four (hlow : a = 0 → 16 ≤ b) (hhigh : a = 4 → b < 16) (ha : a ≤ 4) (hb : b < 64) (hc : c < 64)
    (hd : d < 64) :
    decode (UInt8.ofNat (a + 240) :: UInt8.ofNat (b + 128) :: UInt8.ofNat (c + 128) :: UInt8.ofNat (d + 128) :: r) =
      .char (Char.ofNat (262144 * a + 4096 * b + 64 * c + d)) :: decode r := by
  have hn : (((a + 240) % 8 * 64 + (b + 128) % 64) * 64 + (c + 128) % 64) * 64 + (d + 128) % 64 =
      262144 * a + 4096 * b + 64 * c + d := by omega
  have hfits : fitsFour (UInt8.ofNat (a + 240)) (UInt8.ofNat (b + 128)) = true := by
    simp (disch := omega) only [fitsFour, ofNat_beq_iff, ofNat_le_iff, le_ofNat_iff, UInt8.reduceToNat]
    split
    · simp only [Bool.and_eq_true, decide_eq_true_eq]
      omega
    · split
      · simp only [Bool.and_eq_true, decide_eq_true_eq]
        omega
      · exact isTail_ofNat hb
  rw [decode.eq_def]
  simp (disch := omega) only [ofNat_lt_iff, ofNat_le_iff, le_ofNat_iff, UInt8.reduceToNat, if_neg, if_pos, if_true,
    hfits, isTail_ofNat, Bool.and_eq_true, decide_eq_true_eq, toNat_ofNat_of_lt, assemble, List.foldl_cons,
    List.foldl_nil, hn]

/-! ## Texts -/

/-- The bytes of a character are read as the character. -/
theorem decode_encodeChar (c : Char) (r : Bytes) : decode (utf8EncodeChar c ++ r) = .char c :: decode r := by
  have hvalid : c.toNat < 0xD800 ∨ 0xDFFF < c.toNat ∧ c.toNat < 0x110000 := c.valid
  have hchar : Char.ofNat c.toNat = c := Char.ofNat_toNat c
  have width : c.toNat ≤ 0x7f ∨ 0x7f < c.toNat ∧ c.toNat ≤ 0x7ff ∨ 0x7ff < c.toNat ∧ c.toNat ≤ 0xffff ∨
      0xffff < c.toNat := by omega
  have hnat : c.val.toNat = c.toNat := rfl
  simp only [utf8EncodeChar, hnat]
  conv => rhs; rw [← hchar]
  clear hchar hnat
  generalize c.toNat = v at *
  obtain ⟨v₃, v₂, v₁, v₀, hv₂, hv₁, hv₀, rfl, ev₃, ev₂, ev₁, ev₀⟩ := digits_of_nat v
  rw [ev₃, ev₂, ev₁, ev₀]
  -- the digits that the width leaves out are zero
  rcases width with h | h | h | h <;> simp (disch := omega) only [if_pos, if_neg, List.cons_append, List.nil_append]
  · exact decode_one (by omega)
  · have hfirst : (4096 * v₃ + 64 * v₂ + v₁) % 32 = v₁ := by omega
    have hnumber : 262144 * v₃ + 4096 * v₂ + 64 * v₁ + v₀ = 64 * v₁ + v₀ := by omega
    rw [hfirst, hnumber]
    exact decode_two (by omega) (by omega) hv₀
  · have hfirst : (64 * v₃ + v₂) % 16 = v₂ := by omega
    have hsecond : (4096 * v₃ + 64 * v₂ + v₁) % 64 = v₁ := by omega
    have hnumber : 262144 * v₃ + 4096 * v₂ + 64 * v₁ + v₀ = 4096 * v₂ + 64 * v₁ + v₀ := by omega
    rw [hfirst, hsecond, hnumber]
    exact decode_three (by omega) (by omega) (by omega) hv₁ hv₀
  · have hfirst : v₃ % 8 = v₃ := by omega
    have hsecond : (64 * v₃ + v₂) % 64 = v₂ := by omega
    have hthird : (4096 * v₃ + 64 * v₂ + v₁) % 64 = v₁ := by omega
    rw [hfirst, hsecond, hthird]
    exact decode_four (by omega) (by omega) (by omega) hv₂ hv₁ hv₀

/-- The bytes of a text are read as its characters, and none of them is stray. -/
theorem decode_toBytes (s : String) : decode (toBytes s) = pieces s := by
  have hchars (l : List Char) : decode (l.flatMap utf8EncodeChar) = l.map .char := by
    induction l with
    | nil => rfl
    | cons c l ih => rw [List.flatMap_cons, decode_encodeChar, ih, List.map_cons]
  rw [toBytes_eq_flatMap, hchars, pieces]

theorem charsOf?_pieces (s : String) : charsOf? (pieces s) = some s.toList := by
  rw [pieces]
  induction s.toList with
  | nil => rfl
  | cons c l ih => rw [List.map_cons, charsOf?, ih, Option.map_some]

/-- A text is read back from its bytes. -/
theorem ofBytes?_toBytes (s : String) : ofBytes? (toBytes s) = some s := by
  rw [ofBytes?, decode_toBytes, charsOf?_pieces, Option.map_some, String.ofList_toList]

end LintInference.Text
