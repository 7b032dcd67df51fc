import LintInference.Json.Reader
import LintInference.Proofs.Json.Equality
import LintInference.Proofs.Json.Tokens

/-!
# Values read back, however they are laid out

Both writers lay out arrays and objects as rows of texts with commas between them; they differ in the blanks
(`Layout`, `Layout.dense`, `Layout.indented`). The reader passes over blanks before each item and each name, so one
argument serves both: a value that is readable (`Readable`), laid out in whatever way, is read as itself (`Reads.value`).
So both texts of a value come back as that value (`read_compact_and_pretty`).
-/

namespace LintInference.Json

open Text (Piece)
open Cursor

/-! ## Rows and layouts -/

/-- Texts in a row: a comma between neighbours, `before` each of them, and at last `after` and the closing character.
Nothing stands in a row without texts but the closing character. -/
def row (before after : List Char) (close : Char) : Bool → List (List Char) → List Char
  | true, [] => [close]
  | false, [] => after ++ [close]
  | true, t :: ts => before ++ (t ++ row before after close false ts)
  | false, t :: ts => ',' :: (before ++ (t ++ row before after close false ts))

/-- A name and the text of its value. -/
def named (gap : List Char) (name : String) (text : List Char) : List Char := quote name ++ ':' :: (gap ++ text)

/-- A way to write values that differs from others in blanks only. -/
structure Layout where
  /-- The text of a value on the given level. -/
  text : Nat → Json → List Char
  /-- What stands before an item, an entry or the end of a row on the given level. -/
  line : Nat → List Char
  /-- What stands between a name with its colon and the value. -/
  gap : List Char
  blank_line : ∀ level, Blank (line level)
  blank_gap : Blank gap
  text_atom : ∀ level v, v.asArray? = none → v.asObject? = none → text level v = atomText v
  text_array : ∀ level items,
    text level (.array items) = '[' :: row (line (level + 1)) (line level) ']' true (items.map (text (level + 1)))
  text_object : ∀ level entries, text level (.object entries) = '{' ::
    row (line (level + 1)) (line level) '}' true
      ((Entries.mapValues (text (level + 1)) entries).map fun u => named gap u.1 u.2)

/-- A value that is neither `null` nor a number does not begin like `null`. -/
theorem Layout.text_ne_null (L : Layout) (level : Nat) {v : Json} (hv : v ≠ .null) (hn : ∀ n, v ≠ .number n) :
    ∃ x l, L.text level v = x :: l ∧ x ≠ 'n' := by
  cases v with
  | null => exact absurd rfl hv
  | number n => exact absurd rfl (hn n)
  | bool b =>
    rw [L.text_atom level (.bool b) rfl rfl]
    cases b with
    | false => exact ⟨_, _, rfl, by decide⟩
    | true => exact ⟨_, _, rfl, by decide⟩
  | string s => exact ⟨_, _, L.text_atom level (.string s) rfl rfl, by decide⟩
  | array items => exact ⟨_, _, L.text_array level items, by decide⟩
  | object entries => exact ⟨_, _, L.text_object level entries, by decide⟩

theorem compactItems_eq (items : List Json) : compactItems items = row [] [] ']' false (items.map compactChars) := by
  induction items with
  | nil => rfl
  | cons v items ih => simp [compactItems, row, ih]

theorem compactEntries_eq (entries : Entries Json) : compactEntries entries =
    row [] [] '}' false ((Entries.mapValues compactChars entries).map fun u => named [] u.1 u.2) := by
  induction entries with
  | nil => rfl
  | cons e entries ih =>
    rw [compactEntries, ih]
    simp [row, named, Entries.mapValues]

/-- Without blanks. -/
def Layout.dense : Layout where
  text _ := compactChars
  line _ := []
  gap := []
  blank_line _ := nofun
  blank_gap := nofun
  text_atom _ v ha ho := by
    cases v with
    | array _ => cases ha
    | object _ => cases ho
    | _ => rfl
  text_array _ items := by
    cases items with
    | nil => rfl
    | cons v items => simp [compactChars, compactItems_eq, row]
  text_object _ entries := by
    cases entries with
    | nil => rfl
    | cons e entries => simp [compactChars, compactEntries_eq, row, named, Entries.mapValues]

theorem prettyItems_eq (level : Nat) (items : List Json) : prettyItems level items =
    row (newline (level + 1)) (newline level) ']' false (items.map (prettyChars (level + 1))) := by
  induction items with
  | nil => rfl
  | cons v items ih => simp [prettyItems, row, ih]

theorem prettyEntries_eq (level : Nat) (entries : Entries Json) : prettyEntries level entries =
    row (newline (level + 1)) (newline level) '}' false
      ((Entries.mapValues (prettyChars (level + 1)) entries).map fun u => named [' '] u.1 u.2) := by
  induction entries with
  | nil => rfl
  | cons e entries ih =>
    rw [prettyEntries, ih]
    simp [row, named, Entries.mapValues]

/-- An item or entry a line. -/
def Layout.indented : Layout where
  text := prettyChars
  line := newline
  gap := [' ']
  blank_line level x hx := by
    obtain rfl | hx := List.mem_cons.1 hx
    · rfl
    · rw [List.eq_of_mem_replicate hx]
      rfl
  blank_gap x hx := by
    rw [List.mem_singleton.1 hx]
    rfl
  text_atom level v ha ho := by
    cases v with
    | array _ => cases ha
    | object _ => cases ho
    | _ => rfl
  text_array level items := by
    cases items with
    | nil => rfl
    | cons v items => simp [prettyChars, prettyItems_eq, row]
  text_object level entries := by
    cases entries with
    | nil => rfl
    | cons e entries => simp [prettyChars, prettyEntries_eq, row, named, Entries.mapValues]

/-! ## Reading a value wherever it stands -/

/-- A character that a value can begin with. -/
def Opens (x : Char) : Prop := isBlank (.char x) = false ∧ x ≠ ']'

instance (x : Char) : Decidable (Opens x) := inferInstanceAs (Decidable (_ ∧ _))

/-- The reader gets the value from the text, after any blanks and before anything that ends a number. It does so in
texts up to the bound, which is what the reader's loops are good for. -/
structure Reads {α : Type} (bound : Nat) (reader : Reader α) (text : List Char) (a : α) : Prop where
  opens : ∃ x l, text = x :: l ∧ Opens x
  stops : ∀ {c : Cursor} {blanks : List Char} {tail : List Piece}, Blank blanks →
    c.rest = blanks.map .char ++ (text.map .char ++ tail) → c.rest.length ≤ bound → Ends tail →
      Stops (reader c) a tail

section Reading

variable {α : Type} {bound : Nat} {before after gap : List Char} {c : Cursor} {tail : List Piece}

/-- Readers of values pass over the blanks first. -/
theorem Reads.of_skipBlanks {reader : Reader α} {x : Char} {l : List Char} {a : α} (hx : Opens x)
    (h : ∀ {c tail}, c.skipBlanks.rest = .char x :: (l.map .char ++ tail) → c.skipBlanks.rest.length ≤ bound →
      Ends tail → Stops (reader c) a tail) : Reads bound reader (x :: l) a where
  opens := ⟨x, l, rfl, hx⟩
  stops {c blanks tail} hb hc hn ht := by
    exact h (rest_skipBlanks hc hb hx.1) (Nat.le_trans (length_skipBlanks_le c) hn) ht

theorem Reads.stops_here {reader : Reader α} {t : List Char} {a : α} (h : Reads bound reader t a)
    (hc : c.rest = t.map .char ++ tail) (hbound : c.rest.length ≤ bound) (ht : Ends tail) : Stops (reader c) a tail :=
  @Reads.stops _ _ _ _ _ h c [] tail (List.forall_mem_nil _) hc hbound ht

theorem Reads.length_pos {reader : Reader α} {t : List Char} {a : α} (h : Reads bound reader t a) : 0 < t.length := by
  obtain ⟨x, l, rfl, -⟩ := h.opens
  exact Nat.succ_pos _

/-! ## Rows -/

theorem ends_of_head {x : Char} {r : List Piece} (hdigit : digit? (.char x) = none)
    (hx : x ≠ '.' ∧ x ≠ 'e' ∧ x ≠ 'E') : Ends (.char x :: r) := by
  intro p hp
  cases hp
  simpa [hdigit] using hx

theorem ends_of_isBlank {x : Char} {r : List Piece} (hx : isBlank (.char x) = true) : Ends (.char x :: r) := by
  simp only [isBlank, Bool.or_eq_true, decide_eq_true_eq] at hx
  obtain ((rfl | rfl) | rfl) | rfl := hx <;> exact ends_of_head (by decide) (by decide)

/-- After an item or entry comes a comma, a blank or the end of the row. -/
theorem ends_row (hafter : Blank after) {close : Char} (hclose : close = ']' ∨ close = '}') (ts : List (List Char)) :
    Ends ((row before after close false ts).map .char ++ tail) := by
  cases ts with
  | nil =>
    cases after with
    | nil => obtain rfl | rfl := hclose <;> exact ends_of_head (by decide) (by decide)
    | cons x after => exact ends_of_isBlank (hafter x List.mem_cons_self)
  | cons t ts => exact ends_of_head (by decide) (by decide)

/-- At the end of a row, the closing character is next. -/
theorem rest_skipBlanks_of_row_nil (hafter : Blank after) {close : Char} (hclose : isBlank (.char close) = false)
    {first : Bool} (h : c.rest = (row before after close first []).map .char ++ tail) :
    c.skipBlanks.rest = .char close :: tail := by
  cases first with
  | true => exact skipBlanks_eq h hclose
  | false => exact rest_skipBlanks (h.trans (by simp [row])) hafter hclose

section Next

variable {close x : Char} {l : List Char} {ts : List (List Char)}

/-- The first text of a row stands after blanks. -/
theorem rest_skipBlanks_of_row_first (hbefore : Blank before) (hx : isBlank (.char x) = false)
    (h : c.rest = (row before after close true ((x :: l) :: ts)).map .char ++ tail) :
    c.skipBlanks.rest = .char x :: (l.map .char ++ ((row before after close false ts).map .char ++ tail)) :=
  rest_skipBlanks (h.trans (by simp [row])) hbefore hx

/-- Each further text stands after a comma and blanks. -/
theorem rest_skipBlanks_of_row_later (hbefore : Blank before) (hx : isBlank (.char x) = false)
    (h : c.rest = (row before after close false ((x :: l) :: ts)).map .char ++ tail) :
    (∃ r, c.skipBlanks.rest = .char ',' :: r) ∧ c.skipBlanks.past.skipBlanks.rest =
      .char x :: (l.map .char ++ ((row before after close false ts).map .char ++ tail)) := by
  have hcomma := skipBlanks_eq h (by decide)
  exact ⟨⟨_, hcomma⟩, rest_skipBlanks ((rest_past hcomma).trans (by simp)) hbefore hx⟩

theorem length_later_le (c : Cursor) : c.skipBlanks.past.skipBlanks.rest.length ≤ c.rest.length :=
  calc
    _ ≤ c.skipBlanks.past.rest.length := length_skipBlanks_le _
    _ ≤ c.skipBlanks.rest.length := length_past_le _
    _ ≤ c.rest.length := length_skipBlanks_le c

end Next

/-! ## Items -/

theorem nextItem_none {first : Bool} (h : c.skipBlanks.rest = .char ']' :: tail) : nextItem first c = .ok none := by
  simp [nextItem, h, isAt_eq h]

theorem nextItem_some (hbefore : Blank before) {first : Bool} {t : List Char} {ts : List (List Char)}
    (ht : ∃ x l, t = x :: l ∧ Opens x) (h : c.rest = (row before after ']' first (t :: ts)).map .char ++ tail) :
    ∃ d, nextItem first c = .ok (some d) ∧ d.rest.length ≤ c.rest.length ∧
      d.rest = t.map .char ++ ((row before after ']' false ts).map .char ++ tail) := by
  obtain ⟨x, l, rfl, hx⟩ := ht
  cases first with
  | true =>
    have hrest := rest_skipBlanks_of_row_first hbefore hx.1 h
    exact ⟨_, by simp [nextItem, hrest, isAt_eq hrest, hx.2], length_skipBlanks_le c, hrest⟩
  | false =>
    obtain ⟨⟨r, hcomma⟩, hrest⟩ := rest_skipBlanks_of_row_later hbefore hx.1 h
    exact ⟨_, by simp [nextItem, hcomma, isAt_eq hcomma, hrest, isAt_eq hrest, hx.2], length_later_le c, hrest⟩

/-- The texts of a row are read one after the other. -/
theorem stops_items (hbefore : Blank before) (hafter : Blank after) {item : Reader α} {ts : List (List Char)}
    {vs : List α} (h : List.Forall₂ (Reads bound item) ts vs) {n : Nat} {first : Bool}
    (hc : c.rest = (row before after ']' first ts).map .char ++ tail) (hn : c.rest.length ≤ n)
    (hbound : c.rest.length ≤ bound) : Stops (items item n first c) vs tail := by
  induction h generalizing n first c with
  | nil =>
    have hrest := rest_skipBlanks_of_row_nil hafter (by decide) hc
    cases n with
    | zero => cases first <;> simp [hc, row] at hn
    | succ n => exact ⟨_, by simp [items, nextItem_none hrest], rest_past hrest⟩
  | @cons t v ts vs h _ ih =>
    obtain ⟨d, hd, hle, hdrest⟩ := nextItem_some hbefore h.opens hc
    obtain ⟨c', hc', hrest⟩ := h.stops_here hdrest (Nat.le_trans hle hbound)
      (ends_row hafter (.inl rfl) ts)
    -- an item takes at least one piece, so the bound on the rounds is never met
    have hless : c'.rest.length < c.rest.length := by
      have ht := h.length_pos
      rw [hdrest, ← hrest, List.length_append, List.length_map] at hle
      omega
    cases n with
    | zero => omega
    | succ n =>
      obtain ⟨e, he, htail⟩ := ih (n := n) hrest (by omega) (by omega)
      exact ⟨e, by simp [items, hd, hc', he], htail⟩

/-! ## Entries -/

theorem nextName_none {first : Bool} (h : c.skipBlanks.rest = .char '}' :: tail) : nextName first c = .ok none := by
  simp [nextName, h, isAt_eq h]

theorem nextName_some (hbefore : Blank before) {first : Bool} {l : List Char} {ts : List (List Char)}
    (h : c.rest = (row before after '}' first (('"' :: l) :: ts)).map .char ++ tail) :
    ∃ d, nextName first c = .ok (some d) ∧ d.rest.length ≤ c.rest.length ∧
      d.rest = .char '"' :: (l.map .char ++ ((row before after '}' false ts).map .char ++ tail)) := by
  cases first with
  | true =>
    have hrest := rest_skipBlanks_of_row_first hbefore (by decide) h
    exact ⟨_, by simp [nextName, hrest, isAt_eq hrest], length_skipBlanks_le c, hrest⟩
  | false =>
    obtain ⟨⟨r, hcomma⟩, hrest⟩ := rest_skipBlanks_of_row_later hbefore (by decide) h
    exact ⟨_, by simp [nextName, hcomma, isAt_eq hcomma, hrest, isAt_eq hrest], length_later_le c, hrest⟩

theorem colon_eq (h : c.rest = .char ':' :: tail) : ∃ d, colon c = .ok d ∧ d.rest = tail := by
  have hrest := skipBlanks_eq h (by decide)
  exact ⟨_, by simp [colon, hrest, isAt_eq hrest], rest_past hrest⟩

/-- The reader comes past the name and the colon to the value, which may stand after blanks. -/
theorem named_of_row (hbefore : Blank before) {first : Bool} {k : String} {u : List Char} {ts : List (List Char)}
    (h : c.rest = (row before after '}' first (named gap k u :: ts)).map .char ++ tail)
    (hbound : c.rest.length ≤ bound) :
    ∃ d e f, nextName first c = .ok (some d) ∧ readString bound d.past = .ok (k, e) ∧ colon e = .ok f ∧
      f.rest.length < c.rest.length ∧
      f.rest = gap.map .char ++ (u.map .char ++ ((row before after '}' false ts).map .char ++ tail)) := by
  obtain ⟨d, hd, hle, hdrest⟩ := nextName_some hbefore h
  have hpast : d.past.rest = (escape k.toList ++ ['"']).map .char ++ (.char ':' ::
      (gap.map .char ++ (u.map .char ++ ((row before after '}' false ts).map .char ++ tail)))) := by
    simp [rest_past hdrest]
  have hpastle := Nat.le_trans (length_past_le d) hle
  obtain ⟨e, he, herest⟩ := stops_readString hpast (Nat.le_trans hpastle hbound)
  obtain ⟨f, hf, hfrest⟩ := colon_eq herest
  refine ⟨d, e, f, hd, he, hf, Nat.lt_of_lt_of_le ?_ hpastle, hfrest⟩
  rw [hpast, ← hfrest, List.length_append, List.length_cons]
  omega

/-- The named texts of a row are read one after the other. -/
theorem stops_entries (hbefore : Blank before) (hafter : Blank after) (hgap : Blank gap) {item : Reader α}
    {us : Entries (List Char)} {es : Entries α} (h : List.Forall₂ (Entries.EntryAlike (Reads bound item)) us es)
    {n : Nat} {first : Bool}
    (hc : c.rest = (row before after '}' first (us.map fun u => named gap u.1 u.2)).map .char ++ tail)
    (hn : c.rest.length ≤ n) (hbound : c.rest.length ≤ bound) : Stops (entries bound item n first c) es tail := by
  induction h generalizing n first c with
  | nil =>
    have hrest := rest_skipBlanks_of_row_nil hafter (by decide) hc
    cases n with
    | zero => cases first <;> simp [hc, row] at hn
    | succ n =>
      exact ⟨_, by simp [entries, nextName_none hrest], rest_past hrest⟩
  | @cons u e us es h _ ih =>
    obtain ⟨hname, h⟩ := h
    obtain ⟨d, k, f, hd, hk, hf, hlt, hfrest⟩ := named_of_row hbefore hc hbound
    obtain ⟨c', hc', hrest⟩ := h.stops hgap hfrest (by omega) (ends_row hafter (.inr rfl) _)
    have hle : c'.rest.length ≤ f.rest.length := by
      simp only [hfrest, hrest, List.length_append]
      omega
    cases n with
    | zero => omega
    | succ n =>
      obtain ⟨g, hg, htail⟩ := ih (n := n) hrest (by omega) (by omega)
      exact ⟨g, by simp [entries, hd, hk, hf, hc', hg, hname], htail⟩

end Reading

/-! ## Values -/

/-- Arrays and objects in the value are nested so many deep at most, and its numbers are whole ones from -2^63 to
2^64-1. -/
inductive Readable : Nat → Json → Prop where
  | null {depth : Nat} : Readable depth .null
  | bool {depth : Nat} (b : Bool) : Readable depth (.bool b)
  | int {depth : Nat} {i : Int} : -(Nat.pow 2 63 : Nat) ≤ i → i < UInt64.size → Readable depth (.number (.int i))
  | string {depth : Nat} (s : String) : Readable depth (.string s)
  | array {depth : Nat} {items : List Json} : (∀ v ∈ items, Readable depth v) → Readable (depth + 1) (.array items)
  | object {depth : Nat} {entries : List (String × Json)} : (∀ e ∈ entries, Readable depth e.2) →
      Readable (depth + 1) (.object entries)

theorem readable_int_iff {depth : Nat} {i : Int} :
    Readable depth (.number (.int i)) ↔ -(Nat.pow 2 63 : Nat) ≤ i ∧ i < UInt64.size :=
  ⟨fun | .int hmin hmax => ⟨hmin, hmax⟩, fun h => .int h.1 h.2⟩

theorem readable_array_iff {depth : Nat} {items : List Json} :
    Readable (depth + 1) (.array items) ↔ ∀ v ∈ items, Readable depth v :=
  ⟨fun | .array h => h, .array⟩

theorem readable_object_iff {depth : Nat} {entries : List (String × Json)} :
    Readable (depth + 1) (.object entries) ↔ ∀ e ∈ entries, Readable depth e.2 :=
  ⟨fun | .object h => h, .object⟩

section Values

variable {bound depth : Nat} {nested : Option (Reader Json)}

theorem Reads.null : Reads bound (valueWith bound nested) ['n', 'u', 'l', 'l'] .null := by
  refine .of_skipBlanks (by decide) fun {c tail} hc _ _ => ?_
  obtain ⟨d, hd, hrest⟩ := stops_readWord ['u', 'l', 'l'] (rest_past hc)
  exact ⟨d, by simp [valueWith, hc, hd], hrest⟩

theorem Reads.bool (b : Bool) : Reads bound (valueWith bound nested) (atomText (.bool b)) (.bool b) := by
  cases b with
  | false =>
    refine .of_skipBlanks (x := 'f') (by decide) fun {c tail} hc _ _ => ?_
    obtain ⟨d, hd, hrest⟩ := stops_readWord ['a', 'l', 's', 'e'] (rest_past hc)
    exact ⟨d, by simp [valueWith, hc, hd], hrest⟩
  | true =>
    refine .of_skipBlanks (x := 't') (by decide) fun {c tail} hc _ _ => ?_
    obtain ⟨d, hd, hrest⟩ := stops_readWord ['r', 'u', 'e'] (rest_past hc)
    exact ⟨d, by simp [valueWith, hc, hd], hrest⟩

theorem Reads.string (s : String) : Reads bound (valueWith bound nested) (quote s) (.string s) := by
  refine .of_skipBlanks (by decide) fun {c tail} hc hn _ => ?_
  obtain ⟨d, hd, hrest⟩ := stops_readString (rest_past hc) (Nat.le_trans (length_past_le _) hn)
  exact ⟨d, by simp [valueWith, hc, hd], hrest⟩

theorem opens_of_isDigit {x : Char} (hx : x.isDigit = true) : Opens x := by
  have hne (y : Char) (hy : y.isDigit = false) : x ≠ y := fun h => by simp [h, hy] at hx
  simp [Opens, isBlank, hne ' ' rfl, hne '\n' rfl, hne '\t' rfl, hne '\r' rfl, hne ']' rfl]

theorem valueWith_digit {c : Cursor} {x : Char} {r : List Piece} (hx : x.isDigit = true)
    (hc : c.skipBlanks.rest = .char x :: r) :
    valueWith bound nested c = readNumber false c.skipBlanks >>= fun p => pure (.number p.1, p.2) := by
  have hne (y : Char) (hy : y.isDigit = false) : x ≠ y := fun h => by simp [h, hy] at hx
  have hrange : '0' ≤ x ∧ x ≤ '9' := by
    simp only [Char.isDigit, Bool.and_eq_true, decide_eq_true_eq] at hx
    exact hx
  simp only [valueWith, hc, if_neg (hne 'n' rfl), if_neg (hne 't' rfl), if_neg (hne 'f' rfl), if_neg (hne '-' rfl),
    if_pos hrange]

/-- Whole numbers are kept whole, with their sign. -/
theorem Reads.int {i : Int} (hmin : -(Nat.pow 2 63 : Nat) ≤ i) (hmax : i < UInt64.size) :
    Reads bound (valueWith bound nested) (intText i).toList (.number (.int i)) := by
  cases i with
  | ofNat m =>
    have hm : m < UInt64.size := Int.ofNat_lt.1 hmax
    have htext : (intText (.ofNat m)).toList = Nat.toDigits 10 m := by simp [intText]
    obtain ⟨x, l, hl, hx⟩ := exists_digit m
    rw [htext, hl]
    refine .of_skipBlanks (opens_of_isDigit hx) fun {c tail} hc _ ht => ?_
    obtain ⟨d, hd, hrest⟩ := stops_readNumber false hm (hc.trans (by rw [hl]; rfl)) ht
    exact ⟨d, by rw [valueWith_digit hx hc, hd]; rfl, hrest⟩
  | negSucc m =>
    have hm : m + 1 ≤ Nat.pow 2 63 := by omega
    have htext : (intText (.negSucc m)).toList = '-' :: Nat.toDigits 10 (m + 1) := by simp [intText]
    have hwhole : whole true (m + 1) = .int (.negSucc m) := by
      have hkept : ¬ (m + 1 = 0 ∨ Nat.pow 2 63 < m + 1) := not_or.2 ⟨Nat.succ_ne_zero m, Nat.not_lt.2 hm⟩
      rw [whole, if_pos rfl, if_neg hkept]
      rfl
    rw [htext]
    refine .of_skipBlanks (by decide) fun {c tail} hc _ ht => ?_
    obtain ⟨d, hd, hrest⟩ := stops_readNumber true (Nat.lt_of_le_of_lt hm (by decide)) (rest_past hc) ht
    exact ⟨d, by simp [valueWith, hc, hd, hwhole], hrest⟩

theorem Reads.of_valueWith {t : List Char} {v : Json} (h : ∀ nested, Reads bound (valueWith bound nested) t v) :
    Reads bound (readValue bound depth) t v := by
  cases depth with
  | zero => exact h none
  | succ depth => exact h _

theorem Reads.array (L : Layout) (level : Nat) {item : Reader Json} {ts : List (List Char)} {vs : List Json}
    (h : List.Forall₂ (Reads bound item) ts vs) : Reads bound (valueWith bound (some item))
      ('[' :: row (L.line (level + 1)) (L.line level) ']' true ts) (.array vs) := by
  refine .of_skipBlanks (by decide) fun {c tail} hc hn _ => ?_
  have hn := Nat.le_trans (length_past_le _) hn
  obtain ⟨d, hd, hrest⟩ := stops_items (L.blank_line (level + 1)) (L.blank_line level) h (rest_past hc) hn hn
  exact ⟨d, by simp [valueWith, hc, hd], hrest⟩

theorem Reads.object (L : Layout) (level : Nat) {item : Reader Json} {us : Entries (List Char)}
    {es : Entries Json} (h : List.Forall₂ (Entries.EntryAlike (Reads bound item)) us es)
    (hn : (Entries.keys es).Nodup) : Reads bound (valueWith bound (some item))
      ('{' :: row (L.line (level + 1)) (L.line level) '}' true (us.map fun u => named L.gap u.1 u.2)) (.object es) := by
  refine .of_skipBlanks (by decide) fun {c tail} hc hbound _ => ?_
  have hbound := Nat.le_trans (length_past_le _) hbound
  obtain ⟨d, hd, hrest⟩ := stops_entries (L.blank_line (level + 1)) (L.blank_line level) L.blank_gap h (rest_past hc)
    hbound hbound
  exact ⟨d, by simp [valueWith, hc, hd, Entries.ofList_eq_self hn], hrest⟩

/-- A value that is readable is read as itself, however it is laid out. -/
theorem Reads.value (L : Layout) {v : Json} (hv : v.Readable depth) (hd : v.Distinct) (level : Nat) :
    Reads bound (readValue bound depth) (L.text level v) v := by
  induction hv generalizing level with
  | null =>
    rw [L.text_atom level .null rfl rfl]
    exact .of_valueWith fun _ => .null
  | bool b =>
    rw [L.text_atom level (.bool b) rfl rfl]
    exact .of_valueWith fun _ => .bool b
  | int hmin hmax =>
    rw [L.text_atom level (.number (.int _)) rfl rfl]
    exact .of_valueWith fun _ => .int hmin hmax
  | string s =>
    rw [L.text_atom level (.string s) rfl rfl]
    exact .of_valueWith fun _ => .string s
  | @array depth items _ ih =>
    have hd := distinct_array_iff.1 hd
    rw [L.text_array]
    refine Reads.array L level (List.forall₂_map_left_iff.2 (List.forall₂_same.2 fun v hv => ?_))
    exact ih v hv (hd v hv) (level + 1)
  | @object depth entries _ ih =>
    obtain ⟨hn, hd⟩ := distinct_object_iff.1 hd
    rw [L.text_object]
    refine Reads.object L level (List.forall₂_map_left_iff.2 (List.forall₂_same.2 fun e he => ⟨rfl, ?_⟩)) hn
    exact ih e he (hd e he) (level + 1)

end Values

/-! ## Whole texts -/

/-- The bound of the loops is large enough for the whole text. -/
theorem readAll_eq {α : Type} {reader : Nat → Reader α} {text : List Char} {a : α}
    (h : ∀ bound, Reads bound (reader bound) text a) : readAll reader (text.map .char) = .ok a := by
  have hstart : (Cursor.start (text.map .char)).rest = text.map .char ++ [] := (List.append_nil _).symm
  have hbound : (text.map Piece.char).length ≤ 2 * (text.map Piece.char).length + 2 := by omega
  obtain ⟨c, hc, hrest⟩ := (h _).stops_here hstart hbound nofun
  rw [readAll, hc]
  simp [skipBlanks_eq_nil hrest]

/-- A readable value is read back from either text. -/
theorem read_compact_and_pretty {v : Json} (hv : v.Readable maxDepth) (hd : v.Distinct) :
    read v.compact = .ok v ∧ read v.pretty = .ok v := by
  have hread (L : Layout) : read (String.ofList (L.text 0 v)) = .ok v := by
    rw [read, Text.pieces, String.toList_ofList]
    exact readAll_eq fun _ => Reads.value L hv hd 0
  exact ⟨hread .dense, hread .indented⟩

end LintInference.Json
