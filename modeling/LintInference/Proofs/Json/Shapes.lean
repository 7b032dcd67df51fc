import LintInference.Json.Shape
import LintInference.Proofs.Json.Layout

/-!
# Values of a known shape read back

A shape takes a value `v` for `w` if its reader, wherever `v` is written and in whatever layout, gives `w`
(`Shape.Takes`). There is one rule for each form of shape; a record is taken if its fields are written in the order of
declaration, where a field that may be `null` may also be left out (`Shape.Fields`).
-/

namespace LintInference.Json

open Text (Piece)
open Cursor

/-- Whatever layout the value `v` is written in, it is read as `w`, with so many levels to open. -/
def Shape.Takes (shape : Shape) (depth : Nat) (v w : Json) : Prop :=
  ∀ (L : Layout) (bound level : Nat), Reads bound (shape.reader bound depth) (L.text level v) w

namespace Shape.Takes

variable {shape : Shape} {depth : Nat} {v w : Json}

/-! ## Simple shapes -/

theorem text (s : String) : Shape.text.Takes depth (.string s) (.string s) := by
  intro L bound level
  rw [L.text_atom level (.string s) rfl rfl]
  refine .of_skipBlanks (by decide) fun {c tail} hc hn _ => ?_
  obtain ⟨d, hd, hrest⟩ := stops_readString (rest_past hc) (Nat.le_trans (length_past_le _) hn)
  exact ⟨d, by simp [readText, hc, isAt_eq hc, hd], hrest⟩

theorem flag (b : Bool) : Shape.flag.Takes depth (.bool b) (.bool b) := by
  intro L bound level
  rw [L.text_atom level (.bool b) rfl rfl]
  cases b with
  | false =>
    refine .of_skipBlanks (x := 'f') (by decide) fun {c tail} hc _ _ => ?_
    obtain ⟨d, hd, hrest⟩ := stops_readWord ['a', 'l', 's', 'e'] (rest_past hc)
    exact ⟨d, by simp [readFlag, hc, isAt_eq hc, hd], hrest⟩
  | true =>
    refine .of_skipBlanks (x := 't') (by decide) fun {c tail} hc _ _ => ?_
    obtain ⟨d, hd, hrest⟩ := stops_readWord ['r', 'u', 'e'] (rest_past hc)
    exact ⟨d, by simp [readFlag, hc, isAt_eq hc, hd], hrest⟩

theorem natural {typeName : String} {limit m : Nat} (hm : m ≤ limit) (hlimit : limit < UInt64.size) :
    (Shape.natural typeName limit).Takes depth (.ofNat m) (.ofNat m) := by
  intro L bound level
  have htext : L.text level (.ofNat m) = Nat.toDigits 10 m := by
    rw [L.text_atom level (.ofNat m) rfl rfl]
    simp [atomText, ofNat, Number.text, intText]
  obtain ⟨x, l, hl, hx⟩ := exists_digit m
  rw [htext, hl]
  refine .of_skipBlanks (opens_of_isDigit hx) fun {c tail} hc _ ht => ?_
  have hminus : x ≠ '-' := fun h => by simp [h] at hx
  obtain ⟨d, hd, hrest⟩ := stops_readNumber false (Nat.lt_of_le_of_lt hm hlimit) (hc.trans (by rw [hl]; rfl)) ht
  exact ⟨d, by simp [readNatural, hc, isAt_eq hc, hminus, digit?_of_isDigit hx, hd, whole, hm, ofNat], hrest⟩

theorem choice {words : List String} {s : String} (hs : s ∈ words) :
    (Shape.choice words).Takes depth (.string s) (.string s) := by
  intro L bound level
  rw [L.text_atom level (.string s) rfl rfl]
  refine .of_skipBlanks (by decide) fun {c tail} hc hn _ => ?_
  have hagain := skipBlanks_eq hc (by decide)
  obtain ⟨d, hd, hrest⟩ := stops_readString (n := bound) (rest_past hagain)
    (Nat.le_trans (length_past_le _) (Nat.le_trans (length_skipBlanks_le _) hn))
  exact ⟨d, by simp [readChoice, readText, hc, isAt_eq hc, hagain, isAt_eq hagain, hd, hs], hrest⟩

theorem any (hv : v.Readable depth) (hd : v.Distinct) : Shape.any.Takes depth v v := by
  intro L bound level
  rw [reader_any]
  exact Reads.value L hv hd level

/-! ## Values that may be `null` -/

theorem null : (Shape.optional shape).Takes depth .null .null := by
  intro L bound level
  rw [L.text_atom level .null rfl rfl]
  refine .of_skipBlanks (x := 'n') (by decide) fun {c tail} hc _ _ => ?_
  obtain ⟨d, hd, hrest⟩ := stops_readWord ['u', 'l', 'l'] (rest_past hc)
  exact ⟨d, by simp [readOptional, isAt_eq hc, hd], hrest⟩

theorem some (h : shape.Takes depth v w) (hv : v ≠ .null) (hn : ∀ n, v ≠ .number n) :
    (Shape.optional shape).Takes depth v w := by
  intro L bound level
  obtain ⟨x, l, hl, hx⟩ := L.text_ne_null level hv hn
  have h := h L bound level
  rw [hl] at h ⊢
  obtain ⟨y, k, hcons, hopens⟩ := h.opens
  cases hcons
  refine .of_skipBlanks hopens fun {c tail} hc hbound ht => ?_
  have hstops := h.stops_here hc hbound ht
  simpa [readOptional, isAt_eq hc, hx] using hstops

/-! ## Lists and maps -/

theorem list {vs ws : List Json} (h : List.Forall₂ (shape.Takes depth) vs ws) :
    (Shape.list shape).Takes (depth + 1) (.array vs) (.array ws) := by
  intro L bound level
  rw [L.text_array]
  refine .of_skipBlanks (by decide) fun {c tail} hc hn _ => ?_
  have hn := Nat.le_trans (length_past_le _) hn
  have hitems : List.Forall₂ (Reads bound (shape.reader bound depth)) (vs.map (L.text (level + 1))) ws :=
    List.forall₂_map_left_iff.2 (h.imp fun _ _ h => h L bound (level + 1))
  obtain ⟨d, hd, hrest⟩ := stops_items (L.blank_line (level + 1)) (L.blank_line level) hitems (rest_past hc) hn hn
  exact ⟨d, by simp [readList, hc, isAt_eq hc, hd], hrest⟩

theorem map {es fs : Entries Json} (h : List.Forall₂ (Entries.EntryAlike (shape.Takes depth)) es fs)
    (hn : (Entries.keys es).Nodup) : (Shape.map shape).Takes (depth + 1) (.object es) (.object fs) := by
  intro L bound level
  rw [L.text_object]
  refine .of_skipBlanks (by decide) fun {c tail} hc hbound _ => ?_
  have hbound := Nat.le_trans (length_past_le _) hbound
  have hentries : List.Forall₂ (Entries.EntryAlike (Reads bound (shape.reader bound depth)))
      (Entries.mapValues (L.text (level + 1)) es) fs :=
    List.forall₂_map_left_iff.2 (h.imp fun _ _ h => ⟨h.1, h.2 L bound (level + 1)⟩)
  obtain ⟨d, hd, hrest⟩ := stops_entries (L.blank_line (level + 1)) (L.blank_line level) L.blank_gap hentries
    (rest_past hc) hbound hbound
  have hself := Entries.ofList_eq_self (Entries.keys_eq_of_forall₂ h ▸ hn)
  exact ⟨d, by simp [readMap, hc, isAt_eq hc, hd, hself], hrest⟩

end Shape.Takes

/-! ## Records -/

/-- Named values are read, each by the slot of that name, into what has been found so far. -/
theorem stops_readNamed {bound depth : Nat} {before after gap : List Char} (hbefore : Blank before)
    (hafter : Blank after) (hgap : Blank gap) {slots : List Slot} {us : Entries (List Char)} {es : Entries Json}
    (h : List.Forall₂ (fun u e => u.1 = e.1 ∧ ∃ slot, slots.find? (·.name = e.1) = .some slot ∧
      Reads bound (slot.read depth) u.2 e.2) us es) {found : Entries Json} (hkeys : (Entries.keys (found ++ es)).Nodup)
    {n : Nat} {first : Bool} {c : Cursor} {tail : List Piece}
    (hc : c.rest = (row before after '}' first (us.map fun u => named gap u.1 u.2)).map .char ++ tail)
    (hn : c.rest.length ≤ n) (hbound : c.rest.length ≤ bound) :
    Stops (readNamed bound slots depth n found first c) (found ++ es) (.char '}' :: tail) := by
  induction h generalizing n first c found with
  | nil =>
    have hrest := rest_skipBlanks_of_row_nil hafter (by decide) hc
    cases n with
    | zero => cases first <;> simp [hc, row] at hn
    | succ n => exact ⟨_, by simp [readNamed, nextName_none hrest], hrest⟩
  | @cons u e us es h _ ih =>
    obtain ⟨hname, slot, hslot, h⟩ := h
    obtain ⟨d, k, f, hd, hk, hf, hlt, hfrest⟩ := named_of_row hbefore hc hbound
    obtain ⟨c', hc', hrest⟩ := h.stops hgap hfrest (by omega) (ends_row hafter (.inr rfl) _)
    have hle : c'.rest.length ≤ f.rest.length := by
      simp only [hfrest, hrest, List.length_append]
      omega
    have hnew : e.1 ∉ Entries.keys found := by
      rw [Entries.keys, List.map_append, List.nodup_append] at hkeys
      exact fun hm => hkeys.2.2 _ hm _ List.mem_cons_self rfl
    cases n with
    | zero => omega
    | succ n =>
      -- the name is new, so its value goes to the end of what was found
      have hput : found.put e.1 e.2 ++ es = found ++ e :: es := by
        rw [Entries.put_of_notMem_keys hnew, List.append_assoc]
        rfl
      obtain ⟨g, hg, htail⟩ := ih (n := n) (hput ▸ hkeys) hrest (by omega) (by omega)
      refine ⟨g, ?_, htail⟩
      simp [readNamed, hd, hk, hf, hc', hname, hslot, Entries.get?_eq_none hnew, hg, hput]

/-- The entries `es` are the fields in the order of declaration, without some that may be `null`; `fs` are the entries as
they are read, and `ws` the values of all fields. -/
inductive Shape.Fields (depth : Nat) :
    List (String × Presence × Shape) → Entries Json → Entries Json → List Json → Prop where
  | nil : Fields depth [] [] [] []
  | given {name : String} {presence : Presence} {shape : Shape} {v w : Json}
      {fields : List (String × Presence × Shape)} {es fs : Entries Json} {ws : List Json} :
      shape.Takes depth v w → Fields depth fields es fs ws →
        Fields depth ((name, presence, shape) :: fields) ((name, v) :: es) ((name, w) :: fs) (w :: ws)
  | left {name : String} {shape : Shape} {fields : List (String × Presence × Shape)} {es fs : Entries Json}
      {ws : List Json} : Fields depth fields es fs ws →
        Fields depth ((name, .nullable, shape) :: fields) es fs (.null :: ws)

namespace Shape.Fields

variable {bound depth : Nat} {fields : List (String × Presence × Shape)} {es fs : Entries Json} {ws : List Json}

/-- What is read has the names of fields, in their order. -/
theorem keys_sublist (h : Fields depth fields es fs ws) : (Entries.keys fs).Sublist (Entries.keys fields) := by
  induction h with
  | nil => exact .slnil
  | given _ _ ih => exact ih.cons_cons _
  | left _ ih => exact ih.cons _

/-- Each entry is read by the shape of the field of that name. -/
theorem forall₂ (h : Fields depth fields es fs ws) : List.Forall₂ (fun e f => e.1 = f.1 ∧
    ∃ presence shape, (e.1, presence, shape) ∈ fields ∧ shape.Takes depth e.2 f.2) es fs := by
  induction h with
  | nil => exact .nil
  | given h _ ih =>
    refine .cons ⟨rfl, _, _, List.mem_cons_self, h⟩ (ih.imp ?_)
    exact fun _ _ ⟨hname, presence, shape, hm, h⟩ => ⟨hname, presence, shape, List.mem_cons_of_mem _ hm, h⟩
  | left _ ih =>
    refine ih.imp ?_
    exact fun _ _ ⟨hname, presence, shape, hm, h⟩ => ⟨hname, presence, shape, List.mem_cons_of_mem _ hm, h⟩

theorem find?_slots {name : String} {presence : Presence} {shape : Shape} (hn : (Entries.keys fields).Nodup)
    (hm : (name, presence, shape) ∈ fields) :
    (slots bound fields).find? (·.name = name) = .some ⟨name, presence, shape.reader bound⟩ := by
  induction fields with
  | nil => cases hm
  | cons field fields ih =>
    obtain ⟨hnotMem, hn⟩ := List.nodup_cons.1 hn
    obtain rfl | hm := List.mem_cons.1 hm
    · simp [slots]
    · have hne : field.1 ≠ name := by
        rintro rfl
        exact hnotMem (List.mem_map.2 ⟨_, hm, rfl⟩)
      rw [slots, List.find?_cons_of_neg (by simpa using hne), ih hn hm]

/-- Of what is read, each field gets its value, and `null` if it was left out. -/
theorem complete_eq (h : Fields depth fields es fs ws) (bound : Nat) (hn : (Entries.keys fields).Nodup)
    {found : Entries Json} (hfound : ∀ name ∈ Entries.keys fields, Entries.get? found name = Entries.get? fs name) :
    complete found (slots bound fields) = .ok ws := by
  induction h with
  | nil => rfl
  | @given name presence shape v w fields es fs ws _ h ih =>
    obtain ⟨hnotMem, hn⟩ := List.nodup_cons.1 hn
    have hname : Entries.get? found name = .some w := by
      rw [hfound name List.mem_cons_self, Entries.get?, if_pos rfl]
    have hrest := ih hn fun k hk => by
      have hne : name ≠ k := by
        rintro rfl
        exact hnotMem hk
      rw [hfound k (List.mem_cons_of_mem _ hk), Entries.get?, if_neg hne]
    simp [slots, complete, hname, hrest]
  | @left name shape fields es fs ws h ih =>
    obtain ⟨hnotMem, hn⟩ := List.nodup_cons.1 hn
    have hname : Entries.get? found name = none := by
      rw [hfound name List.mem_cons_self]
      exact Entries.get?_eq_none fun hm => hnotMem (h.keys_sublist.subset hm)
    have hrest := ih hn fun k hk => hfound k (List.mem_cons_of_mem _ hk)
    simp [slots, complete, hname, hrest]

end Shape.Fields

/-- A record is taken for the array of the values of its fields. -/
theorem Shape.Takes.record {depth : Nat} {name : String} {fields : List (String × Presence × Shape)}
    {es fs : Entries Json} {ws : List Json} (h : Fields depth fields es fs ws) (hn : (Entries.keys fields).Nodup) :
    (Shape.record name fields).Takes (depth + 1) (.object es) (.array ws) := by
  intro L bound level
  rw [L.text_object]
  refine .of_skipBlanks (by decide) fun {c tail} hc hbound _ => ?_
  have hbound := Nat.le_trans (length_past_le _) hbound
  have hentries : List.Forall₂ (fun u f => u.1 = f.1 ∧ ∃ slot, (slots bound fields).find? (·.name = f.1) = .some slot ∧
      Reads bound (slot.read depth) u.2 f.2) (Entries.mapValues (L.text (level + 1)) es) fs := by
    refine List.forall₂_map_left_iff.2 (h.forall₂.imp ?_)
    rintro e f ⟨hname, presence, shape, hm, htakes⟩
    exact ⟨hname, _, hname ▸ Fields.find?_slots hn hm, htakes L bound (level + 1)⟩
  have hkeys : (Entries.keys ([] ++ fs)).Nodup := h.keys_sublist.nodup hn
  obtain ⟨d, hd, hrest⟩ := stops_readNamed (L.blank_line (level + 1)) (L.blank_line level) L.blank_gap hentries hkeys
    (rest_past hc) hbound hbound
  have hcomplete := h.complete_eq bound hn fun _ _ => rfl
  exact ⟨d.past, by simp [readRecord, hc, isAt_eq hc, hd, hcomplete], rest_past hrest⟩

/-- A text that is laid out in whatever way is read by the shape. -/
theorem Shape.Takes.read_text {shape : Shape} {v w : Json} (h : shape.Takes maxDepth v w) (L : Layout) :
    shape.read (Text.pieces (String.ofList (L.text 0 v))) = .ok w := by
  rw [Shape.read, Text.pieces, String.toList_ofList]
  exact readAll_eq fun bound => h L bound 0

end LintInference.Json
