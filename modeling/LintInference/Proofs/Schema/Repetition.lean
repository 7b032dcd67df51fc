import LintInference.Proofs.Schema.Alike
import LintInference.Proofs.Schema.Nodes
import LintInference.Proofs.Schema.Suffixes
import LintInference.Proofs.Schema.Wheels

/-!
# Candidates that differ

Where no choice of a schema comes twice (`Unrepeating`), no candidate does. Without unions all suffixes have one length,
so two candidates that are equal have equal suffixes and go on from equal candidates of the seed
(`different_appendAll`); and two objects with the same properties are equal only if all their values are
(`different_allPicks`). So candidates of a seed that differ have results that differ, all longer by the same number of
values (`different_of_enumerate`).

Candidates are equal as JSON values, where the order of an object's entries does not count.
-/

namespace LintInference

/-! ## Values and candidates that differ -/

/-- Neither value equals the other. -/
def Json.Apart (v w : Json) : Prop := ¬ v.same w = true ∧ ¬ w.same v = true

instance (v w : Json) : Decidable (v.Apart w) := inferInstanceAs (Decidable (_ ∧ _))

/-- Neither candidate equals the other. -/
def Candidate.Apart (c d : Candidate) : Prop := ¬ c.same d = true ∧ ¬ d.same c = true

instance (c d : Candidate) : Decidable (c.Apart d) := inferInstanceAs (Decidable (_ ∧ _))

namespace Candidate

variable {c d w x : Candidate}

/-- With ends of one length, equal candidates have equal beginnings and equal ends. -/
theorem same_of_append (h : same (c ++ w) (d ++ x) = true) (hl : w.length = x.length) :
    same c d = true ∧ same w x = true := by
  rw [same, Json.sameItems_iff] at h
  have hlength : c.length = d.length := by
    have := h.length_eq
    simp only [List.length_append] at this
    omega
  have htake := List.forall₂_take_append _ _ _ h
  have hdrop := List.forall₂_drop_append _ _ _ h
  rw [← hlength, List.take_left] at htake
  rw [← hlength, List.drop_left] at hdrop
  exact ⟨Json.sameItems_iff.2 htake, Json.sameItems_iff.2 hdrop⟩

theorem Apart.append (h : Apart c d) (hl : w.length = x.length) : Apart (c ++ w) (d ++ x) :=
  ⟨fun hs => h.1 (same_of_append hs hl).1, fun hs => h.2 (same_of_append hs hl.symm).1⟩

theorem Apart.after (h : Apart w x) (hl : w.length = x.length) (c d : Candidate) : Apart (c ++ w) (d ++ x) :=
  ⟨fun hs => h.1 (same_of_append hs hl).2, fun hs => h.2 (same_of_append hs hl.symm).2⟩

theorem apart_singleton {v v' : Json} (h : v.Apart v') : Apart [v] [v'] := by
  simp only [Apart, same, Json.sameItems, Bool.and_true]
  exact h

end Candidate

namespace Json

variable {name : String} {v v' : Json} {m m' : List (String × Json)}

/-- An entry in front is compared with the entry in front, if its name does not come again. -/
theorem same_of_object_cons (hname : name ∉ Entries.keys m)
    (h : same (.object ((name, v) :: m)) (.object ((name, v') :: m')) = true) :
    same v v' = true ∧ same (.object m) (.object m') = true := by
  rw [same, Bool.and_eq_true, sameEntries_iff, List.forall_mem_cons] at h
  obtain ⟨hlength, hfirst, hrest⟩ := h
  refine ⟨by simpa [Entries.get?] using hfirst, ?_⟩
  rw [same, Bool.and_eq_true, sameEntries_iff]
  refine ⟨by simpa using hlength, fun e he => ?_⟩
  have hne : name ≠ e.1 := fun heq => hname (heq ▸ Entries.mem_keys_of_mem he)
  simpa [Entries.get?, hne] using hrest e he

end Json

namespace Schema

/-! ## Objects that differ -/

/-- Ways to pick differ in some value if no property has a value twice. -/
theorem different_allPicks {choices : List Choice} (hn : (Entries.keys choices).Nodup)
    (h : ∀ c ∈ choices, c.2.Pairwise Json.Apart) :
    (allPicks choices).Pairwise fun m m' => Json.Apart (.object m) (.object m') := by
  induction choices with
  | nil => exact List.pairwise_singleton _ _
  | cons c choices ih =>
    obtain ⟨hname, hnames⟩ := List.nodup_cons.1 hn
    obtain ⟨hvalues, hchoices⟩ := List.forall_mem_cons.1 h
    have hfresh : ∀ m ∈ allPicks choices, c.1 ∉ Entries.keys m := fun m hm => keys_of_mem_allPicks hm ▸ hname
    rw [allPicks, List.pairwise_flatMap]
    constructor
    · -- the values of the first property differ
      refine fun m hm => List.pairwise_map.2 (hvalues.imp fun hvw => ⟨fun hs => hvw.1 ?_, fun hs => hvw.2 ?_⟩)
      all_goals exact (Json.same_of_object_cons (hfresh m hm) hs).1
    · -- those of the other properties do
      refine (ih hnames hchoices).imp_of_mem fun {m m'} hm hm' hmm => ?_
      simp only [List.forall_mem_map]
      refine fun v _ w _ => ⟨fun hs => hmm.1 ?_, fun hs => hmm.2 ?_⟩
      · exact (Json.same_of_object_cons (hfresh m hm) hs).2
      · exact (Json.same_of_object_cons (hfresh m' hm') hs).2

theorem different_combinations {choices : List Choice} (hn : (Entries.keys choices).Nodup)
    (h : ∀ c ∈ choices, c.2.Pairwise Json.Apart) : (combinations choices).Pairwise Json.Apart := by
  by_cases hne : choices = []
  · rw [hne]
    exact .nil
  · rw [combinations_eq_map_take hne]
    exact List.pairwise_map.2 ((different_allPicks hn h).sublist (List.take_sublist _ _))

/-! ## Suffixes that differ -/

/-- The suffixes differ, and all have the same length. -/
structure Spread (n : Nat) (ws : List Candidate) : Prop where
  different : ws.Pairwise Candidate.Apart
  length : ∀ w ∈ ws, w.length = n

theorem different_appendAll {seed ws : List Candidate} {n : Nat} (hs : seed.Pairwise Candidate.Apart)
    (hw : Spread n ws) : (appendAll seed ws).Pairwise Candidate.Apart := by
  rw [appendAll, List.pairwise_flatMap]
  constructor
  · exact fun w _ => List.pairwise_map.2 (hs.imp fun h => h.append rfl)
  · refine hw.different.imp_of_mem fun {w x} hmem hmem' hwx => ?_
    have hlength : w.length = x.length := (hw.length w hmem).trans (hw.length x hmem').symm
    simp only [List.forall_mem_map]
    exact fun c _ d _ => hwx.after hlength c d

namespace Spread

variable {n k : Nat} {ws ws' : List Candidate}

/-- No values: the empty suffix alone. -/
theorem unit : Spread 0 [[]] := ⟨List.pairwise_singleton _ _, by simp⟩

theorem values {vs : List Json} (h : vs.Pairwise Json.Apart) : Spread 1 (appendEach [[]] vs) := by
  rw [appendEach_unit]
  exact ⟨List.pairwise_map.2 (h.imp Candidate.apart_singleton), by simp⟩

theorem appendAll (h : Spread n ws) (h' : Spread k ws') : Spread (n + k) (appendAll ws ws') := by
  refine ⟨different_appendAll h.different h', fun c hc => ?_⟩
  obtain ⟨w, hw, w', hw', rfl⟩ := mem_appendAll.1 hc
  rw [List.length_append, h.length w hw, h'.length w' hw']

end Spread

/-! ## Schemas without repetitions -/

/-- Every object in the schema names each of its properties once. So it is in all schemas that are read from values
whose objects have each name once. -/
def NamesOnce (s : Schema) : Prop := ∀ properties, s.Contains (.object properties) → (Entries.keys properties).Nodup

theorem NamesOnce.of_mem_children {s u : Schema} (h : s.NamesOnce) (hu : u ∈ s.children) : u.NamesOnce :=
  fun properties hc => h properties (hc.of_mem_children hu)

theorem NamesOnce.of_children {s : Schema} (hs : ∀ properties, s = .object properties → (Entries.keys properties).Nodup)
    (h : ∀ u ∈ s.children, u.NamesOnce) : s.NamesOnce := by
  intro properties hc
  rcases contains_iff.1 hc with rfl | ⟨u, hu, hc⟩
  · exact hs properties rfl
  · exact h u hu properties hc

theorem namesOnce_of_alike {s t : Schema} (h : Alike s t) : s.NamesOnce := by
  have entries {ps qs : List (String × Schema)} (h : Entries.Alike (fun s t => ∃ _ : Alike s t, s.NamesOnce) ps qs) :
      ∀ u ∈ ps.map (·.2), u.NamesOnce := by
    rw [List.forall_mem_map]
    intro e he
    obtain ⟨_, _, _, hnames⟩ := ((Entries.alike_iff_get? h.nodup).1 h).2 e he
    exact hnames
  induction h using Alike.induction with
  | object _ ih => exact .of_children (fun properties heq => by cases heq; exact ih.nodup) (entries ih)
  | @listing f hf ss ts _ ih =>
    refine .of_children (fun properties heq => by cases hf <;> cases heq) fun u hu => ?_
    have hmem : u ∈ ss := by cases hf <;> exact hu
    obtain ⟨i, hi, rfl⟩ := List.getElem_of_mem hmem
    obtain ⟨_, hnames⟩ := ih.get hi (ih.length_eq ▸ hi)
    exact hnames
  | uniform _ ih => exact .of_children nofun (List.forall_mem_singleton.2 ih)
  | defs _ ih ihs => exact .of_children nofun (List.forall_mem_cons.2 ⟨ihs.2, entries ih⟩)
  | enumeration _ | boolean | ref _ | unconstrained => exact .of_children nofun nofun

theorem namesOnce_ofJson {v : Json} (h : v.Distinct) : (ofJson v).NamesOnce :=
  namesOnce_of_alike (readsAlike (Json.Alike.refl h)).schema

/-- No choice of the schema comes twice. Outside the properties of objects there is no union, and no enumeration has a
literal twice; and no property of such an object has a value twice. Of what is inside the properties no more is said. -/
inductive Unrepeating : Schema → Prop where
  | enumeration {literals : List Json} : literals.Pairwise Json.Apart → Unrepeating (.enumeration literals)
  | boolean : Unrepeating .boolean
  | object {properties : List (String × Schema)} :
      (∀ e ∈ properties, ∃ vs, propertyValues e.2 = .ok vs ∧ vs.Pairwise Json.Apart) → Unrepeating (.object properties)
  | positional {items : List Schema} : (∀ s ∈ items, Unrepeating s) → Unrepeating (.positional items)
  | uniform {item : Schema} : Unrepeating item → Unrepeating (.uniform item)
  | sequence {elements : List Schema} : (∀ s ∈ elements, Unrepeating s) → Unrepeating (.sequence elements)
  | ref (name : String) : Unrepeating (.ref name)
  | unconstrained : Unrepeating .unconstrained

/-- The schema has suffixes that differ and have one length. -/
def Spreads (s : Schema) : Prop := ∃ n ws, enumerate s [[]] = .ok ws ∧ Spread n ws

theorem enumerateEach_spread {ss : List Schema} (h : ∀ s ∈ ss, Spreads s) :
    ∃ n ws, enumerateEach ss [[]] = .ok ws ∧ Spread n ws := by
  induction ss with
  | nil => exact ⟨0, [[]], by rw [enumerateEach], .unit⟩
  | cons s ss ih =>
    obtain ⟨⟨n, ws, hws, hspread⟩, hss⟩ := List.forall_mem_cons.1 h
    obtain ⟨k, ws', hws', hspread'⟩ := ih hss
    exact ⟨n + k, _, enumerateEach_cons_ok hws hws', hspread.appendAll hspread'⟩

theorem spreads_object {properties : List (String × Schema)} (hn : (Entries.keys properties).Nodup)
    (h : ∀ e ∈ properties, ∃ vs, propertyValues e.2 = .ok vs ∧ vs.Pairwise Json.Apart) :
    Spreads (.object properties) := by
  obtain ⟨cs, hcs, hvalues⟩ := exists_choices h
  have hnames : (Entries.keys cs).Nodup := hn.sublist (keys_sublist_of_choices hcs)
  have hdifferent : (combinations cs).Pairwise Json.Apart :=
    different_combinations hnames fun c hc => (hvalues c hc).2
  rw [Spreads, enumerate_object, hcs]
  by_cases hempty : combinations cs = []
  · exact ⟨0, [[]], by simp [Except.map, hempty], .unit⟩
  · exact ⟨1, _, by simp [Except.map, hempty], .values hdifferent⟩

theorem Unrepeating.spreads {s : Schema} (h : Unrepeating s) (hn : s.NamesOnce) : Spreads s := by
  induction h with
  | enumeration h => exact ⟨1, _, by rw [enumerate], .values h⟩
  | boolean =>
    have hflags : [Json.bool false, .bool true].Pairwise Json.Apart := by decide
    exact ⟨1, _, by rw [enumerate], .values hflags⟩
  | @object properties h => exact spreads_object (hn properties .refl) h
  | positional _ ih | sequence _ ih =>
    obtain ⟨n, ws, hws, hspread⟩ := enumerateEach_spread fun u hu => ih u hu (hn.of_mem_children hu)
    exact ⟨n, ws, by rw [enumerate, hws], hspread⟩
  | @uniform item _ ih =>
    rcases enumeration_or_ne item with ⟨literals, rfl⟩ | hne
    · rw [Spreads, enumerate_uniform_enumeration]
      exact ih (hn.of_mem_children List.mem_cons_self)
    · exact ⟨0, [[]], enumerate_uniform_of_ne _ hne, .unit⟩
  | ref _ | unconstrained => exact ⟨0, [[]], by rw [enumerate], .unit⟩

/-- Where no choice comes twice, different candidates of a seed lead to different candidates, and each of them is longer
than the one it goes on from, by a number of values that depends on the schema alone. -/
theorem different_of_enumerate {s : Schema} (hn : s.NamesOnce) (h : Unrepeating s) :
    ∃ n, ∀ seed : List Candidate, seed.Pairwise Candidate.Apart →
      ∃ cs, enumerate s seed = .ok cs ∧ cs.Pairwise Candidate.Apart ∧
        ∀ c ∈ cs, ∃ c₀ ∈ seed, ∃ w, c = c₀ ++ w ∧ w.length = n := by
  obtain ⟨n, ws, hws, hspread⟩ := h.spreads hn
  refine ⟨n, fun seed hseed => ⟨appendAll seed ws, ?_, different_appendAll hseed hspread, fun c hc => ?_⟩⟩
  · rw [enumerate_eq_appendAll s seed, hws]
    rfl
  · obtain ⟨c₀, h₀, w, hw, rfl⟩ := mem_appendAll.1 hc
    exact ⟨c₀, h₀, w, rfl, hspread.length w hw⟩

/-- Literals, then an object with a union inside one of its properties. -/
theorem different_of_enumerate_nested :
    let literals (a b : String) : Json := .object [("enum", .array [.string a, .string b])]
    let v : Json := .array [literals "always" "never", .object [("type", .string "object"),
      ("properties", .object [("before", .object [("type", .string "boolean")]),
        ("mode", .object [("anyOf", .array [literals "a" "b", .object [("enum", .array [.null])]])])])]]
    v.Distinct ∧ (ofJson v).NamesOnce ∧ Unrepeating (ofJson v) ∧
      ∃ cs, enumerate (ofJson v) [Candidate.error, [.string "warn"]] = .ok cs ∧ cs.Pairwise Candidate.Apart ∧
        ∃ n, ∀ c ∈ cs, ∃ c₀ ∈ [Candidate.error, [.string "warn"]], ∃ w, c = c₀ ++ w ∧ w.length = n := by
  intro literals v
  have hv : v.Distinct := by
    simp [v, literals, Json.distinct_object_iff, Json.distinct_array_iff, Entries.keys, Json.Distinct.string,
      Json.Distinct.null]
  have hread : ofJson v = .sequence [.enumeration [.string "always", .string "never"],
      .object [("before", .boolean), ("mode", .anyOf [.enumeration [.string "a", .string "b"], .enumeration [.null]])]] := by
    simp [v, literals, ofJson, ofJsonList, ofJsonEntries, partsOf, ofNode, ofParts, refOf?, allowsOthers, Entries.get?,
      Json.asString?, Json.asArray?]
  have hbefore : propertyValues .boolean = .ok [.bool false, .bool true] := by cbv
  have hmode : propertyValues (.anyOf [.enumeration [.string "a", .string "b"], .enumeration [.null]]) =
      .ok [.string "a", .string "b", .null] := by cbv
  have hunrepeating : Unrepeating (ofJson v) := by
    rw [hread]
    refine .sequence (List.forall_mem_cons.2 ⟨.enumeration (by decide), List.forall_mem_singleton.2 (.object ?_)⟩)
    exact List.forall_mem_cons.2 ⟨⟨_, hbefore, by decide⟩, List.forall_mem_singleton.2 ⟨_, hmode, by decide⟩⟩
  have hseed : [Candidate.error, [.string "warn"]].Pairwise Candidate.Apart := by decide
  obtain ⟨n, h⟩ := different_of_enumerate (namesOnce_ofJson hv) hunrepeating
  obtain ⟨cs, hcs, hdifferent, hlength⟩ := h _ hseed
  exact ⟨hv, namesOnce_ofJson hv, hunrepeating, cs, hcs, hdifferent, n, hlength⟩

end Schema

end LintInference
