import LintInference.Configuration.Basic
import LintInference.Inference
import LintInference.Proofs.Json.Shapes

/-!
# What is written is read back

The outcome of an inference, the options of a linter call and a configuration are written as values and read by shapes.
For each type there is the form in which the reader gives a value (`Grammar.taken` and so on), the proof that the shape
takes what is written for this form, and the proof that the value is found in it. The texts of values come back by the
rules for shapes (`written_read_back`).
-/

namespace LintInference

open Json (Shape)

/-! ## Values that may be missing -/

section Missing

variable {α : Type} {depth : Nat} {shape : Shape} {toJson taken : α → Json}

theorem takes_elim (h : ∀ a, (Shape.optional shape).Takes depth (toJson a) (taken a)) (a : Option α) :
    (Shape.optional shape).Takes depth (a.elim .null toJson) (a.elim .null taken) := by
  cases a with
  | none => exact .null
  | some a => exact h a

theorem ofRead?_elim (taken : α → Json) (ofRead? : Json → Option α) (hnull : ofRead? .null = none)
    (h : ∀ a, ofRead? (taken a) = some a) (a : Option α) : ofRead? (a.elim .null taken) = a := by
  cases a with
  | none => exact hnull
  | some a => exact h a

theorem takes_ofText? (s : Option String) : (Shape.optional .text).Takes depth (.ofText? s) (.ofText? s) :=
  takes_elim (fun s => .some (.text s) nofun nofun) s

theorem takes_ofTexts (l : List String) : (Shape.list .text).Takes (depth + 1) (.ofTexts l) (.ofTexts l) :=
  .list (List.forall₂_map_left_iff.2 (List.forall₂_map_right_iff.2 (List.forall₂_same.2 fun s _ => .text s)))

theorem takes_ofTexts? (l : Option (List String)) :
    (Shape.optional (.list .text)).Takes (depth + 1) (.ofTexts? l) (.ofTexts? l) :=
  takes_elim (fun l => .some (takes_ofTexts l) nofun nofun) l

theorem asString?_ofText? (s : Option String) : (Json.ofText? s).asString? = s :=
  ofRead?_elim Json.string Json.asString? rfl (fun _ => rfl) s

theorem asTexts?_ofTexts (l : List String) : (Json.ofTexts l).asTexts? = some l := by
  have hall : (l.map Json.string).filterMap Json.asString? = l := by
    rw [List.filterMap_map]
    exact List.filterMap_some
  exact congrArg some hall

theorem asTexts?_ofTexts? (l : Option (List String)) : (Json.ofTexts? l).asTexts? = l :=
  ofRead?_elim Json.ofTexts Json.asTexts? rfl asTexts?_ofTexts l

end Missing

/-! ## Grammars and options -/

/-- A grammar as it is read. -/
def Grammar.taken (g : Grammar) : Json :=
  .array [.ofNat g.version.toNat, .string g.sourceType.word, .object (Entries.mapValues Json.bool g.features)]

theorem Grammar.takes (g : Grammar) (hn : (Entries.keys g.features).Nodup) (depth : Nat) :
    Grammar.shape.Takes (depth + 2) g.toJson g.taken := by
  have hversion : Shape.word.Takes (depth + 1) (.ofNat g.version.toNat) (.ofNat g.version.toNat) :=
    .natural (Nat.le_pred_of_lt g.version.toNat_lt) (by decide)
  have hsourceType : (Shape.choice SourceType.words).Takes (depth + 1) (.string g.sourceType.word)
      (.string g.sourceType.word) := .choice (by cases g.sourceType <;> decide)
  have hfeatures : (Shape.map .flag).Takes (depth + 1) (.object (Entries.mapValues Json.bool g.features))
      (.object (Entries.mapValues Json.bool g.features)) := by
    refine .map (List.forall₂_same.2 fun e he => ⟨rfl, ?_⟩) (by rwa [Entries.keys_mapValues])
    obtain ⟨f, -, rfl⟩ := List.mem_map.1 he
    exact .flag f.2
  exact .record (.given hversion (.given hsourceType (.given hfeatures .nil))) (by decide)

theorem SourceType.ofWord?_word (t : SourceType) : ofWord? t.word = some t := by
  cases t <;> decide

theorem Grammar.ofRead?_taken (g : Grammar) : Grammar.ofRead? g.taken = some g := by
  have hfeatures : (Entries.mapValues Json.bool g.features).map (fun e => (e.1, e.2.asBool?.getD false)) = g.features :=
    Entries.mapValues_mapValues_eq_self (f := Json.bool) (g := fun v : Json => v.asBool?.getD false) (fun _ => rfl) _
  simp [Grammar.taken, Grammar.ofRead?, Json.ofNat, Json.asNat?, Json.asString?, SourceType.ofWord?_word, hfeatures]

namespace Options

/-- A grammar with rules as it is read. -/
def taken (g : Grammar) (rules : Entries Candidate) : Json :=
  .array [g.taken, .object (Entries.mapValues Candidate.toJson rules)]

theorem takes (depth : Nat) {g : Grammar} {rules : Entries Candidate} (hd : (pairToJson g rules).Distinct)
    (hr : (pairToJson g rules).Readable (depth + 3)) (name : String) :
    (pairShape name).Takes (depth + 3) (pairToJson g rules) (taken g rules) := by
  simp only [pairToJson, Grammar.toJson, Json.distinct_object_iff, List.forall_mem_cons] at hd
  simp only [pairToJson, Json.readable_object_iff, List.forall_mem_cons] at hr
  obtain ⟨-, ⟨-, -, -, ⟨hfeatures, -⟩, -⟩, ⟨hnames, hdistinct⟩, -⟩ := hd
  obtain ⟨-, hreadable, -⟩ := hr
  rw [Entries.keys_mapValues] at hfeatures
  have hrules : (Shape.map (.list .any)).Takes (depth + 2) (.object (Entries.mapValues Candidate.toJson rules))
      (.object (Entries.mapValues Candidate.toJson rules)) := by
    refine .map (List.forall₂_same.2 fun e he => ⟨rfl, ?_⟩) hnames
    obtain ⟨f, -, rfl⟩ := List.mem_map.1 he
    have hd := Json.distinct_array_iff.1 (hdistinct _ he)
    have hr := Json.readable_array_iff.1 (hreadable _ he)
    exact .list (List.forall₂_same.2 fun v hv => .any (hr v hv) (hd v hv))
  exact .record (.given (g.takes hfeatures depth) (.given hrules .nil)) (by decide)

theorem pairOfRead?_taken (g : Grammar) (rules : Entries Candidate) : pairOfRead? (taken g rules) = some (g, rules) := by
  have hrules : (Entries.mapValues Candidate.toJson rules).map (fun e => (e.1, e.2.asArray?.getD [])) = rules :=
    Entries.mapValues_mapValues_eq_self (f := Candidate.toJson) (g := fun v : Json => v.asArray?.getD []) (fun _ => rfl) _
  simp [taken, pairOfRead?, Grammar.ofRead?_taken, hrules]

end Options

/-! ## Configurations -/

/-- A section as it is read. -/
def LinterSection.taken (s : LinterSection) : Json :=
  .array [.ofText? s.command, .ofTexts? s.args, .ofText? s.node, .ofText? s.workingDirectory, .ofText? s.schemas]

theorem LinterSection.takes (s : LinterSection) (depth : Nat) :
    LinterSection.shape.Takes (depth + 2) s.toJson s.taken :=
  .record (.given (takes_ofText? _) (.given (takes_ofTexts? _) (.given (takes_ofText? _) (.given (takes_ofText? _)
    (.given (takes_ofText? _) .nil))))) (by decide)

theorem LinterSection.ofRead?_taken (s : LinterSection) : LinterSection.ofRead? s.taken = some s := by
  simp only [taken, ofRead?, asString?_ofText?, asTexts?_ofTexts?]

/-- A section as it is read. -/
def SelectionSection.taken (s : SelectionSection) : Json := .array [.ofTexts? s.skipRules, .ofTexts? s.onlyRules]

theorem SelectionSection.takes (s : SelectionSection) (depth : Nat) :
    SelectionSection.shape.Takes (depth + 2) s.toJson s.taken :=
  .record (.given (takes_ofTexts? _) (.given (takes_ofTexts? _) .nil)) (by decide)

theorem SelectionSection.ofRead?_taken (s : SelectionSection) : SelectionSection.ofRead? s.taken = some s := by
  simp only [taken, ofRead?, asTexts?_ofTexts?]

/-- A section as it is read. -/
def OutputSection.taken (s : OutputSection) : Json := .array [.ofText? s.path, s.overwrite.elim .null .bool]

theorem OutputSection.takes (s : OutputSection) (depth : Nat) :
    OutputSection.shape.Takes (depth + 1) s.toJson s.taken :=
  .record (.given (takes_ofText? _) (.given (takes_elim (fun b => .some (.flag b) nofun nofun) _) .nil)) (by decide)

theorem OutputSection.ofRead?_taken (s : OutputSection) : OutputSection.ofRead? s.taken = some s := by
  rw [taken, ofRead?, asString?_ofText?, ofRead?_elim Json.bool Json.asBool? rfl fun _ => rfl]

namespace Configuration

/-- A section that is missing is left out, and taken for `null`. -/
theorem fields_givenEntry {α : Type} {depth : Nat} (name : String) {shape : Shape} {toJson taken : α → Json}
    (h : ∀ a, (Shape.optional shape).Takes depth (toJson a) (taken a)) (a : Option α)
    {fields : List (String × Json.Presence × Shape)} {es fs : Entries Json} {ws : List Json}
    (hrest : Shape.Fields depth fields es fs ws) :
    Shape.Fields depth (Shape.optionalField name shape :: fields) (givenEntry name toJson a ++ es)
      (givenEntry name taken a ++ fs) (a.elim .null taken :: ws) := by
  cases a with
  | none => exact .left hrest
  | some a => exact .given (h a) hrest

/-- A configuration as it is read. -/
def taken (k : Configuration) : Json :=
  .array [k.schema.elim .null .string, k.linter.elim .null LinterSection.taken,
    k.selection.elim .null SelectionSection.taken, k.output.elim .null OutputSection.taken]

theorem takes (k : Configuration) (depth : Nat) : shape.Takes (depth + 3) k.toJson k.taken := by
  have hschema (s : String) : (Shape.optional .text).Takes (depth + 2) (.string s) (.string s) :=
    .some (.text s) nofun nofun
  have hlinter (s : LinterSection) : (Shape.optional LinterSection.shape).Takes (depth + 2) s.toJson s.taken :=
    .some (s.takes depth) nofun nofun
  have hselection (s : SelectionSection) : (Shape.optional SelectionSection.shape).Takes (depth + 2) s.toJson s.taken :=
    .some (s.takes depth) nofun nofun
  have houtput (s : OutputSection) : (Shape.optional OutputSection.shape).Takes (depth + 2) s.toJson s.taken :=
    .some (s.takes (depth + 1)) nofun nofun
  have hfields := fields_givenEntry "$schema" hschema k.schema (fields_givenEntry "eslint" hlinter k.linter
    (fields_givenEntry "inference" hselection k.selection (fields_givenEntry "output" houtput k.output .nil)))
  simp only [List.append_nil, ← List.append_assoc] at hfields
  exact .record hfields (by decide)

theorem ofRead?_taken (k : Configuration) : ofRead? k.taken = some k := by
  rw [taken, ofRead?, ofRead?_elim Json.string Json.asString? rfl fun _ => rfl,
    ofRead?_elim _ _ rfl LinterSection.ofRead?_taken, ofRead?_elim _ _ rfl SelectionSection.ofRead?_taken,
    ofRead?_elim _ _ rfl OutputSection.ofRead?_taken]

end Configuration

/-! ## Reading what was written -/

theorem Inferred.read_pretty {i : Inferred} (hd : i.toJson.Distinct) (hr : i.toJson.Readable Json.maxDepth) :
    read i.pretty = .ok i := by
  have hread := (Options.takes 124 hd hr "InferredConfig").read_text .indented
  change (Options.pairShape "InferredConfig").read (Text.pieces i.pretty) = _ at hread
  simp [read, hread, Options.pairOfRead?_taken]

theorem Options.read_text {o : Options} (hd : o.toJson.Distinct) (hr : o.toJson.Readable Json.maxDepth) :
    read o.text = .ok o := by
  have hread := (takes 124 hd hr "EngineOptions").read_text .dense
  change (pairShape "EngineOptions").read (Text.pieces o.text) = _ at hread
  simp [read, hread, pairOfRead?_taken]

theorem Configuration.ofJsonText_text (k : Configuration) (L : Json.Layout) :
    ofJsonText (String.ofList (L.text 0 k.toJson)) = .ok k := by
  have hread : shape.read _ = .ok k.taken := (k.takes 124).read_text L
  rw [ofJsonText, hread]
  simp [ofRead?_taken]

/-- Whatever the texts, the order of names and the literals are: an outcome in its indented text, the options of a call in
their compact text, and a configuration in either text are read as they were, with every map in the order it had. Maps
have each name once, and the reader asks for whole numbers in range and at most `Json.maxDepth` levels. -/
theorem written_read_back (i : Inferred) (o : Options) (k : Configuration)
    (hi : i.toJson.Distinct ∧ i.toJson.Readable Json.maxDepth)
    (ho : o.toJson.Distinct ∧ o.toJson.Readable Json.maxDepth) :
    Inferred.read i.pretty = .ok i ∧ Options.read o.text = .ok o ∧
      Configuration.ofJsonText k.toJson.compact = .ok k ∧ Configuration.ofJsonText k.toJson.pretty = .ok k :=
  ⟨Inferred.read_pretty hi.1 hi.2, Options.read_text ho.1 ho.2, k.ofJsonText_text .dense, k.ofJsonText_text .indented⟩

/-- Characters that are escaped, both ends of the range of numbers, and names that are in no order. -/
theorem written_read_back_escapes :
    let value : Json := .object [("z\"\n", .number (.int (-9223372036854775808))),
      ("a", .array [.null, .number (.int 18446744073709551615), .object []])]
    let rules : Entries Candidate := [("quotes", [.string "error", .string "\\\x01\té", value]), ("eqeqeq", .off)]
    let i : Inferred := ⟨⟨6, .script, [("jsx", false), ("globalReturn", true)]⟩, rules⟩
    let o : Options := ⟨i.grammar, rules⟩
    let k : Configuration := { linter := some { args := some ["a \"b\""] }, output := some {} }
    (i.toJson.Distinct ∧ i.toJson.Readable Json.maxDepth) ∧ (o.toJson.Distinct ∧ o.toJson.Readable Json.maxDepth) ∧
      Inferred.read i.pretty = .ok i ∧ Options.read o.text = .ok o ∧
      Configuration.ofJsonText k.toJson.compact = .ok k ∧ Configuration.ofJsonText k.toJson.pretty = .ok k := by
  intro value rules i o k
  have hdistinct : i.toJson.Distinct := by
    simp [i, rules, value, Inferred.toJson, Options.pairToJson, Grammar.toJson, Entries.mapValues, Candidate.toJson,
      Candidate.off, Json.ofNat, Entries.keys, Json.distinct_object_iff, Json.distinct_array_iff, Json.Distinct.null,
      Json.Distinct.number, Json.Distinct.bool, Json.Distinct.string]
  have hreadable : i.toJson.Readable Json.maxDepth := by
    simp [i, rules, value, Inferred.toJson, Options.pairToJson, Grammar.toJson, Entries.mapValues, Candidate.toJson,
      Candidate.off, Json.ofNat, Json.maxDepth, Json.readable_object_iff, Json.readable_array_iff, Json.readable_int_iff,
      Json.Readable.null, Json.Readable.bool, Json.Readable.string]
  have ho : o.toJson = i.toJson := rfl
  exact ⟨⟨hdistinct, hreadable⟩, ho ▸ ⟨hdistinct, hreadable⟩,
    written_read_back i o k ⟨hdistinct, hreadable⟩ (ho ▸ ⟨hdistinct, hreadable⟩)⟩

end LintInference
