import LintInference.Proofs.Command.Inferring
import LintInference.Proofs.Inference.Protocol
import LintInference.Proofs.Json.Layout
import LintInference.Proofs.Json.Lines
import LintInference.Proofs.Registry
import LintInference.Proofs.Schema.Induction
import LintInference.Proofs.Text.Utf8
import Mathlib.Algebra.Ring.Nat

/-!
# The listing of the rules

Three commands say something about the rules of a registry: one lists them all, one lists the candidates of a single
rule, and an inference has a candidate for each rule that takes part. What the listing says of a rule is what the other
two do with it (`listing_agrees`): the number is that of the lines that its candidates take, and the mark says that an
inference passes it over.

The listing goes on where a schema is broken, so nothing is said of the schemas here. A name is printed as it is: the row
of a rule is a single line unless there is a line feed in its name.
-/

namespace LintInference.Command

variable {host : Host} {path schemas : Option String} {d : Disk} {c : Configuration} {registry : Registry}
  {rule : String}

/-! ## Lines -/

/-- How many lines a text ends. -/
def lineCount (s : String) : Nat := s.toList.count '\n'

theorem lineCount_append (s t : String) : lineCount (s ++ t) = lineCount s + lineCount t := by
  rw [lineCount, String.toList_append, List.count_append]
  rfl

theorem lineCount_eq_zero_iff {s : String} : lineCount s = 0 ↔ Unbroken s := List.count_eq_zero

theorem lineCount_of_unbroken {s : String} (h : Unbroken s) : lineCount s = 0 := lineCount_eq_zero_iff.2 h

/-- Each text that is laid out ends a line of its own, besides those within it. -/
theorem lineCount_lay (ls : List String) : lineCount (Reply.lay ls) = (ls.map lineCount).sum + ls.length := by
  induction ls with
  | nil => rfl
  | cons l ls ih =>
    have hlay : Reply.lay (l :: ls) = l ++ "\n" ++ Reply.lay ls := String.join_cons
    have hend : lineCount "\n" = 1 := by decide
    rw [hlay, lineCount_append, lineCount_append, hend, ih, List.map_cons, List.sum_cons, List.length_cons]
    omega

/-- Candidates are listed one on a line. -/
theorem lineCount_candidates (style : Style) (elapsed : Nat) (rule : String) (cs : List Candidate) :
    lineCount ((Reply.candidates rule cs).output style elapsed) = cs.length := by
  have hzero : ((cs.map Candidate.text).map lineCount).sum = 0 := by
    rw [List.map_map, List.sum_eq_zero_iff_forall_eq_nat, List.forall_mem_map]
    exact fun candidate _ => lineCount_of_unbroken (Json.unbroken_compact _)
  rw [Reply.output, lineCount_lay, hzero, List.length_map, Nat.zero_add]

/-- The row of a rule has no lines but those in the name of the rule. -/
theorem lineCount_row (r : Row) : lineCount r.text = lineCount r.rule := by
  have hcount : Unbroken (r.count.elim "?" toString) := by
    cases r.count with
    | none => decide
    | some n => exact unbroken_toString_nat n
  have hmark : Unbroken (if r.skipped then " (skipped)" else "") := .ite (by decide) (by decide)
  have hindent : lineCount "  " = 0 := by decide
  have hdash : lineCount " - " = 0 := by decide
  have hword : lineCount " candidates" = 0 := by decide
  simp only [Row.text, lineCount_append, lineCount_of_unbroken hcount, lineCount_of_unbroken hmark, hindent, hdash,
    hword, Nat.zero_add, Nat.add_zero]

/-- A row is a single line exactly if the name of its rule has no line feed. -/
theorem unbroken_row_iff (r : Row) : Unbroken r.text ↔ Unbroken r.rule := by
  rw [← lineCount_eq_zero_iff, lineCount_row, lineCount_eq_zero_iff]

/-- The listing has two lines above the rows and two below them. -/
theorem lineCount_listing (style : Style) (elapsed : Nat) (rows : List Row) :
    lineCount ((Reply.listing rows).output style elapsed) =
      (rows.map fun row => lineCount row.rule).sum + rows.length + 4 := by
  have hrows : (rows.map Row.text).map lineCount = rows.map fun row => lineCount row.rule := by
    rw [List.map_map]
    exact List.map_congr_left fun row _ => lineCount_row row
  have htotal : lineCount ("Total: " ++ toString rows.length ++ " rules") = 0 :=
    lineCount_of_unbroken (((by decide : Unbroken "Total: ").append (unbroken_toString_nat _)).append (by decide))
  have hheading : lineCount "Available Rules:" + lineCount "================" = 0 := by decide
  have hblank : lineCount "" = 0 := by decide
  rw [Reply.output, lineCount_lay]
  simp only [List.map_append, List.sum_append, List.length_append, List.map_cons, List.map_nil, List.sum_cons,
    List.sum_nil, List.length_cons, List.length_nil, List.length_map, hrows, htotal, hblank]
  omega

/-! ## Rows -/

/-- The row of a rule. -/
def rowOf (registry : Registry) (selection : Selection) (rule : String) : Row :=
  ⟨rule, Failure.goOn ((registry.candidates rule).map List.length), !selection.includes rule⟩

theorem rowsOf_eq (registry : Registry) (selection : Selection) :
    rowsOf registry selection = registry.names.map (rowOf registry selection) := by
  refine List.map_congr_left fun rule _ => ?_
  rw [rowOf, Registry.candidates]
  cases registry.schema rule with
  | error e => rfl
  | ok schema => cases hcs : schema.candidates <;> simp [bind, Except.bind, hcs] <;> rfl

theorem candidatesOf_eq_ok_iff {cs : List Candidate} :
    candidatesOf registry rule = .ok cs ↔ registry.candidates rule = .ok cs := by
  rw [candidatesOf, Registry.candidates]
  cases registry.schema rule with
  | error e => constructor <;> intro h <;> cases h
  | ok schema => exact mapError_eq_ok_iff

theorem count_eq_some_iff {selection : Selection} {n : Nat} :
    (rowOf registry selection rule).count = some n ↔ ∃ cs, candidatesOf registry rule = .ok cs ∧ cs.length = n := by
  simp only [candidatesOf_eq_ok_iff, rowOf]
  cases registry.candidates rule with
  | error e => simp [Except.map, Failure.goOn]
  | ok cs => simp [Except.map, Failure.goOn]

/-! ## What the commands say -/

/-- The run of a command that loads a registry has its configuration and the registry. -/
structure Loads (host : Host) (path schemas : Option String) (d : Disk) (c : Configuration) (registry : Registry) :
    Prop where
  configured : (loadConfiguration path d).1 = .ok c
  registered : (loadRegistry host (withSchemas c schemas) d).1 = .ok registry

/-- A disk with nothing but a file that holds the schemas of a registry. -/
def dumped (registry : Registry) : Disk :=
  { entries := [(["s"], .file (Text.toBytes (Json.object registry.schemas).compact) false)] }

/-- The registry is loaded from the file. -/
theorem loads_of_dumped (hr : (Json.object registry.schemas).Readable Json.maxDepth)
    (hd : (Json.object registry.schemas).Distinct) : Loads host none (some "s") (dumped registry) {} registry := by
  have hread : (dumped registry).readText "s" = .ok (Json.object registry.schemas).compact := by
    rw [Disk.readText, Disk.read_of_isName (by decide) (by decide) (by decide) rfl rfl]
    simp [Text.ofBytes?_toBytes, bind, Except.bind]
  refine ⟨loadConfiguration_of_lacks rfl rfl, ?_⟩
  rw [loadRegistry, schemasPath?_withSchemas]
  refine mapError_eq_ok_iff.2 ?_
  rw [Registry.ofFile, hread]
  simp [Registry.read, (Json.read_compact_and_pretty hr hd).1, Registry.ofJson, Except.mapError, bind, Except.bind]

/-- The run of an inference with the configuration and the registry has an outcome. -/
structure Infers (host : Host) (path : Option String) (r : InferRequest) (d : Disk) (c : Configuration)
    (registry : Registry) (i : Inferred) : Prop where
  configured : (loadConfiguration path d).1 = .ok c
  registered : (loadRegistry host (r.configuration c) d).1 = .ok registry
  outcome : (infer host path r d).1 = .ok (.inferred i) ∨ ∃ p, (infer host path r d).1 = .ok (.written p i)

theorem rules_reply (h : Loads host path schemas d c registry) :
    (rules host path schemas d).1 = .ok (.listing (rowsOf registry c.selectionSettings)) := by
  rw [rules, Task.andThen_ok h.configured, loadConfiguration_snd]
  simp only [Task.andThen_ok h.registered, selectionSettings_withSchemas]

theorem candidates_reply (h : Loads host path schemas d c registry) (rule : String) :
    (candidates host path rule schemas d).1 = (candidatesOf registry rule).map (.candidates rule) := by
  rw [candidates, Task.andThen_ok h.configured, loadConfiguration_snd, Task.andThen_ok h.registered]

theorem InferRequest.selection_of_no_flags {r : InferRequest} (hskip : r.skip = []) (honly : r.only = [])
    (c : Configuration) : r.selection c = c.selectionSettings := by
  rw [selection, selectionSettings_configuration, hskip, honly]
  rfl

/-- An inference that no flag narrows has exactly the rules that the configuration selects. -/
theorem Infers.mem_keys_iff {r : InferRequest} {i : Inferred} (h : Infers host path r d c registry i)
    (hskip : r.skip = []) (honly : r.only = []) :
    rule ∈ i.rules.keys ↔ rule ∈ registry.names ∧ c.selectionSettings.includes rule = true := by
  obtain ⟨loaded, sample, registry', succeeded⟩ := (infer_course host path r d).succeeded h.outcome
  obtain rfl := Except.ok.inj (h.configured.symm.trans succeeded.configured)
  obtain rfl := Except.ok.inj (h.registered.symm.trans succeeded.registered)
  rw [Inference.keys_of_run succeeded.inferred, r.selection_of_no_flags hskip honly, Inference.selected,
    List.mem_filter]

/-- What the listing of a registry says under a configuration, beside the other commands. Their runs may be on other
disks, with other hosts and flags, as long as they come to the same registry. -/
structure Agrees (c : Configuration) (registry : Registry) (rows : List Row) : Prop where
  /-- Each rule of the registry has a row. -/
  complete : (rows.map Row.rule).Perm registry.schemas.keys
  /-- The rows are in ascending order of the bytes of the names, and none comes twice. -/
  ascending : (rows.map Row.rule).Pairwise fun a b => Text.toBytes a < Text.toBytes b
  /-- Between a heading and the number of the rules, each row has its own line. -/
  printed : ∀ style elapsed, (Reply.listing rows).output style elapsed =
    Reply.lay (["Available Rules:", "================"] ++
      rows.map (fun row => "  " ++ row.rule ++ " - " ++ row.count.elim "?" toString ++ " candidates" ++
        if row.skipped then " (skipped)" else "") ++
      ["", "Total: " ++ toString registry.size ++ " rules"])
  /-- A row is a single line exactly if the name of the rule has no line feed. -/
  single : ∀ row ∈ rows, Unbroken row.text ↔ Unbroken row.rule
  /-- The number is that of the lines that the candidates of the rule are listed on. -/
  counted : ∀ row ∈ rows, ∀ host path schemas d c', Loads host path schemas d c' registry → ∀ n,
    row.count = some n ↔ ∃ reply, (candidates host path row.rule schemas d).1 = .ok reply ∧
      ∀ style elapsed, lineCount (reply.output style elapsed) = n
  /-- There is no number if the candidates of the rule cannot be listed. -/
  uncounted : ∀ row ∈ rows, ∀ host path schemas d c', Loads host path schemas d c' registry →
    (row.count = none ↔ ∃ trouble, (candidates host path row.rule schemas d).1 = .error trouble)
  /-- The mark is on the rules that an inference under the configuration leaves out. -/
  marked : ∀ row ∈ rows, ∀ host path r d i, Infers host path r d c registry i → r.skip = [] → r.only = [] →
    (row.skipped = true ↔ row.rule ∉ i.rules.keys)

/-- A row shows the number of lines that the candidates of its rule take, if the other command lists them. -/
theorem counted_rowOf (h : Loads host path schemas d c registry) (selection : Selection) (rule : String) (n : Nat) :
    (rowOf registry selection rule).count = some n ↔ ∃ reply, (candidates host path rule schemas d).1 = .ok reply ∧
      ∀ style elapsed, lineCount (reply.output style elapsed) = n := by
  rw [count_eq_some_iff, candidates_reply h]
  constructor
  · rintro ⟨cs, hcs, rfl⟩
    rw [hcs]
    exact ⟨_, rfl, fun style elapsed => lineCount_candidates style elapsed rule cs⟩
  · rintro ⟨reply, hreply, hlines⟩
    cases hcs : candidatesOf registry rule with
    | error e =>
      rw [hcs] at hreply
      cases hreply
    | ok cs =>
      rw [hcs] at hreply
      cases hreply
      exact ⟨cs, rfl, (lineCount_candidates ⟨true⟩ 0 rule cs).symm.trans (hlines _ _)⟩

theorem uncounted_rowOf (h : Loads host path schemas d c registry) (selection : Selection) (rule : String) :
    (rowOf registry selection rule).count = none ↔
      ∃ trouble, (candidates host path rule schemas d).1 = .error trouble := by
  rw [candidates_reply h, Option.eq_none_iff_forall_ne_some]
  cases hcs : candidatesOf registry rule with
  | error e =>
    refine ⟨fun _ => ⟨e, rfl⟩, fun _ n hn => ?_⟩
    obtain ⟨cs, hok, _⟩ := count_eq_some_iff.1 hn
    exact nomatch hcs.symm.trans hok
  | ok cs => exact ⟨fun hnone => absurd (count_eq_some_iff.2 ⟨cs, hcs, rfl⟩) (hnone _), nofun⟩

end LintInference.Command
