import LintInference.Configuration.Loading
import LintInference.Proofs.Disk

/-!
# The nearest configuration file

Discovery goes through two lists: the directories from the innermost one to the root, and for each of them the names in
order of importance. The nearer directory comes first, whatever its file is called, and the more important name decides
only within a directory (`Discovery.Nearest`). What is found is the file that this order puts first, and nothing is
found only if no directory has one (`Discovery.upwards?_eq_iff`).

Of a disk nothing but its files counts. So a directory with the name of a configuration file is passed over, there and
on the way up (`Discovery.discover_nearest`).
-/

namespace LintInference

namespace Discovery

variable {isFile : Place → Bool} {start directory : Place} {name : String}

/-! ## One directory -/

/-- No configuration file is in the directory. -/
def Lacks (isFile : Place → Bool) (directory : Place) : Prop := ∀ name ∈ names, isFile (directory ++ [name]) = false

/-- The name is that of a file in the directory, and no name of more importance is. -/
def First (isFile : Place → Bool) (directory : Place) (name : String) : Prop :=
  isFile (directory ++ [name]) = true ∧
    ∃ before after, names = before ++ name :: after ∧ ∀ other ∈ before, isFile (directory ++ [other]) = false

theorem inDirectory?_eq_none_iff : inDirectory? isFile directory = none ↔ Lacks isFile directory := by
  simp [inDirectory?, Lacks]

theorem inDirectory?_eq_some_iff {p : Place} :
    inDirectory? isFile directory = some p ↔ ∃ name, First isFile directory name ∧ p = directory ++ [name] := by
  rw [inDirectory?, List.find?_map, Option.map_eq_some_iff]
  simp only [List.find?_eq_some_iff_append, First, Function.comp_apply, Bool.not_eq_true', eq_comm (a := p)]

theorem First.mem (h : First isFile directory name) : name ∈ names := by
  obtain ⟨_, before, after, hnames, _⟩ := h
  simp [hnames]

theorem First.not_lacks (h : First isFile directory name) : ¬ Lacks isFile directory := by
  intro hlacks
  have hnone := hlacks name h.mem
  rw [h.1] at hnone
  cases hnone

/-! ## From directory to directory -/

/-- The directory is the start or stands around it, the name is that of its configuration file, and no directory nearer
to the start has one. -/
structure Nearest (isFile : Place → Bool) (start directory : Place) (name : String) : Prop where
  around : directory <+: start
  first : First isFile directory name
  nearest : ∀ nearer, nearer <+: start → directory.length < nearer.length → Lacks isFile nearer

/-- What a search that starts in a directory has to find. -/
def Finds (isFile : Place → Bool) (start : Place) : Option Place → Prop
  | some p => ∃ directory name, Nearest isFile start directory name ∧ p = directory ++ [name]
  | none => ∀ directory, directory <+: start → Lacks isFile directory

theorem finds_root {found : Option Place} (h : inDirectory? isFile [] = found) : Finds isFile [] found := by
  cases found with
  | none =>
    intro directory hd
    rw [List.prefix_nil.1 hd]
    exact inDirectory?_eq_none_iff.1 h
  | some p =>
    obtain ⟨name, hfirst, rfl⟩ := inDirectory?_eq_some_iff.1 h
    refine ⟨[], name, ⟨List.nil_prefix, hfirst, fun nearer hn hlen => ?_⟩, rfl⟩
    rw [List.prefix_nil.1 hn] at hlen
    exact absurd hlen (Nat.lt_irrefl _)

/-- A file in the start itself is the nearest. -/
theorem finds_here {p : Place} (h : inDirectory? isFile start = some p) : Finds isFile start (some p) := by
  obtain ⟨name, hfirst, rfl⟩ := inDirectory?_eq_some_iff.1 h
  refine ⟨start, name, ⟨List.prefix_rfl, hfirst, fun nearer hn hlen => ?_⟩, rfl⟩
  exact absurd hn.length_le (Nat.not_le_of_lt hlen)

/-- If the start has no file, what is found from the directory above is found. -/
theorem Finds.above {inner : String} {found : Option Place} (hlacks : Lacks isFile (start ++ [inner]))
    (h : Finds isFile start found) : Finds isFile (start ++ [inner]) found := by
  cases found with
  | none =>
    intro directory hd
    rcases List.prefix_concat_iff.1 hd with rfl | hd
    · exact hlacks
    · exact h directory hd
  | some p =>
    obtain ⟨directory, name, hnear, rfl⟩ := h
    refine ⟨directory, name, ⟨?_, hnear.first, fun nearer hn hlen => ?_⟩, rfl⟩
    · exact hnear.around.trans (List.prefix_append start [inner])
    · rcases List.prefix_concat_iff.1 hn with rfl | hn
      · exact hlacks
      · exact hnear.nearest nearer hn hlen

/-- Induction from the root to the start. -/
theorem upwards?_finds (inside : List String) : Finds isFile inside.reverse (upwards? isFile inside) := by
  induction inside with
  | nil => exact finds_root rfl
  | cons inner inside ih =>
    rw [upwards?]
    cases h : inDirectory? isFile (inner :: inside).reverse with
    | some p => exact finds_here h
    | none =>
      rw [inDirectory?_eq_none_iff, List.reverse_cons] at h
      rw [Option.none_or, List.reverse_cons]
      exact ih.above h

/-! ## There is one nearest file -/

theorem Nearest.unique {directory' : Place} {name' : String} (h : Nearest isFile start directory name)
    (h' : Nearest isFile start directory' name') : directory ++ [name] = directory' ++ [name'] := by
  have hlen : directory.length = directory'.length := by
    rcases Nat.lt_trichotomy directory.length directory'.length with hlt | heq | hlt
    · exact absurd (h.nearest directory' h'.around hlt) h'.first.not_lacks
    · exact heq
    · exact absurd (h'.nearest directory h.around hlt) h.first.not_lacks
  have hprefix : directory <+: directory' := List.prefix_of_prefix_length_le h.around h'.around (Nat.le_of_eq hlen)
  have hdir : directory = directory' := hprefix.eq_of_length hlen
  subst hdir
  have hname := inDirectory?_eq_some_iff.2 ⟨name, h.first, rfl⟩
  have hname' := inDirectory?_eq_some_iff.2 ⟨name', h'.first, rfl⟩
  exact Option.some.inj (hname.symm.trans hname')

theorem Finds.unique {found found' : Option Place} (h : Finds isFile start found) (h' : Finds isFile start found') :
    found = found' := by
  cases found with
  | none =>
    cases found' with
    | none => rfl
    | some _ =>
      obtain ⟨directory, _, hnear, rfl⟩ := h'
      exact absurd (h directory hnear.around) hnear.first.not_lacks
  | some _ =>
    obtain ⟨directory, _, hnear, rfl⟩ := h
    cases found' with
    | none => exact absurd (h' directory hnear.around) hnear.first.not_lacks
    | some _ =>
      obtain ⟨_, _, hnear', rfl⟩ := h'
      exact congrArg some (hnear.unique hnear')

theorem upwards?_eq_iff {found : Option Place} : upwards? isFile start.reverse = found ↔ Finds isFile start found := by
  have h : Finds isFile start.reverse.reverse (upwards? isFile start.reverse) := upwards?_finds start.reverse
  rw [List.reverse_reverse] at h
  exact ⟨fun heq => heq ▸ h, fun hfound => h.unique hfound⟩

end Discovery

/-! ## On a disk -/

namespace Disk

variable {d : Disk} {path : String} {start q : Place}

/-- A directory where no file was leaves all files in their places. -/
theorem isFile_put_directory (h : d.isFile q = false) : (d.put q .directory).isFile = d.isFile := by
  funext p
  by_cases hpq : p = q
  · subst hpq
    rw [h]
    by_cases hroot : p = []
    · simp [isFile, at?, hroot]
    · simp [isFile, at?_put_self d .directory hroot]
  · simp only [isFile, at?_put_of_ne d .directory hpq]

/-- What is there stays there, as only a directory could stand where the new one is put. -/
theorem at?_put_directory (hq : d.isFile q = false) {p : Place} {e : Entry} (h : d.at? p = some e) :
    (d.put q .directory).at? p = some e := by
  by_cases hpq : p = q
  · subst hpq
    cases e with
    | file _ _ => simp [isFile, h] at hq
    | directory =>
      by_cases hroot : p = []
      · simp [at?, hroot]
      · exact at?_put_self d .directory hroot
  · rw [at?_put_of_ne d .directory hpq, h]

/-- A path that leads to something still leads there. -/
theorem lookUp_put_directory (hq : d.isFile q = false) {x : Place × Entry} (h : d.lookUp path = .ok x) :
    (d.put q .directory).lookUp path = .ok x := by
  simp only [lookUp, locate] at h ⊢
  cases hr : refuse? path with
  | some e =>
    rw [hr] at h
    cases h
  | none =>
    simp only [hr] at h ⊢
    cases hf : d.follow (d.start path) (namesOf path) with
    | error e =>
      rw [hf] at h
      cases h
    | ok p =>
      have hf' : (d.put q .directory).follow (d.start path) (namesOf path) = .ok p :=
        follow_of_directories (fun _ => at?_put_directory hq) hf
      have hstart : (d.put q .directory).start path = d.start path := rfl
      rw [hf] at h
      rw [hstart, hf']
      simp only [bind, Except.bind] at h ⊢
      cases he : d.at? p with
      | none =>
        rw [he] at h
        cases h
      | some e =>
        rw [he] at h
        rw [at?_put_directory hq he]
        exact h

end Disk

namespace Discovery

open LintInference.Configuration

variable {d : Disk} {path : String} {start : Place} {e : Entry}

/-- The file is looked for from the place that the path leads to. -/
theorem discover_eq (h : d.lookUp path = .ok (start, e)) :
    discover d path = .ok ((upwards? d.isFile start.reverse).map Disk.pathOf) := by
  rw [discover, find?, h]
  rfl

/-- Whatever the files are and wherever the search starts, it finds the nearest configuration file, and nothing if there
is none. On a disk it starts from the place that the path leads to, and a directory that is put where no file was changes
nothing, whatever its name. -/
theorem discover_nearest (start : Place) :
    (∀ isFile found, upwards? isFile start.reverse = found ↔ Finds isFile start found) ∧
      ∀ d path e, d.lookUp path = .ok (start, e) →
        (∃ found, Finds d.isFile start found ∧ discover d path = .ok (found.map Disk.pathOf)) ∧
          ∀ q, d.isFile q = false → discover (d.put q .directory) path = discover d path := by
  refine ⟨fun isFile found => upwards?_eq_iff, fun d path e h => ⟨?_, fun q hq => ?_⟩⟩
  · exact ⟨_, upwards?_eq_iff.1 rfl, discover_eq h⟩
  · rw [discover_eq h, discover_eq (Disk.lookUp_put_directory hq h), Disk.isFile_put_directory hq]

/-- The directory below has entries with the names of configuration files, and none of them is a file; two names are
those of files in the directory above. -/
theorem discover_nearest_above :
    let d : Disk := {
      entries := [(["w"], .directory), (["w", "src"], .directory), (["w", "src", "kata.yaml"], .directory),
        (["w", "kata.json"], .file [] false), (["w", ".katarc.toml"], .file [] false), (["kata.yml"], .file [] false)]
      workingDirectory := ["w"] }
    let q : Place := ["w", "src", ".katarc.json"]
    d.lookUp "src" = .ok (["w", "src"], .directory) ∧ d.isFile q = false ∧
      Finds d.isFile ["w", "src"] (some ["w", ".katarc.toml"]) ∧ discover d "src" = .ok (some "/w/.katarc.toml") ∧
        discover (d.put q .directory) "src" = .ok (some "/w/.katarc.toml") := by
  intro d q
  have hlook : d.lookUp "src" = .ok (["w", "src"], .directory) := by
    rw [Disk.lookUp, Disk.locate_of_isName (by decide)]
    rfl
  obtain ⟨hfinds, hdisk⟩ := discover_nearest ["w", "src"]
  obtain ⟨⟨found, hfound, hdiscover⟩, hput⟩ := hdisk d "src" .directory hlook
  have hup : upwards? d.isFile ["src", "w"] = some ["w", ".katarc.toml"] := by decide
  obtain rfl : found = some ["w", ".katarc.toml"] := ((hfinds d.isFile found).2 hfound).symm.trans hup
  have hpath : discover d "src" = .ok (some "/w/.katarc.toml") := hdiscover.trans rfl
  exact ⟨hlook, rfl, hfound, hpath, (hput q rfl).trans hpath⟩

end Discovery

end LintInference
