import LintInference.Disk
import Mathlib.Data.String.Basic

/-!
# What changes of a disk leave alone

A change spares the files if each of them is there afterwards with what it held (`Disk.Spared`); new files may have come.
A new entry where no file is spares them, and so does taking it away again. Writing is a single entry at the place that
the path leads to (`Disk.write_eq_ok`): it spares the files if it has to be a new one, and what was written is what is
read afterwards (`Disk.read_of_write`).

A path that is a single name is followed from the working directory (`Disk.locate_of_isName`).
-/

namespace LintInference.Disk

variable {d d' : Disk} {p q : Place} {path : String} {content : Bytes}

/-- The content of the file at a place. -/
def contentAt? (d : Disk) (p : Place) : Option Bytes :=
  match d.at? p with
  | some (.file content _) => some content
  | _ => none

theorem contentAt?_congr (h : d.at? p = d'.at? q) : d.contentAt? p = d'.contentAt? q := by
  rw [contentAt?, contentAt?, h]

theorem contentAt?_eq_none (h : d.at? p = none) : d.contentAt? p = none := by
  rw [contentAt?, h]

/-- Every file of the first disk is on the second, with what it held. -/
def Spared (before after : Disk) : Prop :=
  ∀ p content, before.contentAt? p = some content → after.contentAt? p = some content

theorem Spared.refl (d : Disk) : Spared d d := fun _ _ h => h

theorem Spared.trans {d'' : Disk} (h : Spared d d') (h' : Spared d' d'') : Spared d d'' :=
  fun p content hp => h' p content (h p content hp)

/-- An entry is put where there is no file. -/
theorem spared_put (h : d.contentAt? p = none) (e : Entry) : Spared d (d.put p e) := by
  intro q content hq
  have hne : q ≠ p := by
    rintro rfl
    rw [h] at hq
    cases hq
  rwa [contentAt?_congr (at?_put_of_ne d e hne)]

theorem find?_filter_ne (es : List (Place × Entry)) (h : q ≠ p) : find? (es.filter (·.1 ≠ p)) q = find? es q := by
  induction es with
  | nil => rfl
  | cons x es ih =>
    by_cases hx : x.1 = p
    · have hxq : x.1 ≠ q := fun hxq => h (hxq.symm.trans hx)
      rw [List.filter_cons_of_neg (by simpa using hx), ih, find?, if_neg hxq]
    · rw [List.filter_cons_of_pos (by simpa using hx), find?, find?, ih]

theorem at?_erase_of_ne (d : Disk) (h : q ≠ p) : (d.erase p).at? q = d.at? q := by
  rw [at?, at?, erase, find?_filter_ne _ h]

/-- What is taken away was no file at first. -/
theorem Spared.erase (h : Spared d d') (hp : d.contentAt? p = none) : Spared d (d'.erase p) := by
  intro q content hq
  have hne : q ≠ p := by
    rintro rfl
    rw [hp] at hq
    cases hq
  rw [contentAt?_congr (at?_erase_of_ne d' hne)]
  exact h q content hq

/-! ## Writing -/

/-- Where all directories of one disk are directories of another, names lead to the same place. -/
theorem follow_of_directories (h : ∀ q, d.at? q = some .directory → d'.at? q = some .directory) {names : List String} :
    ∀ {q : Place}, d.follow q names = .ok p → d'.follow q names = .ok p := by
  induction names with
  | nil => exact id
  | cons name names ih =>
    intro q hf
    rw [follow] at hf ⊢
    cases hq : d.at? q with
    | none =>
      rw [hq] at hf
      cases hf
    | some e =>
      rw [hq] at hf
      cases e with
      | file _ _ => cases hf
      | directory =>
        rw [h q hq]
        exact ih hf

/-- A path leads to the same place after an entry was put there, unless it was a directory. -/
theorem locate_put (h : d.locate path = .ok p) (hp : d.at? p ≠ some .directory) (e : Entry) :
    (d.put p e).locate path = .ok p := by
  rw [locate] at h ⊢
  cases hr : refuse? path with
  | some e =>
    rw [hr] at h
    cases h
  | none =>
    rw [hr] at h
    refine follow_of_directories (d := d) (fun q hq => ?_) h
    have hne : q ≠ p := by
      rintro rfl
      exact hp hq
    rw [at?_put_of_ne d e hne, hq]

/-- A file is written at the place that the path leads to, where there was nothing, or a file that may be replaced. -/
theorem write_eq_ok {onlyNew : Bool} (h : d.write path content onlyNew = .ok d') : ∃ p executable,
    d.locate path = .ok p ∧ wantsDirectory path = false ∧ d' = d.put p (.file content executable) ∧
      (d.at? p = none ∨ onlyNew = false ∧ ∃ old, d.at? p = some (.file old executable)) := by
  rw [write] at h
  cases hp : d.locate path with
  | error e =>
    rw [hp] at h
    cases h
  | ok p =>
    simp only [hp, bind, Except.bind] at h
    cases ha : d.at? p with
    | none =>
      simp only [ha] at h
      split at h
      next => cases h
      next hw =>
        cases h
        exact ⟨p, false, rfl, by simpa using hw, rfl, .inl ha⟩
    | some e =>
      simp only [ha] at h
      split at h
      next => cases h
      next hnew =>
        cases e with
        | directory => cases h
        | file old executable =>
          simp only at h
          split at h
          next => cases h
          next hw =>
            cases h
            exact ⟨p, executable, rfl, by simpa using hw, rfl, .inr ⟨by simpa using hnew, old, ha⟩⟩

theorem held_eq_self (h : d.holds content = true) : d.held content = content := by
  rw [holds] at h
  rw [held]
  cases hs : d.space with
  | none => rfl
  | some n =>
    rw [hs] at h
    exact List.take_of_length_le (by simpa using h)

/-- Writing leaves alone what is not at the end of the path. -/
theorem contentAt?_of_write {onlyNew : Bool} (h : d.write path content onlyNew = .ok d') :
    ∃ p, d.locate path = .ok p ∧ ∀ q, q ≠ p → d'.contentAt? q = d.contentAt? q := by
  obtain ⟨p, executable, hp, _, rfl, _⟩ := write_eq_ok h
  exact ⟨p, hp, fun q hq => contentAt?_congr (at?_put_of_ne d _ hq)⟩

/-- A new file takes the place of no other. -/
theorem spared_of_write (h : d.write path content true = .ok d') : Spared d d' := by
  obtain ⟨p, executable, _, _, rfl, hnone | ⟨hnew, _⟩⟩ := write_eq_ok h
  · exact spared_put (contentAt?_eq_none hnone) _
  · cases hnew

/-- What was written is read. -/
theorem read_of_write {onlyNew : Bool} (h : d.write path content onlyNew = .ok d') : d'.read path = .ok content := by
  obtain ⟨p, executable, hp, hw, rfl, hentry⟩ := write_eq_ok h
  have hdirectory : d.at? p ≠ some .directory := by
    rintro hd
    rcases hentry with hnone | ⟨_, old, hfile⟩
    · rw [hd] at hnone
      cases hnone
    · rw [hd] at hfile
      cases hfile
  have hroot : p ≠ [] := fun hr => hdirectory (if_pos hr)
  have hlook : (d.put p (.file content executable)).lookUp path = .ok (p, .file content executable) := by
    simp only [lookUp, locate_put hp hdirectory, bind, Except.bind, at?_put_self d _ hroot, hw]
    rfl
  rw [read, hlook]

/-! ## Single names -/

/-- Splitting goes past the characters that are no slash. -/
theorem splitOnAux_of_notMem (m : List Char) {r : List Char} (h : '/' ∉ r) :
    String.splitOnAux (.ofList (m ++ r)) "/" 0 ⟨String.utf8Len m⟩ 0 [] = [.ofList (m ++ r)] := by
  induction r generalizing m with
  | nil =>
    have hend : String.Pos.Raw.atEnd (.ofList (m ++ [])) ⟨String.utf8Len m⟩ = true :=
      (String.atEnd_of_valid m []).2 rfl
    rw [String.splitOnAux]
    simp only [hend, if_true]
    simpa using String.extract_of_valid [] m []
  | cons c r ih =>
    have hc : c ≠ '/' := fun hc => h (hc ▸ List.mem_cons_self)
    have hr : '/' ∉ r := fun hr => h (List.mem_cons_of_mem c hr)
    have hend : String.Pos.Raw.atEnd (.ofList (m ++ c :: r)) ⟨String.utf8Len m⟩ = false := by
      rw [← Bool.not_eq_true, String.atEnd_of_valid]
      exact nofun
    have hne : (c == String.Pos.Raw.get "/" 0) = false := beq_false_of_ne hc
    have hstep := ih (m ++ [c]) hr
    rw [List.append_assoc, List.singleton_append, String.utf8Len_append, String.utf8Len_cons, String.utf8Len_nil,
      Nat.zero_add] at hstep
    rw [String.splitOnAux]
    simp only [hend, String.get_of_valid, List.headD_cons, hne]
    refine Eq.trans ?_ hstep
    exact congrArg (fun i => String.splitOnAux _ "/" 0 i 0 []) (String.next_of_valid m c r)

theorem splitOn_of_notMem (h : '/' ∉ path.toList) : path.splitOn "/" = [path] := by
  have hsplit := splitOnAux_of_notMem [] h
  rwa [List.nil_append, String.ofList_toList] at hsplit

/-- The path is a single name. -/
structure IsName (path : String) : Prop where
  nonempty : path ≠ ""
  single : '/' ∉ path.toList
  spelled : '\x00' ∉ path.toList
  short : path.utf8ByteSize ≤ 255

instance (path : String) : Decidable (IsName path) :=
  decidable_of_iff (path ≠ "" ∧ '/' ∉ path.toList ∧ '\x00' ∉ path.toList ∧ path.utf8ByteSize ≤ 255)
    ⟨fun ⟨nonempty, single, spelled, short⟩ => ⟨nonempty, single, spelled, short⟩, fun h => ⟨h.1, h.2, h.3, h.4⟩⟩

theorem locate_of_isName (h : IsName path) : d.locate path = d.follow d.workingDirectory [path] := by
  have hsplit := splitOn_of_notMem h.single
  have hrefuse : refuse? path = none := by
    have hlong : ¬ 4095 < path.utf8ByteSize := by
      have hshort := h.short
      omega
    simp [refuse?, hsplit, h.nonempty, h.spelled, h.short, hlong]
  have hnames : namesOf path = [path] := by simp [namesOf, hsplit, h.nonempty]
  have hstart : d.start path = d.workingDirectory := if_neg fun hhead => h.single (List.mem_of_mem_head? hhead)
  rw [locate, hrefuse, hnames, hstart]

/-- A file under a single name in the working directory is read. -/
theorem read_of_isName (h : IsName path) (hself : path ≠ ".") (habove : path ≠ "..")
    (hd : d.at? d.workingDirectory = some .directory) (hp : d.contentAt? (d.workingDirectory ++ [path]) = some content) :
    d.read path = .ok content := by
  have hlocate : d.locate path = .ok (d.workingDirectory ++ [path]) := by
    rw [locate_of_isName h, follow, hd]
    simp [hself, habove, follow]
  have hwants : wantsDirectory path = false := by
    have hlast : path.toList.getLast? ≠ some '/' := fun hlast => h.single (List.mem_of_getLast? hlast)
    have hnames : namesOf path = [path] := by simp [namesOf, splitOn_of_notMem h.single, h.nonempty]
    rw [wantsDirectory, hnames]
    simp [hself, habove]
  rw [contentAt?] at hp
  split at hp
  next hat =>
    cases hp
    simp [read, lookUp, hlocate, hat, hwants, bind, Except.bind]
  next => cases hp

end LintInference.Disk
