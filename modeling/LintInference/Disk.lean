import LintInference.Failure
import LintInference.Text.Utf8

/-!
# Files and directories

A disk says what stands at a place, and a place is the list of the names that lead to it from the root. A path is
followed from the working directory name by name: every name but the last has to be that of a directory, `..` leads back
to the directory above, and a path that ends in a slash wants a directory.

Where there is little space, a file takes only the first part of what is to be written.
-/

namespace LintInference

/-- Where something stands: the names from the root on. -/
abbrev Place := List String

/-- What stands at a place. -/
inductive Entry where
  | file (content : Bytes) (executable : Bool)
  | directory
  deriving DecidableEq, Repr

/-- Files and directories, and the directory that relative paths start at. -/
structure Disk where
  entries : List (Place × Entry) := []
  workingDirectory : Place := []
  /-- How many bytes there is space for, if it is little. -/
  space : Option Nat := none
  deriving DecidableEq, Repr

namespace Disk

/-- What the list has at a place. -/
def find? : List (Place × Entry) → Place → Option Entry
  | [], _ => none
  | (q, e) :: es, p => if q = p then some e else find? es p

/-- What stands at a place. The root is a directory. -/
def at? (d : Disk) (p : Place) : Option Entry := if p = [] then some .directory else find? d.entries p

/-- The list with an entry at a place, instead of what it has there. -/
def enter : List (Place × Entry) → Place → Entry → List (Place × Entry)
  | [], p, e => [(p, e)]
  | (q, f) :: es, p, e => if q = p then (p, e) :: es else (q, f) :: enter es p e

/-- Puts an entry at a place. -/
def put (d : Disk) (p : Place) (e : Entry) : Disk := { d with entries := enter d.entries p e }

/-- Takes away what stands at a place. -/
def erase (d : Disk) (p : Place) : Disk := { d with entries := d.entries.filter (·.1 ≠ p) }

theorem find?_enter_self (es : List (Place × Entry)) (p : Place) (e : Entry) : find? (enter es p e) p = some e := by
  induction es with
  | nil => simp [enter, find?]
  | cons x es ih => by_cases h : x.1 = p <;> simp [enter, find?, h, ih]

theorem find?_enter_of_ne (es : List (Place × Entry)) {p q : Place} (e : Entry) (h : q ≠ p) :
    find? (enter es p e) q = find? es q := by
  induction es with
  | nil => simp [enter, find?, h.symm]
  | cons x es ih =>
    by_cases hx : x.1 = p
    · subst hx
      simp [enter, find?, h.symm]
    · by_cases hq : x.1 = q
      · subst hq
        simp [enter, find?, h]
      · simp [enter, find?, hx, hq, ih]

theorem at?_put_self (d : Disk) {p : Place} (e : Entry) (h : p ≠ []) : (d.put p e).at? p = some e := by
  simp [at?, put, h, find?_enter_self]

theorem at?_put_of_ne (d : Disk) {p q : Place} (e : Entry) (h : q ≠ p) : (d.put p e).at? q = d.at? q := by
  simp [at?, put, find?_enter_of_ne _ _ h]

/-! ## Paths -/

/-- The directory above; that of the root is the root. -/
def above (p : Place) : Place := p.dropLast

/-- Why a text is no path. -/
def refuse? (path : String) : Option OsError :=
  if path.isEmpty then some .notFound
  else if path.toList.contains '\x00' then some (.other "file name contained an unexpected NUL byte")
  else if path.utf8ByteSize > 4095 || (path.splitOn "/").any (·.utf8ByteSize > 255) then
    some (.other "File name too long (os error 36)")
  else none

/-- The names on a path. -/
def namesOf (path : String) : List String := (path.splitOn "/").filter (· ≠ "")

/-- Does the path ask for a directory? -/
def wantsDirectory (path : String) : Bool :=
  match path.toList.getLast? with
  | some '/' => true
  | _ => match (namesOf path).getLast? with
    | some "." => true
    | some ".." => true
    | _ => false

/-- Where a path starts. -/
def start (d : Disk) (path : String) : Place :=
  if path.toList.head? = some '/' then [] else d.workingDirectory

/-- Follows names from a place. The last one need not be there. -/
def follow (d : Disk) : Place → List String → Except OsError Place
  | p, [] => .ok p
  | p, name :: names =>
    match d.at? p with
    | none => .error .notFound
    | some (.file _ _) => .error .notADirectory
    | some .directory => follow d (if name = "." then p else if name = ".." then above p else p ++ [name]) names

/-- The place that a path leads to. -/
def locate (d : Disk) (path : String) : Except OsError Place :=
  match refuse? path with
  | some e => .error e
  | none => d.follow (d.start path) (namesOf path)

/-- The place that a path leads to, and what stands there. -/
def lookUp (d : Disk) (path : String) : Except OsError (Place × Entry) := do
  let p ← d.locate path
  match d.at? p with
  | none => .error .notFound
  | some (.file content executable) =>
    if wantsDirectory path then .error .notADirectory else .ok (p, .file content executable)
  | some .directory => .ok (p, .directory)

/-- Is something there? -/
def has (d : Disk) (path : String) : Bool := (d.lookUp path).toBool

/-- Is a file at the place? -/
def isFile (d : Disk) (p : Place) : Bool :=
  match d.at? p with
  | some (.file _ _) => true
  | _ => false

/-- A place as an absolute path. -/
def pathOf (p : Place) : String := "/" ++ Text.joinWith "/" p

/-- The content of a file. -/
def read (d : Disk) (path : String) : Except OsError Bytes :=
  match d.lookUp path with
  | .error e => .error e
  | .ok (_, .directory) => .error .isADirectory
  | .ok (_, .file content _) => .ok content

/-- The text in a file. -/
def readText (d : Disk) (path : String) : Except OsError String := do
  match Text.ofBytes? (← d.read path) with
  | some text => .ok text
  | none => .error .notText

/-- Writes a file, instead of what it held. If it has to be a new file, there must be nothing at its path. -/
def write (d : Disk) (path : String) (content : Bytes) (onlyNew : Bool) : Except OsError Disk := do
  let p ← d.locate path
  match d.at? p with
  | none =>
    if wantsDirectory path then .error .isADirectory else .ok (d.put p (.file content false))
  | some e =>
    if onlyNew then .error (if wantsDirectory path then .isADirectory else .alreadyExists)
    else
      match e with
      | .directory => .error .isADirectory
      | .file _ executable =>
        if wantsDirectory path then .error .isADirectory else .ok (d.put p (.file content executable))

/-- Is there space for the content of a file? -/
def holds (d : Disk) (content : Bytes) : Bool := d.space.all fun n => content.length ≤ n

/-- As much of the content as there is space for. -/
def held (d : Disk) (content : Bytes) : Bytes := d.space.elim content fun n => content.take n

/-- The extension of the last name on a path: what follows its last dot, unless the dot begins the name. -/
def extension? (path : String) : Option String :=
  match (namesOf path).reverse.dropWhile (· = ".") with
  | [] => none
  | name :: _ =>
    if name = ".." then none
    else
      match (name.splitOn ".").reverse with
      | extension :: stem :: others => if others.isEmpty && stem.isEmpty then none else some extension
      | _ => none

/-- The names in a directory, in ascending order. -/
def namesIn (d : Disk) (p : Place) : List String :=
  ((d.entries.map (·.1)).filterMap fun q => if q ≠ [] && q.dropLast = p then q.getLast? else none).mergeSort
    fun a b => decide (a ≤ b)

/-- The disk with a directory at the place and at all places above it. -/
def addDirectory (d : Disk) (p : Place) : Disk :=
  (List.range p.length).foldl (fun d n =>
    let q := p.take (n + 1)
    if (d.at? q).isSome then d else d.put q .directory) d

/-- The disk with a file at the place, and the directories that it needs. -/
def addFile (d : Disk) (p : Place) (content : Bytes) (executable : Bool) : Disk :=
  (d.addDirectory (above p)).put p (.file content executable)

/-- The files that are there after a change and were not there, or not so, before it. -/
def changes (before after : Disk) : List (Place × Bytes) :=
  after.entries.filterMap fun (p, e) =>
    match e with
    | .directory => none
    | .file content _ =>
      match before.at? p with
      | some (.file old _) => if old = content then none else some (p, content)
      | _ => some (p, content)

end Disk

end LintInference
