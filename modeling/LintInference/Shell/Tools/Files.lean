import LintInference.Shell.Tool

/-!
# Tools for files and their names
-/

namespace LintInference.Shell

/-! ## Names -/

/-- The last name on a path. -/
def lastName (path : Raw) : Raw :=
  let trimmed := (path.reverse.dropWhile (· = '/')).reverse
  if trimmed.isEmpty then if path.isEmpty then [] else ['/']
  else (trimmed.reverse.takeWhile (· ≠ '/')).reverse

/-- What is before the last name on a path. -/
def firstNames (path : Raw) : Raw :=
  let trimmed := (path.reverse.dropWhile (· = '/')).dropWhile (· ≠ '/')
  if path.contains '/' then
    let dir := (trimmed.dropWhile (· = '/')).reverse
    if dir.isEmpty then ['/'] else dir
  else ['.']

/-- Writes the last name on a path, without a suffix that it has. -/
def basename : Tool :=
  .withOptions "basename" {} fun a input disk =>
    match a.operands with
    | path :: rest =>
      let name := lastName path
      let suffix := rest.headD []
      let name := if suffix.isSuffixOf name && suffix ≠ name then name.take (name.length - suffix.length) else name
      { output := name ++ ['\n'], rest := input, disk }
    | [] => { errors := complaint "basename" ["missing operand".toList], status := 1, rest := input, disk }

/-- Writes the path without its last name. -/
def dirname : Tool :=
  .withOptions "dirname" {} fun a input disk =>
    match a.operands with
    | path :: _ => { output := firstNames path ++ ['\n'], rest := input, disk }
    | [] => { errors := complaint "dirname" ["missing operand".toList], status := 1, rest := input, disk }

/-- Writes the working directory. -/
def pwd : Tool :=
  .withOptions "pwd" { plain := "LP".toList } fun _ input disk =>
    { output := Raw.ofString (Disk.pathOf disk.workingDirectory) ++ ['\n'], rest := input, disk }

/-- The line of a name; the names of files with a dot in front are left out. -/
def visibleNames (names : List String) : List Raw :=
  (names.map Raw.ofString).filter fun name => name.head? ≠ some '.'

/-- Lists names. -/
def ls : Tool :=
  .withOptions "ls" { plain := "1a".toList, refused := 2 } fun a input disk =>
    let lines := fun (names : List Raw) => names.flatMap (· ++ ['\n'])
    if a.operands.isEmpty then
      { output := lines (visibleNames (disk.namesIn disk.workingDirectory)), rest := input, disk }
    else
      a.operands.foldl (fun o path =>
        match disk.lookUp (Raw.toString path) with
        | .ok (place, .directory) => { o with output := o.output ++ lines (visibleNames (disk.namesIn place)) }
        | .ok (_, .file _ _) => { o with output := o.output ++ lines [path] }
        | .error e =>
          { o with
            errors := o.errors ++ complaint "ls" ["cannot access ".toList ++ inQuotes path, reason e], status := 2 })
        { rest := input, disk }

/-! ## Changes -/

/-- Puts what a change of the disk gives in place; a failure is complained about. -/
def changeFiles (tool attempt : String) (change : Disk → String → Except OsError Disk) (names : List Raw) (input : Raw)
    (disk : Disk) : Outcome :=
  names.foldl (fun o name =>
    match change o.disk (Raw.toString name) with
    | .ok d => { o with disk := d }
    | .error e =>
      { o with errors := o.errors ++ complaint tool [attempt.toList ++ inQuotes name, reason e], status := 1 })
    { rest := input, disk }

/-- Makes files that are not there. -/
def touch : Tool :=
  .withOptions "touch" { plain := "ac".toList } fun a input disk =>
    changeFiles "touch" "cannot touch " (fun d p => if d.has p then .ok d else d.write p [] true) a.operands input disk

/-- The disk without what stands at a place and below it. -/
def eraseTree (d : Disk) (place : Place) : Disk :=
  { d with entries := d.entries.filter fun e => !place.isPrefixOf e.1 }

/-- Removes files; with `-f`, one that is not there is no failure. -/
def rm : Tool :=
  .withOptions "rm" { plain := "frR".toList } fun a input disk =>
    changeFiles "rm" "cannot remove " (fun d p =>
      match d.lookUp p with
      | .ok (place, .directory) => if a.has 'r' || a.has 'R' then .ok (eraseTree d place) else .error .isADirectory
      | .ok (place, .file _ _) => .ok (d.erase place)
      | .error e => if a.has 'f' then .ok d else .error e) a.operands input disk

/-- Makes directories; with `-p`, those above as well. -/
def mkdir : Tool :=
  .withOptions "mkdir" { plain := "p".toList } fun a input disk =>
    changeFiles "mkdir" "cannot create directory " (fun d p =>
      if a.has 'p' then .ok (d.addDirectory (d.start p ++ Disk.namesOf p))
      else
        match d.locate p with
        | .error e => .error e
        | .ok place => if (d.at? place).isSome then .error .alreadyExists else .ok (d.put place .directory))
      a.operands input disk

/-- The path that a file gets at its target: in a directory it keeps its name. -/
def targetPath (d : Disk) (source target : Raw) : Raw :=
  match d.lookUp (Raw.toString target) with
  | .ok (_, .directory) => target ++ '/' :: lastName source
  | _ => target

/-- Copies a file. -/
def copyFile (d : Disk) (source target : Raw) : Except OsError Disk :=
  match fileText d source with
  | .error e => .error e
  | .ok t => d.write (Raw.toString (targetPath d source target)) (Raw.toBytes t) false

/-- Runs a change of two files. -/
def twoFiles (tool : String) (change : Disk → Raw → Raw → Except OsError Disk) : Tool :=
  .withOptions tool { plain := "f".toList } fun a input disk =>
    match a.operands with
    | [source, target] =>
      match change disk source target with
      | .ok disk => { rest := input, disk }
      | .error e =>
        { errors := complaint tool ["cannot stat ".toList ++ inQuotes source, reason e], status := 1, rest := input
          disk }
    | _ => { errors := complaint tool ["missing file operand".toList], status := 1, rest := input, disk }

/-- Copies a file. -/
def cp : Tool := twoFiles "cp" copyFile

/-- Moves a file. -/
def mv : Tool :=
  twoFiles "mv" fun d source target => do
    let (place, _) ← d.lookUp (Raw.toString source)
    return (← copyFile d source target).erase place

/-- Writes its input to files and to its output. -/
def tee : Tool :=
  .withOptions "tee" { plain := "a".toList } fun a input disk =>
    { changeFiles "tee" "" (fun d p =>
        let old := if a.has 'a' then ((d.read p).toOption).getD [] else []
        d.write p (old ++ Raw.toBytes input) false) a.operands [] disk with output := input }

end LintInference.Shell
