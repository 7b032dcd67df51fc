import LintInference.Shell.State

/-!
# Programs by name

A name without a slash is that of a shell or of a tool. One with a slash is a path: shells and tools have their usual
ones, and any other has to lead to a file that may be run and whose first line names its interpreter. The program `env`
runs another one with variables of its own.
-/

namespace LintInference.Shell

/-- Something to run. -/
inductive Program where
  | tool (run : Tool) (arguments : List Raw)
  /-- A script; one without a text is read from the input. -/
  | script (text : Option Raw) (name : Raw) (parameters : List Raw) (strict : Bool)
  /-- A program with further variables. -/
  | within (bindings : Entries Raw) (program : Program)
  /-- Writes the variables. -/
  | listing

namespace Program

/-- The names of the shells. -/
def shells : List String := ["sh", "bash", "dash"]

/-- The directories that shells and tools are in. -/
def directories : List String := ["/bin/", "/usr/bin/", "/usr/local/bin/"]

/-- What a shell does with its arguments. -/
def shell (d : Disk) (name : Raw) : List Raw → Program
  | [] => .script none name [] false
  | option :: arguments =>
    let letters := option.drop 1
    let isOption := option.head? = some '-' && !letters.isEmpty
    if isOption && letters.contains 'c' then
      match arguments with
      | text :: own :: parameters => .script (some text) own parameters (letters.contains 'e')
      | [text] => .script (some text) name [] (letters.contains 'e')
      | [] =>
        .tool (fun _ input disk =>
          { errors := name ++ ": 0: -c requires an argument\n".toList, status := 2, rest := input, disk }) []
    else
      let (path, parameters) := if isOption then (arguments.head?, arguments.drop 1) else (some option, arguments)
      match path with
      | none => .script none name [] (letters.contains 'e')
      | some path =>
        match fileText d path with
        | .ok text => .script (some text) path parameters (isOption && letters.contains 'e')
        | .error _ =>
          .tool (fun _ input disk =>
            { errors := name ++ ": 0: cannot open ".toList ++ path ++ ": No such file\n".toList, status := 2,
              rest := input, disk }) []

/-- The shell or tool with a name. -/
def known? (d : Disk) (name : String) (arguments : List Raw) : Option Program :=
  if shells.contains name then some (shell d (Raw.ofString name) arguments)
  else (tools.lookup name).map fun t => .tool t arguments

/-- The shell or tool that a usual path names. -/
def usual? (d : Disk) (path : String) (arguments : List Raw) : Option Program :=
  (directories.find? fun dir => dir.isPrefixOf path).bind fun dir =>
    known? d (String.ofList (path.toList.drop dir.length)) arguments

/-- The words of the line that names an interpreter, if a text begins with one. -/
def interpreter? (text : Raw) : Option (List Raw) :=
  match text with
  | '#' :: '!' :: rest =>
    let line := (rest.takeWhile (· ≠ '\n')).dropWhile isSpace
    let path := line.takeWhile fun c => !isSpace c
    let argument := ((line.drop path.length).dropWhile isSpace).reverse.dropWhile isSpace |>.reverse
    some (path :: if argument.isEmpty then [] else [argument])
  | _ => none

/-- The program at a path, with its arguments. -/
def atPath (d : Disk) (path : String) (arguments : List Raw) : Except OsError Program := do
  match d.lookUp path with
  | .error e =>
    match usual? d path arguments with
    | some p => .ok p
    | none => .error e
  | .ok (_, .directory) => .error .permissionDenied
  | .ok (_, .file content executable) =>
    if !executable then .error .permissionDenied
    else
      match interpreter? (Raw.ofBytes content) with
      | none => .error .badExecutable
      | some words =>
        let own := Raw.ofString path
        let all := words ++ own :: arguments
        let interpreter := Raw.toString (all.headD [])
        let found :=
          if directories.any fun dir => interpreter = dir ++ "env" then
            (all.drop 1).head?.bind fun name => known? d (Raw.toString name) (all.drop 2)
          else usual? d interpreter (all.drop 1)
        match found with
        | some p => .ok p
        | none => .error .notFound

/-- The shell, tool or file with a name. -/
def named (d : Disk) (name : String) (arguments : List Raw) : Except OsError Program :=
  if name.toList.contains '/' then
    match Disk.refuse? name with
    | some e => .error e
    | none => atPath d name arguments
  else
    match known? d name arguments with
    | some p => .ok p
    | none => .error .notFound

/-- The program that `env` runs: assignments may stand before its name. -/
def ofEnv (d : Disk) (own : Entries Raw) : List Raw → Program
  | [] => .within own .listing
  | t :: ts =>
    match t.span (· ≠ '=') with
    | (name, _ :: value) => ofEnv d (Entries.put own (String.ofList name) value) ts
    | (_, []) =>
      match named d (Raw.toString t) ts with
      | .ok program => .within own program
      | .error e =>
        .tool (fun _ input disk =>
          { errors := complaint "env" [inQuotes t, reason e], status := if e = .notFound then 127 else 126,
            rest := input, disk }) []

/-- The program with a name. -/
def find (d : Disk) (name : String) (arguments : List Raw) : Except OsError Program :=
  if ["env", "/usr/bin/env", "/bin/env"].contains name then .ok (ofEnv d [] arguments) else named d name arguments

end Program

end LintInference.Shell
