import LintInference.Host
import LintInference.Shell.Evaluation

/-!
# A host with a shell

This host runs shells, the tools of scripts, and files that one of them interprets, all on a `Disk`.
-/

namespace LintInference.Shell

/-- The place of the directory that a program runs in. -/
def enter (d : Disk) : Option String → Except OsError Place
  | none => .ok d.workingDirectory
  | some path =>
    match d.lookUp path with
    | .ok (place, .directory) => .ok place
    | .ok (_, .file _ _) => .error .notADirectory
    | .error e => .error e

/-- May the texts be handed to a program? -/
def passable (i : Invocation) : Bool :=
  (i.program :: i.arguments ++ i.directory.toList).all fun t => !t.toList.contains '\x00'

/-- The host; programs see the variables of `environment` and those of their invocation. -/
def host (environment : Entries String) : Host := fun i d =>
  let started : Except OsError (Disk × Program) := do
    if !passable i then throw (.other "nul byte found in provided data")
    let place ← enter d i.directory
    let inside := { d with workingDirectory := place }
    let program ← Program.find inside i.program (i.arguments.map Raw.ofString)
    return (inside, program)
  match started with
  | .error e => (.error e, d)
  | .ok (inside, program) =>
    let bindings := Entries.mapValues Raw.ofString (Entries.ofList (environment ++ i.environment))
    let o := runProgram patience program
      { disk := inside, input := Raw.ofBytes i.input, bindings, exported := bindings.keys }
    let execution : Execution :=
      { ending := if o.killed then .signal else .status o.status, output := Raw.toBytes o.output,
        errors := Raw.toBytes o.errors, unread := o.rest.length }
    (.ok execution, { o.disk with workingDirectory := d.workingDirectory })

end LintInference.Shell
