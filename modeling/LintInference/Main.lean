import LintInference.Command.Run
import LintInference.Shell.Host

/-!
# The command line

Takes the files that a run may want into a `Disk`: those below the working directory, the configurations above it, and
those that the arguments name. Then the program runs, and the files that have changed are written. Other programs are
run by the shell of this library.
-/

namespace LintInference.Main

/-- How deep directories are looked into. -/
def depth : Nat := 16

/-- Adds a file, if it can be read. One that names its interpreter may be run. -/
def addFile (d : Disk) (place : Place) : IO Disk := do
  match ← (IO.FS.readBinFile (Disk.pathOf place)).toBaseIO with
  | .ok content =>
    let bytes := content.toList
    return d.addFile place bytes ((Shell.Program.interpreter? (Shell.Raw.ofBytes bytes)).isSome)
  | .error _ => return d

/-- Adds what stands at a place. -/
def addTree : Nat → Disk → Place → IO Disk
  | 0, d, _ => return d
  | n + 1, d, place => do
    match ← (do (← IO.FS.realPath (Disk.pathOf place)).readDir).toBaseIO with
    | .ok entries => entries.foldlM (fun d e => addTree n d (place ++ [e.fileName])) (d.addDirectory place)
    | .error _ => addFile d place

/-- The disk that a run may want. -/
def gather (home : Place) (arguments : List String) : IO Disk := do
  let start := ({ workingDirectory := home } : Disk).addDirectory home
  let above := (List.range home.length).flatMap fun n => Discovery.names.map fun name => home.take n ++ [name]
  let named := arguments.map fun a => start.start a ++ Disk.namesOf a
  let d ← addTree depth start home
  (above ++ named).foldlM (fun d place => if (d.at? place).isSome then return d else addFile d place) d

/-- Writes the files that have changed. -/
def store (before after : Disk) : IO Unit :=
  (Disk.changes before after).forM fun (place, content) =>
    IO.FS.writeBinFile (Disk.pathOf place) ⟨content.toArray⟩

end LintInference.Main

open LintInference in
/-- Runs the program. -/
def main (arguments : List String) : IO UInt32 := do
  let home := Disk.namesOf (toString (← IO.currentDir))
  let colourless := (← IO.getEnv "NO_COLOR").isSome
  let before ← Main.gather home arguments
  let begun ← IO.monoMsNow
  let answer ← IO.lazyPure fun _ => Command.run (Shell.host []) colourless arguments before
  Main.store before answer.disk
  let elapsed := (← IO.monoMsNow) - begun
  IO.print (answer.output elapsed)
  IO.eprint answer.errors
  return answer.code.toUInt32
