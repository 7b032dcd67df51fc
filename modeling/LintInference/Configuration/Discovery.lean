import LintInference.Disk

/-!
# Finding the configuration file

The file is looked for in a directory and in those above it, up to the root. The nearest directory that has a file with
one of the names counts, and in it the file whose name comes first in the list. What is no file is passed over.
-/

namespace LintInference.Discovery

/-- The names that a configuration file can have, the most important one first. -/
def names : List String := [".katarc.json", ".katarc.toml", "kata.yaml", "kata.yml", "kata.json"]

/-- The configuration file in a directory. -/
def inDirectory? (isFile : Place → Bool) (directory : Place) : Option Place :=
  (names.map fun name => directory ++ [name]).find? isFile

/-- The configuration file for a directory, given by its names from the innermost on. -/
def upwards? (isFile : Place → Bool) : List String → Option Place
  | [] => inDirectory? isFile []
  | name :: names => (inDirectory? isFile (name :: names).reverse).or (upwards? isFile names)

/-- The configuration file for the directory that a path leads to. -/
def find? (d : Disk) (path : String) : Except OsError (Option Place) := do
  let (directory, _) ← d.lookUp path
  return upwards? d.isFile directory.reverse

end LintInference.Discovery
