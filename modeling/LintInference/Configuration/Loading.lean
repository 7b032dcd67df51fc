import LintInference.Configuration.Discovery
import LintInference.Configuration.Toml
import LintInference.Configuration.Yaml

/-!
# Loading configurations

The extension of a file says how its configuration is written. A configuration is loaded from the file that is asked for
or, if none is, from the one that discovery finds; where it finds none, everything is left open.
-/

namespace LintInference.Configuration

/-- A way to write configurations. -/
inductive Format where
  | json
  | toml
  | yaml
  deriving DecidableEq, Repr

namespace Format

/-- The format that an extension stands for. -/
def ofExtension? : Option String → Option Format
  | some "json" => some .json
  | some "toml" => some .toml
  | some "yaml" => some .yaml
  | some "yml" => some .yaml
  | _ => none

end Format

/-- Reads a configuration written in a format. -/
def readAs (format : Format) (text : String) : Except Failure Configuration :=
  match format with
  | .json => (ofJsonText text).mapError fun e => .configuration ("invalid JSON: " ++ e.message)
  | .toml => (ofTomlText? text).elim (.error (.configuration "invalid TOML: ")) .ok
  | .yaml => (ofYamlText? text).elim (.error (.configuration "invalid YAML: ")) .ok

/-- Reads the configuration in a file. -/
def ofFile (d : Disk) (path : String) : Except Failure Configuration := do
  let text ← (d.readText path).mapError fun e => Failure.file path e
  match Format.ofExtension? (Disk.extension? path) with
  | some format => readAs format text
  | none => .error (.configuration "Unsupported file extension (expected .json, .toml, .yaml, or .yml)")

/-- Reads the configuration in a file; a failure says which file it is. -/
def loadFile (d : Disk) (path : String) : Except Failure Configuration :=
  (ofFile d path).mapError fun e =>
    .configuration ("Failed to load config from '" ++ path ++ "': " ++ e.message)

/-- The configuration file for the directory that a path leads to. -/
def discover (d : Disk) (start : String) : Except Failure (Option String) :=
  match Discovery.find? d start with
  | .ok found => .ok (found.map Disk.pathOf)
  | .error e => .error (.configuration ("Invalid path: " ++ e.message))

/-- Loads the configuration from the file asked for, or else from the one that is found for a directory. -/
def load (d : Disk) (path : Option String) (start : Option String) : Except Failure Configuration :=
  match path with
  | some path =>
    if d.has path then loadFile d path
    else
      .error (.configuration ("Config file not found: " ++ path ++ ". Run 'kata config init' to create one."))
  | none =>
    match discover d (start.getD ".") with
    | .ok (some found) => loadFile d found
    | .ok none => .ok {}
    | .error e => .error e

end LintInference.Configuration
