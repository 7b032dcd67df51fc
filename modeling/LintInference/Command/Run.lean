import LintInference.Command.Reply
import LintInference.Command.Request
import LintInference.Configuration.Description
import LintInference.Linter.External

/-!
# Carrying out commands

A command starts from a disk and leaves one behind, together with its reply or with what went wrong. The host runs the
programs that a command needs.

An inference looks at its output path before it does anything else, and writes only at the end: a file that is there
stays as it is, unless it may be replaced. Where there is too little space for the outcome, the file is left with the
first part of it. Help and completions are written by the library that reads the arguments; their texts are left out.
-/

namespace LintInference.Command

/-- A command under way: it may change the disk, and it may fail. -/
abbrev Task (α : Type) := Disk → Except Trouble α × Disk

namespace Task

variable {α β : Type}

/-- Runs one and then, if it does not fail, the other. -/
def andThen (m : Task α) (f : α → Task β) : Task β := fun d =>
  match m d with
  | (.ok a, d) => f a d
  | (.error e, d) => (.error e, d)

/-- What the disk says; the disk stays as it is. -/
def look (f : Disk → Except Trouble α) : Task α := fun d => (f d, d)

end Task

/-! ## Parts of commands -/

/-- Loads the configuration. -/
def loadConfiguration (path : Option String) : Task Configuration :=
  .look fun d => (Configuration.load d path none).mapError (.failed none)

/-- Reads the sample. -/
def readSample (path : String) : Task String := .look fun d => (d.readText path).mapError (.unreadable path)

/-- Loads the registry from the file that the configuration names, or else from where the linter is installed. -/
def loadRegistry (host : Host) (c : Configuration) : Task Registry := fun d =>
  match c.schemasPath? with
  | some path =>
    ((Registry.ofFile d path).mapError (.failed (some ("Failed to load rule schemas from '" ++ path ++ "'"))), d)
  | none =>
    let settings := c.linterSettings
    let (registry, d) := Registry.ofInstallation host settings.node settings.workingDirectory d
    (registry.mapError
      (.failed (some "Failed to read rule schemas from ESLint (is eslint installed locally?)")), d)

/-- Runs an engine with the linter of the configuration. -/
def withLinter {α : Type} (attempt : String) (engine : Engine Disk α) : Task α := fun d =>
  let (result, session) := engine { options := .initial, state := d }
  (result.mapError (.failed (some attempt)), session.state)

/-- The linter of a configuration. -/
def linterOf (host : Host) (c : Configuration) : Linter Disk := Linter.external host c.linterSettings

/-- Writes the outcome, if nothing stands in the way. Once the file is open there may be no space for all of it. -/
def writeOutcome (path : String) (overwrite : Bool) (i : Inferred) : Task Reply := fun d =>
  let content := Text.toBytes i.pretty
  match d.write path (d.held content) (!overwrite) with
  | .ok d' => (if d.holds content then .ok (.written path i) else .error (.unwritable path .noSpace), d')
  | .error .alreadyExists => (.ok (.present path), d)
  | .error e => (.error (.uncreatable path e), d)

/-! ## Commands -/

/-- Infers a configuration from a sample. -/
def infer (host : Host) (path : Option String) (r : InferRequest) : Task Reply :=
  Task.andThen (loadConfiguration path) fun loaded d =>
    let c := r.configuration loaded
    if !r.toStdout && !c.overwrite && d.has c.outputPath then (.ok (.present c.outputPath), d)
    else
      Task.andThen (readSample r.file) (fun sample =>
        Task.andThen (loadRegistry host c) fun registry =>
          Task.andThen
            (withLinter "Inference failed" (Inference.run (linterOf host c) registry (r.selection loaded) sample))
            fun i => if r.toStdout then fun d => (.ok (.inferred i), d) else writeOutcome c.outputPath c.overwrite i) d

/-- Finds the grammar of a sample. -/
def probe (host : Host) (path : Option String) (file : String) : Task Reply :=
  Task.andThen (loadConfiguration path) fun c =>
    Task.andThen (readSample file) fun sample =>
      Task.andThen (withLinter "Probing failed" (Inference.probe (linterOf host c) sample)) fun g d =>
        (.ok (.grammar g), d)

/-- The candidates of a rule. -/
def candidatesOf (registry : Registry) (rule : String) : Except Trouble (List Candidate) := do
  let schema ← (registry.schema rule).mapError (.failed none)
  schema.candidates.mapError (.failed (some ("Failed to enumerate candidates for '" ++ rule ++ "'")))

/-- Lists the candidates of a rule. -/
def candidates (host : Host) (path : Option String) (rule : String) (schemas : Option String) : Task Reply :=
  Task.andThen (loadConfiguration path) fun c =>
    Task.andThen (loadRegistry host (withSchemas c schemas)) fun registry d =>
      ((candidatesOf registry rule).map (.candidates rule), d)

/-- The rules of a registry in order, with what a selection makes of them. -/
def rowsOf (registry : Registry) (selection : Selection) : List Row :=
  registry.names.map fun rule =>
    let found := do
      let schema ← registry.schema rule
      let cs ← schema.candidates
      return cs.length
    ⟨rule, Failure.goOn found, !selection.includes rule⟩

/-- Lists all rules. -/
def rules (host : Host) (path : Option String) (schemas : Option String) : Task Reply :=
  Task.andThen (loadConfiguration path) fun c =>
    let c := withSchemas c schemas
    Task.andThen (loadRegistry host c) fun registry d => (.ok (.listing (rowsOf registry c.selectionSettings)), d)

/-- The name and the content of a new configuration file. -/
def templateFile : Configuration.Format → String × String
  | .json => (".katarc.json", Configuration.templateJson)
  | .toml => (".katarc.toml", Configuration.templateToml)
  | .yaml => ("kata.yaml", Configuration.templateYaml)

/-- Makes a configuration file. -/
def create (format : Configuration.Format) (force : Bool) : Task Reply := fun d =>
  let (path, text) := templateFile format
  let content := Text.toBytes text
  if d.has path && !force then (.error (.occupied path), d)
  else
    match d.write path (d.held content) false with
    | .ok d' => (if d.holds content then .ok (.created path) else .error (.unwritable path .noSpace), d')
    | .error e => (.error (.unwritable path e), d)

/-- Shows the configuration. -/
def display (path : Option String) : Task Reply :=
  Task.andThen (loadConfiguration path) fun c d => (.ok (.configuration c), d)

/-- The version of the program. -/
def versionText : String := "0.1.0"

/-- What is said about the version. -/
def versionLines (detailed : Bool) : List String :=
  if detailed then
    ["kata " ++ versionText, "Build information:", "  Target: x86_64", "  OS: linux"]
  else [versionText]

/-- Carries out a request. What a library says about usage, and its completions for a shell, are left out. -/
def perform (host : Host) (r : Request) : Task Reply :=
  match r.action with
  | .infer request => infer host r.configuration request
  | .probe file => probe host r.configuration file
  | .candidates rule schemas => candidates host r.configuration rule schemas
  | .rules schemas => rules host r.configuration schemas
  | .create format force => create format force
  | .display => display r.configuration
  | .describe => fun d => (.ok (.lines [Configuration.description.pretty]), d)
  | .version detailed => fun d => (.ok (.lines (versionLines detailed)), d)
  | .completion _ => fun d => (.ok (.lines []), d)
  | .usage => fun d => (.ok (.lines []), d)

/-! ## The program -/

/-- What the program leaves behind. The number of milliseconds is that of the run. -/
structure Answer where
  code : Nat
  output : Nat → String := fun _ => ""
  errors : String := ""
  disk : Disk

/-- Runs the program with its arguments; `colourless` says that the environment wants no colours. -/
def run (host : Host) (colourless : Bool) (arguments : List String) (d : Disk) : Answer :=
  match Request.ofArguments arguments with
  | .error .usage => { code := 2, disk := d }
  | .error .help => { code := 0, disk := d }
  | .error .version => { code := 0, output := fun _ => Reply.lay ["kata " ++ versionText], disk := d }
  | .ok request =>
    let style : Style := ⟨request.plain || colourless⟩
    match perform host request d with
    | (.ok reply, d) =>
      { code := 0, output := fun elapsed => reply.output style elapsed, errors := reply.errors style, disk := d }
    | (.error trouble, d) =>
      { code := 1, errors := Reply.lay [style.alarm "error:" ++ " " ++ trouble.message], disk := d }

end LintInference.Command
