import LintInference.Command.Arguments
import LintInference.Configuration.Loading
import LintInference.Configuration.Merge

/-!
# Requests

What a command line asks for. The flags of an inference are a layer of configuration of their own: laid over the
configuration that was loaded, they settle what the run uses (`InferRequest.configuration`, `InferRequest.selection`).
-/

namespace LintInference.Command

/-- An inference. -/
structure InferRequest where
  /-- The file with the sample. -/
  file : String
  output : Option String := none
  /-- May a file be replaced? -/
  force : Bool := false
  schemas : Option String := none
  skip : List String := []
  only : List String := []
  /-- Is the outcome only printed? -/
  toStdout : Bool := false
  deriving DecidableEq, Repr

/-- What is to be done. -/
inductive Action where
  | infer (request : InferRequest)
  | probe (file : String)
  | candidates (rule : String) (schemas : Option String)
  | rules (schemas : Option String)
  | create (format : Configuration.Format) (force : Bool)
  | display
  | describe
  | version (detailed : Bool)
  | completion (shell : String)
  | usage
  deriving DecidableEq, Repr

/-- What a command line asks for. -/
structure Request where
  configuration : Option String := none
  plain : Bool := false
  action : Action
  deriving DecidableEq, Repr

/-! ## Settings of a run -/

/-- The configuration, with another file of schemas if one is given. -/
def withSchemas (c : Configuration) (schemas : Option String) : Configuration :=
  match schemas with
  | some path => Configuration.merge { linter := some { schemas := some path } } c
  | none => c

namespace InferRequest

/-- What the flags say about the output, as a configuration. -/
def layer (r : InferRequest) : Configuration :=
  { output := some { path := r.output, overwrite := if r.force then some true else none } }

/-- The configuration of the run. -/
def configuration (r : InferRequest) (c : Configuration) : Configuration :=
  withSchemas (r.layer.merge c) r.schemas

/-- The rules that take part in the run. -/
def selection (r : InferRequest) (c : Configuration) : Selection :=
  let s := (r.configuration c).selectionSettings
  ⟨union s.skip r.skip, if r.only.isEmpty then s.only else some r.only⟩

end InferRequest

/-! ## Command lines -/

/-- The options that every command has. -/
def commonOptions : List OptionRule :=
  [⟨"config", some 'c', .single .path⟩, ⟨"verbose", some 'v', .counter⟩, ⟨"no-color", none, .flag⟩,
    ⟨"help", some 'h', .help⟩]

/-- The option for a file of schemas. -/
def schemasOption : OptionRule := ⟨"schemas", none, .single .path⟩

/-- A command without others below it. -/
def leaf (names : List String) (options : List OptionRule) (operand : Option (String × ValueForm)) : Level :=
  .mk names (options ++ commonOptions) operand [] true

/-- The formats of new configuration files, by name. -/
def formats : List (String × Configuration.Format) := [("json", .json), ("toml", .toml), ("yaml", .yaml)]

/-- The commands on configuration files. -/
def configLevel : Level :=
  .mk ["config"] commonOptions none
    [leaf ["init"] [⟨"format", none, .single (.word (formats.map (·.1)))⟩, ⟨"force", none, .flag⟩] none,
      leaf ["show"] [] none, leaf ["schema"] [] none]
    false

/-- The shells that completions can be made for. -/
def completionShells : List String := ["bash", "elvish", "fish", "powershell", "zsh"]

/-- All commands. -/
def root : Level :=
  .mk ["kata"]
    (commonOptions ++
      [⟨"version", some 'V', .version⟩, ⟨"generate-completion", none, .single (.word completionShells)⟩])
    none
    [leaf ["infer"]
        [⟨"output", some 'o', .single .path⟩, ⟨"force", none, .flag⟩, schemasOption,
          ⟨"skip-rule", none, .many .text⟩, ⟨"rule", none, .many .text⟩, ⟨"stdout", none, .flag⟩]
        (some ("file", .path)),
      leaf ["probe"] [] (some ("file", .path)),
      leaf ["candidates"] [schemasOption] (some ("name", .text)),
      leaf ["rules"] [schemasOption] none,
      configLevel,
      leaf ["version", "ver"] [⟨"detailed", none, .flag⟩] none]
    true

/-- The action that was asked for. -/
def Action.ofGiven (g : Given) : Action :=
  match g.path with
  | ["infer"] =>
    .infer
      { file := (g.value? "file").getD "", output := g.value? "output", force := g.has "force",
        schemas := g.value? "schemas", skip := g.all "skip-rule", only := g.all "rule", toStdout := g.has "stdout" }
  | ["probe"] => .probe ((g.value? "file").getD "")
  | ["candidates"] => .candidates ((g.value? "name").getD "") (g.value? "schemas")
  | ["rules"] => .rules (g.value? "schemas")
  | ["config", "init"] => .create (((g.value? "format").bind fun f => formats.lookup f).getD .json) (g.has "force")
  | ["config", "show"] => .display
  | ["config", "schema"] => .describe
  | ["version"] => .version (g.has "detailed")
  | _ => .usage

/-- Reads a command line. -/
def Request.ofArguments (arguments : List String) : Except Stop Request := do
  let g ← Given.ofArguments root arguments
  let action :=
    match g.value? "generate-completion" with
    | some shell => .completion shell
    | none => Action.ofGiven g
  return { configuration := g.value? "config", plain := g.has "no-color", action }

end LintInference.Command
