import LintInference.Command.Run
import LintInference.Proofs.Command.Settings
import LintInference.Proofs.Configuration.Layers

/-!
# What the flags settle

All that a command takes from its flags and from the configuration are its settings (`Command.Settings`). The flags get
there by layers that are mostly open, and those about rules by a change of what the layers settle. It comes to this: each
flag decides on a setting of its own, and every other setting is that of the configuration (`Command.flags_settle`).
-/

namespace LintInference.Command

/-- All that a command takes from its flags and from the configuration. -/
structure Settings where
  outputPath : String
  overwrite : Bool
  /-- The file with the schemas of the rules, if there is one. -/
  schemas : Option String
  selection : Selection
  linter : LinterSettings

/-- The settings of a configuration by itself. -/
def settingsOf (c : Configuration) : Settings :=
  ⟨c.outputPath, c.overwrite, c.schemasPath?, c.selectionSettings, c.linterSettings⟩

/-- The settings, with another file of schemas if one is given. -/
def Settings.withSchemas (s : Settings) (schemas : Option String) : Settings :=
  { s with schemas := schemas.or s.schemas }

/-- The settings of an inference, flag by flag. -/
def InferRequest.settings (r : InferRequest) (c : Configuration) : Settings where
  outputPath := r.output.getD c.outputPath
  overwrite := r.force || c.overwrite
  schemas := r.schemas.or c.schemasPath?
  selection :=
    { skip := c.selectionSettings.skip ++ (r.skip.filter (· ∉ c.selectionSettings.skip)).eraseDups
      only := if r.only = [] then c.selectionSettings.only else some r.only }
  linter := c.linterSettings

/-! ## Commands with their settings -/

section Under

variable (host : Host) (s : Settings)

/-- Loads the registry from the file of the settings, or else from where the linter is installed. -/
def registryUnder : Task Registry := fun d =>
  match s.schemas with
  | some path =>
    ((Registry.ofFile d path).mapError (.failed (some ("Failed to load rule schemas from '" ++ path ++ "'"))), d)
  | none =>
    let (registry, d) := Registry.ofInstallation host s.linter.node s.linter.workingDirectory d
    (registry.mapError
      (.failed (some "Failed to read rule schemas from ESLint (is eslint installed locally?)")), d)

/-- Infers a configuration from a sample. -/
def inferUnder (file : String) (toStdout : Bool) : Task Reply := fun d =>
  if !toStdout && !s.overwrite && d.has s.outputPath then (.ok (.present s.outputPath), d)
  else
    Task.andThen (readSample file) (fun sample =>
      Task.andThen (registryUnder host s) fun registry =>
        Task.andThen
          (withLinter "Inference failed" (Inference.run (Linter.external host s.linter) registry s.selection sample))
          fun i => if toStdout then fun d => (.ok (.inferred i), d) else writeOutcome s.outputPath s.overwrite i) d

/-- Lists the candidates of a rule. -/
def candidatesUnder (rule : String) : Task Reply :=
  Task.andThen (registryUnder host s) fun registry d => ((candidatesOf registry rule).map (.candidates rule), d)

/-- Lists all rules. -/
def rulesUnder : Task Reply :=
  Task.andThen (registryUnder host s) fun registry d => (.ok (.listing (rowsOf registry s.selection)), d)

end Under

/-! ## What the layers come to -/

variable (c : Configuration)

theorem settingsOf_withSchemas (schemas : Option String) :
    settingsOf (withSchemas c schemas) = (settingsOf c).withSchemas schemas := by
  rw [settingsOf, Configuration.outputPath, Configuration.overwrite, output_withSchemas, schemasPath?_withSchemas,
    selectionSettings_withSchemas, linterSettings_withSchemas]
  rfl

namespace InferRequest

variable (r : InferRequest)

theorem outputPath_configuration : (r.configuration c).outputPath = r.output.getD c.outputPath := by
  have hlayer : (r.configuration c).outputPath = (r.layer.merge c).outputPath := by
    rw [Configuration.outputPath, configuration, output_withSchemas, Configuration.outputPath]
  rw [hlayer]
  rcases c with ⟨_, _, _, _ | o⟩ <;> cases ho : r.output <;>
    simp [layer, Configuration.merge, mergeOption, OutputSection.merge, Configuration.outputPath, ho]

theorem schemasPath?_configuration : (r.configuration c).schemasPath? = r.schemas.or c.schemasPath? :=
  schemasPath?_withSchemas (r.layer.merge c) r.schemas

theorem linterSettings_configuration : (r.configuration c).linterSettings = c.linterSettings :=
  linterSettings_withSchemas (r.layer.merge c) r.schemas

theorem selection_eq : r.selection c = (r.settings c).selection := by
  rw [selection, selectionSettings_configuration, union_eq_append, settings]
  simp only [List.isEmpty_iff]

/-- The layers settle what the flags and the configuration say. -/
theorem settings_eq : { settingsOf (r.configuration c) with selection := r.selection c } = r.settings c := by
  rw [settingsOf, outputPath_configuration, overwrite_configuration, schemasPath?_configuration,
    linterSettings_configuration, selection_eq]
  rfl

end InferRequest

theorem infer_eq (host : Host) (path : Option String) (r : InferRequest) :
    infer host path r =
      Task.andThen (loadConfiguration path) fun c => inferUnder host (r.settings c) r.file r.toStdout := by
  refine congrArg (Task.andThen (loadConfiguration path)) (funext fun c => ?_)
  rw [← r.settings_eq]
  rfl

/-- Each flag decides on its own setting, and the commands take no more than their settings. -/
structure FlagsSettle (host : Host) : Prop where
  /-- The layers of an inference come to the settings that its flags say. -/
  inference : ∀ (r : InferRequest) (c : Configuration),
    { settingsOf (r.configuration c) with selection := r.selection c } = r.settings c
  /-- A file of schemas replaces that of the configuration, and nothing else. -/
  override : ∀ (c : Configuration) (schemas : Option String),
    settingsOf (withSchemas c schemas) = (settingsOf c).withSchemas schemas
  infer : ∀ (path : Option String) (r : InferRequest), infer host path r =
    Task.andThen (loadConfiguration path) fun c => inferUnder host (r.settings c) r.file r.toStdout
  candidates : ∀ (path : Option String) (rule : String) (schemas : Option String), candidates host path rule schemas =
    Task.andThen (loadConfiguration path) fun c => candidatesUnder host ((settingsOf c).withSchemas schemas) rule
  rules : ∀ (path : Option String) (schemas : Option String), rules host path schemas =
    Task.andThen (loadConfiguration path) fun c => rulesUnder host ((settingsOf c).withSchemas schemas)

theorem flags_settle (host : Host) : FlagsSettle host where
  inference r c := r.settings_eq c
  override := settingsOf_withSchemas
  infer := infer_eq host
  candidates path rule schemas := by
    refine congrArg (Task.andThen (loadConfiguration path)) (funext fun c => ?_)
    rw [← settingsOf_withSchemas]
    rfl
  rules path schemas := by
    refine congrArg (Task.andThen (loadConfiguration path)) (funext fun c => ?_)
    rw [← settingsOf_withSchemas]
    rfl

end LintInference.Command
