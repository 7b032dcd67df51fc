import LintInference.Command.Request

/-!
# What a run takes from the configuration

The flags of a run are laid over the configuration that was loaded. What a layer says nothing about comes through as it
is: a file of schemas changes no more than where the schemas come from, and the flags of an inference leave alone what
the configuration says of the linter and of the rules.
-/

namespace LintInference.Command

variable (c : Configuration)

@[simp] theorem output_withSchemas (schemas : Option String) : (withSchemas c schemas).output = c.output := by
  cases schemas <;> rfl

@[simp] theorem selection_withSchemas (schemas : Option String) : (withSchemas c schemas).selection = c.selection := by
  cases schemas <;> rfl

@[simp] theorem selectionSettings_withSchemas (schemas : Option String) :
    (withSchemas c schemas).selectionSettings = c.selectionSettings := by
  rw [Configuration.selectionSettings, Configuration.selectionSettings, selection_withSchemas]

@[simp] theorem linterSettings_withSchemas (schemas : Option String) :
    (withSchemas c schemas).linterSettings = c.linterSettings := by
  cases schemas with
  | none => rfl
  | some path => rcases c with ⟨_, _ | l, _, _⟩ <;> rfl

theorem schemasPath?_withSchemas (schemas : Option String) :
    (withSchemas c schemas).schemasPath? = schemas.or c.schemasPath? := by
  cases schemas with
  | none => rfl
  | some path => rcases c with ⟨_, _ | l, _, _⟩ <;> rfl

namespace InferRequest

variable (r : InferRequest)

@[simp] theorem selectionSettings_configuration : (r.configuration c).selectionSettings = c.selectionSettings :=
  selectionSettings_withSchemas (r.layer.merge c) r.schemas

/-- A file may be replaced if the flags or the configuration say so. -/
theorem overwrite_configuration : (r.configuration c).overwrite = (r.force || c.overwrite) := by
  have hlayer : (r.configuration c).overwrite = (r.layer.merge c).overwrite := by
    rw [Configuration.overwrite, configuration, output_withSchemas, Configuration.overwrite]
  rw [hlayer]
  rcases c with ⟨_, _, _, _ | o⟩ <;> cases hf : r.force <;>
    simp [layer, Configuration.merge, mergeOption, OutputSection.merge, Configuration.overwrite, hf]

end InferRequest

end LintInference.Command
