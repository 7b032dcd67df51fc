import LintInference.Configuration.Basic

/-!
# The schema of configurations, and a configuration to start from

Editors check configuration files against the JSON schema `Configuration.description`. A new configuration file is
written from `Configuration.template`, which spells out the value of everything that has one.
-/

namespace LintInference.Configuration

/-! ## The schema -/

/-- A field that may be `null`: its description, its type and what else is known of it. -/
def describeField (name description type : String) (others : List (String × Json)) : String × Json :=
  (name, .object ([("description", .string description), ("type", .ofTexts [type, "null"])] ++ others))

/-- A field for a text. -/
def textField (name description : String) : String × Json := describeField name description "string" []

/-- A field for a list of texts. -/
def textsField (name description : String) : String × Json :=
  describeField name description "array" [("items", .object [("type", .string "string")])]

/-- A field for a section, which is described elsewhere. -/
def sectionField (name description reference : String) : String × Json :=
  (name, .object [("description", .string description),
    ("anyOf", .array [.object [("$ref", .string ("#/$defs/" ++ reference))], .object [("type", .string "null")]])])

/-- A section with its fields. -/
def describeSection (name description : String) (fields : List (String × Json)) : String × Json :=
  (name, .object [("description", .string description), ("type", .string "object"), ("properties", .object fields)])

/-- The JSON schema of configurations. -/
def description : Json :=
  .object [("$schema", .string "https://json-schema.org/draft/2020-12/schema"), ("title", .string "KataConfig"),
    ("description", .string "Top-level configuration"), ("type", .string "object"),
    ("properties", .object [textField "$schema" "JSON schema reference",
      sectionField "eslint" "ESLint invocation settings" "EslintConfiguration",
      sectionField "inference" "Rule selection for inference" "InferenceConfiguration",
      sectionField "output" "Output file settings" "OutputConfiguration"]),
    ("$defs", .object [
      describeSection "EslintConfiguration" "ESLint invocation settings" [
        textField "command" "Program used to run ESLint (default: npx)",
        textsField "args" "Arguments passed before the ESLint flags (default: [\"--no-install\", \"eslint\"])",
        textField "node" "Node.js executable (default: node)",
        textField "workingDirectory" "Working directory for ESLint and Node.js",
        textField "schemas" "JSON file mapping rule names to option schemas"],
      describeSection "InferenceConfiguration" "Rule selection for inference" [
        textsField "skipRules" "Rules to leave out of the generated configuration",
        textsField "onlyRules" "Only infer these rules"],
      describeSection "OutputConfiguration" "Output file settings" [
        textField "path" "Path of the generated ESLint configuration (default: .eslintrc)",
        describeField "overwrite" "Overwrite an existing output file" "boolean" []]])]

/-! ## The template -/

/-- The configuration that says what is the case without one. -/
def template : Configuration :=
  let c : Configuration := {}
  { linter := some { command := some c.linterSettings.command, args := some c.linterSettings.args,
                     node := some c.linterSettings.node },
    selection := some { skipRules := some Selection.usuallySkipped },
    output := some { path := some c.outputPath, overwrite := some c.overwrite } }

/-- A name and a simple value, or a list of texts, in TOML. What is left open is not written. -/
def tomlField : String × Json → List String
  | (name, .string s) => [name ++ " = \"" ++ s ++ "\""]
  | (name, .bool b) => [name ++ " = " ++ toString b]
  | (name, .array items) =>
    [name ++ " = ["] ++ (items.filterMap Json.asString?).map (fun s => "    \"" ++ s ++ "\",") ++ ["]"]
  | _ => []

/-- A section in TOML. -/
def tomlSection : String × Json → List String
  | (name, .object fields) => ["[" ++ name ++ "]"] ++ fields.flatMap tomlField
  | _ => []

/-- A name and a simple value, or a list of texts, in YAML. -/
def yamlField : String × Json → List String
  | (name, .string s) => ["  " ++ name ++ ": " ++ s]
  | (name, .bool b) => ["  " ++ name ++ ": " ++ toString b]
  | (name, .array items) => ("  " ++ name ++ ":") :: (items.filterMap Json.asString?).map ("  - " ++ ·)
  | (name, _) => ["  " ++ name ++ ": null"]

/-- A section in YAML. -/
def yamlSection : String × Json → List String
  | (name, .object fields) => (name ++ ":") :: fields.flatMap yamlField
  | _ => []

/-- Lines, each with its end. -/
def ofLines (lines : List String) : String := String.join (lines.map (· ++ "\n"))

/-- The template in JSON. -/
def templateJson : String := template.toJson.pretty

/-- The template in TOML, with an empty line between sections. -/
def templateToml : String :=
  Text.joinWith "\n" (((template.toJson.asObject?).getD []).map fun s => ofLines (tomlSection s))

/-- The template in YAML. -/
def templateYaml : String := ofLines (((template.toJson.asObject?).getD []).flatMap yamlSection)

end LintInference.Configuration
