import LintInference.Configuration.Basic
import LintInference.Host
import LintInference.Linter.Session
import LintInference.Registry

/-!
# The linter as a program

Each call writes the options to a file of its own, runs the program with the text as its input, and reads the report
that it prints; the file is gone afterwards. A status of one only says that problems were found. Any other status but
zero is a failure, and so is a program that ends without having taken the text.

The schemas of the rules come from a file, or from a script that is run where the linter is installed.
-/

namespace LintInference

namespace Linter

/-- The arguments of every call; the file with the options follows. -/
def callArguments : List String := ["--no-eslintrc", "--no-ignore", "--stdin", "--format", "json", "--config"]

/-- A place for the options of a call. There is nothing at it yet. -/
def freshPlace? (d : Disk) : Option Place :=
  ((List.range (d.entries.length + 1)).map fun n => ["tmp", "kata-" ++ toString n ++ ".json"]).find?
    fun place => (d.at? place).isNone

/-- What the run of a call says. -/
def verdict (e : Execution) : Except Failure Report :=
  if e.brokePipe then
    .error (.linter ("eslint stopped reading the text (" ++ OsError.brokenPipe.message ++ "): " ++ e.errorText))
  else
    let report :=
      match Report.readUnits (Text.decode e.output) with
      | .ok results => Except.ok (Report.ofResults results)
      | .error cause => .error (.linter ("unreadable eslint report: " ++ cause.message))
    match e.ending with
    | .status 0 => report
    | .status 1 => report
    | .status code => .error (.linter ("eslint exited with status " ++ toString code ++ ": " ++ e.errorText))
    | .signal => .error (.linter ("eslint exited with a signal: " ++ e.errorText))

/-- The invocation for a call whose options are in a file. -/
def invocation (settings : LinterSettings) (options : Place) (text : String) : Invocation where
  program := settings.command
  arguments := settings.args ++ callArguments ++ [Disk.pathOf options]
  environment := [("ESLINT_USE_FLAT_CONFIG", "false")]
  directory := settings.workingDirectory
  input := Text.toBytes text

/-- The linter that a host runs. Its state are the files. -/
def external (host : Host) (settings : LinterSettings) : Linter Disk where
  check call d :=
    match freshPlace? d with
    | none => (.error (.file "" .alreadyExists), d)
    | some place =>
      let written := d.put place (.file (Text.toBytes call.options.text) false)
      match host (invocation settings place call.text) written with
      | (.error e, d) => (.error (.linter ("failed to start " ++ settings.command ++ ": " ++ e.message)), d.erase place)
      | (.ok execution, d) => (verdict execution, d.erase place)

end Linter

namespace Registry

/-- The registry in a file. -/
def ofFile (d : Disk) (path : String) : Except Failure Registry :=
  match d.readText path with
  | .ok text => read text
  | .error e => .error (.file path e)

/-- The script that prints the schemas of all rules of the installed linter. -/
def dumpScript : String :=
  "\nconst eslint = require('eslint');\n" ++
  "const linter = eslint.Linter ? new eslint.Linter() : eslint.linter;\n" ++
  "const rules = linter.getRules ? linter.getRules() : require('eslint/use-at-your-own-risk').builtinRules;\n" ++
  "const out = \x7b\x7d;\n" ++
  "for (const [name, rule] of rules) \x7b\n" ++
  "  out[name] = (rule.meta && rule.meta.schema) || [];\n" ++
  "\x7d\n" ++
  "process.stdout.write(JSON.stringify(out));\n"

/-- The registry in what a run of the script printed. -/
def ofExecution (node : String) (e : Execution) : Except Failure Registry :=
  match e.ending with
  | .status 0 => read (Text.ofBytesLossy e.output)
  | _ => .error (.linter (node ++ " could not load eslint: " ++ e.errorText))

/-- The registry of the linter that is installed where the script runs. -/
def ofInstallation (host : Host) (node : String) (directory : Option String) (d : Disk) :
    Except Failure Registry × Disk :=
  match host { program := node, arguments := ["-e", dumpScript], directory } d with
  | (.ok execution, d) => (ofExecution node execution, d)
  | (.error e, d) => (.error (.linter ("failed to run " ++ node ++ ": " ++ e.message)), d)

end Registry

end LintInference
