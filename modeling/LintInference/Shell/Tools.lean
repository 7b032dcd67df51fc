import LintInference.Shell.Tools.Edit
import LintInference.Shell.Tools.Files
import LintInference.Shell.Tools.Filter
import LintInference.Shell.Tools.Test

/-!
# The tools by name
-/

namespace LintInference.Shell

/-- Does nothing, with a status. -/
def idle (status : Nat) : Tool := fun _ input disk => { status, rest := input, disk }

/-- The tools that are programs of their own. -/
def tools : List (String × Tool) :=
  [("true", idle 0), ("false", idle 1), ("sleep", .withOptions "sleep" {} fun _ => idle 0 []), ("echo", echo),
    ("printf", printf), ("cat", cat), ("head", head), ("tail", tail), ("cut", cut), ("wc", wc), ("sort", sort),
    ("tr", tr), ("grep", grep), ("sed", sed), ("basename", basename), ("dirname", dirname), ("pwd", pwd), ("ls", ls),
    ("touch", touch), ("rm", rm), ("mkdir", mkdir), ("cp", cp), ("mv", mv), ("tee", tee), ("test", test),
    ("[", fun args => test (args.dropLast))]

end LintInference.Shell
