import LintInference.Json.Shape

/-!
# Reports of a linter

A report counts the errors and warnings of a call and has one result for each unit that was looked at. The counts of a
report that was read are taken as they are; those of a report that is built here are the sums over its parts.
-/

namespace LintInference

namespace Report

/-- A problem that was found. -/
structure Message where
  rule : Option String := none
  severity : UInt8 := 0
  message : String := ""
  line : Option UInt32 := none
  column : Option UInt32 := none
  /-- Does the text fail to parse? -/
  fatal : Bool := false
  deriving DecidableEq, Repr

/-- The problems of one unit. -/
structure UnitResult where
  file : Option String := none
  messages : List Message := []
  errorCount : Nat := 0
  warningCount : Nat := 0
  deriving DecidableEq, Repr

/-- A text that does not parse. -/
def Message.parseError (message : String) : Message := { severity := 2, message, fatal := true }

/-- A violation of a rule, with the severity of an error. -/
def Message.violation (rule message : String) : Message := { rule := some rule, severity := 2, message }

/-- A problem that is only a warning. -/
def Message.warning : Message := { severity := 1 }

/-- The result for a unit with the given problems, which are counted. -/
def UnitResult.ofMessages (messages : List Message) : UnitResult where
  messages := messages
  errorCount := messages.countP fun m => m.severity ≥ 2
  warningCount := messages.countP fun m => m.severity == 1

end Report

open Report

/-- The answer of a linter call. -/
structure Report where
  errorCount : Nat := 0
  warningCount : Nat := 0
  results : List UnitResult := []
  deriving DecidableEq, Repr

namespace Report

instance : Inhabited Report := ⟨{}⟩

/-- The report over the results of units, with summed counts. -/
def ofResults (results : List UnitResult) : Report where
  errorCount := results.foldr (·.errorCount + ·) 0
  warningCount := results.foldr (·.warningCount + ·) 0
  results := results

/-- The report over a single unit. -/
def single (messages : List Message) : Report := ofResults [.ofMessages messages]

/-- A report of a single unit without problems. -/
def clean : Report := single []

/-- The number of errors in the first unit; zero if nothing was looked at. -/
def firstUnitErrors (r : Report) : Nat := (r.results.head?.map (·.errorCount)).getD 0

/-- Does the report count errors? -/
def hasErrors (r : Report) : Bool := 0 < r.errorCount

@[simp] theorem hasErrors_clean : clean.hasErrors = false := by decide

/-! ## JSON -/

/-- A number, or `null` for none. -/
def ofNat? (n : Option UInt32) : Json := n.elim .null fun n => .ofNat n.toNat

/-- A message as a value. -/
def Message.toJson (m : Message) : Json :=
  .object [("ruleId", .ofText? m.rule), ("severity", .ofNat m.severity.toNat), ("message", .string m.message),
    ("line", ofNat? m.line), ("column", ofNat? m.column), ("fatal", .bool m.fatal)]

/-- The result of a unit as a value. -/
def UnitResult.toJson (u : UnitResult) : Json :=
  .object [("filePath", .ofText? u.file), ("messages", .array (u.messages.map Message.toJson)),
    ("errorCount", .ofNat u.errorCount), ("warningCount", .ofNat u.warningCount)]

/-- A report as a value. -/
def toJson (r : Report) : Json :=
  .object [("errorCount", .ofNat r.errorCount), ("warningCount", .ofNat r.warningCount),
    ("results", .array (r.results.map UnitResult.toJson))]

open Json.Shape (field fieldOr) in
/-- What a reader of messages wants. -/
def Message.shape : Json.Shape :=
  .record "LintMessage" [fieldOr "ruleId" .null (.optional .text), fieldOr "severity" (.ofNat 0) .byte,
    fieldOr "message" (.string "") .text, fieldOr "line" .null (.optional .word),
    fieldOr "column" .null (.optional .word), fieldOr "fatal" (.bool false) .flag]

open Json.Shape (field fieldOr) in
/-- What a reader of unit results wants. -/
def UnitResult.shape : Json.Shape :=
  .record "UnitResult" [fieldOr "filePath" .null (.optional .text),
    fieldOr "messages" (.array []) (.list Message.shape),
    fieldOr "errorCount" (.ofNat 0) .count, fieldOr "warningCount" (.ofNat 0) .count]

open Json.Shape (field fieldOr) in
/-- What a reader of reports wants. -/
def shape : Json.Shape :=
  .record "LintReport" [field "errorCount" .count, field "warningCount" .count,
    field "results" (.list UnitResult.shape)]

/-- The message in what a reader has read. -/
def Message.ofRead? : Json → Option Message
  | .array [rule, severity, message, line, column, fatal] => do
    return { rule := rule.asString?, severity := .ofNat (← severity.asNat?), message := ← message.asString?,
             line := line.asNat?.map .ofNat, column := column.asNat?.map .ofNat, fatal := ← fatal.asBool? }
  | _ => none

/-- The unit result in what a reader has read. -/
def UnitResult.ofRead? : Json → Option UnitResult
  | .array [file, .array messages, errorCount, warningCount] => do
    return { file := file.asString?, messages := messages.filterMap Message.ofRead?,
             errorCount := ← errorCount.asNat?, warningCount := ← warningCount.asNat? }
  | _ => none

/-- The report in what a reader has read. -/
def ofRead? : Json → Option Report
  | .array [errorCount, warningCount, .array results] => do
    return { errorCount := ← errorCount.asNat?, warningCount := ← warningCount.asNat?,
             results := results.filterMap UnitResult.ofRead? }
  | _ => none

/-- Reads a report. -/
def read (text : String) : Except Json.ReadError Report := do
  return (ofRead? (← shape.read (Text.pieces text))).getD {}

/-- Reads the results of units, from text that may hold stray bytes. -/
def readUnits (text : List Text.Piece) : Except Json.ReadError (List UnitResult) := do
  return ((← (Json.Shape.list UnitResult.shape).read text).asArray?.getD []).filterMap UnitResult.ofRead?

end Report

end LintInference
