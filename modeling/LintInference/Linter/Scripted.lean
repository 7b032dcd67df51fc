import LintInference.Linter.Session

/-!
# Linters that follow a script

A scripted linter answers from a list of clauses: the first clause whose conditions all hold of a call gives the answer,
and a call that none fits gets a clean report. Its state is the number of the calls it has had.
-/

namespace LintInference.Linter

/-- What a clause may ask of a call. -/
inductive Condition where
  /-- The text contains this one. -/
  | text (part : String)
  | noText (part : String)
  /-- The rule is active. -/
  | rule (name : String)
  /-- Whether there are no active rules. -/
  | noRules (expected : Bool)
  /-- An active candidate has this JSON text. -/
  | candidate (text : String)
  /-- An active candidate has at this place a value with this JSON text. -/
  | value (place : Nat) (text : String)
  /-- Whether an active rule is turned off. -/
  | off (expected : Bool)
  | minVersion (version : Nat)
  | maxVersion (version : Nat)
  | sourceType (word : String)
  | featureOn (flag : String)
  | featureOff (flag : String)
  /-- The call has this number. -/
  | number (n : Nat)
  /-- The call has a higher number. -/
  | after (n : Nat)

/-- Does a text contain another one? -/
def contains (text part : List Char) : Bool :=
  part.isPrefixOf text || match text with
    | [] => false
    | _ :: rest => contains rest part

/-- Is the flag on? -/
def flagOn (g : Grammar) (flag : String) : Bool := (Entries.get? g.features flag).getD false

/-- Does the call, the one with the given number, meet the condition? -/
def Condition.holds (number : Nat) (call : Call) : Condition → Bool
  | .text part => contains call.text.toList part.toList
  | .noText part => !contains call.text.toList part.toList
  | .rule name => (Entries.get? call.options.rules name).isSome
  | .noRules expected => call.options.rules.isEmpty == expected
  | .candidate shown => call.options.rules.any fun e => e.2.text == shown
  | .value place shown => call.options.rules.any fun e => e.2[place]?.any fun v => v.compact == shown
  | .off expected => (call.options.rules.any fun e => e.2.isOff) == expected
  | .minVersion version => version ≤ call.options.grammar.version.toNat
  | .maxVersion version => call.options.grammar.version.toNat ≤ version
  | .sourceType word => call.options.grammar.sourceType.word == word
  | .featureOn flag => flagOn call.options.grammar flag
  | .featureOff flag => !flagOn call.options.grammar flag
  | .number n => number == n
  | .after n => n < number

/-- What a clause answers. -/
inductive Reply where
  /-- One unit with so many violations. -/
  | errors (n : Nat)
  | parseError (message : String)
  /-- One unit with so many warnings. -/
  | warnings (n : Nat)
  | clean
  /-- A report about nothing. -/
  | empty
  /-- Units with so many violations each. -/
  | units (ns : List Nat)
  /-- The report with this text. -/
  | report (text : String)
  | failure (message : String)

/-- So many violations. -/
def violations (n : Nat) : List Report.Message := List.replicate n (.violation "scripted" "violation")

/-- The answer that a reply stands for. -/
def Reply.answer : Reply → Except Failure Report
  | .errors n => .ok (.single (violations n))
  | .parseError message => .ok (.single [.parseError message])
  | .warnings n => .ok (.single (List.replicate n .warning))
  | .clean => .ok .clean
  | .empty => .ok {}
  | .units ns => .ok (.ofResults (ns.map fun n => .ofMessages (violations n)))
  | .report text => (Report.read text).mapError .serialization
  | .failure message => .error (.linter message)

/-- A clause of a script. -/
structure Clause where
  conditions : List Condition
  reply : Reply

/-- The answer of a script to the call with the given number. -/
def answerOf (script : List Clause) (number : Nat) (call : Call) : Except Failure Report :=
  match script.find? fun clause => clause.conditions.all (·.holds number call) with
  | some clause => clause.reply.answer
  | none => .ok .clean

/-- The linter that follows a script. -/
def scripted (script : List Clause) : Linter Nat where
  check call calls := (answerOf script (calls + 1) call, calls + 1)

/-- The linter that fails at every call. -/
def failing (message : String) : Linter Nat where
  check _ calls := (.error (.linter message), calls + 1)

end LintInference.Linter
