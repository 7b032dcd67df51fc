import LintInference.Json.Writer

/-!
# Candidates

A candidate is the list of values that a rule is configured with, its severity first:
`["error", "always", {"null": "ignore"}]`.
-/

namespace LintInference

/-- The values that a rule is configured with. -/
abbrev Candidate := List Json

namespace Candidate

/-- The candidate that only makes violations of the rule count: `["error"]`. -/
def error : Candidate := [.string "error"]

/-- The candidate that turns the rule off: `["off"]`. -/
def off : Candidate := [.string "off"]

/-- The candidate with one more value. -/
def extend (c : Candidate) (v : Json) : Candidate := c ++ [v]

/-- The severity, if the first value is a text. -/
def severity? (c : Candidate) : Option String := c.head?.bind Json.asString?

/-- Does the candidate turn the rule off? -/
def isOff (c : Candidate) : Bool := c.length == 1 && severity? c == some "off"

/-- The candidate as a value. -/
def toJson (c : Candidate) : Json := .array c

/-- The candidate as compact JSON. -/
def text (c : Candidate) : String := (toJson c).compact

/-- Equality of candidates, value by value. -/
def same (a b : Candidate) : Bool := Json.sameItems a b

theorem isOff_off : isOff off = true := by decide +kernel

theorem isOff_error : isOff error = false := by decide +kernel

end Candidate

end LintInference
