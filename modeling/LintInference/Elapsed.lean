import LintInference.Decimal.Binary64
import LintInference.Decimal.Fixed

/-!
# Spans of time in words

Below a second a span is given in milliseconds, below a minute in seconds, and else in minutes and seconds. Seconds have
one place; they are rounded from the binary64 number of seconds, so half a tenth goes to the even neighbour only where
that number is exact.
-/

namespace LintInference.Elapsed

/-- Milliseconds as seconds with one place. -/
def seconds (ms : Nat) : String := (Binary64.ofFloat (Float.ofNat ms / 1000)).toPlaces 1 ++ "s"

/-- The text of a span. -/
def text (ms : Nat) : String :=
  if ms < 1000 then toString ms ++ "ms"
  else if ms < 60000 then seconds ms
  else toString (ms / 60000) ++ "m " ++ seconds (ms % 60000)

end LintInference.Elapsed
