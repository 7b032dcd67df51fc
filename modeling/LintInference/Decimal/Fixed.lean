import LintInference.Decimal.Binary64

/-!
# A fixed number of decimal places

`roundDiv` rounds a quotient to the nearest whole number, a half to the even neighbour. `Binary64.toPlaces` writes the
exact value of a number so rounded.
-/

namespace LintInference

namespace Decimal

/-- The whole number nearest to `num / den`; a half goes to the even neighbour. -/
def roundDiv (num den : Nat) : Nat :=
  let q := num / den
  match compare (2 * (num % den)) den with
  | .lt => q
  | .gt => q + 1
  | .eq => if q % 2 == 0 then q else q + 1

/-- Writes `n / 10 ^ places` with exactly that many decimal places, of which there is at least one. -/
def placesText (n places : Nat) : String :=
  let digits := toString n
  let padded := String.ofList (List.replicate (places + 1 - digits.length) '0') ++ digits
  let cut := padded.length - places
  (padded.take cut).toString ++ "." ++ (padded.drop cut).toString

end Decimal

/-- The value of a number that is not negative, to the given number of decimal places. -/
def Binary64.toPlaces (x : Binary64) (places : Nat) : String :=
  let v := x.magnitude
  Decimal.placesText (Decimal.roundDiv (v.num * Nat.pow 10 places) v.den) places

end LintInference
