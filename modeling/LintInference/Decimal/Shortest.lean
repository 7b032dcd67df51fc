import LintInference.Decimal.Binary64

/-!
# The fewest digits that read back

`Binary64.shortest` is the decimal with the fewest digits among those that round to the number; of two such decimals of
one length it is the nearer one, and on a tie the even one.
-/

namespace LintInference

/-- The value `digits * 10 ^ exponent`. -/
structure Decimal where
  digits : Nat
  exponent : Int
  deriving DecidableEq, Repr

namespace Decimal

/-- Compares `a * 10 ^ i` with `n * 2 ^ j`, exactly. -/
def compareBinary (a : Nat) (i : Int) (n : Nat) (j : Int) : Ordering :=
  compare (a * Nat.pow 10 i.toNat * Nat.pow 2 (-j).toNat) (n * Nat.pow 2 j.toNat * Nat.pow 10 (-i).toNat)

/-- Does the decimal lie among the reals that round to the number? The ends belong to it if the significand is even. -/
def readsBack (d : Decimal) (x : Binary64.Magnitude) : Bool :=
  let low := compareBinary d.digits d.exponent (if x.narrowBelow then 4 * x.m - 1 else 4 * x.m - 2) (x.q - 2)
  let high := compareBinary d.digits d.exponent (4 * x.m + 2) (x.q - 2)
  let ends := x.m % 2 == 0
  (low == .gt || (ends && low == .eq)) && (high == .lt || (ends && high == .eq))

/-- Is the value below `10 ^ k`? -/
def below (x : Binary64.Magnitude) (k : Int) : Bool := compareBinary 1 k x.m x.q == .gt

/-- The least `k` with the value below `10 ^ k`, for a value other than zero. -/
def scale (x : Binary64.Magnitude) : Int :=
  let guess := ((x.m.log2 : Int) + x.q) * 30103 / 100000
  if below x (guess - 1) then guess - 1 else if below x guess then guess
  else if below x (guess + 1) then guess + 1 else guess + 2

/-- The better of the value's two neighbours on the grid `10 ^ g`, if one of them reads back. -/
def nearest? (x : Binary64.Magnitude) (g : Int) : Option Decimal :=
  let num := x.num * Nat.pow 10 (-g).toNat
  let den := x.den * Nat.pow 10 g.toNat
  let low : Decimal := ⟨num / den, g⟩
  let high : Decimal := ⟨num / den + 1, g⟩
  match low.readsBack x, high.readsBack x with
  | true, true =>
    match compare (2 * (num % den)) den with
    | .lt => some low
    | .gt => some high
    | .eq => some (if low.digits % 2 == 0 then low else high)
  | true, false => some low
  | false, true => some high
  | false, false => none

/-- Moves zeros at the end of the digits into the exponent, at most `n` of them. -/
def strip : Nat → Decimal → Decimal
  | 0, d => d
  | n + 1, d => if d.digits % 10 == 0 && d.digits != 0 then strip n ⟨d.digits / 10, d.exponent + 1⟩ else d

/-- The exact decimal value of a number: a binary fraction is a decimal fraction. -/
def exact (x : Binary64.Magnitude) : Decimal :=
  ⟨x.num * Nat.pow 5 (-x.q).toNat, -((-x.q).toNat : Int)⟩

end Decimal

/-- The decimal of fewest digits that reads back to the number without its sign. -/
def Binary64.shortest (x : Binary64) : Decimal :=
  let v := x.magnitude
  if v.m == 0 then ⟨0, 0⟩
  else
    let k := Decimal.scale v
    let found := (List.range 17).findSome? fun i => Decimal.nearest? v (k - (i + 1 : Nat))
    Decimal.strip 20 (found.getD (Decimal.exact v))

end LintInference
