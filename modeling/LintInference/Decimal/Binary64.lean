/-!
# Numbers of 64 bits with a binary exponent

A finite number is held by its bits, so that two numbers are the same value or not without any appeal to arithmetic.
`Binary64.magnitude` gives the exact value `m * 2 ^ q` of the number without its sign.
-/

namespace LintInference

/-- A finite binary64 number, by its bits. -/
structure Binary64 where
  bits : UInt64
  deriving DecidableEq, Repr

namespace Binary64

/-- The bits of a computed number. -/
def ofFloat (x : Float) : Binary64 := ⟨x.toBits⟩

/-- Is the sign bit set? -/
def isNegative (x : Binary64) : Bool := x.bits >>> 63 == 1

/-- Both zeros. -/
def isZero (x : Binary64) : Bool := x.bits &&& 0x7FFFFFFFFFFFFFFF == 0

/-- Equality of values: the two zeros are equal, and otherwise the bits decide. -/
def same (x y : Binary64) : Bool := x.bits == y.bits || (x.isZero && y.isZero)

/-- The exact value `m * 2 ^ q` of a number without its sign. -/
structure Magnitude where
  m : Nat
  q : Int
  /-- The gap to the number below is half the gap to the number above. -/
  narrowBelow : Bool
  deriving DecidableEq, Repr

/-- The exact value without the sign. -/
def magnitude (x : Binary64) : Magnitude :=
  let e := ((x.bits >>> 52) &&& 0x7FF).toNat
  let f := (x.bits &&& 0xFFFFFFFFFFFFF).toNat
  if e == 0 then ⟨f, -1074, false⟩ else ⟨Nat.pow 2 52 + f, (e : Int) - 1075, f == 0 && e > 1⟩

/-- The numerator of the value as a fraction. -/
def Magnitude.num (x : Magnitude) : Nat := x.m * Nat.pow 2 x.q.toNat

/-- The denominator of the value as a fraction. -/
def Magnitude.den (x : Magnitude) : Nat := Nat.pow 2 (-x.q).toNat

end Binary64

end LintInference
