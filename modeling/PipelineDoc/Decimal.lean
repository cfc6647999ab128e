/-!
# Decimal numbers

A decimal number is an integer times a power of ten. `Decimal.isDouble` tells, in exact arithmetic,
whether the nearest number of double precision is finite.
-/

namespace PipelineDoc

/-- The number `mantissa * 10 ^ exponent`. -/
structure Decimal where
  mantissa : Int
  exponent : Int
  deriving DecidableEq, Repr

namespace Decimal

/-- The least size at which a number is rounded to infinity: halfway between the largest finite
number of double precision and the next power of two. -/
def doubleBound : Nat := (Nat.pow 2 54 - 1) * Nat.pow 2 970

/-- The least `n` such that the number, unless it is zero, is below `10 ^ n` in size. -/
def order (d : Decimal) : Int := (Nat.toDigits 10 d.mantissa.natAbs).length + d.exponent

/-- Whether the nearest number of double precision is finite. The order settles all numbers but
those between `10 ^ 308` and `10 ^ 309`, so no large power of ten is computed for a short
numeral. -/
def isDouble (d : Decimal) : Bool :=
  if d.mantissa = 0 ∨ d.order ≤ 308 then true
  else if 310 ≤ d.order then false
  else if 0 ≤ d.exponent then d.mantissa.natAbs * Nat.pow 10 d.exponent.toNat < doubleBound
  else d.mantissa.natAbs < doubleBound * Nat.pow 10 (-d.exponent).toNat

end Decimal

end PipelineDoc
