import LiquidityWatch.Binary64

/-! # Decimal numbers

A decimal number is a sign, a whole coefficient and a power of ten. It has an exact rational value
and a nearest binary64 number; the second rounds the first once. -/

namespace LiquidityWatch

/-- The number `± coefficient · 10 ^ exponent`. -/
structure Decimal where
  negative : Bool
  coefficient : Nat
  exponent : Int
deriving DecidableEq

namespace Decimal

/-- The exact value. -/
def toRat (d : Decimal) : Rat :=
  let magnitude : Rat := match d.exponent with
    | .ofNat e => d.coefficient * 10 ^ e
    | .negSucc e => d.coefficient / 10 ^ (e + 1)
  if d.negative then -magnitude else magnitude

/-- At or above `10 ^ rangeExponent` every number is infinite, below `10 ^ -rangeExponent` zero. -/
def rangeExponent : Nat := 400

/-- The nearest binary64 number. A coefficient `c` has at most `c.log2 + 1` decimal digits, so
powers of ten that are far out of range are settled without being computed. -/
def toBinary64 (d : Decimal) : Binary64 :=
  if d.coefficient = 0 then .finite d.negative 0
  else match d.exponent with
    | .ofNat e =>
      if rangeExponent ≤ e then .infinite d.negative
      else .ofRatio d.negative (d.coefficient * Nat.pow 10 e) 1
    | .negSucc e =>
      if d.coefficient.log2 + 1 + rangeExponent ≤ e + 1 then .finite d.negative 0
      else .ofRatio d.negative d.coefficient (Nat.pow 10 (e + 1))

end Decimal

end LiquidityWatch
