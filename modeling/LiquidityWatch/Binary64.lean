/-! # Binary64 numbers

A binary64 number, kept as a sign and a whole number of the smallest positive unit `2 ^ -1074`.
Every finite binary64 value is such a multiple, so sums, products and quotients are computed
exactly on whole numbers and rounded once, to 53 significant bits, a half going to the even
neighbour. Nothing here depends on machine arithmetic. -/

namespace LiquidityWatch

/-- `numerator / denominator` as the nearest whole number; a half goes to the even neighbour. -/
def roundHalfEven (numerator denominator : Nat) : Nat :=
  let quotient := numerator / denominator
  let rest := numerator % denominator
  if denominator < 2 * rest ∨ (2 * rest = denominator ∧ quotient % 2 = 1) then quotient + 1
  else quotient

/-- A binary64 number; `finite negative units` is `± units · 2 ^ -1074`. -/
inductive Binary64 where
  | nan
  | infinite (negative : Bool)
  | finite (negative : Bool) (units : Nat)
deriving DecidableEq, Inhabited

namespace Binary64

/-- The number of units in one. -/
def unitsPerOne : Nat := Nat.pow 2 1074

/-- The least number of units that is too large to be finite: `2 ^ 1024`. -/
def overflowUnits : Nat := Nat.pow 2 2098

/-- Significant bits of a number. -/
def precision : Nat := 53

def zero : Binary64 := finite false 0

/-- The multiple of the unit with at most 53 significant bits that is nearest to
`numerator / denominator` units. -/
def nearestUnits (numerator denominator : Nat) : Nat :=
  let dropped := (numerator / denominator).log2 + 1 - precision
  roundHalfEven numerator (denominator * Nat.pow 2 dropped) * Nat.pow 2 dropped

/-- The number nearest to `± numerator / denominator` units. -/
def ofUnits (negative : Bool) (numerator denominator : Nat) : Binary64 :=
  let units := nearestUnits numerator denominator
  if units < overflowUnits then finite negative units else infinite negative

/-- The number nearest to `± numerator / denominator`. -/
def ofRatio (negative : Bool) (numerator denominator : Nat) : Binary64 :=
  ofUnits negative (numerator * unitsPerOne) denominator

/-- The number nearest to a whole number; infinite when that is out of range. -/
def ofInt (n : Int) : Binary64 := ofRatio (n < 0) n.natAbs 1

def isFinite : Binary64 → Bool
  | finite _ _ => true
  | _ => false

def isNaN : Binary64 → Bool
  | nan => true
  | _ => false

/-- Both zeros are zero. -/
def isZero : Binary64 → Bool
  | finite _ units => units == 0
  | _ => false

/-- The sign is kept by zeros and infinities; a NaN shows none. -/
def isNegative : Binary64 → Bool
  | nan => false
  | infinite negative => negative
  | finite negative _ => negative

def neg : Binary64 → Binary64
  | nan => nan
  | infinite negative => infinite (!negative)
  | finite negative units => finite (!negative) units

def abs : Binary64 → Binary64
  | nan => nan
  | infinite _ => infinite false
  | finite _ units => finite false units

/-- A finite number in signed units. -/
def signedUnits (negative : Bool) (units : Nat) : Int := if negative then -units else units

/-- The exact sum, rounded once. Equal magnitudes of opposite sign give a positive zero. -/
def add : Binary64 → Binary64 → Binary64
  | nan, _ => nan
  | _, nan => nan
  | infinite a, infinite b => if a = b then infinite a else nan
  | infinite a, finite _ _ => infinite a
  | finite _ _, infinite b => infinite b
  | finite a m, finite b n =>
    let sum := signedUnits a m + signedUnits b n
    if sum = 0 then finite (a && b) 0 else ofUnits (sum < 0) sum.natAbs 1

def sub (x y : Binary64) : Binary64 := add x (neg y)

/-- The exact product, rounded once. -/
def mul : Binary64 → Binary64 → Binary64
  | nan, _ => nan
  | _, nan => nan
  | infinite a, infinite b => infinite (a != b)
  | infinite a, finite b n => if n = 0 then nan else infinite (a != b)
  | finite a m, infinite b => if m = 0 then nan else infinite (a != b)
  | finite a m, finite b n => ofUnits (a != b) (m * n) unitsPerOne

/-- The exact quotient, rounded once. A zero divisor gives an infinity, or a NaN for `0 / 0`;
callers that refuse a zero divisor test for it first. -/
def div : Binary64 → Binary64 → Binary64
  | nan, _ => nan
  | _, nan => nan
  | infinite _, infinite _ => nan
  | infinite a, finite b _ => infinite (a != b)
  | finite a _, infinite b => finite (a != b) 0
  | finite a m, finite b n =>
    if n = 0 then (if m = 0 then nan else infinite (a != b))
    else ofUnits (a != b) (m * unitsPerOne) n

/-- The whole part, rounded toward zero; `none` without one. -/
def truncate? : Binary64 → Option Int
  | finite negative units => some (signedUnits negative (units / unitsPerOne))
  | _ => none

/-- The nearest whole number, a half going to the even neighbour; `none` without one. -/
def round? : Binary64 → Option Int
  | finite negative units => some (signedUnits negative (roundHalfEven units unitsPerOne))
  | _ => none

/-- The exact value of a finite number. -/
def toRat? : Binary64 → Option Rat
  | finite negative units => some (mkRat (signedUnits negative units) unitsPerOne)
  | _ => none

end Binary64

/-- A place on the extended number line, finite places in units of `2 ^ -1074`. Comparing places
is exact, also between a whole number and a binary64 number. -/
inductive Place where
  | bottom
  | point (units : Int)
  | top
deriving DecidableEq

namespace Place

def lt : Place → Place → Bool
  | point m, point n => m < n
  | bottom, bottom => false
  | bottom, _ => true
  | point _, top => true
  | _, _ => false

def le (p q : Place) : Bool := p.lt q || p == q

end Place

/-- Where a number lies; a NaN lies nowhere. -/
def Binary64.place? : Binary64 → Option Place
  | .nan => none
  | .infinite true => some .bottom
  | .infinite false => some .top
  | .finite negative units => some (.point (signedUnits negative units))

end LiquidityWatch
