import LiquidityWatch.Decimal.Fixed
import LiquidityWatch.Decimal.Shortest
import LiquidityWatch.Fault

/-! # Numbers

A number is a whole number of any size or a binary64 number. Whole numbers stay exact among
themselves, apart from division; where the two meet, the whole number is rounded to binary64 first.
Comparisons are exact across both. -/

namespace LiquidityWatch

inductive Number where
  | whole (n : Int)
  | real (x : Binary64)
deriving DecidableEq, Inhabited

namespace Number

def kind : Number → Kind
  | whole _ => .whole
  | real _ => .real

/-- What a whole number was rounded to, as long as it is in range. -/
def ofRounded : Binary64 → Except Fault Binary64
  | .infinite _ => .error .wholeTooLarge
  | x => .ok x

/-- A whole number rounded to binary64, as long as it is in range. -/
def roundWhole (n : Int) : Except Fault Binary64 := ofRounded (Binary64.ofInt n)

def toReal : Number → Except Fault Binary64
  | whole n => roundWhole n
  | real x => .ok x

/-- An operation that is exact on whole numbers and rounds otherwise. -/
def lift (onWhole : Int → Int → Int) (onReal : Binary64 → Binary64 → Binary64) :
    Number → Number → Except Fault Number
  | whole m, whole n => .ok (whole (onWhole m n))
  | a, b => do return real (onReal (← a.toReal) (← b.toReal))

def add : Number → Number → Except Fault Number := lift (· + ·) Binary64.add
def sub : Number → Number → Except Fault Number := lift (· - ·) Binary64.sub
def mul : Number → Number → Except Fault Number := lift (· * ·) Binary64.mul

/-- The quotient of two whole numbers, rounded once. -/
def divWhole (m n : Int) : Except Fault Number :=
  if n = 0 then .error .divisionByZero
  else match Binary64.ofRatio ((m < 0) != (n < 0)) m.natAbs n.natAbs with
    | .infinite _ => .error .quotientTooLarge
    | x => .ok (real x)

/-- Division always gives a binary64 number. -/
def div : Number → Number → Except Fault Number
  | whole m, whole n => divWhole m n
  | a, b => do
    let x ← a.toReal
    let y ← b.toReal
    if y.isZero then .error .divisionByZero else return real (x.div y)

def neg : Number → Number
  | whole n => whole (-n)
  | real x => real x.neg

def abs : Number → Number
  | whole n => whole n.natAbs
  | real x => real x.abs

/-- Where a number lies; a NaN lies nowhere. -/
def place? : Number → Option Place
  | whole n => some (.point (n * Binary64.unitsPerOne))
  | real x => x.place?

/-- Both numbers have a place, and the places stand in the relation. -/
def related (relation : Place → Place → Bool) (a b : Number) : Bool :=
  match a.place?, b.place? with
  | some p, some q => relation p q
  | _, _ => false

def lt (a b : Number) : Bool := related Place.lt a b
def le (a b : Number) : Bool := related Place.le a b

/-- The numbers lie in the same place. -/
def equals (a b : Number) : Bool := related (· == ·) a b

def isZero : Number → Bool
  | whole n => n == 0
  | real x => x.isZero

/-- Finiteness is a property of the binary64 number. -/
def isFinite (a : Number) : Except Fault Bool := do return (← a.toReal).isFinite

/-- The text of a number by itself. -/
def shown : Number → String
  | whole n => toString n
  | real x => x.shortest

/-- The text of a number with a fixed number of places. -/
def fixed (format : FixedFormat) (a : Number) : Except Fault String := do
  return format.text (← a.toReal)

end Number

end LiquidityWatch
