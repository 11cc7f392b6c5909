import LiquidityWatch.Comparable

/-! # Scalars

What the valuation and the indicator ask of a number. Their formulas are written once over `Scalar`
and used with `Number`, which rounds and can run out of range, and with `Rat`, where the same
formulas are exact. Every operation may fail, so that the order of evaluation decides which fault is
met. -/

namespace LiquidityWatch

class Scalar (α : Type) extends Comparable α where
  /-- A whole number, kept as it is. -/
  ofInt : Int → α
  /-- A whole number as a quantity. -/
  ofWhole : Int → Except Fault α
  /-- The number that a decimal stands for. -/
  ofDecimal : Decimal → α
  ofReal : Binary64 → Except Fault α
  add : α → α → Except Fault α
  /-- Adds to a running total. -/
  addTo : α → α → Except Fault α := add
  sub : α → α → Except Fault α
  mul : α → α → Except Fault α
  div : α → α → Except Fault α
  neg : α → Except Fault α
  abs : α → Except Fault α
  isZero : α → Bool
  isFinite : α → Except Fault Bool

namespace Scalar

variable {α : Type} [Scalar α]

/-- The quantity zero. -/
def zero : α := ofDecimal ⟨false, 0, 0⟩

/-- The quantity one hundred. -/
def hundred : α := ofDecimal ⟨false, 100, 0⟩

/-- The first of two numbers unless the second is greater. -/
def max (a b : α) : Except Fault α := do
  if ← Comparable.lt a b then return b else return a

/-- The first of two numbers unless the second is less. -/
def min (a b : α) : Except Fault α := do
  if ← Comparable.lt b a then return b else return a

end Scalar

instance : Scalar Number where
  ofInt := .whole
  ofWhole n := do return .real (← Number.roundWhole n)
  ofDecimal d := .real d.toBinary64
  ofReal x := .ok (.real x)
  add := Number.add
  sub := Number.sub
  mul := Number.mul
  div := Number.div
  neg a := .ok a.neg
  abs a := .ok a.abs
  isZero := Number.isZero
  isFinite := Number.isFinite

instance : Scalar Rat where
  ofInt n := n
  ofWhole n := .ok n
  ofDecimal := Decimal.toRat
  ofReal x := match x.toRat? with
    | some q => .ok q
    | none => .error .infinityAsWhole
  add a b := .ok (a + b)
  sub a b := .ok (a - b)
  mul a b := .ok (a * b)
  div a b := if b = 0 then .error .divisionByZero else .ok (a / b)
  neg a := .ok (-a)
  abs a := .ok (if a < 0 then -a else a)
  isZero a := decide (a = 0)
  isFinite _ := .ok true

end LiquidityWatch
