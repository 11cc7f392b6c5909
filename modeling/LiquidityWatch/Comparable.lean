import LiquidityWatch.Number

/-! # Comparisons that may fail

An order whose comparisons may fail, and which may hold between some elements and not between
others: a NaN is neither before nor after any number, and a list has no place among numbers. On some
collections it is an order all the same: each two of their elements are comparable, consistently
with the others. -/

namespace LiquidityWatch

class Comparable (α : Type) where
  lt : α → α → Except Fault Bool
  le : α → α → Except Fault Bool
  /-- Among these elements no comparison fails, and `le` is total and transitive. -/
  isOrder : List α → Bool

namespace Comparable

variable {α : Type} [Comparable α]

/-- The first element is at most the second; a comparison that fails does not hold. -/
def atMost (a b : α) : Bool :=
  match le a b with
  | .ok holds => holds
  | .error _ => false

end Comparable

instance : Comparable Int where
  lt m n := .ok (decide (m < n))
  le m n := .ok (decide (m ≤ n))
  isOrder _ := true

instance : Comparable Rat where
  lt a b := .ok (decide (a < b))
  le a b := .ok (decide (a ≤ b))
  isOrder _ := true

instance : Comparable Number where
  lt a b := .ok (a.lt b)
  le a b := .ok (a.le b)
  isOrder numbers := numbers.all fun n => n.place?.isSome

end LiquidityWatch
