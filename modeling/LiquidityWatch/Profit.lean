import LiquidityWatch.Scalar

/-! # Profit and loss

The profit of a current value over an initial one, absolute and in percent. Without a positive
initial value the percentage is zero. -/

namespace LiquidityWatch

open Comparable Scalar

structure Profit (α : Type) where
  difference : α
  percent : α
deriving DecidableEq

def Profit.over {α : Type} [Scalar α] (current initial : α) : Except Fault (Profit α) := do
  let difference ← sub current initial
  if ← lt (ofInt 0) initial then
    return ⟨difference, ← mul (← div difference initial) (ofInt 100)⟩
  else return ⟨difference, zero⟩

end LiquidityWatch
