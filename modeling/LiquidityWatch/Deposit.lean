import LiquidityWatch.Scalar
import LiquidityWatch.Value

/-! # Deposits

The first deposit into a position: the amounts of the two tokens, what they were worth, when it was
made and at which price. -/

namespace LiquidityWatch

structure Deposit (α : Type) where
  amountX : α
  amountY : α
  usdX : α
  usdY : α
  timestamp : α
  price : α
deriving DecidableEq

namespace Deposit

variable {α : Type} [Scalar α]

/-- What was deposited, in dollars. -/
def initialValue (d : Deposit α) : Except Fault α := Scalar.add d.usdX d.usdY

/-- A field of a recorded deposit as a number; one that is absent or empty is zero. -/
def numberField (entry : Value) (name : String) : Except Fault α := do
  let v ← entry.fieldD name (.whole 0)
  Scalar.ofReal (← (v.orElse (.whole 0)).toReal)

/-- The deposit that a record of the position service describes. -/
def ofRecord (entry : Value) : Except Fault (Deposit α) := do
  return {
    amountX := ← numberField entry "token_x_amount"
    amountY := ← numberField entry "token_y_amount"
    usdX := ← numberField entry "token_x_usd_amount"
    usdY := ← numberField entry "token_y_usd_amount"
    timestamp := ← numberField entry "onchain_timestamp"
    price := ← numberField entry "price" }

end Deposit

end LiquidityWatch
