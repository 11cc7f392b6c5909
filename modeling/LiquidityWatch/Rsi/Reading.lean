import LiquidityWatch.Candle
import LiquidityWatch.Rsi

/-! # Readings of the relative strength index

A reading is the index of a series of candles with the time of its newest candle. A series of fewer
than two candles has no index; its reading is zero, carries the present time, and says that there
are no data, which tells it from an index that happens to be zero. -/

namespace LiquidityWatch.Rsi

structure Reading (α : Type) where
  value : α
  timestamp : α
  hasData : Bool
deriving DecidableEq

variable {α : Type} [Scalar α]

/-- The reading of a series without an index. -/
def Reading.noData (now : α) : Reading α := ⟨Scalar.zero, now, false⟩

/-- The reading of samples in any order. -/
def Reading.ofSamples (samples : List (Sample α)) (period : Int) (now : α) :
    Except Fault (Reading α) := do
  let series ← Sample.series samples
  match series.getLast? with
  | none => return noData now
  | some newest =>
    if series.length < 2 then return noData now
    return ⟨← ofCloses (series.map Candle.closing) period, newest.timestamp, true⟩

end LiquidityWatch.Rsi
