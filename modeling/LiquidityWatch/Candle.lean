import LiquidityWatch.Scalar
import LiquidityWatch.Sorting
import LiquidityWatch.Value

/-! # Candles

One sample of a price series: when it was taken, the prices it opened and closed at, the extremes in
between and the volume. Price services send candles as rows of values, newest first or oldest first;
a row that is no candle is dropped, and a series is put into the order of time. -/

namespace LiquidityWatch

structure Candle (α : Type) where
  timestamp : α
  opening : α
  high : α
  low : α
  closing : α
  volume : α
deriving DecidableEq

namespace Candle

/-- The fields by which a row is a candle; a row may leave out the volume. -/
def ofNumbers : List Binary64 → Option (Candle Binary64)
  | [timestamp, opening, high, low, closing] =>
    some ⟨timestamp, opening, high, low, closing, .zero⟩
  | [timestamp, opening, high, low, closing, volume] =>
    some ⟨timestamp, opening, high, low, closing, volume⟩
  | _ => none

/-- The timestamp and the close are finite. -/
def isUsable (c : Candle Binary64) : Bool := c.timestamp.isFinite && c.closing.isFinite

/-- A fault that makes a row no candle; a number out of range is not one of them. -/
def dropsRow (f : Fault) : Bool := f.category == .type || f.isValueFault

/-- The candle that a row stands for: its first six items, read as numbers. Only a list is a row. -/
def ofRow : Value → Except Fault (Option (Candle Binary64))
  | .list items =>
    if items.length < 5 then .ok none
    else match (items.take 6).mapM Value.toReal with
      | .ok numbers => .ok ((ofNumbers numbers).filter isUsable)
      | .error f => if dropsRow f then .ok none else .error f
  | _ => .ok none

/-- The candle with its fields as scalars. -/
def ofReals {α : Type} [Scalar α] (c : Candle Binary64) : Except Fault (Candle α) := do
  return {
    timestamp := ← Scalar.ofReal c.timestamp
    opening := ← Scalar.ofReal c.opening
    high := ← Scalar.ofReal c.high
    low := ← Scalar.ofReal c.low
    closing := ← Scalar.ofReal c.closing
    volume := ← Scalar.ofReal c.volume }

end Candle

/-- An element of a series as it comes in: a candle already, or a row. -/
inductive Sample (α : Type) where
  | candle (c : Candle α)
  | row (v : Value)

namespace Sample

/-- A value as a sample: a candle is one already, and everything else is a row. -/
def ofElement : Value → Sample Value
  | .candle timestamp opening high low closing volume =>
    candle ⟨timestamp, opening, high, low, closing, volume⟩
  | v => row v

/-- The samples that a value holds; an empty value holds none. -/
def ofValue (v : Value) : Except Fault (List (Sample Value)) := do
  return (← (v.orElse (.list [])).elements).map ofElement

variable {α : Type} [Scalar α]

/-- The candle of a sample, if it is one. -/
def candle? : Sample α → Except Fault (Option (Candle α))
  | candle c => .ok (some c)
  | row v => do
    match ← Candle.ofRow v with
    | none => return none
    | some c => return some (← Candle.ofReals c)

/-- The candles among the samples, in their order. -/
def candles : List (Sample α) → Except Fault (List (Candle α))
  | [] => .ok []
  | sample :: rest => do
    match ← sample.candle? with
    | some c => return c :: (← candles rest)
    | none => candles rest

/-- The candles among the samples, oldest first. -/
def series (samples : List (Sample α)) : Except Fault (List (Candle α)) := do
  sortedBy Candle.timestamp (← candles samples)

end Sample

end LiquidityWatch
