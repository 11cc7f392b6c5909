import LiquidityWatch.Scalar

/-! # Wilder's relative strength index

The index of a series of closing prices, oldest first. The average gain and the average loss are
seeded with the first changes and then smoothed: each further change counts `1 / period`. With
average gain `g` and average loss `l` the index is `100 - 100 / (1 + g / l)`, and 100 when there is
no loss. The seed is divided by the period also when the series is shorter than that. -/

namespace LiquidityWatch.Rsi

open Comparable Scalar

variable {α : Type} [Scalar α]

/-- The smoothing window of Wilder's definition. -/
def standardPeriod : Int := 14

/-- The change from each close to the next. -/
def priceChanges : List α → Except Fault (List α)
  | earlier :: later :: rest => do
    let change ← sub later earlier
    return change :: (← priceChanges (later :: rest))
  | _ => .ok []

/-- How many elements of a list a bound takes: a negative bound counts from the end. -/
def boundedLength (bound : Int) (length : Nat) : Nat :=
  if 0 ≤ bound then bound.toNat else length - bound.natAbs

/-- An average gain and an average loss, or the sums they come from. -/
structure Averages (α : Type) where
  gain : α
  loss : α
deriving DecidableEq

/-- Adds a change to the sum it belongs to. -/
def Averages.addChange (sums : Averages α) (change : α) : Except Fault (Averages α) := do
  if ← lt (ofInt 0) change then return { sums with gain := ← add sums.gain change }
  else return { sums with loss := ← add sums.loss (← abs change) }

/-- One step of Wilder's smoothing. -/
def smooth (period : Int) (average value : α) : Except Fault α := do
  div (← add (← mul average (ofInt (period - 1))) value) (ofInt period)

/-- Smooths both averages with the gain and the loss of one change. -/
def Averages.update (period : Int) (averages : Averages α) (change : α) :
    Except Fault (Averages α) := do
  let gain ← max change zero
  let loss ← max (← neg change) zero
  return ⟨← smooth period averages.gain gain, ← smooth period averages.loss loss⟩

/-- The smoothed average gain and average loss of a series of closes. -/
def smoothedAverages (closes : List α) (period : Int) : Except Fault (Averages α) := do
  let changes ← priceChanges closes
  let seed := boundedLength period changes.length
  let sums ← (changes.take seed).foldlM Averages.addChange ⟨zero, zero⟩
  let first : Averages α := ⟨← div sums.gain (ofInt period), ← div sums.loss (ofInt period)⟩
  (changes.drop seed).foldlM (Averages.update period) first

/-- The index that belongs to an average gain and an average loss. -/
def ofAverages (averages : Averages α) : Except Fault α := do
  if isZero averages.loss then return hundred
  let strength ← div averages.gain averages.loss
  let index ← sub hundred (← div hundred (← add (ofInt 1) strength))
  min (← max index zero) hundred

/-- The index of a series; closes that are not finite are skipped, and fewer than two leave zero. -/
def ofCloses (closes : List α) (period : Int) : Except Fault α := do
  let finite ← closes.filterM isFinite
  if finite.length < 2 then return zero
  ofAverages (← smoothedAverages finite period)

end LiquidityWatch.Rsi
