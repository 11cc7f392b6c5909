import LiquidityWatch.Identifier
import LiquidityWatch.Ledger
import LiquidityWatch.Profit
import LiquidityWatch.Valuation

/-! # Wallet summaries

The totals over the positions of a wallet. A position adds its values and, where its initial value
is known, that; one whose initial value is not known adds nothing to the initial total. -/

namespace LiquidityWatch

open Scalar

structure Summary (α : Type) where
  positions : Nat
  inRange : Nat
  initialValue : α
  positionValue : α
  claimedFees : α
  unclaimedFees : α
deriving DecidableEq

namespace Summary

variable {α : Type} [Scalar α]

def empty : Summary α := ⟨0, 0, zero, zero, zero, zero⟩

/-- The known initial value of a position, zero if there is none. -/
def knownInitialValue (known : Ledger Identifier α) (positionId : Value) : Except Fault α := do
  return (known.get? (← positionId.identifier)).getD zero

/-- Adds a position. -/
def addValuation (known : Ledger Identifier α) (s : Summary α) (v : Valuation α) :
    Except Fault (Summary α) := do
  let positionValue ← addTo s.positionValue (← v.positionValue)
  let claimedFees ← addTo s.claimedFees (← v.claimedValue)
  let unclaimedFees ← addTo s.unclaimedFees (← v.unclaimedValue)
  let initialValue ← addTo s.initialValue (← knownInitialValue known v.positionId)
  return {
    positions := s.positions + 1
    inRange := if v.inRange then s.inRange + 1 else s.inRange
    initialValue, positionValue, claimedFees, unclaimedFees }

/-- The totals over valuations, given the initial values that are known. -/
def ofValuations (known : Ledger Identifier α) (valuations : List (Valuation α)) :
    Except Fault (Summary α) :=
  valuations.foldlM (addValuation known) empty

variable (s : Summary α)

def outOfRange : Nat := s.positions - s.inRange

def currentValue : Except Fault α := do
  add (← add s.positionValue s.claimedFees) s.unclaimedFees

def profit : Except Fault (Profit α) := do Profit.over (← s.currentValue) s.initialValue

end Summary

end LiquidityWatch
