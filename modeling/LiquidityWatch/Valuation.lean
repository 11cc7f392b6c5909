import LiquidityWatch.Position

/-! # Valuations

A position at given token prices. The values of a position are sums over its two tokens of an amount
times the token's price: of the amounts held, of the fees claimed and of the fees to be claimed.
Fees and the current value add these up. -/

namespace LiquidityWatch

open Scalar

/-- The amounts of one token in a position, and its price. -/
structure Holding (α : Type) where
  amount : α
  claimed : α
  claimable : α
  price : α
deriving DecidableEq

structure Valuation (α : Type) where
  positionId : Value
  pool : Value
  inRange : Bool
  x : Holding α
  y : Holding α

namespace Valuation

variable {α : Type} [Scalar α] (v : Valuation α)

def xValue : Except Fault α := mul v.x.amount v.x.price

def yValue : Except Fault α := mul v.y.amount v.y.price

def positionValue : Except Fault α := do add (← v.xValue) (← v.yValue)

def claimedValue : Except Fault α := do
  add (← mul v.x.claimed v.x.price) (← mul v.y.claimed v.y.price)

def unclaimedValue : Except Fault α := do
  add (← mul v.x.claimable v.x.price) (← mul v.y.claimable v.y.price)

/-- All fees, claimed or not. -/
def totalFees : Except Fault α := do add (← v.claimedValue) (← v.unclaimedValue)

/-- What the position is worth with all its fees. -/
def currentValue : Except Fault α := do add (← v.positionValue) (← v.totalFees)

end Valuation

/-- A position at the prices of its tokens. A fee to be claimed that counts as nothing is zero. -/
def Position.value {α β : Type} [Scalar α] [Comparable β] [Decimals β] (p : Position β)
    (priceX priceY : α) : Except Fault (Valuation α) := do
  let inRange ← p.inRange
  let amountX ← Decimals.ofRaw p.x.total p.x.decimals
  let amountY ← Decimals.ofRaw p.y.total p.y.decimals
  let claimedX ← Decimals.ofRaw p.x.claimed p.x.decimals
  let claimedY ← Decimals.ofRaw p.y.claimed p.y.decimals
  let claimableX ← Decimals.ofRaw (p.x.claimable.orElse (.whole 0)) p.x.decimals
  let claimableY ← Decimals.ofRaw (p.y.claimable.orElse (.whole 0)) p.y.decimals
  return {
    positionId := p.id
    pool := p.pool
    inRange
    x := ⟨amountX, claimedX, claimableX, priceX⟩
    y := ⟨amountY, claimedY, claimableY, priceY⟩ }

end LiquidityWatch
