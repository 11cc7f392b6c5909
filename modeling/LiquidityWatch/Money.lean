import LiquidityWatch.Number

/-! # Texts of amounts of money

The number formats of the reports. Dollar amounts have two places and commas between thousands; a
difference shows its sign before the dollar, a difference in percent shows a plus. A NaN is not at
least zero, so its dollar text has a minus and its percent text no sign. -/

namespace LiquidityWatch.Money

/-- The format of dollar amounts. -/
def dollars : FixedFormat := ⟨2, true⟩

/-- The format of dollar prices. -/
def dollarPrice : FixedFormat := ⟨6, true⟩

/-- The format of the price of a deposit. -/
def depositPrice : FixedFormat := ⟨8, false⟩

/-- The format of percentages and of the index. -/
def percent : FixedFormat := ⟨2, false⟩

/-- The format of fee percentages. -/
def feePercent : FixedFormat := ⟨4, false⟩

/-- The format of the current fee percentage. -/
def currentFeePercent : FixedFormat := ⟨6, false⟩

def isAtLeastZero (v : Number) : Bool := Number.le (.whole 0) v

def signedUsd (v : Number) : Except Fault String := do
  return (if isAtLeastZero v then "+" else "-") ++ "$" ++ (← v.abs.fixed dollars)

def signedPercent (v : Number) : Except Fault String := do
  return (if isAtLeastZero v then "+" else "") ++ (← v.fixed percent) ++ "%"

/-- The sign of a profit, as a picture. -/
def trend (difference : Number) : String := if isAtLeastZero difference then "📈" else "📉"

end LiquidityWatch.Money
