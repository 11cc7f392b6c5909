import LiquidityWatch.Binary64

/-! # Bit patterns

The 64-bit pattern of a binary64 number: the sign, eleven bits of exponent and 52 of fraction. In
units of `2 ^ -1074` the pattern of a number below `2 ^ 53` units is its number of units, and each
doubling beyond adds one to the exponent. -/

namespace LiquidityWatch.Binary64

/-- Bits of the fraction. -/
def fractionBits : Nat := 52

/-- The sign of a pattern. -/
def signPattern (negative : Bool) : Nat := if negative then Nat.pow 2 63 else 0

/-- The pattern of an infinity without its sign; patterns above it are NaNs. -/
def infinityPattern : Nat := 2047 * Nat.pow 2 fractionBits

def toBits : Binary64 → Nat
  | nan => infinityPattern + Nat.pow 2 (fractionBits - 1)
  | infinite negative => signPattern negative + infinityPattern
  | finite negative units =>
    let doublings := units.log2 - fractionBits
    signPattern negative + doublings * Nat.pow 2 fractionBits + units / Nat.pow 2 doublings

end LiquidityWatch.Binary64
