import LiquidityWatch.Text

/-! # Code units

Units of sixteen bits as text. A high surrogate right before a low one stands for a character beyond
`U+FFFF`; every other unit is a code by itself. Units and codes may be mixed, as in a string that
holds some characters as they are and others by their units; only units are put together. -/

namespace LiquidityWatch

/-- A code, or a unit of sixteen bits. -/
inductive Piece where
  | code (c : Code)
  | unit (n : Nat)

def isHighSurrogate (n : Nat) : Bool := 0xd800 ≤ n && n < 0xdc00

def isLowSurrogate (n : Nat) : Bool := 0xdc00 ≤ n && n < 0xe000

/-- The code point that a high and a low surrogate stand for. -/
def pairPoint (high low : Nat) : Nat := 0x10000 + (high - 0xd800) * 0x400 + (low - 0xdc00)

/-- The codes that a row of pieces stands for. -/
def codesOfPieces : List Piece → List Code
  | .unit high :: .unit low :: rest =>
    if isHighSurrogate high && isLowSurrogate low then
      .ofNat (pairPoint high low) :: codesOfPieces rest
    else .ofNat high :: codesOfPieces (.unit low :: rest)
  | .unit n :: rest => .ofNat n :: codesOfPieces rest
  | .code c :: rest => c :: codesOfPieces rest
  | [] => []

end LiquidityWatch
