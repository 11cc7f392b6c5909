import LiquidityWatch.Scalar
import LiquidityWatch.Value

/-! # Raw amounts

A token amount comes as a whole number of the token's smallest unit, as a number or as text, and is
wanted in whole tokens. The conversion writes the exact decimal and reads it back, so that a single
rounding separates the result from `units / 10 ^ decimals`. Decimals are a whole number; a position
that has not been checked may have others, and then a fault says why they cannot be used. -/

namespace LiquidityWatch

namespace Amount

/-- The part of a text before its first point, or a zero when there is none. -/
def wholeText (t : Text) : List Char :=
  match (stripped t.toChars).takeWhile (· != '.') with
  | [] => ['0']
  | cs => cs

/-- The number of smallest units that a raw amount stands for. A fraction is cut off. -/
def units : Value → Except Fault Int
  | .text t => match readWhole (wholeText t) with
    | .ok n => .ok n
    | .error _ => .error (.badAmount (quoted t))
  | .truth _ => .error .truthAmount
  | .number (.real x) => match x.truncate? with
    | some n => .ok n
    | none => .error (.badAmount x.shortest)
  | .number (.whole n) => .ok n
  | .null => .ok 0
  | other => .error (.badAmountKind other.kind)

/-- The digits of a number, as long as there are not too many of them. -/
def writtenDigits (n : Nat) : Except Fault (List Char) :=
  let digits := digitsOf n
  if Fault.digitLimit < digits.length then .error (.tooManyDigits none) else .ok digits

/-- The decimal text of `units / 10 ^ decimals`, with exactly `decimals` digits after the point. -/
def decimalText (units : Int) (decimals : Nat) : Except Fault (List Char) := do
  let scale := Nat.pow 10 decimals
  let whole ← writtenDigits (units.natAbs / scale)
  let fraction ← writtenDigits (units.natAbs % scale)
  return (if units < 0 then ['-'] else []) ++ whole ++ '.' :: padZeros decimals fraction

variable {α : Type} [Scalar α]

/-- A number of smallest units in whole tokens. Without decimals the number is taken as it is. -/
def ofUnits (units : Int) (decimals : Nat) : Except Fault α :=
  if decimals = 0 then Scalar.ofWhole units
  else do
    let text ← decimalText units decimals
    match readReal text with
    | some (.decimal d) => return Scalar.ofDecimal d
    | _ => .error (.badReal (quoted (String.ofList text)))

/-- Decimals below zero are shown, unless they have too many digits. -/
def negativeFault (decimals : Int) : Fault :=
  if Fault.digitLimit < (digitsOf decimals.natAbs).length then .tooManyDigits none
  else .negativeDecimals (toString decimals)

/-- A raw amount in whole tokens. -/
def ofRaw (raw : Value) (decimals : Int) : Except Fault α :=
  if decimals < 0 then .error (negativeFault decimals)
  else do ofUnits (← units raw) decimals.toNat

/-! ## Decimals of any kind -/

/-- Ten to this power is in range, and to no greater one. -/
def greatestPower : Binary64 := Decimal.toBinary64 ⟨false, 3082547155599167, -13⟩

/-- What happens when a number of smallest units is to be written with decimals that are a binary64
number above zero, or a NaN. -/
def realDecimalsFault (units : Int) (decimals : Binary64) : Fault :=
  if decimals.isFinite && Number.lt (.real greatestPower) (.real decimals) then .powerTooLarge
  else match Number.roundWhole units.natAbs with
    | .error f => f
    | .ok _ =>
      if decimals.isFinite && !decimals.shortest.toList.contains 'e' then .fractionalDecimals
      else .badDecimals decimals.shortest .real

/-- A raw amount in whole tokens, with decimals of any kind: they have to be comparable with zero,
and only whole numbers can be used unless they are zero. -/
def ofRawBy (raw decimals : Value) : Except Fault α := do
  match decimals with
  | .number (.whole d) => ofRaw raw d
  | .truth one =>
    let n ← units raw
    if one then
      let _ ← writtenDigits (n.natAbs / 10)
      throw (.badDecimals decimals.quote .whole)
    else Scalar.ofWhole n
  | .number (.real x) =>
    if Number.lt (.real x) (.whole 0) then throw (.negativeDecimals x.shortest)
    let n ← units raw
    if x.isZero then Scalar.ofWhole n else throw (realDecimalsFault n x)
  | other => throw (.unordered true other.kind .whole)

end Amount

/-- What can say how many decimals the amounts of a token have. -/
class Decimals (β : Type) where
  /-- A raw amount in whole tokens. -/
  ofRaw {α : Type} [Scalar α] (raw : Value) (decimals : β) : Except Fault α

instance : Decimals Int := ⟨Amount.ofRaw⟩

instance : Decimals Value := ⟨Amount.ofRawBy⟩

end LiquidityWatch
