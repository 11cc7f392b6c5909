import LiquidityWatch.Comparable
import LiquidityWatch.Value

/-! # Order of values

Which values are equal, and which of two values comes first. Numbers and truth values are compared
as numbers, text by its code points, bytes from the first one on, and lists by the first items in
which they differ, or by their lengths if there are none. Objects are equal whatever the order of
their fields. Everything else has no order, and a fault names the kinds of what was compared. -/

namespace LiquidityWatch.Value

mutual

/-- The values are equal; a NaN is not equal to itself. -/
def equals : Value → Value → Bool
  | null, null => true
  | text s, text t => s == t
  | bytes bs, bytes cs => bs == cs
  | list items, list others => equalItems items others
  | object fields, object others => fields.length == others.length && equalFields fields others
  | candle timestamp opening high low closing volume,
    candle timestamp' opening' high' low' closing' volume' =>
    timestamp.equals timestamp' && opening.equals opening' && high.equals high' &&
      low.equals low' && closing.equals closing' && volume.equals volume'
  | a, b => match a.toNumber?, b.toNumber? with
    | some m, some n => m.equals n
    | _, _ => false

/-- Items that are equal one by one. -/
def equalItems : List Value → List Value → Bool
  | [], [] => true
  | v :: rest, w :: others => v.equals w && equalItems rest others
  | _, _ => false

/-- Fields of which each has an equal one with its name. -/
def equalFields : List (Text × Value) → List (Text × Value) → Bool
  | [], _ => true
  | (name, v) :: rest, others =>
    (match lookup name others with
      | some w => v.equals w
      | none => false) && equalFields rest others

end

/-- Bytes from the first one on, as numbers. -/
def bytesBefore (bs cs : List UInt8) : Bool :=
  decide (bs.map UInt8.toNat < cs.map UInt8.toNat)

mutual

/-- The first value comes before the second or, unless the comparison is strict, in its place. -/
def compared (strict : Bool) : Value → Value → Except Fault Bool
  | text s, text t => .ok (if strict then s.lt t else s.le t)
  | bytes bs, bytes cs => .ok (if strict then bytesBefore bs cs else !bytesBefore cs bs)
  | list items, list others => comparedItems strict items others
  | a, b => match a.toNumber?, b.toNumber? with
    | some m, some n => .ok (if strict then m.lt n else m.le n)
    | _, _ => .error (.unordered strict a.kind b.kind)

/-- Compares the first items that differ, or else the lengths. -/
def comparedItems (strict : Bool) : List Value → List Value → Except Fault Bool
  | v :: rest, w :: others =>
    if v.equals w then comparedItems strict rest others else compared strict v w
  | items, others =>
    .ok (if strict then items.length < others.length else items.length ≤ others.length)

end

/-- A number with a place among the others, which a NaN has not. -/
def isPlaced (v : Value) : Bool := (v.toNumber?.bind Number.place?).isSome

def isText : Value → Bool
  | text _ => true
  | _ => false

instance : Comparable Value where
  lt := compared true
  le := compared false
  isOrder values := values.all isPlaced || values.all isText

end LiquidityWatch.Value
