import LiquidityWatch.Scalar
import LiquidityWatch.Value.Order

/-! # Arithmetic on values

Values as scalars. Numbers and truth values are computed with; text, bytes and lists can be joined
with their like and repeated a whole number of times. Every other combination is a fault that names the
kinds involved. -/

namespace LiquidityWatch.Value

/-- An operation on the numbers that two values count as. -/
def arithmetic (sign : String) (operation : Number → Number → Except Fault Number) (a b : Value) :
    Except Fault Value :=
  match a.toNumber?, b.toNumber? with
  | some m, some n => do return number (← operation m n)
  | _, _ => .error (.unsupported sign a.kind b.kind)

/-- The whole number that a value counts as. -/
def count? : Value → Option Int
  | truth b => some (if b then 1 else 0)
  | number (.whole n) => some n
  | _ => none

/-- A list several times over; not at all for a negative count. -/
def replicate {β : Type} (items : List β) (count : Int) : List β :=
  (List.replicate count.toNat items).flatten

/-- Counts lie in a signed 64-bit word. -/
def countBound : Int := Nat.pow 2 63

/-- A sequence several times over; `none` for what is no sequence. -/
def repeated? (count : Int) : Value → Option Value
  | text s => some (text ⟨replicate s.codes count⟩)
  | bytes bs => some (bytes (replicate bs count))
  | list items => some (list (replicate items count))
  | _ => none

/-- The sequence several times over, if the other value is a count. -/
def repeatBy (sequence count : Value) : Except Fault Value :=
  match count.count? with
  | none => .error (.notCount count.kind)
  | some n =>
    if n < -countBound ∨ countBound ≤ n then .error .countTooLarge
    else .ok ((sequence.repeated? n).getD sequence)

def isSequence : Value → Bool
  | text _ | bytes _ | list _ => true
  | _ => false

/-- Sums of numbers and joined sequences. -/
def plus (sign : String) : Value → Value → Except Fault Value
  | text s, text t => .ok (text (s ++ t))
  | bytes bs, bytes cs => .ok (bytes (bs ++ cs))
  | list items, list others => .ok (list (items ++ others))
  | a, b =>
    if a.isSequence then .error (.notJoinable a.kind b.kind)
    else arithmetic sign Number.add a b

/-- Products of numbers and repeated sequences. -/
def times (a b : Value) : Except Fault Value :=
  if a.isSequence then repeatBy a b
  else if b.isSequence then repeatBy b a
  else arithmetic "*" Number.mul a b

/-- An operation on the number that a value counts as. -/
def unary (name : String) (operation : Number → Number) (a : Value) : Except Fault Value :=
  match a.toNumber? with
  | some n => .ok (number (operation n))
  | none => .error (.unsupportedUnary name a.kind)

instance : Scalar Value where
  ofInt := whole
  ofWhole n := do return real (← Number.roundWhole n)
  ofDecimal d := real d.toBinary64
  ofReal x := .ok (real x)
  add := plus "+"
  addTo := plus "+="
  sub := arithmetic "-" Number.sub
  mul := times
  div := arithmetic "/" Number.div
  neg := unary "unary -" Number.neg
  abs := unary "abs()" Number.abs
  isZero a := !a.isTruthy
  isFinite a := match a.toNumber? with
    | some n => n.isFinite
    | none => .error (.notNumeric a.kind)

end LiquidityWatch.Value
