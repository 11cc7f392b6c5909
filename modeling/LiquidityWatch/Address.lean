import LiquidityWatch.Value

/-! # Addresses

Addresses of accounts are base58 text of 32 to 44 characters. Reports show a long address by its
ends; the shortening also applies to whatever a price service gives in place of an address, as far
as that has a length. -/

namespace LiquidityWatch.Address

/-- The base58 alphabet leaves out the zero, the capital I and O and the small l. -/
def isBase58 (c : Char) : Bool :=
  ('1' ≤ c && c ≤ '9') || ('A' ≤ c && c ≤ 'H') || ('J' ≤ c && c ≤ 'N') || ('P' ≤ c && c ≤ 'Z') ||
    ('a' ≤ c && c ≤ 'k') || ('m' ≤ c && c ≤ 'z')

def isAddress (t : Text) : Bool := 32 ≤ t.length && t.length ≤ 44 && t.toChars.all isBase58

/-- What is at most this long is not shortened. -/
def shortLength : Nat := 8

/-- The elements kept at each end. -/
def keptLength : Nat := 4

def shorten (t : Text) : Text :=
  if t.length ≤ shortLength then t
  else ⟨t.codes.take keptLength⟩ ++ "..." ++ ⟨t.codes.drop (t.length - keptLength)⟩

/-- The text of a value shortened like an address: a list shows its ends, an object cannot. -/
def shortenValue (v : Value) : Except Fault Text :=
  let join (front back : Value) : Text := front.shown ++ "..." ++ back.shown
  match v with
  | .text t => .ok (shorten t)
  | .bytes bs =>
    if bs.length ≤ shortLength then .ok v.shown
    else .ok (join (.bytes (bs.take keptLength)) (.bytes (bs.drop (bs.length - keptLength))))
  | .list items =>
    if items.length ≤ shortLength then .ok v.shown
    else .ok (join (.list (items.take keptLength))
      (.list (items.drop (items.length - keptLength))))
  | .object fields =>
    if fields.length ≤ shortLength then .ok v.shown else .error (.notSliceable .object)
  | other => .error (.withoutLength other.kind)

end LiquidityWatch.Address
