import LiquidityWatch.Value

/-! # Identifiers

The values that can name something: everything but lists and objects. Two identifiers are the same
when their keys are equal; a number has the same key however it is written, and a truth value has
the key of zero or one. -/

namespace LiquidityWatch

inductive Identifier where
  | null
  | truth (b : Bool)
  | number (n : Number)
  | text (t : Text)
  | bytes (bs : List UInt8)

namespace Identifier

/-- What identifiers are compared by; the number without a place is the NaN. -/
inductive Key where
  | null
  | number (place : Option Place)
  | text (t : Text)
  | bytes (bs : List UInt8)
deriving DecidableEq

def key : Identifier → Key
  | null => .null
  | truth b => .number (Number.whole (if b then 1 else 0)).place?
  | number n => .number n.place?
  | text t => .text t
  | bytes bs => .bytes bs

instance : BEq Identifier := ⟨fun a b => a.key == b.key⟩

theorem beq_iff {a b : Identifier} : a == b ↔ a.key = b.key := by
  show (a.key == b.key) = true ↔ _
  simp

instance : EquivBEq Identifier where
  rfl := beq_iff.2 rfl
  symm h := beq_iff.2 (beq_iff.1 h).symm
  trans h h' := beq_iff.2 ((beq_iff.1 h).trans (beq_iff.1 h'))

/-- Names that are text are the same only if they are equal. -/
@[simp] theorem text_beq_text (s t : Text) : (text s == text t) = decide (s = t) := by
  show (Key.text s == Key.text t) = _
  by_cases h : s = t <;> simp [h]

def toValue : Identifier → Value
  | null => .null
  | truth b => .truth b
  | number n => .number n
  | text t => .text t
  | bytes bs => .bytes bs

end Identifier

/-- The identifier that a value is. -/
def Value.identifier : Value → Except Fault Identifier
  | .null => .ok .null
  | .truth b => .ok (.truth b)
  | .number n => .ok (.number n)
  | .text t => .ok (.text t)
  | .bytes bs => .ok (.bytes bs)
  | other => .error (.notKey other.kind)

end LiquidityWatch
