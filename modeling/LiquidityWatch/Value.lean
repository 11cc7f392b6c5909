import LiquidityWatch.Number
import LiquidityWatch.Text.Numeral

/-! # Values

What a document holds: nothing, a truth value, a number, text, bytes, a list, or an object whose
fields keep their order and have different names. A value may also be a candle that has been read
already. The functions here look into a value, show it, and read it as a number; each says with a
fault why it cannot. -/

namespace LiquidityWatch

inductive Value where
  | null
  | truth (b : Bool)
  | number (n : Number)
  | text (t : Text)
  | bytes (bs : List UInt8)
  | list (items : List Value)
  | object (fields : List (Text × Value))
  | candle (timestamp opening high low closing volume : Value)
deriving BEq, Inhabited

namespace Value

/-- A whole number as a value. -/
def whole (n : Int) : Value := number (.whole n)

/-- A binary64 number as a value. -/
def real (x : Binary64) : Value := number (.real x)

def kind : Value → Kind
  | null => .null
  | truth _ => .truth
  | number n => n.kind
  | text _ => .text
  | bytes _ => .bytes
  | list _ => .list
  | object _ => .object
  | candle .. => .candle

/-- Nothing, false, zero and everything empty do not count as true. -/
def isTruthy : Value → Bool
  | null => false
  | truth b => b
  | number n => !n.isZero
  | text t => !t.isEmpty
  | bytes bs => !bs.isEmpty
  | list items => !items.isEmpty
  | object fields => !fields.isEmpty
  | candle .. => true

/-- The value if it counts as true, otherwise the other one. -/
def orElse (v other : Value) : Value := if v.isTruthy then v else other

/-- The field of a name in a list of fields. -/
def lookup (name : Text) (fields : List (Text × Value)) : Option Value :=
  (fields.find? fun field => field.1 == name).map Prod.snd

/-- Adds a field, or replaces the one that has the name and leaves it in its place. -/
def insertField (fields : List (Text × Value)) (name : Text) (v : Value) :
    List (Text × Value) :=
  if fields.any fun field => field.1 == name then
    fields.map fun field => if field.1 == name then (name, v) else field
  else fields ++ [(name, v)]

/-- The field of a name, if there is one. -/
def field? (v : Value) (name : Text) : Except Fault (Option Value) :=
  match v with
  | object fields => .ok (lookup name fields)
  | other => .error (.withoutFields other.kind)

/-- The field of a name, or a default. -/
def fieldD (v : Value) (name : Text) (default : Value) : Except Fault Value := do
  return (← v.field? name).getD default

/-- The item of a name, which has to be there. -/
def item (v : Value) (name : Text) : Except Fault Value :=
  match v with
  | object fields => match lookup name fields with
    | some found => .ok found
    | none => .error (.missingKey name)
  | other => .error (.withoutItems other.kind)

/-- What going through a value gives, one after the other. -/
def elements : Value → Except Fault (List Value)
  | list items => .ok items
  | text t => .ok (t.codes.map fun c => text ⟨[c]⟩)
  | bytes bs => .ok (bs.map fun b => whole b.toNat)
  | object fields => .ok (fields.map fun field => text field.1)
  | other => .error (.notIterable other.kind)

/-- Values that have to be text to be joined; the first of them has the index. -/
def texts : Nat → List Value → Except Fault (List Text)
  | _, [] => .ok []
  | index, text t :: rest => do return t :: (← texts (index + 1) rest)
  | index, other :: _ => .error (.notText index other.kind)

mutual

/-- The text of a value inside other values. -/
def quote : Value → String
  | null => "None"
  | truth b => if b then "True" else "False"
  | number n => n.shown
  | text t => quoted t
  | bytes bs => quotedBytes bs
  | list items => "[" ++ String.intercalate ", " (quoteItems items) ++ "]"
  | object fields => "\x7b" ++ String.intercalate ", " (quoteFields fields) ++ "\x7d"
  | candle timestamp opening high low closing volume =>
    "Candle(timestamp=" ++ timestamp.quote ++ ", open=" ++ opening.quote ++ ", high=" ++
      high.quote ++ ", low=" ++ low.quote ++ ", close=" ++ closing.quote ++ ", volume=" ++
      volume.quote ++ ")"

def quoteItems : List Value → List String
  | [] => []
  | v :: rest => v.quote :: quoteItems rest

def quoteFields : List (Text × Value) → List String
  | [] => []
  | (name, v) :: rest => (quoted name ++ ": " ++ v.quote) :: quoteFields rest

end

/-- The text of a value by itself: text stands for itself. -/
def shown : Value → Text
  | text t => t
  | other => other.quote

/-- The characters that a row of bytes spells, for reading a numeral from it. -/
def asciiChars (bs : List UInt8) : List Char :=
  bs.map fun b => if b.toNat < 128 then Char.ofNat b.toNat else Char.ofNat 0xfffd

/-- Reads a real numeral; `shown` is what a fault shows of the text. -/
def realOfChars (cs : List Char) (shown : String) : Except Fault Binary64 :=
  match readReal cs with
  | some numeral => .ok numeral.toBinary64
  | none => .error (.badReal shown)

/-- A value as a binary64 number; text and bytes are read as numerals. -/
def toReal : Value → Except Fault Binary64
  | truth b => Number.roundWhole (if b then 1 else 0)
  | number n => n.toReal
  | text t => realOfChars t.toChars (quoted t)
  | bytes bs => realOfChars (asciiChars bs) (quotedBytes bs)
  | other => .error (.notReadableAsReal other.kind)

/-- Reads a whole numeral; `shown` is what a fault shows of the text. -/
def wholeOfChars (cs : List Char) (shown : String) : Except Fault Int :=
  match readWhole cs with
  | .ok n => .ok n
  | .error .malformed => .error (.badWhole shown)
  | .error (.tooLong digits) => .error (.tooManyDigits (some digits))

/-- The whole part of a binary64 number. -/
def truncate (x : Binary64) : Except Fault Int :=
  match x.truncate? with
  | some n => .ok n
  | none => .error (if x.isNaN then .nanAsWhole else .infinityAsWhole)

/-- A value as a whole number: a binary64 number loses its fraction, text and bytes are read as
numerals. -/
def toWhole : Value → Except Fault Int
  | truth b => .ok (if b then 1 else 0)
  | number (.whole n) => .ok n
  | number (.real x) => truncate x
  | text t => wholeOfChars t.toChars (quoted t)
  | bytes bs => wholeOfChars (asciiChars bs) (quotedBytes bs)
  | other => .error (.notReadableAsWhole other.kind)

/-- The number that a value counts as in arithmetic. -/
def toNumber? : Value → Option Number
  | truth b => some (.whole (if b then 1 else 0))
  | number n => some n
  | _ => none

end Value

end LiquidityWatch
