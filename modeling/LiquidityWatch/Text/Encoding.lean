import LiquidityWatch.Fault
import LiquidityWatch.Text.Unit

/-! # Encodings

Text from bytes. UTF-8 is read strictly, and a fault names the first bytes that are none, up to the
byte that shows it. A body without a declared encoding is read in the one that its first bytes
reveal: a byte order mark, or the zeros around the first character, which in such a body is
ASCII. -/

namespace LiquidityWatch

/-- What may follow the first byte of a character: how many bytes, and the range of the next one. -/
structure Expected where
  missing : Nat
  low : Nat
  high : Nat

/-- What the first byte of a character of several bytes leads to expect. Surrogates are characters
only where they are let through. -/
def expectedAfter (surrogates : Bool) (first : Nat) : Option Expected :=
  if first < 0xc2 then none
  else if first < 0xe0 then some ⟨1, 0x80, 0xbf⟩
  else if first = 0xe0 then some ⟨2, 0xa0, 0xbf⟩
  else if first = 0xed then some ⟨2, 0x80, if surrogates then 0xbf else 0x9f⟩
  else if first < 0xf0 then some ⟨2, 0x80, 0xbf⟩
  else if first = 0xf0 then some ⟨3, 0x90, 0xbf⟩
  else if first < 0xf4 then some ⟨3, 0x80, 0xbf⟩
  else if first = 0xf4 then some ⟨3, 0x80, 0x8f⟩
  else none

/-- The bits of a character that its first byte holds. -/
def leadingBits (expected : Expected) (first : Nat) : Nat :=
  if expected.missing = 1 then first % 0x20 else if expected.missing = 2 then first % 0x10
  else first % 0x08

/-- A character that has begun: where, with which byte, what is expected next, and its bits
so far. -/
structure Begun where
  start : Nat
  first : UInt8
  expected : Expected
  bits : Nat

/-- The codes of UTF-8 bytes, from a position on and with a character possibly begun. -/
def utf8From (surrogates : Bool) (position : Nat) (begun? : Option Begun) :
    List UInt8 → Except Fault (List Code)
  | [] => match begun? with
    | none => .ok []
    | some begun => .error (.badEncoding .truncated begun.first begun.start (position - 1))
  | b :: rest => match begun? with
    | none =>
      if b.toNat < 0x80 then do
        return .ofNat b.toNat :: (← utf8From surrogates (position + 1) none rest)
      else match expectedAfter surrogates b.toNat with
        | none => .error (.badEncoding .start b position position)
        | some expected =>
          utf8From surrogates (position + 1)
            (some ⟨position, b, expected, leadingBits expected b.toNat⟩) rest
    | some begun =>
      let bits := begun.bits * 0x40 + b.toNat % 0x40
      if b.toNat < begun.expected.low || begun.expected.high < b.toNat then
        .error (.badEncoding .continuation begun.first begun.start (position - 1))
      else if begun.expected.missing = 1 then do
        return .ofNat bits :: (← utf8From surrogates (position + 1) none rest)
      else
        utf8From surrogates (position + 1)
          (some { begun with expected := ⟨begun.expected.missing - 1, 0x80, 0xbf⟩, bits }) rest

/-- The codes of UTF-8 bytes. -/
def decodeUtf8 (bytes : List UInt8) : Except Fault (List Code) := utf8From false 0 none bytes

/-- The order of the bytes of a unit. -/
inductive ByteOrder where
  | bigFirst
  | littleFirst

def unitOf (order : ByteOrder) (bytes : List UInt8) : Nat :=
  let ordered := match order with
    | .bigFirst => bytes
    | .littleFirst => bytes.reverse
  ordered.foldl (fun n b => n * 256 + b.toNat) 0

/-- Units of two bytes each; `none` when a byte is left. -/
def units16 (order : ByteOrder) : List UInt8 → Option (List Nat)
  | [] => some []
  | a :: b :: rest => (units16 order rest).map (unitOf order [a, b] :: ·)
  | [_] => none

/-- Code points of four bytes each; `none` when bytes are left or one is out of range. -/
def points32 (order : ByteOrder) : List UInt8 → Option (List Nat)
  | [] => some []
  | a :: b :: c :: d :: rest =>
    let point := unitOf order [a, b, c, d]
    if point < 0x110000 then (points32 order rest).map (point :: ·) else none
  | _ => none

inductive Encoding where
  | utf8
  | utf16 (order : ByteOrder)
  | utf32 (order : ByteOrder)

/-- The encoding of a body, and the body without its byte order mark. -/
def detectEncoding (bytes : List UInt8) : Encoding × List UInt8 :=
  match bytes with
  | 0x00 :: 0x00 :: 0xfe :: 0xff :: rest => (.utf32 .bigFirst, rest)
  | 0xff :: 0xfe :: 0x00 :: 0x00 :: rest => (.utf32 .littleFirst, rest)
  | 0xfe :: 0xff :: rest => (.utf16 .bigFirst, rest)
  | 0xff :: 0xfe :: rest => (.utf16 .littleFirst, rest)
  | 0xef :: 0xbb :: 0xbf :: rest => (.utf8, rest)
  | a :: b :: c :: d :: _ =>
    if a = 0 then (if b = 0 then .utf32 .bigFirst else .utf16 .bigFirst, bytes)
    else if b = 0 then (if c = 0 && d = 0 then .utf32 .littleFirst else .utf16 .littleFirst, bytes)
    else (.utf8, bytes)
  | [a, b] =>
    if a = 0 then (.utf16 .bigFirst, bytes)
    else if b = 0 then (.utf16 .littleFirst, bytes)
    else (.utf8, bytes)
  | _ => (.utf8, bytes)

/-- The codes of a body. -/
def decodeBody (bytes : List UInt8) : Except Fault (List Code) :=
  match detectEncoding bytes with
  | (.utf8, rest) => utf8From true 0 none rest
  | (.utf16 order, rest) => match units16 order rest with
    | some units => .ok (codesOfPieces (units.map .unit))
    | none => .error .malformedBody
  | (.utf32 order, rest) => match points32 order rest with
    | some points => .ok (points.map .ofNat)
    | none => .error .malformedBody

end LiquidityWatch
