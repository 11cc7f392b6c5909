import LiquidityWatch.Text
import LiquidityWatch.Text.Printable

/-! # Quoted text

Text between quotes, as it is shown inside messages and lists: single quotes unless the text holds
a single quote and no double one; the quote in use, the backslash, tabs and line ends escaped; every
other unprintable character, and every surrogate, by its code point in lower-case hexadecimal
digits. -/

namespace LiquidityWatch

/-- The last `width` hexadecimal digits of a number. -/
def hexDigits (width n : Nat) : List Char :=
  match width with
  | 0 => []
  | width + 1 => hexDigits width (n / 16) ++ [Nat.digitChar (n % 16)]

/-- The quote that a text is put between. -/
def quoteFor (cs : List Char) : Char :=
  if cs.contains '\x27' && !cs.contains '\x22' then '\x22' else '\x27'

/-- The escapes that quoted text and quoted bytes share. -/
def escapeCommon? (quote c : Char) : Option (List Char) :=
  if c = quote || c = '\x5c' then some ['\x5c', c]
  else if c = '\t' then some ['\x5c', 't']
  else if c = '\n' then some ['\x5c', 'n']
  else if c = '\r' then some ['\x5c', 'r']
  else none

def escapeChar (quote c : Char) : List Char :=
  match escapeCommon? quote c with
  | some escaped => escaped
  | none =>
    let n := c.toNat
    if isPrintable c then [c]
    else if n < 0x100 then '\x5c' :: 'x' :: hexDigits 2 n
    else if n < 0x10000 then '\x5c' :: 'u' :: hexDigits 4 n
    else '\x5c' :: 'U' :: hexDigits 8 n

def escapeCode (quote : Char) : Code → List Char
  | .char c => escapeChar quote c
  | .surrogate offset => '\x5c' :: 'u' :: hexDigits 4 (Code.surrogate offset).toNat

/-- The text between quotes. -/
def quoted (t : Text) : String :=
  let quote := quoteFor t.toChars
  String.ofList (quote :: (t.codes.flatMap (escapeCode quote) ++ [quote]))

def escapeByte (quote : Char) (b : UInt8) : List Char :=
  let c := Char.ofNat b.toNat
  match escapeCommon? quote c with
  | some escaped => escaped
  | none => if 0x20 ≤ b.toNat && b.toNat < 0x7f then [c] else '\x5c' :: 'x' :: hexDigits 2 b.toNat

/-- Bytes between quotes, after the mark `b`. -/
def quotedBytes (bytes : List UInt8) : String :=
  let quote := quoteFor (bytes.map fun b => Char.ofNat b.toNat)
  String.ofList ('b' :: quote :: (bytes.flatMap (escapeByte quote) ++ [quote]))

end LiquidityWatch
