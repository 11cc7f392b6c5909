import LiquidityWatch.Decimal
import LiquidityWatch.Fault
import LiquidityWatch.Text.Blank
import LiquidityWatch.Text.Digit

/-! # Numerals

Reading whole and real numerals from text. Blanks around a numeral are ignored, digits may come from
any script, and single underscores may stand between digits. A real numeral denotes a decimal number
exactly; rounding it is left to the reader of the decimal. -/

namespace LiquidityWatch

/-- A character as numerals see it: digits of every script as ASCII digits and blanks as spaces. -/
def plainChar (c : Char) : Char :=
  if c.toNat < 128 then c
  else if isBlank c then ' '
  else match digitValue? c with
    | some d => asciiDigit d
    | none => c

/-- The characters of a numeral without the blanks around it. -/
def numeralBody (cs : List Char) : List Char := trimEnds isBlank (cs.map plainChar)

/-- Takes an optional sign off; the flag says that it was a minus. -/
def splitSign : List Char → Bool × List Char
  | '-' :: rest => (true, rest)
  | '+' :: rest => (false, rest)
  | cs => (false, cs)

/-- Every underscore in a row of digits and underscores stands between two digits, and there is a
digit. The flag says that a digit came right before. -/
def wellSeparated (afterDigit : Bool) : List Char → Bool
  | [] => afterDigit
  | '_' :: rest => afterDigit && wellSeparated false rest
  | _ :: rest => wellSeparated true rest

def isDigitOrUnderscore (c : Char) : Bool := isAsciiDigit c || c == '_'

/-- What keeps a text from being a whole numeral. -/
inductive NumeralFlaw where
  | malformed
  | tooLong (digits : Nat)
deriving DecidableEq

/-- Reads a whole numeral. Its length is looked at before what follows the digits. -/
def readWhole (cs : List Char) : Except NumeralFlaw Int :=
  let (negative, unsigned) := splitSign (numeralBody cs)
  let row := unsigned.takeWhile isDigitOrUnderscore
  let digits := row.filter isAsciiDigit
  if !wellSeparated false row then .error .malformed
  else if Fault.digitLimit < digits.length then .error (.tooLong digits.length)
  else if !(unsigned.dropWhile isDigitOrUnderscore).isEmpty then .error .malformed
  else
    let magnitude : Int := digitsValue digits
    .ok (if negative then -magnitude else magnitude)

/-- What a real numeral stands for. -/
inductive RealNumeral where
  | nan
  | infinite (negative : Bool)
  | decimal (d : Decimal)
deriving DecidableEq

def RealNumeral.toBinary64 : RealNumeral → Binary64
  | nan => .nan
  | infinite negative => .infinite negative
  | decimal d => d.toBinary64

/-- Takes the underscores out; `none` unless each stands between two digits. -/
def dropUnderscores : Char → List Char → Option (List Char)
  | before, [] => if before = '_' then none else some []
  | before, c :: rest =>
    if c = '_' then if isAsciiDigit before then dropUnderscores c rest else none
    else if before = '_' && !isAsciiDigit c then none
    else (dropUnderscores c rest).map (c :: ·)

/-- Reads an exponent part, which is empty or `e`, an optional sign and digits. -/
def readExponent : List Char → Option Int
  | [] => some 0
  | e :: rest =>
    let (negative, digits) := splitSign rest
    if (e = 'e' || e = 'E') && !digits.isEmpty && digits.all isAsciiDigit then
      let magnitude : Int := digitsValue digits
      some (if negative then -magnitude else magnitude)
    else none

/-- Reads an unsigned decimal: digits with at most one point among them, then an exponent. -/
def readUnsigned (negative : Bool) (cs : List Char) : Option Decimal :=
  let whole := cs.takeWhile isAsciiDigit
  let afterWhole := cs.dropWhile isAsciiDigit
  let (fraction, rest) := match afterWhole with
    | '.' :: tail => (tail.takeWhile isAsciiDigit, tail.dropWhile isAsciiDigit)
    | other => ([], other)
  if whole.isEmpty && fraction.isEmpty then none
  else (readExponent rest).map fun exponent =>
    ⟨negative, digitsValue (whole ++ fraction), exponent - fraction.length⟩

/-- Reads a real numeral: a decimal, or a name of infinity or of the NaN in any case. -/
def readReal (cs : List Char) : Option RealNumeral := do
  let (negative, unsigned) := splitSign (← dropUnderscores ' ' (numeralBody cs))
  let name := unsigned.map Char.toLower
  if name = "inf".toList || name = "infinity".toList then some (.infinite negative)
  else if name = "nan".toList then some .nan
  else (readUnsigned negative unsigned).map .decimal

end LiquidityWatch
