import LiquidityWatch.Decimal
import LiquidityWatch.Text.Digit

/-! # The shortest decimal text

The text with the fewest significant digits that reads back as the same binary64 number and, of
those, the one nearest to it. Of two equally near ones the even is taken. -/

namespace LiquidityWatch

/-- Significant digits that suffice for every binary64 number. -/
def maxDigits : Nat := 17

/-- `numerator / denominator` divided by `10 ^ exponent`, as a fraction. -/
def scaleByTen (numerator denominator : Nat) : Int → Nat × Nat
  | .ofNat e => (numerator, denominator * Nat.pow 10 e)
  | .negSucc e => (numerator * Nat.pow 10 (e + 1), denominator)

/-- The exponent of the leading digit of a positive number of units. The binary logarithm gives it
up to one, and one comparison settles it. -/
def leadingExponent (units : Nat) : Int :=
  let guess := ((units.log2 : Int) - 1074) * 30103 / 100000
  let (above, one) := scaleByTen units Binary64.unitsPerOne (guess + 1)
  if one ≤ above then guess + 1
  else
    let (above, one) := scaleByTen units Binary64.unitsPerOne guess
    if one ≤ above then guess else guess - 1

/-- The decimal with `digits` significant digits that reads back as the number, if there is one:
the better of the two neighbours on that decimal grid. -/
def readsBackWith? (units digits : Nat) : Option Decimal :=
  let exponent := leadingExponent units + 1 - digits
  let (numerator, denominator) := scaleByTen units Binary64.unitsPerOne exponent
  let lower := numerator / denominator
  let below : Decimal := ⟨false, lower, exponent⟩
  let above : Decimal := ⟨false, lower + 1, exponent⟩
  let reads (d : Decimal) : Bool := d.toBinary64 = .finite false units
  let preferred := if roundHalfEven numerator denominator = lower then [below, above]
    else [above, below]
  preferred.find? reads

/-- The shortest decimal of a positive number of units. -/
def shortestDecimal (units : Nat) : Decimal :=
  ((List.range maxDigits).findSome? fun n => readsBackWith? units (n + 1)).getD ⟨false, 0, 0⟩

/-- How an exponent is written: its sign, and two digits at least. -/
def exponentText (e : Int) : List Char :=
  (if e < 0 then '-' else '+') :: padLeft (digitsOf e.natAbs)
where
  padLeft (digits : List Char) : List Char := if digits.length < 2 then '0' :: digits else digits

/-- The text of digits with the point after the first `point` of them: positional from `0.0001` up
to 16 digits before the point, otherwise with one digit before the point and an exponent. -/
def placePoint (digits : List Char) (point : Int) : List Char :=
  if -4 < point ∧ point ≤ 16 then
    if point ≤ 0 then '0' :: '.' :: (List.replicate point.natAbs '0' ++ digits)
    else
      let whole := point.toNat
      if digits.length ≤ whole then
        digits ++ List.replicate (whole - digits.length) '0' ++ ['.', '0']
      else digits.take whole ++ '.' :: digits.drop whole
  else
    let mantissa := match digits with
      | d :: e :: rest => d :: '.' :: e :: rest
      | short => short
    mantissa ++ 'e' :: exponentText (point - 1)

/-- The shortest text of a number that reads back. -/
def Binary64.shortest : Binary64 → String
  | .nan => "nan"
  | .infinite negative => if negative then "-inf" else "inf"
  | .finite negative units =>
    let sign := if negative then ['-'] else []
    if units = 0 then String.ofList (sign ++ ['0', '.', '0'])
    else
      let decimal := shortestDecimal units
      let digits := digitsOf decimal.coefficient
      let significant := (digits.reverse.dropWhile (· == '0')).reverse
      String.ofList (sign ++ placePoint significant (digits.length + decimal.exponent))

end LiquidityWatch
