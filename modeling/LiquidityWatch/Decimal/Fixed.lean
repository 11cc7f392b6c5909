import LiquidityWatch.Binary64
import LiquidityWatch.Text.Digit

/-! # Fixed decimal places

The text of a binary64 number with a fixed number of decimal places. The exact value is rounded
once, a half going to the even neighbour; every digit before the point is shown, and a negative sign
is kept even when all digits are zero. -/

namespace LiquidityWatch

/-- How many places follow the point, and whether commas part the thousands. -/
structure FixedFormat where
  places : Nat
  grouped : Bool

/-- The digits with a comma before every third from the right. -/
def groupThousands (digits : List Char) : List Char :=
  go digits.length digits
where
  go : Nat → List Char → List Char
    | _, [] => []
    | n, d :: rest => d :: (if n % 3 = 1 && !rest.isEmpty then ',' :: go (n - 1) rest
        else go (n - 1) rest)

/-- The row of digits, with zeros before it up to the width. -/
def padZeros (width : Nat) (digits : List Char) : List Char :=
  List.replicate (width - digits.length) '0' ++ digits

namespace FixedFormat

/-- The text of `scaled / 10 ^ places`. -/
def scaledText (format : FixedFormat) (scaled : Nat) : List Char :=
  let digits := padZeros (format.places + 1) (digitsOf scaled)
  let whole := digits.take (digits.length - format.places)
  let fraction := digits.drop (digits.length - format.places)
  (if format.grouped then groupThousands whole else whole) ++
    (if format.places = 0 then [] else '.' :: fraction)

/-- The text of a number: `nan` and `inf` are spelled out. -/
def text (format : FixedFormat) : Binary64 → String
  | .nan => "nan"
  | .infinite negative => if negative then "-inf" else "inf"
  | .finite negative units =>
    let scaled := roundHalfEven (units * Nat.pow 10 format.places) Binary64.unitsPerOne
    String.ofList ((if negative then ['-'] else []) ++ format.scaledText scaled)

end FixedFormat

end LiquidityWatch
