/-! # Blank characters

The characters of the `White_Space` property, and stripping. The four information separators
`U+001C` to `U+001F` are stripped from text but are not blanks inside a numeral, so the two sets
are kept apart. -/

namespace LiquidityWatch

/-- The character has the `White_Space` property. -/
def isBlank (c : Char) : Bool :=
  let n := c.toNat
  (0x9 ≤ n && n ≤ 0xd) || n == 0x20 || n == 0x85 || n == 0xa0 || n == 0x1680 ||
    (0x2000 ≤ n && n ≤ 0x200a) || n == 0x2028 || n == 0x2029 || n == 0x202f || n == 0x205f ||
    n == 0x3000

/-- The character is taken off the ends of a text. -/
def isPadding (c : Char) : Bool := isBlank c || (0x1c ≤ c.toNat && c.toNat ≤ 0x1f)

/-- The list without the leading and trailing elements that satisfy `p`. -/
def trimEnds {α : Type} (p : α → Bool) (xs : List α) : List α :=
  ((xs.dropWhile p).reverse.dropWhile p).reverse

/-- The characters of a text without the padding around them. -/
def stripped (cs : List Char) : List Char := trimEnds isPadding cs

def strip (s : String) : String := String.ofList (stripped s.toList)

end LiquidityWatch
