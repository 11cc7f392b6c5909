/-! # Text

Text as documents hold it. Beside characters it may hold surrogates that stand alone: documents can
spell them, although they are no characters. Text is ordered by code points. Where characters are
needed, to read a numeral or to write text out, a surrogate counts as the replacement character,
which is part of no numeral, no address and no blank. -/

namespace LiquidityWatch

/-- A character, or a surrogate, counted from the first one. -/
inductive Code where
  | char (c : Char)
  | surrogate (offset : Fin 0x800)
deriving DecidableEq

namespace Code

/-- The code point of the first surrogate. -/
def firstSurrogate : Nat := 0xd800

/-- The code point after the last surrogate. -/
def afterSurrogates : Nat := 0xe000

/-- The character that stands in for what is none. -/
def replacement : Char := Char.ofNat 0xfffd

/-- The code point. -/
def toNat : Code → Nat
  | char c => c.toNat
  | surrogate offset => firstSurrogate + offset.val

/-- The code of a code point. -/
def ofNat (n : Nat) : Code :=
  if h : firstSurrogate ≤ n ∧ n < afterSurrogates then
    surrogate ⟨n - firstSurrogate, by simp only [firstSurrogate, afterSurrogates] at h ⊢; omega⟩
  else char (if n.isValidChar then Char.ofNat n else replacement)

def toChar : Code → Char
  | char c => c
  | surrogate _ => replacement

/-- No character has the code point of a surrogate. -/
theorem toNat_char_ne_surrogate (c : Char) (offset : Fin 0x800) :
    (char c).toNat ≠ (surrogate offset).toNat := by
  have valid := c.valid
  have bound := offset.isLt
  simp only [toNat, firstSurrogate, Char.toNat, UInt32.isValidChar, Nat.isValidChar] at *
  omega

/-- Codes with one code point are the same. -/
theorem toNat_injective {a b : Code} (h : a.toNat = b.toNat) : a = b := by
  match a, b with
  | char c, char d => rw [Char.toNat_inj.1 h]
  | char c, surrogate offset => exact absurd h (toNat_char_ne_surrogate c offset)
  | surrogate offset, char c => exact absurd h.symm (toNat_char_ne_surrogate c offset)
  | surrogate i, surrogate j =>
    simp only [toNat] at h
    exact congrArg surrogate (Fin.ext (by omega))

end Code

structure Text where
  codes : List Code
deriving DecidableEq

namespace Text

/-- The text of characters. -/
def ofChars (cs : List Char) : Text := ⟨cs.map .char⟩

def ofString (s : String) : Text := ofChars s.toList

instance : Coe String Text := ⟨ofString⟩

instance : Inhabited Text := ⟨⟨[]⟩⟩

/-- The characters of a text; surrogates are replaced. -/
def toChars (t : Text) : List Char := t.codes.map Code.toChar

def toString (t : Text) : String := String.ofList t.toChars

instance : ToString Text := ⟨toString⟩

instance : Append Text := ⟨fun s t => ⟨s.codes ++ t.codes⟩⟩

def isEmpty (t : Text) : Bool := t.codes.isEmpty

def length (t : Text) : Nat := t.codes.length

/-- The code points of a text, by which it is ordered. -/
def points (t : Text) : List Nat := t.codes.map Code.toNat

def lt (s t : Text) : Bool := decide (s.points < t.points)

def le (s t : Text) : Bool := !t.lt s

@[simp] theorem toChars_ofChars (cs : List Char) : (ofChars cs).toChars = cs := by
  simp [toChars, ofChars, Function.comp_def, Code.toChar]

@[simp] theorem toString_ofString (s : String) : (ofString s).toString = s := by
  simp [toString, ofString]

/-- Texts with the same code points are the same. -/
theorem points_injective {s t : Text} (h : s.points = t.points) : s = t := by
  obtain ⟨codes⟩ := s
  obtain ⟨others⟩ := t
  exact congrArg Text.mk ((List.map_inj_right fun _ _ => Code.toNat_injective).1 h)

end Text

end LiquidityWatch
