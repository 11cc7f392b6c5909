import LiquidityWatch.Proofs.AmountSpelling

/-! # Whole numerals

What a text has to look like to be read as a whole number: a sign or none, and digits, which may be
of any script and parted by single underscores, with blanks around all of it (`WholeNumeral`).
Reading goes another way: it turns every digit and every blank into the ASCII one, takes the sign
off, and looks at what is left. Both come to the same (`readWhole_eq_ok`), for as many digits as are
read at all. -/

namespace LiquidityWatch

/-! ## Digits of any script -/

theorem digitValue?_eq_some {c : Char} {d : Nat} (h : digitValue? c = some d) :
    ∃ first ∈ zeroDigits, c.toNat = first + d ∧ d < 10 := by
  obtain ⟨first, hfound, rfl⟩ := Option.map_eq_some_iff.mp h
  have hrange := List.find?_some hfound
  simp only [Bool.and_eq_true, decide_eq_true_eq] at hrange
  exact ⟨first, List.mem_of_find?_eq_some hfound, by omega, by omega⟩

/-- Blanks and digits have different code points. -/
theorem isBlank_ofNat_digit :
    ∀ first ∈ zeroDigits, ∀ d < 10, isBlank (Char.ofNat (first + d)) = false := by
  decide +kernel

theorem isBlank_of_digitValue? {c : Char} {d : Nat} (h : digitValue? c = some d) :
    isBlank c = false := by
  obtain ⟨first, hfirst, hc, hd⟩ := digitValue?_eq_some h
  have hblank := isBlank_ofNat_digit first hfirst d hd
  rwa [← hc, Char.ofNat_toNat] at hblank

theorem toNat_asciiDigit : ∀ {d : Nat}, d < 10 → (asciiDigit d).toNat = 48 + d := by
  decide

theorem isAsciiDigit_asciiDigit {d : Nat} (h : d < 10) : isAsciiDigit (asciiDigit d) = true := by
  rw [isAsciiDigit_iff, toNat_asciiDigit h]
  omega

theorem digitsValue_asciiDigit : ∀ {d : Nat}, d < 10 → digitsValue [asciiDigit d] = d := by
  decide

/-- A digit of ASCII stands for itself. -/
theorem digitValue?_of_isAsciiDigit {c : Char} (h : isAsciiDigit c) :
    digitValue? c = some (c.toNat - 48) := by
  rw [isAsciiDigit_iff] at h
  have hfirst : (48 ≤ c.toNat && c.toNat < 48 + 10) = true := by
    simp only [Bool.and_eq_true, decide_eq_true_eq]
    omega
  rw [digitValue?, zeroDigits, List.find?_cons, hfirst]
  rfl

/-- No script but ASCII has its digits below 128. -/
theorem le_zeroDigits : ∀ first ∈ zeroDigits, first = 48 ∨ 128 ≤ first := by decide

/-- A digit of any script is seen as the ASCII digit of its value. -/
theorem plainChar_of_digitValue? {c : Char} {d : Nat} (h : digitValue? c = some d) :
    plainChar c = asciiDigit d := by
  obtain ⟨first, hfirst, hc, hd⟩ := digitValue?_eq_some h
  rw [plainChar]
  by_cases hascii : c.toNat < 128
  · rw [if_pos hascii, ← Char.toNat_inj, toNat_asciiDigit hd]
    have hzero := le_zeroDigits first hfirst
    omega
  · rw [if_neg hascii, isBlank_of_digitValue? h, h]
    rfl

/-- What is seen as a digit is a digit. -/
theorem exists_digitValue? {c : Char} (h : isAsciiDigit (plainChar c)) :
    ∃ d, digitValue? c = some d := by
  rw [plainChar] at h
  split at h
  · exact ⟨_, digitValue?_of_isAsciiDigit h⟩
  · split at h
    · cases h
    · split at h
      · exact ⟨_, ‹_›⟩
      · rw [isAsciiDigit_iff] at h
        omega

/-- Characters that are no digits and no blanks are only seen where they stand. -/
theorem plainChar_eq_iff {c x : Char} (hx : isGraphic x) (hdigit : isAsciiDigit x = false) :
    plainChar c = x ↔ c = x := by
  constructor
  · intro h
    have hgraphic := isGraphic_iff.mp hx
    rw [plainChar] at h
    split at h
    · exact h
    · split at h
      · subst h
        exact absurd hx (by decide)
      · split at h
        · rename_i d hd
          obtain ⟨-, -, -, hten⟩ := digitValue?_eq_some hd
          rw [← h, isAsciiDigit_asciiDigit hten] at hdigit
          cases hdigit
        · exact h
  · rintro rfl
    exact plainChar_of_isGraphic hx

theorem isBlank_plainChar (c : Char) : isBlank (plainChar c) = isBlank c := by
  rw [plainChar]
  split
  · rfl
  · split
    · rename_i hblank
      rw [hblank]
      rfl
    · split
      · rename_i d hd
        obtain ⟨-, -, -, hten⟩ := digitValue?_eq_some hd
        rw [isBlank_of_digitValue? hd,
          isBlank_of_isGraphic (isGraphic_of_isAsciiDigit (isAsciiDigit_asciiDigit hten))]
      · rfl

/-! ## Rows of digits -/

/-- A row of digits of any script, the number of digits in it, and what they spell. A single
underscore may stand between two digits. -/
inductive DigitRow : List Char → Nat → Nat → Prop
  | last {c : Char} {d : Nat} (h : digitValue? c = some d) : DigitRow [c] 1 d
  | digit {c : Char} {d : Nat} (h : digitValue? c = some d) {cs : List Char} {count n : Nat}
    (hrest : DigitRow cs count n) : DigitRow (c :: cs) (count + 1) (d * 10 ^ count + n)
  | underscore {c : Char} {d : Nat} (h : digitValue? c = some d) {cs : List Char} {count n : Nat}
    (hrest : DigitRow cs count n) : DigitRow (c :: '_' :: cs) (count + 1) (d * 10 ^ count + n)

/-- The digits in a row, as they are seen. -/
def plainDigits (cs : List Char) : List Char := (cs.map plainChar).filter isAsciiDigit

theorem plainDigits_cons {c : Char} {d : Nat} (h : digitValue? c = some d) (cs : List Char) :
    plainDigits (c :: cs) = asciiDigit d :: plainDigits cs := by
  obtain ⟨-, -, -, hten⟩ := digitValue?_eq_some h
  rw [plainDigits, List.map_cons, plainChar_of_digitValue? h,
    List.filter_cons_of_pos (isAsciiDigit_asciiDigit hten)]
  rfl

theorem plainDigits_underscore (cs : List Char) : plainDigits ('_' :: cs) = plainDigits cs := rfl

theorem wellSeparated_cons {c : Char} {d : Nat} (h : digitValue? c = some d) (afterDigit : Bool)
    (cs : List Char) :
    wellSeparated afterDigit ((c :: cs).map plainChar) = wellSeparated true (cs.map plainChar) := by
  obtain ⟨-, -, -, hten⟩ := digitValue?_eq_some h
  have hdigit := isAsciiDigit_asciiDigit hten
  rw [List.map_cons, plainChar_of_digitValue? h, wellSeparated]
  rintro hunderscore
  exact ne_of_isAsciiDigit hdigit (by decide) hunderscore

/-- What the digits spell, one digit after the other. -/
theorem digitsValue_cons {d : Nat} (h : d < 10) (digits : List Char) :
    digitsValue (asciiDigit d :: digits) = d * 10 ^ digits.length + digitsValue digits := by
  rw [← List.singleton_append, digitsValue_append, digitsValue_asciiDigit h]

/-- The characters of a row are digits and underscores, rightly placed, with that many digits among
them and that value. -/
structure Spaced (cs : List Char) (count n : Nat) : Prop where
  row : ∀ c ∈ cs, isDigitOrUnderscore (plainChar c)
  separated : ∀ afterDigit, wellSeparated afterDigit (cs.map plainChar) = true
  count : (plainDigits cs).length = count
  value : digitsValue (plainDigits cs) = n

theorem isDigitOrUnderscore_of_digitValue? {c : Char} {d : Nat} (h : digitValue? c = some d) :
    isDigitOrUnderscore (plainChar c) := by
  obtain ⟨-, -, -, hten⟩ := digitValue?_eq_some h
  rw [plainChar_of_digitValue? h, isDigitOrUnderscore, isAsciiDigit_asciiDigit hten, Bool.true_or]

theorem DigitRow.spaced {cs : List Char} {count n : Nat} (h : DigitRow cs count n) :
    Spaced cs count n := by
  induction h with
  | @last c d hd =>
    obtain ⟨-, -, -, hten⟩ := digitValue?_eq_some hd
    refine ⟨List.forall_mem_singleton.mpr (isDigitOrUnderscore_of_digitValue? hd),
      fun afterDigit => wellSeparated_cons hd afterDigit [], ?_, ?_⟩
    · rw [plainDigits_cons hd]
      rfl
    · rw [plainDigits_cons hd]
      exact digitsValue_asciiDigit hten
  | @digit c d hd cs count n _ ih =>
    obtain ⟨-, -, -, hten⟩ := digitValue?_eq_some hd
    refine ⟨List.forall_mem_cons.mpr ⟨isDigitOrUnderscore_of_digitValue? hd, ih.row⟩,
      fun afterDigit => (wellSeparated_cons hd afterDigit cs).trans (ih.separated true), ?_, ?_⟩
    · rw [plainDigits_cons hd, List.length_cons, ih.count]
    · rw [plainDigits_cons hd, digitsValue_cons hten, ih.count, ih.value]
  | @underscore c d hd cs count n _ ih =>
    obtain ⟨-, -, -, hten⟩ := digitValue?_eq_some hd
    refine ⟨List.forall_mem_cons.mpr ⟨isDigitOrUnderscore_of_digitValue? hd,
      List.forall_mem_cons.mpr ⟨rfl, ih.row⟩⟩,
      fun afterDigit => (wellSeparated_cons hd afterDigit ('_' :: cs)).trans (ih.separated false),
      ?_, ?_⟩
    · rw [plainDigits_cons hd, plainDigits_underscore, List.length_cons, ih.count]
    · rw [plainDigits_cons hd, plainDigits_underscore, digitsValue_cons hten, ih.count, ih.value]

/-- The row of all digits and underscores in it. -/
abbrev IsRow (cs : List Char) : Prop :=
  DigitRow cs (plainDigits cs).length (digitsValue (plainDigits cs))

/-- Digits and underscores that are rightly placed make a row; behind a digit they may also be
nothing at all, or an underscore before a row. -/
theorem isRow_of_wellSeparated {cs : List Char}
    (hrow : ∀ c ∈ cs, isDigitOrUnderscore (plainChar c)) :
    (wellSeparated false (cs.map plainChar) = true → IsRow cs) ∧
      (wellSeparated true (cs.map plainChar) = true →
        cs = [] ∨ IsRow cs ∨ ∃ rest, cs = '_' :: rest ∧ IsRow rest) := by
  induction cs with
  | nil =>
    refine ⟨fun h => ?_, fun _ => .inl rfl⟩
    cases h
  | cons c cs ih =>
    obtain ⟨hc, hcs⟩ := List.forall_mem_cons.mp hrow
    obtain ⟨hfalse, htrue⟩ := ih hcs
    rw [isDigitOrUnderscore, Bool.or_eq_true, beq_iff_eq] at hc
    rcases hc with hdigit | hunderscore
    · obtain ⟨d, hd⟩ := exists_digitValue? hdigit
      obtain ⟨-, -, -, hten⟩ := digitValue?_eq_some hd
      rw [wellSeparated_cons hd, wellSeparated_cons hd]
      have hmake : wellSeparated true (cs.map plainChar) = true → IsRow (c :: cs) := by
        intro hseparated
        rw [IsRow, plainDigits_cons hd, digitsValue_cons hten, List.length_cons]
        rcases htrue hseparated with rfl | hcs | ⟨rest, rfl, hrest⟩
        · simpa [plainDigits, digitsValue] using DigitRow.last hd
        · exact .digit hd hcs
        · exact .underscore hd hrest
      exact ⟨hmake, fun h => .inr (.inl (hmake h))⟩
    · obtain rfl := (plainChar_eq_iff (by decide) (by decide)).mp hunderscore
      refine ⟨fun h => ?_, fun h => .inr (.inr ⟨cs, rfl, hfalse h⟩)⟩
      cases h

/-- A row with so many digits stays below that power of ten. -/
theorem DigitRow.lt {cs : List Char} {count n : Nat} (h : DigitRow cs count n) :
    n < 10 ^ count := by
  induction h with
  | last hd =>
    obtain ⟨-, -, -, hten⟩ := digitValue?_eq_some hd
    exact hten
  | @digit _ d hd _ count n _ ih | @underscore _ d hd _ count n _ ih =>
    obtain ⟨-, -, -, hten⟩ := digitValue?_eq_some hd
    have hhead : d * 10 ^ count ≤ 9 * 10 ^ count := Nat.mul_le_mul_right _ (by omega)
    rw [pow_succ]
    omega

/-! ## Signs -/

/-- What may stand in front of the digits of a numeral. -/
inductive Sign where
  | none
  | plus
  | minus
deriving DecidableEq

namespace Sign

def chars : Sign → List Char
  | none => []
  | plus => ['+']
  | minus => ['-']

def isMinus : Sign → Bool
  | minus => true
  | _ => false

/-- The number with the sign. -/
def apply (s : Sign) (n : Nat) : Int := if s.isMinus then -n else n

end Sign

theorem Sign.eq_of_mem {sign : Sign} {c : Char} (h : c ∈ sign.chars) : c = '+' ∨ c = '-' := by
  cases sign with
  | none => cases h
  | plus => exact .inl (List.mem_singleton.mp h)
  | minus => exact .inr (List.mem_singleton.mp h)

theorem Sign.isBlank_of_mem {sign : Sign} {c : Char} (h : c ∈ sign.chars) : isBlank c = false := by
  rcases Sign.eq_of_mem h with rfl | rfl <;> decide

/-- Every text begins with a sign, or with none. -/
theorem exists_sign (cs : List Char) : ∃ (sign : Sign) (rest : List Char),
    cs = sign.chars ++ rest ∧
      splitSign (cs.map plainChar) = (sign.isMinus, rest.map plainChar) := by
  cases cs with
  | nil => exact ⟨.none, [], rfl, rfl⟩
  | cons c cs =>
    by_cases hminus : c = '-'
    · subst hminus
      exact ⟨.minus, cs, rfl, rfl⟩
    · by_cases hplus : c = '+'
      · subst hplus
        exact ⟨.plus, cs, rfl, rfl⟩
      · refine ⟨.none, c :: cs, rfl, ?_⟩
        rw [List.map_cons, splitSign]
        · rfl
        · rintro rest hrest
          exact hminus ((plainChar_eq_iff (by decide) (by decide)).mp (List.cons.inj hrest).1)
        · rintro rest hrest
          exact hplus ((plainChar_eq_iff (by decide) (by decide)).mp (List.cons.inj hrest).1)

/-! ## Trimming -/

section Trimming

variable {α β : Type}

theorem dropWhile_map (p : β → Bool) (f : α → β) (xs : List α) :
    (xs.map f).dropWhile p = (xs.dropWhile (p ∘ f)).map f := by
  induction xs with
  | nil => rfl
  | cons x xs ih =>
    rw [List.map_cons, List.dropWhile_cons, List.dropWhile_cons, ih]
    by_cases hx : p (f x)
    · rw [if_pos hx, Function.comp_apply, if_pos hx]
    · rw [if_neg hx, Function.comp_apply, if_neg hx, List.map_cons]

/-- Trimming looks at each element by itself. -/
theorem trimEnds_map (p : β → Bool) (f : α → β) (xs : List α) :
    trimEnds p (xs.map f) = (trimEnds (p ∘ f) xs).map f := by
  rw [trimEnds, dropWhile_map, ← List.map_reverse, dropWhile_map, ← List.map_reverse]
  rfl

/-- What is trimmed off stood at the ends. -/
theorem exists_trimEnds (p : α → Bool) (xs : List α) : ∃ before after,
    xs = before ++ (trimEnds p xs ++ after) ∧ (∀ x ∈ before, p x) ∧ ∀ x ∈ after, p x := by
  refine ⟨xs.takeWhile p, ((xs.dropWhile p).reverse.takeWhile p).reverse, ?_,
    fun x => List.mem_takeWhile_imp, fun x hx => List.mem_takeWhile_imp (List.mem_reverse.mp hx)⟩
  rw [trimEnds, ← List.reverse_append, List.takeWhile_append_dropWhile, List.reverse_reverse,
    List.takeWhile_append_dropWhile]

/-- No padding is left at the ends. -/
theorem trimEnds_ends (p : α → Bool) (xs : List α) :
    (∀ x ∈ (trimEnds p xs).head?, p x = false) ∧ ∀ x ∈ (trimEnds p xs).getLast?, p x = false := by
  have hhead : ∀ ys : List α, ∀ y ∈ (ys.dropWhile p).head?, p y = false := by
    intro ys y hy
    have hnot := List.head?_dropWhile_not p ys
    rwa [Option.mem_def.mp hy] at hnot
  refine ⟨fun x hx => ?_, fun x hx => ?_⟩
  · -- What is left after the second pass still begins where the first one stopped.
    obtain ⟨dropped, hdropped⟩ := List.dropWhile_suffix p (l := (xs.dropWhile p).reverse)
    have hfront := congrArg List.reverse hdropped
    rw [List.reverse_append, List.reverse_reverse] at hfront
    refine hhead xs x ?_
    rw [← hfront]
    exact List.mem_head?_append_of_mem_head? hx
  · rw [trimEnds, List.getLast?_reverse] at hx
    exact hhead _ x hx

end Trimming

theorem numeralBody_eq (cs : List Char) : numeralBody cs = (trimEnds isBlank cs).map plainChar := by
  rw [numeralBody, trimEnds_map, show isBlank ∘ plainChar = isBlank from funext isBlank_plainChar]

/-! ## Whole numerals -/

/-- The text is a sign or none and a row of so many digits, with blanks around them, and it spells
the number. -/
inductive WholeNumeral (cs : List Char) (count : Nat) (n : Int) : Prop where
  | intro (before : List Char) (sign : Sign) (row : List Char) (magnitude : Nat) (after : List Char)
      (hbefore : ∀ c ∈ before, isBlank c) (hafter : ∀ c ∈ after, isBlank c)
      (h : cs = before ++ (sign.chars ++ row ++ after)) (hrow : DigitRow row count magnitude)
      (hn : n = sign.apply magnitude)

/-- A row begins with a digit. -/
theorem DigitRow.exists_head {cs : List Char} {count n : Nat} (h : DigitRow cs count n) :
    ∃ c rest d, cs = c :: rest ∧ digitValue? c = some d := by
  cases h with
  | last hd | digit hd | underscore hd => exact ⟨_, _, _, rfl, hd⟩

/-- The sign before a row is taken off. -/
theorem splitSign_row (sign : Sign) {row : List Char} {count n : Nat} (h : DigitRow row count n) :
    splitSign ((sign.chars ++ row).map plainChar) = (sign.isMinus, row.map plainChar) := by
  cases sign with
  | plus | minus => rfl
  | none =>
    obtain ⟨c, rest, d, rfl, hd⟩ := h.exists_head
    obtain ⟨-, -, -, hten⟩ := digitValue?_eq_some hd
    rw [Sign.chars, List.nil_append, List.map_cons, plainChar_of_digitValue? hd]
    exact splitSign_digit false _ (isAsciiDigit_asciiDigit hten)

theorem isBlank_of_mem_numeral (sign : Sign) {row : List Char} {count n : Nat}
    (h : DigitRow row count n) : ∀ c ∈ sign.chars ++ row, isBlank c = false := by
  intro c hc
  rcases List.mem_append.mp hc with hsign | hrow
  · exact Sign.isBlank_of_mem hsign
  · have hplain := h.spaced.row c hrow
    rw [isDigitOrUnderscore, Bool.or_eq_true, beq_iff_eq] at hplain
    rw [← isBlank_plainChar]
    rcases hplain with hdigit | hunderscore
    · exact isBlank_of_isGraphic (isGraphic_of_isAsciiDigit hdigit)
    · rw [hunderscore]
      decide

theorem DigitRow.ne_nil {cs : List Char} {count n : Nat} (h : DigitRow cs count n) : cs ≠ [] := by
  obtain ⟨c, rest, -, rfl, -⟩ := h.exists_head
  exact List.cons_ne_nil c rest

theorem exists_wholeNumeral {cs : List Char} {n : Int} (h : readWhole cs = .ok n) :
    ∃ count ≤ Fault.digitLimit, WholeNumeral cs count n := by
  obtain ⟨before, after, hcs, hbefore, hafter⟩ := exists_trimEnds isBlank cs
  obtain ⟨sign, rest, hrest, hsplit⟩ := exists_sign (trimEnds isBlank cs)
  rw [readWhole, numeralBody_eq, hsplit] at h
  dsimp only at h
  split at h
  · cases h
  · rename_i hseparated
    split at h
    · cases h
    · rename_i hlimit
      split at h
      · cases h
      · rename_i hall
        rw [Bool.not_eq_true, Bool.not_eq_false', List.isEmpty_iff, List.dropWhile_eq_nil_iff]
          at hall
        -- Nothing is left behind the row, so the row is all there is.
        rw [List.takeWhile_eq_self_iff.mpr hall] at h hlimit hseparated
        rw [Bool.not_eq_true, Bool.not_eq_false'] at hseparated
        have hrow := (isRow_of_wellSeparated fun c hc =>
          hall _ (List.mem_map_of_mem hc)).1 hseparated
        rw [hrest] at hcs
        exact ⟨_, not_lt.mp hlimit,
          .intro before sign rest _ after hbefore hafter hcs hrow (Except.ok.inj h).symm⟩

theorem WholeNumeral.readWhole {cs : List Char} {count : Nat} {n : Int}
    (h : WholeNumeral cs count n) (hlimit : count ≤ Fault.digitLimit) : readWhole cs = .ok n := by
  obtain ⟨before, sign, row, magnitude, after, hbefore, hafter, rfl, hrow, rfl⟩ := h
  have hspaced := hrow.spaced
  have htrim := trimEnds_padded hbefore hafter (isBlank_of_mem_numeral sign hrow)
    (List.append_ne_nil_of_right_ne_nil _ hrow.ne_nil)
  have hall : ∀ c ∈ row.map plainChar, isDigitOrUnderscore c := by
    intro c hc
    obtain ⟨d, hd, rfl⟩ := List.mem_map.mp hc
    exact hspaced.row d hd
  have hcount : ((row.map plainChar).filter isAsciiDigit).length = count := hspaced.count
  have hvalue : digitsValue ((row.map plainChar).filter isAsciiDigit) = magnitude := hspaced.value
  rw [LiquidityWatch.readWhole, numeralBody_eq, htrim, splitSign_row sign hrow]
  dsimp only
  rw [List.takeWhile_eq_self_iff.mpr hall, List.dropWhile_eq_nil_iff.mpr hall, hspaced.separated,
    hcount, hvalue]
  simp only [Bool.not_true, Bool.false_eq_true, if_false, not_lt.mpr hlimit, List.isEmpty_nil]
  rfl

/-- **What is read as a whole number**: the whole numerals, with no more digits than the limit, and
each as the number that it spells. -/
theorem readWhole_eq_ok {cs : List Char} {n : Int} : readWhole cs = .ok n ↔
    ∃ count ≤ Fault.digitLimit, WholeNumeral cs count n :=
  ⟨exists_wholeNumeral, fun ⟨_, hlimit, h⟩ => h.readWhole hlimit⟩

end LiquidityWatch
