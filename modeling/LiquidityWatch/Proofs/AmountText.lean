import LiquidityWatch.Amount
import LiquidityWatch.Proofs.Outcome
import Mathlib.Algebra.Order.Ring.Rat
import Mathlib.Tactic.Ring

/-! # Amounts and their decimal texts

An amount is written out as a decimal and the text is read again. Nothing is lost on the way: as
long as the text can be written at all, reading it gives the decimal with the units as its
coefficient and the decimals below the point (`readReal_decimalText`), so that an amount in exact
arithmetic is the number of units over a power of ten (`ofUnits_rat`). -/

namespace LiquidityWatch

/-! ## Digits -/

theorem isAsciiDigit_iff {c : Char} : isAsciiDigit c ↔ 48 ≤ c.toNat ∧ c.toNat ≤ 57 := by
  rw [isAsciiDigit, Bool.and_eq_true, decide_eq_true_eq, decide_eq_true_eq]
  exact Iff.rfl

theorem isAsciiDigit_of_mem_digitsOf (n : Nat) : ∀ c ∈ digitsOf n, isAsciiDigit c := by
  intro c h
  have hdigit := Nat.isDigit_of_mem_toDigits (by decide) (by decide) h
  rw [Char.isDigit_iff_toNat] at hdigit
  exact isAsciiDigit_iff.mpr hdigit

theorem ne_of_isAsciiDigit {c d : Char} (hc : isAsciiDigit c) (hd : isAsciiDigit d = false) :
    c ≠ d := by
  rintro rfl
  rw [hc] at hd
  cases hd

theorem digitsOf_ne_nil (n : Nat) : digitsOf n ≠ [] := Nat.toDigits_ne_nil

theorem digitsValue_append (ds es : List Char) :
    digitsValue (ds ++ es) = digitsValue ds * 10 ^ es.length + digitsValue es := by
  rw [digitsValue, Nat.ofDigitChars_append, Nat.ofDigitChars_eq_ofDigitChars_zero, Nat.mul_comm]
  rfl

theorem isAsciiDigit_of_mem_padZeros (width : Nat) {digits : List Char}
    (hdigits : ∀ c ∈ digits, isAsciiDigit c) : ∀ c ∈ padZeros width digits, isAsciiDigit c := by
  intro c h
  rcases List.mem_append.mp h with hzero | hdigit
  · rw [List.eq_of_mem_replicate hzero]
    decide
  · exact hdigits c hdigit

theorem length_padZeros {width : Nat} {digits : List Char} (h : digits.length ≤ width) :
    (padZeros width digits).length = width := by
  rw [padZeros, List.length_append, List.length_replicate]
  omega

theorem digitsValue_padZeros (width : Nat) (digits : List Char) :
    digitsValue (padZeros width digits) = digitsValue digits := by
  rw [padZeros, digitsValue_append, digitsValue, Nat.ofDigitChars_replicate_zero, Nat.mul_zero,
    Nat.zero_mul, Nat.zero_add]

/-- A fraction has no more digits than the decimals. -/
theorem length_digitsOf_le {n width : Nat} (hn : n < 10 ^ width) (hwidth : 0 < width) :
    (digitsOf n).length ≤ width :=
  (Nat.length_toDigits_le_iff (by decide) hwidth).mpr hn

/-! ## Reading a decimal -/

/-- A character that is seen on paper and in ASCII, which numerals keep as it is. -/
def isGraphic (c : Char) : Bool := 0x21 ≤ c.toNat && c.toNat < 0x7f

theorem isGraphic_iff {c : Char} : isGraphic c ↔ 0x21 ≤ c.toNat ∧ c.toNat < 0x7f := by
  rw [isGraphic, Bool.and_eq_true, decide_eq_true_eq, decide_eq_true_eq]

theorem isGraphic_of_isAsciiDigit {c : Char} (h : isAsciiDigit c) : isGraphic c := by
  rw [isAsciiDigit_iff] at h
  rw [isGraphic_iff]
  omega

theorem plainChar_of_isGraphic {c : Char} (h : isGraphic c) : plainChar c = c :=
  if_pos (by rw [isGraphic_iff] at h; omega)

theorem isBlank_of_isGraphic {c : Char} (h : isGraphic c) : isBlank c = false := by
  rw [isGraphic_iff] at h
  rw [isBlank, ← Bool.not_eq_true]
  simp only [Bool.or_eq_true, Bool.and_eq_true, decide_eq_true_eq, beq_iff_eq]
  omega

theorem trimEnds_eq_self {α : Type} {p : α → Bool} {xs : List α} (h : ∀ x ∈ xs, p x = false) :
    trimEnds p xs = xs := by
  have hkeep : ∀ ys : List α, (∀ x ∈ ys, p x = false) → ys.dropWhile p = ys := by
    intro ys hys
    cases ys with
    | nil => rfl
    | cons y rest => rw [List.dropWhile_cons, hys y List.mem_cons_self, if_neg Bool.false_ne_true]
  rw [trimEnds, hkeep xs h, hkeep _ fun x hx => h x (List.mem_reverse.mp hx), List.reverse_reverse]

/-- A numeral without blanks and foreign digits is read as it stands. -/
theorem numeralBody_eq_self {cs : List Char} (h : ∀ c ∈ cs, isGraphic c) : numeralBody cs = cs := by
  have hplain : cs.map plainChar = cs := by
    rw [List.map_congr_left fun c hc => plainChar_of_isGraphic (h c hc), List.map_id']
  rw [numeralBody, hplain, trimEnds_eq_self fun c hc => isBlank_of_isGraphic (h c hc)]

theorem dropUnderscores_eq_some {cs : List Char} (h : '_' ∉ cs) {before : Char}
    (hbefore : before ≠ '_') : dropUnderscores before cs = some cs := by
  induction cs generalizing before with
  | nil => rw [dropUnderscores, if_neg hbefore]
  | cons c rest ih =>
    obtain ⟨hc, hrest⟩ := not_or.mp (mt List.mem_cons.mpr h)
    rw [dropUnderscores, if_neg (Ne.symm hc), ih hrest (Ne.symm hc)]
    simp [hbefore]

theorem splitSign_eq (negative : Bool) {c : Char} (rest : List Char) (hminus : c ≠ '-')
    (hplus : c ≠ '+') :
    splitSign ((if negative then ['-'] else []) ++ c :: rest) = (negative, c :: rest) := by
  cases negative with
  | true => rfl
  | false =>
    rw [if_neg Bool.false_ne_true, List.nil_append, splitSign]
    · rintro _ ⟨⟩
      exact hminus rfl
    · rintro _ ⟨⟩
      exact hplus rfl

theorem splitSign_digit (negative : Bool) {c : Char} (rest : List Char) (hc : isAsciiDigit c) :
    splitSign ((if negative then ['-'] else []) ++ c :: rest) = (negative, c :: rest) :=
  splitSign_eq negative rest (ne_of_isAsciiDigit hc (by decide)) (ne_of_isAsciiDigit hc (by decide))

theorem takeWhile_digits_append {digits : List Char} (rest : List Char)
    (h : ∀ c ∈ digits, isAsciiDigit c)
    (hrest : ∀ c tail, rest = c :: tail → isAsciiDigit c = false) :
    (digits ++ rest).takeWhile isAsciiDigit = digits ∧
      (digits ++ rest).dropWhile isAsciiDigit = rest := by
  rw [List.takeWhile_append_of_pos h, List.dropWhile_append_of_pos h]
  cases rest with
  | nil => exact ⟨List.append_nil _, rfl⟩
  | cons c tail => simp [hrest c tail rfl]

/-- Digits with a point among them: the digits together are the coefficient, and those behind the
point its exponent. -/
theorem readUnsigned_point (negative : Bool) {whole fraction : List Char}
    (hwhole : ∀ c ∈ whole, isAsciiDigit c) (hne : whole ≠ [])
    (hfraction : ∀ c ∈ fraction, isAsciiDigit c) :
    readUnsigned negative (whole ++ '.' :: fraction) =
      some ⟨negative, digitsValue (whole ++ fraction), 0 - fraction.length⟩ := by
  have hpoint : isAsciiDigit '.' = false := by decide
  obtain ⟨htake, hdrop⟩ := takeWhile_digits_append ('.' :: fraction) hwhole
    (by rintro c tail ⟨⟩; exact hpoint)
  obtain ⟨htake', hdrop'⟩ := takeWhile_digits_append [] hfraction (by rintro _ _ ⟨⟩)
  rw [List.append_nil] at htake' hdrop'
  rw [readUnsigned, htake, hdrop]
  simp only [htake', hdrop', List.isEmpty_eq_false_iff.mpr hne, Bool.false_and, readExponent]
  rfl

theorem isGraphic_of_mem_point {negative : Bool} {whole fraction : List Char}
    (hwhole : ∀ c ∈ whole, isAsciiDigit c) (hfraction : ∀ c ∈ fraction, isAsciiDigit c) {c : Char}
    (hc : c ∈ (if negative then ['-'] else []) ++ (whole ++ '.' :: fraction)) :
    isGraphic c ∧ c ≠ '_' := by
  have hdigit : isAsciiDigit c → isGraphic c ∧ c ≠ '_' := fun h =>
    ⟨isGraphic_of_isAsciiDigit h, ne_of_isAsciiDigit h (by decide)⟩
  rcases List.mem_append.mp hc with hsign | hc
  · cases negative with
    | false => cases hsign
    | true =>
      rw [List.mem_singleton.mp hsign]
      decide
  rcases List.mem_append.mp hc with hc | hc
  · exact hdigit (hwhole c hc)
  rcases List.mem_cons.mp hc with rfl | hc
  · decide
  · exact hdigit (hfraction c hc)

theorem toLower_of_isAsciiDigit {c : Char} (h : isAsciiDigit c) : c.toLower = c := by
  refine dif_neg ?_
  rintro ⟨hupper, -⟩
  exact absurd (Nat.le_trans hupper (isAsciiDigit_iff.mp h).2) (by decide)

/-- Reading a decimal with a sign, digits before the point and digits behind it. -/
theorem readReal_point (negative : Bool) {whole fraction : List Char}
    (hwhole : ∀ c ∈ whole, isAsciiDigit c) (hne : whole ≠ [])
    (hfraction : ∀ c ∈ fraction, isAsciiDigit c) :
    readReal ((if negative then ['-'] else []) ++ (whole ++ '.' :: fraction)) =
      some (.decimal ⟨negative, digitsValue (whole ++ fraction), 0 - fraction.length⟩) := by
  obtain ⟨first, rest, rfl⟩ := List.exists_cons_of_ne_nil hne
  have hfirst : isAsciiDigit first := hwhole first List.mem_cons_self
  have hgraphic : ∀ c ∈ (if negative then ['-'] else []) ++ (first :: rest ++ '.' :: fraction),
      isGraphic c ∧ c ≠ '_' := fun c => isGraphic_of_mem_point hwhole hfraction
  have hsplit := splitSign_digit negative (rest ++ '.' :: fraction) hfirst
  -- The text begins with a digit also in lower case, so it is no name of infinity or of the NaN.
  have hname : ∀ c cs, isAsciiDigit c = false →
      ¬ (first :: (rest ++ '.' :: fraction)).map Char.toLower = c :: cs := by
    intro c cs hc h
    rw [List.map_cons, toLower_of_isAsciiDigit hfirst] at h
    exact ne_of_isAsciiDigit hfirst hc (List.cons.inj h).1
  rw [readReal, numeralBody_eq_self fun c hc => (hgraphic c hc).1,
    dropUnderscores_eq_some (fun h => (hgraphic _ h).2 rfl) (by decide)]
  simp only [Option.bind_eq_bind, Option.bind_some, List.cons_append, hsplit, Bool.or_eq_true,
    decide_eq_true_eq]
  rw [if_neg, if_neg fun h => hname 'n' ['a', 'n'] (by decide) (h.trans rfl), ← List.cons_append,
    readUnsigned_point negative hwhole hne hfraction, Option.map_some, List.cons_append]
  rintro (h | h)
  · exact hname 'i' _ (by decide) (h.trans rfl)
  · exact hname 'i' _ (by decide) (h.trans rfl)

/-! ## Writing an amount and reading it back -/

namespace Amount

theorem eq_digitsOf_of_writtenDigits {n : Nat} {digits : List Char}
    (h : writtenDigits n = .ok digits) : digits = digitsOf n := by
  rw [writtenDigits] at h
  split at h
  · cases h
  · exact (Except.ok.inj h).symm

/-- The text of an amount is read as the decimal that it was written from. -/
theorem readReal_decimalText {units : Int} {decimals : Nat} {text : List Char}
    (hdecimals : 0 < decimals) (h : decimalText units decimals = .ok text) :
    readReal text = some (.decimal ⟨decide (units < 0), units.natAbs, 0 - decimals⟩) := by
  obtain ⟨whole, hwhole, h⟩ := bind_eq_ok.mp h
  obtain ⟨fraction, hfraction, h⟩ := bind_eq_ok.mp h
  obtain rfl := pure_eq_ok.mp h
  obtain rfl := eq_digitsOf_of_writtenDigits hwhole
  obtain rfl := eq_digitsOf_of_writtenDigits hfraction
  have hscale : 0 < 10 ^ decimals := Nat.pow_pos (by decide)
  have hlength := length_padZeros
    (length_digitsOf_le (Nat.mod_lt units.natAbs hscale) hdecimals)
  have hread := readReal_point (decide (units < 0))
    (isAsciiDigit_of_mem_digitsOf (units.natAbs / 10 ^ decimals)) (digitsOf_ne_nil _)
    (isAsciiDigit_of_mem_padZeros decimals
      (isAsciiDigit_of_mem_digitsOf (units.natAbs % 10 ^ decimals)))
  -- Quotient and remainder are put together again.
  rw [hlength, digitsValue_append, digitsValue_padZeros, hlength, digitsValue_digitsOf,
    digitsValue_digitsOf, Nat.mul_comm, Nat.div_add_mod] at hread
  simpa only [decide_eq_true_eq, List.append_assoc, Nat.pow_eq] using hread

/-- The exact value of a decimal with so many digits behind the point. -/
theorem toRat_places (negative : Bool) (coefficient places : Nat) :
    (⟨negative, coefficient, 0 - (places : Int)⟩ : Decimal).toRat =
      (if negative then -(coefficient : Rat) else coefficient) / 10 ^ places := by
  cases places with
  | zero => cases negative <;> simp [Decimal.toRat]
  | succ n =>
    rw [show 0 - ((n + 1 : Nat) : Int) = Int.negSucc n by omega]
    cases negative with
    | false => rfl
    | true => exact (neg_div _ _).symm

theorem cast_natAbs (units : Int) :
    (if decide (units < 0) then -(units.natAbs : Rat) else units.natAbs) = units := by
  by_cases h : units < 0
  · rw [decide_eq_true h, if_pos rfl, ← Int.cast_natCast, ← Int.cast_neg]
    congr 1
    omega
  · rw [decide_eq_false h, if_neg Bool.false_ne_true, ← Int.cast_natCast]
    congr 1
    omega

/-- In exact arithmetic an amount is the number of units over a power of ten, whenever it can be
converted at all. -/
theorem ofUnits_rat {units : Int} {decimals : Nat} {amount : Number}
    (h : ofUnits units decimals = .ok amount) :
    ofUnits units decimals = .ok ((units : Rat) / 10 ^ decimals) := by
  rw [ofUnits] at h ⊢
  by_cases hdecimals : decimals = 0
  · rw [if_pos hdecimals, hdecimals, pow_zero, div_one]
    rfl
  · rw [if_neg hdecimals] at h ⊢
    obtain ⟨text, htext, -⟩ := bind_eq_ok.mp h
    rw [htext, ok_bind, readReal_decimalText (Nat.pos_of_ne_zero hdecimals) htext]
    exact congrArg Except.ok ((toRat_places _ _ _).trans (by rw [cast_natAbs]))

end Amount

end LiquidityWatch
