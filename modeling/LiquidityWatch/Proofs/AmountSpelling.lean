import LiquidityWatch.Proofs.Conservation
import LiquidityWatch.Proofs.Rounding
import Mathlib.Data.List.TakeWhile

/-! # The spelling and the rounding of an amount

An amount may come as a whole number, as its digits in a text, or as a binary64 number. Spaces
around the digits and a fraction behind them make no difference, and neither does the fraction of a
number: what is converted is always the same number of smallest units. Its text in whole tokens is
exact, so the only rounding is the last one, of the exact quotient (`Amount.ofRaw_spelled`). -/

namespace LiquidityWatch

-- Both are numbers of hundreds of digits, which proofs must not compute with.
attribute [local irreducible] Binary64.unitsPerOne Binary64.overflowUnits

/-! ## Rounding a decimal -/

/-- Less than half a unit is rounded to nothing. -/
theorem Binary64.nearestUnits_eq_zero {n d : Nat} (h : 2 * n < d) : nearestUnits n d = 0 := by
  have hquotient : n / d = 0 := Nat.div_eq_of_lt (by omega)
  have hrest : n % d = n := Nat.mod_eq_of_lt (by omega)
  have hround : roundHalfEven n d = 0 := by
    simp only [roundHalfEven, hquotient, hrest]
    rw [if_neg (by omega)]
  rw [nearestUnits_eq, hquotient]
  simp [precision, hround]

theorem Decimal.two_mul_unitsPerOne_le : 2 * Binary64.unitsPerOne ≤ 10 ^ rangeExponent := by
  decide +kernel

/-- A decimal with so many digits behind the point is rounded from its exact quotient, also where
the quotient is so small that it is not computed. -/
theorem Decimal.toBinary64_places (negative : Bool) (coefficient places : Nat) :
    (⟨negative, coefficient, 0 - (places : Int)⟩ : Decimal).toBinary64 =
      Binary64.ofRatio negative coefficient (10 ^ places) := by
  have hzero : ∀ numerator,
      Binary64.nearestUnits (numerator * Binary64.unitsPerOne) (10 ^ places) = 0 →
      Binary64.finite negative 0 = Binary64.ofRatio negative numerator (10 ^ places) := by
    intro numerator hunits
    have hrange : Binary64.nearestUnits (numerator * Binary64.unitsPerOne) (10 ^ places) <
        Binary64.overflowUnits := by
      rw [hunits]
      exact Binary64.overflowUnits_pos
    rw [Binary64.ofRatio, Binary64.ofUnits_finite negative hrange, hunits]
  by_cases hcoefficient : coefficient = 0
  · subst hcoefficient
    rw [Decimal.toBinary64, if_pos rfl]
    exact hzero 0 (by rw [Nat.zero_mul, Binary64.nearestUnits_zero])
  · rw [Decimal.toBinary64, if_neg hcoefficient]
    cases places with
    | zero => simp [rangeExponent]
    | succ e =>
      rw [show 0 - ((e + 1 : Nat) : Int) = Int.negSucc e by omega]
      dsimp only
      by_cases hsmall : coefficient.log2 + 1 + rangeExponent ≤ e + 1
      · rw [if_pos hsmall]
        refine hzero coefficient (Binary64.nearestUnits_eq_zero ?_)
        have hdigits : coefficient < 10 ^ (coefficient.log2 + 1) :=
          Nat.lt_log2_self.trans_le (Nat.pow_le_pow_left (by decide) _)
        calc 2 * (coefficient * Binary64.unitsPerOne)
            = coefficient * (2 * Binary64.unitsPerOne) := by ring
          _ ≤ coefficient * 10 ^ rangeExponent := Nat.mul_le_mul_left _ two_mul_unitsPerOne_le
          _ < 10 ^ (coefficient.log2 + 1) * 10 ^ rangeExponent :=
            Nat.mul_lt_mul_of_pos_right hdigits (by positivity)
          _ = 10 ^ (coefficient.log2 + 1 + rangeExponent) := (pow_add _ _ _).symm
          _ ≤ 10 ^ (e + 1) := Nat.pow_le_pow_right (by decide) hsmall
      · rw [if_neg hsmall]
        rfl

/-! ## Reading digits -/

/-- The characters of a whole number: its digits, after a minus if it is negative. -/
def wholeChars (n : Int) : List Char := (if n < 0 then ['-'] else []) ++ digitsOf n.natAbs

theorem toList_toString (n : Int) : (toString n).toList = wholeChars n := by
  cases n with
  | ofNat m =>
    have hrepr : toString (Int.ofNat m) = Nat.repr m := rfl
    rw [hrepr, Nat.repr]
    simp [wholeChars, digitsOf]
  | negSucc m =>
    have hrepr : toString (Int.negSucc m) = "-" ++ Nat.repr (m + 1) := rfl
    rw [hrepr, Nat.repr]
    simp [wholeChars, digitsOf]

theorem wellSeparated_digits {digits : List Char} (h : ∀ c ∈ digits, isAsciiDigit c) :
    wellSeparated true digits = true ∧ (digits ≠ [] → wellSeparated false digits = true) := by
  induction digits with
  | nil => exact ⟨rfl, fun hne => absurd rfl hne⟩
  | cons c rest ih =>
    obtain ⟨hc, hrest⟩ := List.forall_mem_cons.mp h
    have hdigit : c ≠ '_' := ne_of_isAsciiDigit hc (by decide)
    have hread : ∀ afterDigit, wellSeparated afterDigit (c :: rest) = wellSeparated true rest := by
      intro afterDigit
      rw [wellSeparated]
      rintro ⟨⟩
      exact hdigit rfl
    rw [hread, hread]
    exact ⟨(ih hrest).1, fun _ => (ih hrest).1⟩

theorem isGraphic_of_mem_wholeChars {n : Int} {c : Char} (h : c ∈ wholeChars n) :
    isGraphic c ∧ c ≠ '.' := by
  rcases List.mem_append.mp h with hsign | hdigit
  · by_cases hn : n < 0
    · rw [if_pos hn] at hsign
      obtain rfl := List.mem_singleton.mp hsign
      decide
    · rw [if_neg hn] at hsign
      cases hsign
  · have hascii := isAsciiDigit_of_mem_digitsOf _ c hdigit
    exact ⟨isGraphic_of_isAsciiDigit hascii, ne_of_isAsciiDigit hascii (by decide)⟩

/-- The digits of a number are read as the number, as long as there are not too many of them. -/
theorem readWhole_wholeChars {n : Int} (h : n.natAbs < 10 ^ Fault.digitLimit) :
    readWhole (wholeChars n) = .ok n := by
  have hdigits := isAsciiDigit_of_mem_digitsOf n.natAbs
  have hlength : (digitsOf n.natAbs).length ≤ Fault.digitLimit := length_digitsOf_le h (by decide)
  have hsplit : splitSign (wholeChars n) = (decide (n < 0), digitsOf n.natAbs) := by
    obtain ⟨first, rest, hfirst⟩ := List.exists_cons_of_ne_nil (digitsOf_ne_nil n.natAbs)
    have hascii : isAsciiDigit first := hdigits first (hfirst ▸ List.mem_cons_self)
    rw [wholeChars, hfirst, ← splitSign_digit (decide (n < 0)) rest hascii]
    simp only [decide_eq_true_eq]
  have hrow : ∀ c ∈ digitsOf n.natAbs, isDigitOrUnderscore c := by
    intro c hc
    rw [isDigitOrUnderscore, hdigits c hc, Bool.true_or]
  have htake : (digitsOf n.natAbs).takeWhile isDigitOrUnderscore = digitsOf n.natAbs :=
    List.takeWhile_eq_self_iff.mpr hrow
  have hdrop : (digitsOf n.natAbs).dropWhile isDigitOrUnderscore = [] :=
    List.dropWhile_eq_nil_iff.mpr hrow
  rw [readWhole, numeralBody_eq_self fun c hc => (isGraphic_of_mem_wholeChars hc).1, hsplit]
  simp only [htake, hdrop, List.filter_eq_self.mpr hdigits,
    (wellSeparated_digits hdigits).2 (digitsOf_ne_nil _), digitsValue_digitsOf,
    not_lt.mpr hlength, Bool.not_true, Bool.false_eq_true, if_false, List.isEmpty_nil]
  by_cases hn : n < 0
  · rw [decide_eq_true hn, if_pos rfl]
    exact congrArg Except.ok (by omega)
  · rw [decide_eq_false hn, if_neg Bool.false_ne_true]
    exact congrArg Except.ok (by omega)

/-! ## Stripping -/

theorem isPadding_of_isGraphic {c : Char} (h : isGraphic c) : isPadding c = false := by
  have hblank := isBlank_of_isGraphic h
  rw [isGraphic_iff] at h
  simp only [isPadding, hblank, Bool.false_or, Bool.and_eq_false_iff, decide_eq_false_iff_not]
  omega

section Trimming

variable {α : Type} {p : α → Bool} {before xs : List α}

theorem dropWhile_padded (hbefore : ∀ x ∈ before, p x) (hxs : ∀ x ∈ xs, p x = false)
    (hne : xs ≠ []) (ys : List α) : (before ++ (xs ++ ys)).dropWhile p = xs ++ ys := by
  obtain ⟨x, rest, rfl⟩ := List.exists_cons_of_ne_nil hne
  rw [List.dropWhile_append_of_pos hbefore, List.cons_append, List.dropWhile_cons,
    hxs x List.mem_cons_self]
  rfl

/-- Dropping from the front stops at an element that is kept. -/
theorem dropWhile_append_kept (xs : List α) {y : α} (hy : p y = false) (ys : List α) :
    ∃ zs, (xs ++ y :: ys).dropWhile p = zs ++ y :: ys := by
  induction xs with
  | nil => exact ⟨[], by simp [hy]⟩
  | cons x xs ih =>
    by_cases hx : p x
    · obtain ⟨zs, hzs⟩ := ih
      exact ⟨zs, by rw [List.cons_append, List.dropWhile_cons, if_pos hx, hzs]⟩
    · exact ⟨x :: xs, by rw [List.cons_append, List.dropWhile_cons, if_neg hx]⟩

/-- Trimming takes the padding off both ends. -/
theorem trimEnds_padded {after : List α} (hbefore : ∀ x ∈ before, p x) (hafter : ∀ x ∈ after, p x)
    (hxs : ∀ x ∈ xs, p x = false) (hne : xs ≠ []) :
    trimEnds p (before ++ (xs ++ after)) = xs := by
  have hback : (after.reverse ++ (xs.reverse ++ [])).dropWhile p = xs.reverse ++ [] :=
    dropWhile_padded (fun x hx => hafter x (List.mem_reverse.mp hx))
      (fun x hx => hxs x (List.mem_reverse.mp hx)) (by simpa using hne) []
  rw [List.append_nil, ← List.reverse_append] at hback
  rw [trimEnds, dropWhile_padded hbefore hxs hne, hback, List.reverse_reverse]

/-- Trimming leaves the front of a list up to an element that is kept. -/
theorem trimEnds_kept (hbefore : ∀ x ∈ before, p x) (hxs : ∀ x ∈ xs, p x = false) (hne : xs ≠ [])
    {y : α} (hy : p y = false) (ys : List α) :
    ∃ zs, trimEnds p (before ++ (xs ++ y :: ys)) = xs ++ y :: zs := by
  obtain ⟨zs, hzs⟩ := dropWhile_append_kept ys.reverse hy xs.reverse
  refine ⟨zs.reverse, ?_⟩
  rw [trimEnds, dropWhile_padded hbefore hxs hne, List.reverse_append, List.reverse_cons,
    List.append_assoc, List.singleton_append, hzs]
  simp

end Trimming

/-! ## Raw amounts -/

namespace Amount

/-- The text spells the number: spaces around it, and a fraction behind it, which may be anything
after a point. -/
inductive Spells (t : Text) (n : Int) : Prop where
  | whole (before after : List Char) (hbefore : ∀ c ∈ before, isPadding c)
      (hafter : ∀ c ∈ after, isPadding c) (h : t.toChars = before ++ ((toString n).toList ++ after))
  | fraction (before rest : List Char) (hbefore : ∀ c ∈ before, isPadding c)
      (h : t.toChars = before ++ ((toString n).toList ++ '.' :: rest))

variable {t : Text} {n : Int}

theorem wholeChars_ne_nil (n : Int) : wholeChars n ≠ [] :=
  List.append_ne_nil_of_right_ne_nil _ (digitsOf_ne_nil _)

/-- Only the digits before the point are read. -/
theorem wholeText_of_spells (h : Spells t n) : wholeText t = wholeChars n := by
  have hkept : ∀ c ∈ wholeChars n, isPadding c = false :=
    fun c hc => isPadding_of_isGraphic (isGraphic_of_mem_wholeChars hc).1
  have hpoint : ∀ c ∈ wholeChars n, (c != '.') = true :=
    fun c hc => bne_iff_ne.mpr (isGraphic_of_mem_wholeChars hc).2
  have hread : (stripped t.toChars).takeWhile (· != '.') = wholeChars n := by
    cases h with
    | whole before after hbefore hafter h =>
      rw [h, toList_toString, stripped, trimEnds_padded hbefore hafter hkept (wholeChars_ne_nil n)]
      exact List.takeWhile_eq_self_iff.mpr hpoint
    | fraction before rest hbefore h =>
      obtain ⟨zs, hzs⟩ := trimEnds_kept hbefore hkept (wholeChars_ne_nil n)
        (show isPadding '.' = false by decide) rest
      rw [h, toList_toString, stripped, hzs, List.takeWhile_append_of_pos hpoint]
      simp
  obtain ⟨c, cs, hcs⟩ := List.exists_cons_of_ne_nil (wholeChars_ne_nil n)
  rw [wholeText, hread, hcs]

theorem units_of_spells (hn : n.natAbs < 10 ^ Fault.digitLimit) (h : Spells t n) :
    units (.text t) = .ok n := by
  rw [units, wholeText_of_spells h, readWhole_wholeChars hn]

/-- A number that is not whole loses its fraction. -/
theorem units_of_real {x : Binary64} {q : Rat} (hx : x.toRat? = some q) :
    units (.real x) = .ok (wholePart q) := by
  cases x with
  | finite negative amount =>
    obtain rfl := Option.some.inj hx
    rw [wholePart_signedUnits]
    rfl
  | nan | infinite => cases hx

variable {α : Type} [Scalar α]

/-- What a raw amount is converted to depends on its units only. -/
theorem ofRaw_congr {raw other : Value} (h : units raw = units other) (decimals : Int) :
    ofRaw (α := α) raw decimals = ofRaw other decimals := by
  rw [ofRaw, ofRaw, h]

/-! ## The text of an amount -/

/-- The text is a decimal with so many digits behind the point, and it denotes the number. -/
inductive Denotes (text : List Char) (places : Nat) (q : Rat) : Prop where
  | decimal (negative : Bool) (whole fraction : List Char)
      (htext : text = (if negative then ['-'] else []) ++ (whole ++ '.' :: fraction))
      (hne : whole ≠ []) (hwhole : ∀ c ∈ whole, isAsciiDigit c)
      (hfraction : ∀ c ∈ fraction, isAsciiDigit c) (hlength : fraction.length = places)
      (hvalue : (if negative then -(digitsValue (whole ++ fraction) : Rat)
        else digitsValue (whole ++ fraction)) / 10 ^ places = q)

theorem writtenDigits_eq {m : Nat} (h : m < 10 ^ Fault.digitLimit) :
    writtenDigits m = .ok (digitsOf m) := by
  have hlength : (digitsOf m).length ≤ Fault.digitLimit := length_digitsOf_le h (by decide)
  rw [writtenDigits]
  exact if_neg (by omega)

/-- The text of an amount denotes the number of units over the power of ten. -/
theorem exists_decimalText (hn : n.natAbs < 10 ^ Fault.digitLimit) {places : Nat}
    (hplaces : 0 < places) :
    ∃ text, decimalText n places = .ok text ∧ Denotes text places (n / 10 ^ places) := by
  have hscale : 0 < 10 ^ places := Nat.pow_pos (by decide)
  have hwhole := writtenDigits_eq ((Nat.div_le_self n.natAbs (10 ^ places)).trans_lt hn)
  have hfraction := writtenDigits_eq ((Nat.mod_le n.natAbs (10 ^ places)).trans_lt hn)
  have hlength := length_padZeros (length_digitsOf_le (Nat.mod_lt n.natAbs hscale) hplaces)
  refine ⟨_, ?_, .decimal (decide (n < 0)) (digitsOf (n.natAbs / 10 ^ places))
    (padZeros places (digitsOf (n.natAbs % 10 ^ places))) rfl (digitsOf_ne_nil _)
    (isAsciiDigit_of_mem_digitsOf _)
    (isAsciiDigit_of_mem_padZeros places (isAsciiDigit_of_mem_digitsOf _)) hlength ?_⟩
  · rw [decimalText, Nat.pow_eq, hwhole, ok_bind, hfraction, ok_bind]
    simp
  · -- Quotient and remainder are put together again.
    rw [digitsValue_append, digitsValue_padZeros, hlength, digitsValue_digitsOf,
      digitsValue_digitsOf, Nat.mul_comm, Nat.div_add_mod, cast_natAbs]

/-- **An amount is exact up to one rounding, however it is spelled.** Take any number of units that
has no more digits than numerals may have. With decimals, its text denotes exactly the units over
the power of ten, with that many digits behind the point; it is read as a decimal of that value, and
the amount is that decimal rounded, which is the quotient rounded once. With or without decimals, a
text that spells the number is converted like the number, and a binary64 number like its whole
part. -/
theorem ofRaw_spelled (n : Int) (hn : n.natAbs < 10 ^ Fault.digitLimit) :
    (∀ places : Nat, 0 < places → ∃ text d, decimalText n places = .ok text ∧
      Denotes text places (n / 10 ^ places) ∧ readReal text = some (.decimal d) ∧
      d.toRat = n / 10 ^ places ∧ ofRaw (.whole n) places = .ok (Number.real d.toBinary64) ∧
      d.toBinary64 = Binary64.ofRatio (decide (n < 0)) n.natAbs (10 ^ places)) ∧
    (∀ (decimals : Int) (t : Text), Spells t n →
      ofRaw (α := Number) (.text t) decimals = ofRaw (.whole n) decimals) ∧
    (∀ (decimals : Int) (x : Binary64) (q : Rat), x.toRat? = some q →
      ofRaw (α := Number) (.real x) decimals = ofRaw (.whole (wholePart q)) decimals) := by
  refine ⟨fun places hplaces => ?_, fun decimals t ht => ?_, fun decimals x q hx => ?_⟩
  · obtain ⟨text, htext, hdenotes⟩ := exists_decimalText hn hplaces
    have hread := readReal_decimalText hplaces htext
    have hamount : ofUnits n places =
        .ok (Number.real (Decimal.toBinary64 ⟨decide (n < 0), n.natAbs, 0 - places⟩)) := by
      rw [ofUnits, if_neg (by omega), htext, ok_bind, hread]
      rfl
    refine ⟨text, _, htext, hdenotes, hread, ?_, ?_, Decimal.toBinary64_places _ _ _⟩
    · rw [toRat_places, cast_natAbs]
    · have hsign : ¬ (places : Int) < 0 := by omega
      have hraw : units (.whole n) = .ok n := rfl
      rw [ofRaw, if_neg hsign, hraw, ok_bind]
      exact hamount
  · exact ofRaw_congr (units_of_spells hn ht) decimals
  · exact ofRaw_congr (units_of_real hx) decimals

/-- An amount below one token: its text and its spellings. -/
theorem ofRaw_spelled_small : (-1234567 : Int).natAbs < 10 ^ Fault.digitLimit ∧
    decimalText (-1234567) 9 = .ok "-0.001234567".toList ∧
    Denotes "-0.001234567".toList 9 ((-1234567 : Int) / 10 ^ 9) ∧
    (∀ text ∈ ["-1234567", " -1234567\n", "-1234567.9", "\t-1234567.  "],
      ofRaw (α := Number) (.text text) 9 = ofRaw (.whole (-1234567)) 9) := by
  have hdigits : (-1234567 : Int).natAbs < 10 ^ Fault.digitLimit := by decide +kernel
  obtain ⟨htext, hspelled, -⟩ := ofRaw_spelled (-1234567) hdigits
  obtain ⟨text, d, hwritten, hdenotes, -⟩ := htext 9 (by decide)
  have hshown : decimalText (-1234567) 9 = .ok "-0.001234567".toList := by rfl
  obtain rfl : "-0.001234567".toList = text := Except.ok.inj (hshown.symm.trans hwritten)
  refine ⟨hdigits, hshown, hdenotes, fun text htext => hspelled 9 text ?_⟩
  have hnone : ∀ c ∈ ([] : List Char), isPadding c := fun c hc => absurd hc List.not_mem_nil
  simp only [List.mem_cons, List.not_mem_nil, or_false] at htext
  rcases htext with rfl | rfl | rfl | rfl
  · exact .whole [] [] hnone hnone rfl
  · exact .whole [' '] ['\n'] (List.forall_mem_singleton.mpr rfl)
      (List.forall_mem_singleton.mpr rfl) rfl
  · exact .fraction [] ['9'] hnone rfl
  · exact .fraction ['\t'] [' ', ' '] (List.forall_mem_singleton.mpr rfl) rfl

end Amount

end LiquidityWatch
