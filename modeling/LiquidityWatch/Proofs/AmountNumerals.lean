import LiquidityWatch.Proofs.AmountRange
import LiquidityWatch.Proofs.Numerals

/-! # Raw amounts as text

A raw amount that comes as text should be a decimal numeral: a sign or none, digits, and a fraction,
which is cut off (`DecimalNumeral`). What is looked at is only the part before the first point
(`Amount.Reads`). What stands behind it may be anything, and nothing before it counts as zero, so
texts are accepted that are no numerals; and a sign right before the point is refused, though a
fraction may follow it. On all other texts the two agree (`Amount.ofRaw_text`). -/

namespace LiquidityWatch

/-! ## Decimal numerals -/

/-- A row of digits, or nothing at all. -/
inductive Digits : List Char → Nat → Nat → Prop
  | none : Digits [] 0 0
  | row {cs : List Char} {count n : Nat} (h : DigitRow cs count n) : Digits cs count n

/-- A point with digits behind it or none, or nothing at all. -/
inductive Fraction : List Char → Nat → Nat → Prop
  | none : Fraction [] 0 0
  | point {cs : List Char} {count n : Nat} (h : Digits cs count n) : Fraction ('.' :: cs) count n

/-- A sign or none, digits and a fraction, with at least one digit in all: the number of digits
before the point, and what the numeral denotes. -/
inductive DecimalNumeral (cs : List Char) (count : Nat) (q : Rat) : Prop where
  | intro (sign : Sign) (whole fraction : List Char) (places m n : Nat)
      (h : cs = sign.chars ++ whole ++ fraction) (hwhole : Digits whole count m)
      (hfraction : Fraction fraction places n) (hdigit : 0 < count + places)
      (hq : q = sign.apply (m * 10 ^ places + n) / 10 ^ places)

theorem Digits.lt {cs : List Char} {count n : Nat} (h : Digits cs count n) : n < 10 ^ count := by
  cases h with
  | none => decide
  | row hrow => exact hrow.lt

theorem Fraction.lt {cs : List Char} {count n : Nat} (h : Fraction cs count n) :
    n < 10 ^ count := by
  cases h with
  | none => decide
  | point hdigits => exact hdigits.lt

/-- The whole part of a numeral is what its digits before the point spell. -/
theorem wholePart_numeral (sign : Sign) {m n places : Nat} (hn : n < 10 ^ places) :
    wholePart (sign.apply (m * 10 ^ places + n) / 10 ^ places) = sign.apply m := by
  have hpos : 0 < 10 ^ places := Nat.pow_pos (by decide)
  have hcut := Amount.wholePart_signedUnits sign.isMinus (m * 10 ^ places + n) (10 ^ places)
  rw [Rat.mkRat_eq_div, Nat.add_comm, Nat.add_mul_div_right _ _ hpos, Nat.div_eq_of_lt hn,
    Nat.zero_add] at hcut
  rw [Nat.add_comm]
  exact_mod_cast hcut

/-! ## Around the point -/

/-- Neither a sign nor a digit is a point. -/
theorem ne_point_of_mem (sign : Sign) {whole : List Char} {count m : Nat}
    (h : Digits whole count m) : ∀ c ∈ sign.chars ++ whole, (c != '.') = true := by
  intro c hc
  rcases List.mem_append.mp hc with hsign | hwhole
  · rcases Sign.eq_of_mem hsign with rfl | rfl <;> decide
  · cases h with
    | none => cases hwhole
    | row hrow =>
      rw [bne_iff_ne]
      rintro rfl
      exact absurd (hrow.spaced.row _ hwhole) (by decide)

/-- A fraction begins with a point, if with anything. -/
theorem Fraction.span {cs front : List Char} {count n : Nat} (h : Fraction cs count n)
    (hfront : ∀ c ∈ front, (c != '.') = true) :
    (front ++ cs).takeWhile (· != '.') = front ∧ (front ++ cs).dropWhile (· != '.') = cs := by
  rw [List.takeWhile_append_of_pos hfront, List.dropWhile_append_of_pos hfront]
  cases h with
  | none => exact ⟨List.append_nil _, rfl⟩
  | point => exact ⟨by simp, by simp⟩

namespace Amount

open Binary64

/-- What a text has before its first point, without the padding in front. -/
def beforePoint (t : Text) : List Char := (stripped t.toChars).takeWhile (· != '.')

/-- What a text has from its first point on, without the padding at its end. -/
def fromPoint (t : Text) : List Char := (stripped t.toChars).dropWhile (· != '.')

variable {t : Text} {n : Int}

theorem beforePoint_append_fromPoint (t : Text) :
    beforePoint t ++ fromPoint t = stripped t.toChars := List.takeWhile_append_dropWhile

/-- The text is read as the number: what it has before the first point is a whole numeral, with no
more digits than the limit, or nothing at all. -/
inductive Reads (t : Text) (n : Int) : Prop where
  | nothing (h : beforePoint t = []) (hn : n = 0)
  | numeral (count : Nat) (hlimit : count ≤ Fault.digitLimit)
      (h : WholeNumeral (beforePoint t) count n)

/-- What is said of a raw amount that is no number. -/
def badText (t : Text) : Fault := .badAmount (quoted t)

theorem units_text (t : Text) : units (.text t) = match readWhole (wholeText t) with
    | .ok n => .ok n
    | .error _ => .error (badText t) := rfl

/-- Nothing before the point stands for zero. -/
theorem wholeText_of_nothing (h : beforePoint t = []) : wholeText t = ['0'] := by
  rw [beforePoint] at h
  rw [wholeText, h]

theorem wholeText_of_something (h : beforePoint t ≠ []) : wholeText t = beforePoint t := by
  obtain ⟨c, cs, hcs⟩ := List.exists_cons_of_ne_nil h
  rw [beforePoint] at hcs ⊢
  rw [wholeText, hcs]

theorem readWhole_wholeText : readWhole (wholeText t) = .ok n ↔ Reads t n := by
  by_cases hnothing : beforePoint t = []
  · rw [wholeText_of_nothing hnothing]
    have hzero : readWhole ['0'] = .ok 0 := by decide
    constructor
    · intro h
      exact .nothing hnothing (Except.ok.inj (hzero.symm.trans h)).symm
    · rintro (⟨-, rfl⟩ | ⟨count, -, before, sign, row, m, after, -, -, h, hrow, -⟩)
      · exact hzero
      · rw [hnothing] at h
        simp [hrow.ne_nil] at h
  · rw [wholeText_of_something hnothing, readWhole_eq_ok]
    constructor
    · rintro ⟨count, hlimit, h⟩
      exact .numeral count hlimit h
    · rintro (⟨h, -⟩ | ⟨count, hlimit, h⟩)
      · exact absurd h hnothing
      · exact ⟨count, hlimit, h⟩

theorem units_of_reads (h : Reads t n) : units (.text t) = .ok n := by
  rw [units_text, readWhole_wholeText.mpr h]

theorem units_of_not_reads (h : ∀ n, ¬ Reads t n) : units (.text t) = .error (badText t) := by
  rw [units_text]
  cases hread : readWhole (wholeText t) with
  | ok n => exact absurd (readWhole_wholeText.mp hread) (h n)
  | error flaw => rfl

/-- What is read has no more digits than may be written. -/
theorem Reads.natAbs_lt (h : Reads t n) : n.natAbs < 10 ^ Fault.digitLimit := by
  rcases h with ⟨-, rfl⟩ | ⟨count, hlimit, -, sign, row, m, -, -, -, -, hrow, rfl⟩
  · exact Nat.pow_pos (by decide)
  · have habs : (sign.apply m).natAbs = m := by
      rw [Sign.apply]
      split <;> omega
    rw [habs]
    exact hrow.lt.trans_le (Nat.pow_le_pow_right (by decide) hlimit)

/-! ## What is converted -/

/-- A number of units that can be written out is rounded once, unless it is too large and there are
no decimals. -/
theorem ofUnits_real (hn : n.natAbs < 10 ^ Fault.digitLimit) {places : Nat}
    (hrange : places = 0 → ¬ IsTooLarge n) :
    ofUnits n places = .ok (Number.real (ofRatio (decide (n < 0)) n.natAbs (10 ^ places))) := by
  by_cases hplaces : places = 0
  · subst hplaces
    obtain ⟨amount, hamount⟩ := exists_ofUnits_iff.mpr
      ⟨fun _ => hrange rfl, fun hne => absurd rfl hne⟩
    rw [hamount]
    obtain ⟨x, hx, h⟩ := bind_eq_ok.mp hamount
    obtain ⟨rfl, -⟩ := Number.roundWhole_eq_ok.mp hx
    exact congrArg Except.ok (pure_eq_ok.mp h).symm
  · obtain ⟨text, htext, -⟩ := exists_decimalText hn (Nat.pos_of_ne_zero hplaces)
    rw [ofUnits, if_neg hplaces, htext, ok_bind,
      readReal_decimalText (Nat.pos_of_ne_zero hplaces) htext, ← Decimal.toBinary64_places]
    rfl

theorem ofUnits_tooLarge (hrange : IsTooLarge n) :
    (ofUnits n 0 : Except Fault Number) = .error .wholeTooLarge := by
  have hunits : (ofUnits n 0 : Except Fault Number) =
      (do return Number.real (← Number.roundWhole n)) := rfl
  cases hround : Number.roundWhole n with
  | ok x =>
    obtain ⟨hplaces, -⟩ := exists_ofUnits_iff.mp ⟨Number.real x, by rw [hunits, hround]; rfl⟩
    exact absurd hrange (hplaces rfl)
  | error f =>
    rw [hunits, hround, Number.roundWhole_eq_error hround]
    rfl

theorem ofRaw_places (raw : Value) (places : Nat) :
    (ofRaw raw places : Except Fault Number) = units raw >>= (ofUnits · places) := by
  rw [ofRaw, if_neg (by omega)]
  rfl

theorem ofRaw_of_reads (h : Reads t n) {places : Nat} (hrange : places = 0 → ¬ IsTooLarge n) :
    ofRaw (.text t) places =
      .ok (Number.real (ofRatio (decide (n < 0)) n.natAbs (10 ^ places))) := by
  rw [ofRaw_places, units_of_reads h, ok_bind, ofUnits_real h.natAbs_lt hrange]

theorem ofRaw_of_not_reads (h : ∀ n, ¬ Reads t n) (places : Nat) :
    ofRaw (α := Number) (.text t) places = .error (badText t) := by
  rw [ofRaw_places, units_of_not_reads h, error_bind]

/-! ## Reading against the grammar -/

/-- The text is a decimal numeral, with no more digits before the point than the limit, and this is
its whole part. -/
def IsNumeral (t : Text) (n : Int) : Prop :=
  ∃ count ≤ Fault.digitLimit, ∃ q, DecimalNumeral (stripped t.toChars) count q ∧ n = wholePart q

/-- Nothing but a sign stands before the point. -/
def HasBareSign (t : Text) : Prop :=
  fromPoint t ≠ [] ∧ (beforePoint t = ['+'] ∨ beforePoint t = ['-'])

/-- Around the first point of the text stands only what a numeral has there. -/
structure IsTidy (t : Text) : Prop where
  /-- From the point on the text is a fraction. -/
  fraction : ∃ places n, Fraction (fromPoint t) places n
  /-- No blank stands right before the point. -/
  joined : fromPoint t ≠ [] → ∀ c ∈ (beforePoint t).getLast?, isBlank c = false
  /-- If nothing stands before the point, a digit stands behind it. -/
  digit : beforePoint t = [] → ∃ places n, 0 < places ∧ Fraction (fromPoint t) places n

theorem isPadding_of_isBlank {c : Char} (h : isBlank c) : isPadding c := by
  rw [isPadding, h, Bool.true_or]

/-- Before the point of a tidy text no blanks are left around the numeral. -/
theorem IsTidy.exists_row (ht : IsTidy t) {count : Nat}
    (h : WholeNumeral (beforePoint t) count n) : ∃ sign row m,
      beforePoint t = Sign.chars sign ++ row ∧ DigitRow row count m ∧ n = sign.apply m := by
  obtain ⟨before, sign, row, m, after, hbefore, hafter, h, hrow, hn⟩ := h
  obtain ⟨hfirst, hlast⟩ := trimEnds_ends isPadding t.toChars
  rw [← stripped, ← beforePoint_append_fromPoint t] at hfirst hlast
  have hfront : before = [] := by
    cases before with
    | nil => rfl
    | cons c before =>
      rw [h] at hfirst
      have hkept := hfirst c rfl
      rw [isPadding_of_isBlank (hbefore c List.mem_cons_self)] at hkept
      cases hkept
  have hback : after = [] := by
    rcases List.eq_nil_or_concat after with rfl | ⟨after, c, rfl⟩
    · rfl
    · have hblank := hafter c (by simp)
      have hc : (beforePoint t).getLast? = some c := by
        rw [h, List.concat_eq_append, ← List.append_assoc, ← List.append_assoc,
          List.getLast?_concat]
      by_cases hpoint : fromPoint t = []
      · rw [hpoint, List.append_nil, hc] at hlast
        have hkept := hlast c rfl
        rw [isPadding_of_isBlank hblank] at hkept
        cases hkept
      · have hkept := ht.joined hpoint c hc
        rw [hblank] at hkept
        cases hkept
  rw [hfront, hback, List.append_nil, List.nil_append] at h
  exact ⟨sign, row, m, h, hrow, hn⟩

/-- What is read of a tidy text is the whole part of a numeral. -/
theorem IsTidy.isNumeral (ht : IsTidy t) (h : Reads t n) : IsNumeral t n := by
  rw [IsNumeral, ← beforePoint_append_fromPoint t]
  rcases h with ⟨hnothing, rfl⟩ | ⟨count, hlimit, h⟩
  · obtain ⟨places, f, hpos, hfraction⟩ := ht.digit hnothing
    exact ⟨0, Nat.zero_le _, _, .intro .none [] _ places 0 f (by rw [hnothing]; rfl) .none
      hfraction (by omega) rfl, (wholePart_numeral .none hfraction.lt).symm⟩
  · obtain ⟨sign, row, m, hbefore, hrow, rfl⟩ := ht.exists_row h
    obtain ⟨places, f, hfraction⟩ := ht.fraction
    have hpos : 0 < count := by
      cases hrow <;> omega
    exact ⟨count, hlimit, _, .intro sign row _ places m f (by rw [hbefore]) (.row hrow) hfraction
      (by omega) rfl, (wholePart_numeral sign hfraction.lt).symm⟩

/-- What a numeral has before its point and from there on. -/
inductive Spans (t : Text) (count : Nat) (n : Int) : Prop where
  | intro (sign : Sign) (whole : List Char) (places m f : Nat)
      (hbefore : beforePoint t = sign.chars ++ whole) (hwhole : Digits whole count m)
      (hfraction : Fraction (fromPoint t) places f) (hdigit : 0 < count + places)
      (hn : n = sign.apply m)

theorem spans_numeral {count : Nat} {q : Rat}
    (h : DecimalNumeral (stripped t.toChars) count q) : Spans t count (wholePart q) := by
  obtain ⟨sign, whole, fraction, places, m, f, h, hwhole, hfraction, hdigit, rfl⟩ := h
  obtain ⟨hbefore, hfrom⟩ := hfraction.span (ne_point_of_mem sign hwhole)
  rw [← h] at hbefore hfrom
  refine .intro sign whole places m f hbefore hwhole ?_ hdigit (wholePart_numeral sign hfraction.lt)
  rw [fromPoint, hfrom]
  exact hfraction

/-- Numerals are tidy. -/
theorem Spans.isTidy {count : Nat} (h : Spans t count n) : IsTidy t := by
  obtain ⟨sign, whole, places, m, f, hbefore, hwhole, hfraction, hdigit, -⟩ := h
  refine ⟨⟨places, f, hfraction⟩, fun _ c hc => ?_, fun hnothing => ?_⟩
  · have hmem : c ∈ sign.chars ++ whole := hbefore ▸ List.mem_of_getLast? hc
    cases hwhole with
    | row hrow => exact isBlank_of_mem_numeral sign hrow c hmem
    | none =>
      rw [List.append_nil] at hmem
      exact sign.isBlank_of_mem hmem
  · rw [hbefore] at hnothing
    obtain ⟨-, rfl⟩ := List.append_eq_nil_iff.mp hnothing
    cases hwhole with
    | row hrow => exact absurd rfl hrow.ne_nil
    | none => exact ⟨places, f, by omega, hfraction⟩

/-- A bare sign is no whole numeral. -/
theorem HasBareSign.not_reads (h : HasBareSign t) : ¬ Reads t n := by
  obtain ⟨-, hsign⟩ := h
  rintro (⟨hnothing, -⟩ | ⟨count, -, before, sign, row, m, after, -, -, h, hrow, -⟩)
  · rcases hsign with hsign | hsign <;> simp [hsign] at hnothing
  · obtain ⟨c, rest, d, rfl, hd⟩ := hrow.exists_head
    have hmem : c ∈ beforePoint t := by simp [h]
    rcases hsign with hsign | hsign
    all_goals
      rw [hsign, List.mem_singleton] at hmem
      subst hmem
      cases hd

/-- A numeral is read as its whole part, unless its sign stands right before the point. -/
theorem IsNumeral.reads (h : IsNumeral t n) (hsigned : ¬ HasBareSign t) : Reads t n := by
  obtain ⟨count, hlimit, q, hq, rfl⟩ := h
  obtain ⟨sign, whole, places, m, f, hbefore, hwhole, hfraction, hdigit, hn⟩ := spans_numeral hq
  rw [hn]
  cases hwhole with
  | row hrow =>
    refine .numeral count hlimit (.intro [] sign whole m [] (by simp) (by simp) ?_ hrow rfl)
    rw [hbefore, List.append_nil, List.nil_append]
  | none =>
    have hpoint : fromPoint t ≠ [] := by
      intro hnone
      rw [hnone] at hfraction
      cases hfraction
      omega
    rw [List.append_nil] at hbefore
    cases sign with
    | none => exact .nothing hbefore rfl
    | plus => exact absurd ⟨hpoint, .inl hbefore⟩ hsigned
    | minus => exact absurd ⟨hpoint, .inr hbefore⟩ hsigned

/-- **Which texts are amounts.** What a text has before its first point decides. If that is read as
a number, the text is converted like the number: its quotient over the power of ten is rounded once,
and the only fault is a number out of range where there are no decimals. Every other text is refused
with a fault of its value that shows it. Measured by the grammar, a numeral is read as its whole
part just if its sign, if it has one, does not stand right before the point; and a text that is read
is a numeral just if it is tidy. -/
theorem ofRaw_text (t : Text) (places : Nat) :
    (∀ n, Reads t n →
      ofRaw (α := Number) (.text t) places = ofRaw (.whole n) places ∧
      ((places = 0 → ¬ IsTooLarge n) → ofRaw (.text t) places =
        .ok (Number.real (ofRatio (decide (n < 0)) n.natAbs (10 ^ places)))) ∧
      (places = 0 → IsTooLarge n →
        ofRaw (α := Number) (.text t) places = .error .wholeTooLarge)) ∧
    ((∀ n, ¬ Reads t n) → ofRaw (α := Number) (.text t) places = .error (badText t) ∧
      (badText t).isValueFault = true) ∧
    (∀ n, IsNumeral t n → (Reads t n ↔ ¬ HasBareSign t)) ∧
    (∀ n, Reads t n → (IsNumeral t n ↔ IsTidy t)) := by
  refine ⟨fun n h => ⟨?_, fun hrange => ?_, fun hzero hrange => ?_⟩, fun h => ⟨?_, rfl⟩,
    fun n h => ⟨fun hread hsign => hsign.not_reads hread, h.reads⟩,
    fun n h => ⟨fun ⟨_, _, _, hq, _⟩ => (spans_numeral hq).isTidy, fun ht => ht.isNumeral h⟩⟩
  · exact ofRaw_congr (units_of_reads h) places
  · exact ofRaw_of_reads h hrange
  · rw [ofRaw_places, units_of_reads h, ok_bind, hzero, ofUnits_tooLarge hrange]
  · exact ofRaw_of_not_reads h places

/-- A numeral is read without its fraction, and a text that is none is refused. -/
theorem ofRaw_text_sample : IsNumeral " -1_500.75\n" (-1500) ∧
    ofRaw (.text " -1_500.75\n") 2 = .ok (Number.real (ofRatio true 1500 (10 ^ 2))) ∧
    ofRaw (α := Number) (.text "12a") 2 = .error (badText "12a") := by
  obtain ⟨hreads, -, -, hnumeral⟩ := ofRaw_text " -1_500.75\n" 2
  obtain ⟨-, hrefused, -, -⟩ := ofRaw_text "12a" 2
  have hread : Reads " -1_500.75\n" (-1500) := readWhole_wholeText.mp (by decide +kernel)
  obtain ⟨-, hamount, -⟩ := hreads (-1500) hread
  have hdigits : DigitRow ['7', '5'] (1 + 1) (7 * 10 ^ 1 + 5) := .digit rfl (.last rfl)
  refine ⟨(hnumeral _ hread).mpr ⟨⟨_, _, .point (.row hdigits)⟩, ?_, ?_⟩, hamount (by decide),
    (hrefused ?_).1⟩
  · rintro - c hc
    obtain rfl := Option.some.inj hc
    decide
  · intro hnothing
    cases hnothing
  · intro n h
    have hmalformed : readWhole (wholeText "12a") = .error .malformed := by decide +kernel
    rw [readWhole_wholeText.mpr h] at hmalformed
    cases hmalformed

/-- Letters behind the point are accepted, and a sign right before the point is refused. -/
theorem ofRaw_text_loose :
    (ofRaw (.text "1.abc") 6 = .ok (Number.real (ofRatio false 1 (10 ^ 6))) ∧
      ∀ count q, ¬ DecimalNumeral (stripped (Text.toChars "1.abc")) count q) ∧
    IsNumeral "-.5" 0 ∧ ofRaw (α := Number) (.text "-.5") 6 = .error (badText "-.5") := by
  have hread : Reads "1.abc" 1 := readWhole_wholeText.mp (by decide +kernel)
  refine ⟨⟨ofRaw_of_reads hread (by decide), fun count q h => ?_⟩, ?_, ?_⟩
  · obtain ⟨places, f, hfraction⟩ := (spans_numeral h).isTidy.fraction
    have hfrom : fromPoint "1.abc" = '.' :: ['a', 'b', 'c'] := by decide +kernel
    rw [hfrom] at hfraction
    cases hfraction with
    | point hdigits =>
      cases hdigits with
      | row hrow =>
        obtain ⟨c, rest, d, hc, hd⟩ := hrow.exists_head
        obtain ⟨rfl, -⟩ := List.cons.inj hc
        cases hd
  · have hdigits : Digits ['5'] 1 5 := .row (.last rfl)
    have hwhole : wholePart (Sign.minus.apply (0 * 10 ^ 1 + 5) / 10 ^ 1) = 0 :=
      wholePart_numeral .minus (by decide)
    exact ⟨0, Nat.zero_le _, _, .intro .minus [] _ 1 0 5 (by decide +kernel) .none
      (.point hdigits) (by decide) rfl, hwhole.symm⟩
  · have hsign : HasBareSign "-.5" := ⟨by decide +kernel, .inr (by decide +kernel)⟩
    exact ofRaw_of_not_reads (fun n => hsign.not_reads) 6

end Amount

end LiquidityWatch
