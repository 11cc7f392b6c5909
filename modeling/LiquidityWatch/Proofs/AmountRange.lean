import LiquidityWatch.Proofs.AmountSpelling

/-! # Amounts out of the range of binary64

A number is rounded to an infinity just if it reaches the middle between the greatest finite number
and the power of two above it (`Binary64.isFinite_ofRatio`). Without decimals an amount that large
is refused, since a whole number out of range is a fault. With decimals the amount is read from its
text, where the rounding is silent: the amount is accepted and infinite
(`Position.amounts_finite`). -/

namespace LiquidityWatch

-- Both are numbers of hundreds of digits, which proofs must not compute with.
attribute [local irreducible] Binary64.unitsPerOne Binary64.overflowUnits

/-! ## Rounding to an infinity -/

/-- What is rounded to a half or more below an even number is rounded up to it. -/
theorem roundHalfEven_lt_iff {n d b : Nat} (hd : 0 < d) (hb : b % 2 = 1) :
    roundHalfEven n d < b + 1 ↔ 2 * n < (2 * b + 1) * d := by
  have hn : d * (n / d) + n % d = n := Nat.div_add_mod n d
  have hrest : n % d < d := Nat.mod_lt n hd
  have hexpand : (2 * b + 1) * d = 2 * (d * b) + d := by ring
  rw [hexpand]
  rcases Nat.lt_trichotomy (n / d) b with hlt | heq | hgt
  · have hround := roundHalfEven_le n d
    have hproduct : d * (n / d + 1) ≤ d * b := Nat.mul_le_mul_left d hlt
    rw [Nat.mul_succ] at hproduct
    omega
  · -- Only here the rest decides; a half goes up, because the quotient is odd.
    rw [heq] at hn
    simp only [roundHalfEven, heq, hb, and_true]
    split <;> omega
  · have hround := le_roundHalfEven n d
    have hproduct : d * (b + 1) ≤ d * (n / d) := Nat.mul_le_mul_left d hgt
    rw [Nat.mul_succ] at hproduct
    omega

namespace Binary64

/-- What is rounded stays below a power of two just if it lies below the middle between the power
and the greatest number with 53 significant bits under it. -/
theorem nearestUnits_lt_iff {n d : Nat} (hd : 0 < d) (e : Nat) :
    nearestUnits n d < 2 ^ (e + 53) ↔ 2 * n < (2 ^ 54 - 1) * (d * 2 ^ e) := by
  have hn : d * (n / d) + n % d = n := Nat.div_add_mod n d
  have hrest : n % d < d := Nat.mod_lt n hd
  have hscale : ∀ k, d * 2 ^ (e + k) = d * 2 ^ e * 2 ^ k := fun k => by rw [pow_add, mul_assoc]
  rcases Nat.lt_trichotomy (n / d).log2 (e + 52) with hlow | hmiddle | hhigh
  · -- The power of two above the quotient is not above `2 ^ (e + 52)`.
    have hround : nearestUnits n d ≤ 2 ^ (e + 52) :=
      (nearestUnits_le n d).trans (Nat.pow_le_pow_right (by decide) hlow)
    have hbelow : 2 ^ (e + 52) < 2 ^ (e + 53) := Nat.pow_lt_pow_right (by decide) (by omega)
    have hquotient : n / d < 2 ^ (e + 52) :=
      Nat.lt_log2_self.trans_le (Nat.pow_le_pow_right (by decide) hlow)
    have hproduct : d * (n / d + 1) ≤ d * 2 ^ (e + 52) := Nat.mul_le_mul_left d hquotient
    rw [Nat.mul_succ, hscale] at hproduct
    omega
  · have hdropped : (n / d).log2 + 1 - precision = e := by
      simp only [precision]
      omega
    have hunits : nearestUnits n d = roundHalfEven n (d * 2 ^ e) * 2 ^ e := by
      rw [nearestUnits_eq, hdropped]
    have hfine : 0 < d * 2 ^ e := by positivity
    rw [hunits, show (2 : Nat) ^ (e + 53) = (2 ^ 53 - 1 + 1) * 2 ^ e by rw [pow_add]; ring,
      Nat.mul_lt_mul_right (by positivity), roundHalfEven_lt_iff hfine (by decide)]
    norm_num
  · -- The power of two below the quotient is not below `2 ^ (e + 53)`.
    have hpos : 0 < n / d := by
      by_contra hzero
      simp [Nat.eq_zero_of_not_pos hzero] at hhigh
    have hround : 2 ^ (e + 53) ≤ nearestUnits n d :=
      (Nat.pow_le_pow_right (by decide) hhigh).trans (le_nearestUnits hpos)
    have hquotient : 2 ^ (e + 53) ≤ n / d :=
      (Nat.pow_le_pow_right (by decide) hhigh).trans (Nat.log2_self_le hpos.ne')
    have hproduct : d * 2 ^ (e + 53) ≤ d * (n / d) := Nat.mul_le_mul_left d hquotient
    rw [hscale] at hproduct
    omega

/-- The least number that is rounded to an infinity. -/
def leastInfinite : Nat := Nat.pow 2 1024 - Nat.pow 2 970

/-- The number is too large to be rounded to a finite one. -/
def IsTooLarge (q : Rat) : Prop := (leastInfinite : Rat) ≤ |q|

instance (q : Rat) : Decidable (IsTooLarge q) := inferInstanceAs (Decidable (_ ≤ _))

theorem overflowUnits_eq : overflowUnits = 2 ^ (2045 + 53) := by decide +kernel

theorem leastInfinite_units :
    2 * (leastInfinite * unitsPerOne) = (2 ^ 54 - 1) * 2 ^ 2045 := by decide +kernel

attribute [local irreducible] leastInfinite

theorem isFinite_ofUnits (negative : Bool) (n d : Nat) :
    (ofUnits negative n d).isFinite = true ↔ nearestUnits n d < overflowUnits := by
  by_cases hrange : nearestUnits n d < overflowUnits
  · rw [ofUnits_finite negative hrange]
    exact ⟨fun _ => hrange, fun _ => rfl⟩
  · rw [ofUnits_infinite negative hrange]
    constructor
    · intro h
      cases h
    · intro h
      exact absurd h hrange

/-- A quotient is in the range of the finite numbers just if it lies below the least number that is
rounded to an infinity. -/
theorem nearestUnits_in_range {m d : Nat} (hd : 0 < d) :
    nearestUnits (m * unitsPerOne) d < overflowUnits ↔ m < leastInfinite * d := by
  have hunits := leastInfinite_units
  rw [overflowUnits_eq, nearestUnits_lt_iff hd]
  generalize (2 : Nat) ^ 2045 = scale at hunits ⊢
  have hbound : (2 ^ 54 - 1) * (d * scale) = 2 * (leastInfinite * d * unitsPerOne) := by
    calc (2 ^ 54 - 1) * (d * scale) = (2 ^ 54 - 1) * scale * d := by ring
      _ = 2 * (leastInfinite * unitsPerOne) * d := by rw [hunits]
      _ = 2 * (leastInfinite * d * unitsPerOne) := by ring
  rw [hbound, Nat.mul_lt_mul_left (by decide), Nat.mul_lt_mul_right unitsPerOne_pos]

/-- **When a quotient is rounded to a finite number.** -/
theorem isFinite_ofRatio (negative : Bool) (m : Nat) {d : Nat} (hd : 0 < d) :
    (ofRatio negative m d).isFinite = true ↔ ¬ IsTooLarge (m / d) := by
  have hd' : (0 : Rat) < d := by exact_mod_cast hd
  have hnonneg : (0 : Rat) ≤ m / d := by positivity
  rw [ofRatio, isFinite_ofUnits, nearestUnits_in_range hd, IsTooLarge, abs_of_nonneg hnonneg,
    not_le, div_lt_iff₀ hd']
  exact_mod_cast Iff.rfl

end Binary64

/-! ## Amounts -/

namespace Amount

open Binary64

/-- When a number of units in whole tokens is rounded to a finite number. -/
theorem isFinite_ofRatio_units (n : Int) (places : Nat) :
    (ofRatio (decide (n < 0)) n.natAbs (10 ^ places)).isFinite = true ↔
      ¬ IsTooLarge (n / 10 ^ places) := by
  have hpos : 0 < 10 ^ places := Nat.pow_pos (by decide)
  have habs : |(n.natAbs : Rat) / (10 ^ places : Nat)| = |(n : Rat) / 10 ^ places| := by
    rw [abs_div, abs_div, Nat.cast_natAbs, Int.cast_abs, abs_abs, Nat.cast_pow, Nat.cast_ofNat]
  rw [isFinite_ofRatio _ _ hpos, IsTooLarge, IsTooLarge, habs]

/-- An amount is finite unless it is too large, and without decimals it is finite in any case. -/
theorem isFinite_of_ofUnits {n : Int} {places : Nat} {amount : Number}
    (h : ofUnits n places = .ok amount) :
    ∃ x, amount = .real x ∧ (x.isFinite = true ↔ ¬ IsTooLarge (n / 10 ^ places)) ∧
      (places = 0 → x.isFinite = true) := by
  rw [ofUnits] at h
  by_cases hplaces : places = 0
  · rw [if_pos hplaces] at h
    obtain ⟨x, hx, h⟩ := bind_eq_ok.mp h
    obtain rfl := pure_eq_ok.mp h
    obtain ⟨rfl, hrange⟩ := Number.roundWhole_eq_ok.mp hx
    have hfinite : (ofInt n).isFinite = true := (isFinite_ofUnits _ _ _).mpr hrange
    subst hplaces
    exact ⟨_, rfl, isFinite_ofRatio_units n 0, fun _ => hfinite⟩
  · rw [if_neg hplaces] at h
    obtain ⟨text, htext, h⟩ := bind_eq_ok.mp h
    rw [readReal_decimalText (Nat.pos_of_ne_zero hplaces) htext] at h
    obtain rfl := pure_eq_ok.mp h
    refine ⟨_, rfl, ?_, fun hzero => absurd hzero hplaces⟩
    rw [Decimal.toBinary64_places]
    exact isFinite_ofRatio_units n places

theorem isFinite_of_ofRaw {raw : Value} {decimals : Int} {amount : Number}
    (h : ofRaw raw decimals = .ok amount) :
    0 ≤ decimals ∧ ∃ x, amount = .real x ∧
      (x.isFinite = true ↔ ¬ IsTooLarge (exact raw decimals)) ∧
      (decimals = 0 → x.isFinite = true) := by
  rw [ofRaw] at h
  split at h
  · cases h
  · rename_i hdecimals
    obtain ⟨n, hn, h⟩ := bind_eq_ok.mp h
    obtain ⟨places, rfl⟩ := Int.eq_ofNat_of_zero_le (not_lt.mp hdecimals)
    obtain ⟨x, rfl, hfinite, hzero⟩ := isFinite_of_ofUnits h
    rw [exact, ← eq_wholeUnits hn, zpow_natCast]
    exact ⟨not_lt.mp hdecimals, x, rfl, hfinite, fun hplaces => hzero (by omega)⟩

/-- A raw amount that can be converted: its units are known, and they are in range if there are no
decimals, or can be written out if there are. -/
structure IsConvertible (raw : Value) (decimals : Int) : Prop where
  nonneg : 0 ≤ decimals
  units : ∃ n, units raw = .ok n ∧ (decimals = 0 → ¬ IsTooLarge n) ∧
    (decimals ≠ 0 → ∃ text, decimalText n decimals.toNat = .ok text)

/-- The size of an amount matters only where there are no decimals. -/
theorem exists_ofUnits_iff {n : Int} {places : Nat} :
    (∃ amount : Number, ofUnits n places = .ok amount) ↔ (places = 0 → ¬ IsTooLarge n) ∧
      (places ≠ 0 → ∃ text, decimalText n places = .ok text) := by
  rw [ofUnits]
  by_cases hplaces : places = 0
  · have hrange := isFinite_ofRatio_units n 0
    rw [pow_zero, pow_zero, div_one, ofRatio, isFinite_ofUnits] at hrange
    rw [if_pos hplaces, ← hrange, ← Number.exists_roundWhole_iff]
    constructor
    · rintro ⟨amount, h⟩
      obtain ⟨x, hx, -⟩ := bind_eq_ok.mp h
      exact ⟨fun _ => ⟨x, hx⟩, fun hne => absurd hplaces hne⟩
    · rintro ⟨h, -⟩
      obtain ⟨x, hx⟩ := h hplaces
      exact ⟨.real x, bind_eq_ok.mpr ⟨x, hx, rfl⟩⟩
  · rw [if_neg hplaces]
    constructor
    · rintro ⟨amount, h⟩
      obtain ⟨text, htext, -⟩ := bind_eq_ok.mp h
      exact ⟨fun hzero => absurd hzero hplaces, fun _ => ⟨text, htext⟩⟩
    · rintro ⟨-, h⟩
      obtain ⟨text, htext⟩ := h hplaces
      rw [htext, ok_bind, readReal_decimalText (Nat.pos_of_ne_zero hplaces) htext]
      exact ⟨_, rfl⟩

theorem exists_ofRaw_iff {raw : Value} {decimals : Int} :
    (∃ amount : Number, ofRaw raw decimals = .ok amount) ↔ IsConvertible raw decimals := by
  rw [ofRaw]
  by_cases hdecimals : decimals < 0
  · rw [if_pos hdecimals]
    constructor
    · rintro ⟨amount, h⟩
      cases h
    · intro h
      exact absurd h.nonneg (by omega)
  · rw [if_neg hdecimals]
    obtain ⟨places, rfl⟩ := Int.eq_ofNat_of_zero_le (not_lt.mp hdecimals)
    constructor
    · rintro ⟨amount, h⟩
      obtain ⟨n, hn, h⟩ := bind_eq_ok.mp h
      obtain ⟨hzero, htext⟩ := exists_ofUnits_iff.mp ⟨amount, h⟩
      exact ⟨by omega, n, hn, fun hplaces => hzero (by omega), fun hplaces => htext (by omega)⟩
    · rintro ⟨-, n, hn, hzero, htext⟩
      rw [hn, ok_bind]
      exact exists_ofUnits_iff.mpr
        ⟨fun hplaces => hzero (by omega), fun hplaces => htext (by omega)⟩

end Amount

namespace Position

open Binary64

variable {entry : Entry} {p : Position Int}

theorem checkAmount_eq_ok {name : String} {raw : Value} {decimals : Int} :
    checkAmount (name, raw, decimals) = .ok () ↔ Amount.IsConvertible raw decimals := by
  rw [← Amount.exists_ofRaw_iff, checkAmount]
  cases hamount : (Amount.ofRaw raw decimals : Except Fault Number) with
  | ok amount => exact ⟨fun _ => ⟨amount, rfl⟩, fun _ => rfl⟩
  | error f =>
    constructor
    · intro h
      cases h
    · rintro ⟨amount, h⟩
      cases h

/-- An entry is accepted just if no required field is missing, its whole numbers can be read, and
its amounts can be converted. -/
theorem ofEntry_iff : ofEntry entry = .ok p ↔ missingFields entry = [] ∧
    readEntry entry = .ok p ∧ ∀ a ∈ p.amounts, Amount.IsConvertible a.2.1 a.2.2 := by
  rw [ofEntry_eq_ok]
  refine and_congr_right fun _ => and_congr_right fun _ => ?_
  exact forall₂_congr fun a _ => checkAmount_eq_ok

/-- The amounts of an accepted position are finite just where they are not too large, and always
where the token has no decimals. -/
theorem amounts_of_accepted (h : ofEntry entry = .ok p) (priceX priceY : Number) :
    ∃ v, p.value priceX priceY = .ok v ∧
      List.Forall₂ (fun name amount => ∃ decimals x, decimalsOf entry name = .ok decimals ∧
        0 ≤ decimals ∧ amount = Number.real x ∧
        (x.isFinite = true ↔ ¬ IsTooLarge (Amount.exact (rawField entry name) decimals)) ∧
        (decimals = 0 → x.isFinite = true)) amountFields v.amounts := by
  refine ⟨_, value_eq_converted h priceX priceY, ?_⟩
  rw [amounts_valueBy, List.forall₂_map_right_iff]
  refine (converted_of_ofEntry h).imp fun name a ha => ?_
  obtain ⟨hdecimals, hamount⟩ := ha
  obtain ⟨hnonneg, x, hx, hfinite, hzero⟩ := Amount.isFinite_of_ofRaw hamount
  exact ⟨a.2.2, x, hdecimals, hnonneg, hx, hfinite, hzero⟩

/-- **Which amounts are worth infinity.** An entry with an amount that is too large for a finite
number is refused if the token of the amount has no decimals; otherwise the size of an amount is no
reason to refuse it. An entry that is accepted can be valued, and each of its six amounts, the whole
part of the raw amount over the power of ten of its token, is finite just if it is not too large. So
all of them are finite unless one is too large whose token has decimals. -/
theorem amounts_finite (entry : Entry) :
    ((∃ name ∈ amountFields, decimalsOf entry name = .ok 0 ∧
        IsTooLarge (Amount.exact (rawField entry name) 0)) → ∃ f, ofEntry entry = .error f) ∧
    (∀ p, ofEntry entry = .ok p ↔ missingFields entry = [] ∧ readEntry entry = .ok p ∧
      ∀ a ∈ p.amounts, Amount.IsConvertible a.2.1 a.2.2) ∧
    ∀ p, ofEntry entry = .ok p → ∀ priceX priceY : Number, ∃ v, p.value priceX priceY = .ok v ∧
      List.Forall₂ (fun name amount => ∃ decimals x, decimalsOf entry name = .ok decimals ∧
        0 ≤ decimals ∧ amount = Number.real x ∧
        (x.isFinite = true ↔ ¬ IsTooLarge (Amount.exact (rawField entry name) decimals)) ∧
        (decimals = 0 → x.isFinite = true)) amountFields v.amounts := by
  refine ⟨?_, fun p => ofEntry_iff, fun p hp => amounts_of_accepted hp⟩
  rintro ⟨name, hname, hdecimals, hlarge⟩
  cases haccepted : ofEntry entry with
  | error f => exact ⟨f, rfl⟩
  | ok p =>
    obtain ⟨v, -, hamounts⟩ := amounts_of_accepted haccepted (.whole 0) (.whole 0)
    obtain ⟨_, decimals, x, hsame, -, -, hfinite, hzero⟩ := exists_of_forall₂_left hamounts hname
    obtain rfl := Except.ok.inj (hdecimals.symm.trans hsame)
    exact absurd hlarge (hfinite.mp (hzero rfl))

/-- A number of units far out of range, whatever the decimals of common tokens. -/
def hugeUnits : Nat := Nat.pow 10 400

/-- An entry with that many units of one token, which has so many decimals. -/
def hugeEntry (decimals : Nat) : Entry :=
  [("position_id", .text "P"), ("pool_address", .text "A"), ("token_x_mint", .text "X"),
    ("token_y_mint", .text "Y"), ("token_x_decimals", .whole decimals),
    ("total_x", .whole hugeUnits)]

attribute [local irreducible] leastInfinite hugeUnits

theorem rawField_hugeEntry (decimals : Nat) :
    rawField (hugeEntry decimals) "total_x" = .whole hugeUnits := rfl

theorem isTooLarge_exact {units places : Nat} (h : leastInfinite * 10 ^ places ≤ units) :
    IsTooLarge (Amount.exact (.whole units) places) := by
  have hexact : Amount.exact (.whole units) places = (units : Rat) / 10 ^ places := by
    simp [Amount.exact, Amount.wholeUnits, Value.whole]
  have hnonneg : (0 : Rat) ≤ units / 10 ^ places := by positivity
  rw [IsTooLarge, hexact, abs_of_nonneg hnonneg, le_div_iff₀ (by positivity)]
  exact_mod_cast h

/-- Without decimals the entry is refused, with nine it is accepted. -/
theorem amounts_finite_huge : (∃ f, ofEntry (hugeEntry 0) = .error f) ∧
    ∃ p v, ofEntry (hugeEntry 9) = .ok p ∧ p.value (Number.whole 3) (.whole 2) = .ok v ∧
      v.amounts.length = amountFields.length := by
  have hunits : leastInfinite * 10 ^ 0 ≤ hugeUnits := by decide +kernel
  have hlarge : IsTooLarge (Amount.exact (rawField (hugeEntry 0) "total_x") 0) := by
    rw [rawField_hugeEntry]
    exact isTooLarge_exact hunits
  have hfield : decimalsField "total_x" = "token_x_decimals" := by decide +kernel
  have hdecimals : decimalsOf (hugeEntry 0) "total_x" = .ok 0 := by
    rw [decimalsOf, hfield]
    rfl
  obtain ⟨hrefused, -⟩ := amounts_finite (hugeEntry 0)
  obtain ⟨-, -, hvalued⟩ := amounts_finite (hugeEntry 9)
  obtain ⟨p, hp⟩ : ∃ p, ofEntry (hugeEntry 9) = .ok p :=
    exists_of_isSome_toOption (by decide +kernel)
  obtain ⟨v, hv, hamounts⟩ := hvalued p hp (.whole 3) (.whole 2)
  exact ⟨hrefused ⟨"total_x", List.mem_cons_self, hdecimals, hlarge⟩, p, v, hp, hv,
    hamounts.length_eq.symm⟩

/-- That amount is worth infinity. -/
theorem amount_infinite : IsTooLarge (Amount.exact (rawField (hugeEntry 9) "total_x") 9) ∧
    ∃ p v, ofEntry (hugeEntry 9) = .ok p ∧ p.value (Number.whole 3) (.whole 2) = .ok v ∧
      v.x.amount = .real (.infinite false) := by
  have hunits : leastInfinite * 10 ^ 9 ≤ hugeUnits := by decide +kernel
  have hlarge : IsTooLarge (Amount.exact (rawField (hugeEntry 9) "total_x") 9) := by
    rw [rawField_hugeEntry]
    exact isTooLarge_exact hunits
  obtain ⟨p, hp⟩ : ∃ p, ofEntry (hugeEntry 9) = .ok p :=
    exists_of_isSome_toOption (by decide +kernel)
  have hamount : ((do (← ofEntry (hugeEntry 9)).value (Number.whole 3) (.whole 2)).toOption.map
      fun v : Valuation Number => v.x.amount) = some (.real (.infinite false)) := by
    decide +kernel
  have hv := value_eq_converted hp (.whole 3) (.whole 2)
  rw [hp, ok_bind, hv] at hamount
  exact ⟨hlarge, p, _, hp, hv, Option.some.inj hamount⟩

end Position

end LiquidityWatch
