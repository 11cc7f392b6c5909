import LiquidityWatch.Proofs.Outcome
import LiquidityWatch.Value
import Mathlib.Tactic.Positivity
import Mathlib.Tactic.Ring

/-! # Rounding to binary64

Rounding to the nearest number keeps the order of what is rounded (`nearestUnits_mono`): a number
lies between the powers of two around what it was rounded from. So a whole number below one that is
in range is in range as well, and a positive one does not become zero.

A number is at least zero (`AtLeastZero`) unless it lies below zero; a NaN, which lies nowhere,
counts in. Sums, products and quotients of such numbers are at least zero. -/

namespace LiquidityWatch

theorem Binary64.unitsPerOne_pos : 0 < unitsPerOne := by decide +kernel

theorem Binary64.overflowUnits_pos : 0 < overflowUnits := by decide +kernel

-- Both are numbers of hundreds of digits, which proofs must not compute with.
attribute [local irreducible] Binary64.unitsPerOne Binary64.overflowUnits

/-! ## Rounding a quotient -/

theorem le_roundHalfEven (n d : Nat) : n / d ≤ roundHalfEven n d := by
  simp only [roundHalfEven]
  split <;> omega

theorem roundHalfEven_le (n d : Nat) : roundHalfEven n d ≤ n / d + 1 := by
  simp only [roundHalfEven]
  split <;> omega

theorem roundHalfEven_mono {a b : Nat} (d : Nat) (h : a ≤ b) :
    roundHalfEven a d ≤ roundHalfEven b d := by
  rcases Nat.lt_or_eq_of_le (Nat.div_le_div_right (c := d) h) with hlt | heq
  · have ha := roundHalfEven_le a d
    have hb := le_roundHalfEven b d
    omega
  · -- With the same quotient the rests are in order, and decide.
    have ha := Nat.div_add_mod a d
    have hb := Nat.div_add_mod b d
    rw [heq] at ha
    simp only [roundHalfEven, heq]
    split <;> split <;> omega

namespace Binary64

theorem nearestUnits_eq (n d : Nat) : nearestUnits n d =
    roundHalfEven n (d * 2 ^ ((n / d).log2 + 1 - precision)) *
      2 ^ ((n / d).log2 + 1 - precision) := rfl

theorem nearestUnits_zero (d : Nat) : nearestUnits 0 d = 0 := by
  simp [nearestUnits_eq, roundHalfEven]

/-- What is rounded is at least the power of two below it. -/
theorem le_nearestUnits {n d : Nat} (h : 0 < n / d) : 2 ^ (n / d).log2 ≤ nearestUnits n d := by
  have hpow : 2 ^ (n / d).log2 ≤ n / d := Nat.log2_self_le (by omega)
  rw [nearestUnits_eq]
  generalize hk : (n / d).log2 + 1 - precision = k
  have hkle : k ≤ (n / d).log2 := by simp only [precision] at hk; omega
  have hquotient : 2 ^ ((n / d).log2 - k) ≤ n / (d * 2 ^ k) := by
    rw [← Nat.div_div_eq_div_mul, Nat.le_div_iff_mul_le (by positivity), ← pow_add,
      Nat.sub_add_cancel hkle]
    exact hpow
  calc 2 ^ (n / d).log2 = 2 ^ ((n / d).log2 - k) * 2 ^ k := by
        rw [← pow_add, Nat.sub_add_cancel hkle]
    _ ≤ _ := Nat.mul_le_mul_right _ (hquotient.trans (le_roundHalfEven _ _))

/-- It is at most the power of two above it. -/
theorem nearestUnits_le (n d : Nat) : nearestUnits n d ≤ 2 ^ ((n / d).log2 + 1) := by
  have hpow : n / d < 2 ^ ((n / d).log2 + 1) := Nat.lt_log2_self
  rw [nearestUnits_eq]
  generalize hk : (n / d).log2 + 1 - precision = k
  have hkle : k ≤ (n / d).log2 + 1 := by omega
  have hquotient : n / (d * 2 ^ k) < 2 ^ ((n / d).log2 + 1 - k) := by
    rw [← Nat.div_div_eq_div_mul, Nat.div_lt_iff_lt_mul (by positivity), ← pow_add,
      Nat.sub_add_cancel hkle]
    exact hpow
  calc _ ≤ 2 ^ ((n / d).log2 + 1 - k) * 2 ^ k :=
        Nat.mul_le_mul_right _ ((roundHalfEven_le _ _).trans hquotient)
    _ = 2 ^ ((n / d).log2 + 1) := by rw [← pow_add, Nat.sub_add_cancel hkle]

/-- Rounding keeps the order. -/
theorem nearestUnits_mono {a b : Nat} (d : Nat) (h : a ≤ b) :
    nearestUnits a d ≤ nearestUnits b d := by
  have hquotient : a / d ≤ b / d := Nat.div_le_div_right h
  have hlog : (a / d).log2 ≤ (b / d).log2 := by
    by_cases ha : a / d = 0
    · simp [ha]
    · have hb : b / d ≠ 0 := fun hb => ha (Nat.le_zero.mp (hb ▸ hquotient))
      exact (Nat.le_log2 hb).mpr ((Nat.log2_self_le ha).trans hquotient)
  rcases Nat.lt_or_eq_of_le hlog with hlt | heq
  · -- A power of two stands between the two.
    have hb : 0 < b / d := by
      by_contra hzero
      simp [Nat.eq_zero_of_not_pos hzero] at hlt
    calc nearestUnits a d ≤ 2 ^ ((a / d).log2 + 1) := nearestUnits_le a d
      _ ≤ 2 ^ (b / d).log2 := Nat.pow_le_pow_right (by decide) hlt
      _ ≤ nearestUnits b d := le_nearestUnits hb
  · -- The same bits are dropped from both.
    rw [nearestUnits_eq, nearestUnits_eq, heq]
    exact Nat.mul_le_mul_right _ (roundHalfEven_mono _ h)

theorem nearestUnits_pos {n : Nat} (h : 0 < n) : 0 < nearestUnits n 1 := by
  have hn : 0 < n / 1 := by rwa [Nat.div_one]
  exact (Nat.pow_pos (by decide)).trans_le (le_nearestUnits hn)

/-! ## Numbers that are not below zero -/

/-- The number does not lie below zero. -/
def AtLeastZero : Binary64 → Prop
  | nan => True
  | infinite negative => negative = false
  | finite negative units => negative = true → units = 0

theorem ofUnits_finite {n d : Nat} (negative : Bool) (h : nearestUnits n d < overflowUnits) :
    ofUnits negative n d = finite negative (nearestUnits n d) := by
  unfold ofUnits
  exact if_pos h

theorem ofUnits_infinite {n d : Nat} (negative : Bool) (h : ¬ nearestUnits n d < overflowUnits) :
    ofUnits negative n d = infinite negative := by
  unfold ofUnits
  exact if_neg h

theorem atLeastZero_ofUnits {negative : Bool} {n : Nat} (d : Nat) (h : negative = true → n = 0) :
    (ofUnits negative n d).AtLeastZero := by
  by_cases hrange : nearestUnits n d < overflowUnits
  · rw [ofUnits_finite negative hrange]
    intro hsign
    rw [h hsign, nearestUnits_zero]
  · rw [ofUnits_infinite negative hrange]
    cases negative with
    | false => rfl
    | true =>
      rw [h rfl, nearestUnits_zero] at hrange
      exact absurd overflowUnits_pos hrange

theorem AtLeastZero.signedUnits {negative : Bool} {units : Nat}
    (h : (finite negative units).AtLeastZero) : signedUnits negative units = units := by
  cases negative with
  | false => rfl
  | true => simp [Binary64.signedUnits, h rfl]

theorem AtLeastZero.add {x y : Binary64} (hx : x.AtLeastZero) (hy : y.AtLeastZero) :
    (x.add y).AtLeastZero := by
  cases x with
  | nan => trivial
  | infinite a =>
    cases y with
    | nan => trivial
    | infinite b => obtain rfl : a = false := hx; obtain rfl : b = false := hy; rfl
    | finite b n => exact hx
  | finite a m =>
    cases y with
    | nan => trivial
    | infinite b => exact hy
    | finite b n =>
      have hsign : decide ((m : Int) + n < 0) = false := decide_eq_false (by omega)
      rw [Binary64.add, hx.signedUnits, hy.signedUnits, hsign]
      by_cases hsum : (m : Int) + n = 0
      · rw [if_pos hsum]
        exact fun _ => rfl
      · rw [if_neg hsum]
        exact atLeastZero_ofUnits 1 (by simp)

theorem AtLeastZero.mul {x y : Binary64} (hx : x.AtLeastZero) (hy : y.AtLeastZero) :
    (x.mul y).AtLeastZero := by
  cases x with
  | nan => trivial
  | infinite a =>
    obtain rfl : a = false := hx
    cases y with
    | nan => trivial
    | infinite b => obtain rfl : b = false := hy; rfl
    | finite b n =>
      rw [Binary64.mul]
      by_cases hn : n = 0
      · rw [if_pos hn]
        trivial
      · rw [if_neg hn]
        cases b with
        | false => rfl
        | true => exact absurd (hy rfl) hn
  | finite a m =>
    cases y with
    | nan => trivial
    | infinite b =>
      obtain rfl : b = false := hy
      rw [Binary64.mul]
      by_cases hm : m = 0
      · rw [if_pos hm]
        trivial
      · rw [if_neg hm]
        cases a with
        | false => rfl
        | true => exact absurd (hx rfl) hm
    | finite b n =>
      refine atLeastZero_ofUnits _ fun hsign => ?_
      -- Signs that differ mean that one of the factors is zero.
      cases a with
      | false => cases b with
        | false => cases hsign
        | true => rw [hy rfl, Nat.mul_zero]
      | true => rw [hx rfl, Nat.zero_mul]

/-- The quotient by a number above zero. -/
theorem AtLeastZero.div {x y : Binary64} (hx : x.AtLeastZero) (hy : y.AtLeastZero)
    (hzero : y.isZero = false) : (x.div y).AtLeastZero := by
  cases y with
  | nan => cases x <;> trivial
  | infinite b =>
    obtain rfl : b = false := hy
    cases x with
    | nan | infinite => trivial
    | finite a m => exact fun _ => rfl
  | finite b n =>
    have hn : n ≠ 0 := by simpa [isZero] using hzero
    obtain rfl : b = false := by
      cases b with
      | false => rfl
      | true => exact absurd (hy rfl) hn
    cases x with
    | nan => trivial
    | infinite a => obtain rfl : a = false := hx; rfl
    | finite a m =>
      rw [Binary64.div, if_neg hn]
      refine atLeastZero_ofUnits _ fun hsign => ?_
      cases a with
      | false => cases hsign
      | true => rw [hx rfl, Nat.zero_mul]

/-- One and a number at least zero do not cancel out. -/
theorem isZero_one_add {x : Binary64} (hx : x.AtLeastZero) :
    ((finite false unitsPerOne).add x).isZero = false := by
  cases x with
  | nan | infinite => rfl
  | finite b n =>
    have hone := unitsPerOne_pos
    have hsum : (unitsPerOne : Int) + n ≠ 0 := by omega
    have hpos : 0 < nearestUnits ((unitsPerOne : Int) + n).natAbs 1 := nearestUnits_pos (by omega)
    rw [Binary64.add, hx.signedUnits, Binary64.signedUnits, if_neg Bool.false_ne_true, if_neg hsum]
    by_cases hrange : nearestUnits ((unitsPerOne : Int) + n).natAbs 1 < overflowUnits
    · rw [ofUnits_finite _ hrange, isZero, beq_eq_false_iff_ne]
      omega
    · rw [ofUnits_infinite _ hrange]
      rfl

end Binary64

/-! ## Whole numbers in range -/

namespace Number

theorem roundWhole_finite {n : Int}
    (h : Binary64.nearestUnits (n.natAbs * Binary64.unitsPerOne) 1 < Binary64.overflowUnits) :
    roundWhole n = .ok (Binary64.ofInt n) := by
  have hx : Binary64.ofInt n = .finite (n < 0) _ := Binary64.ofUnits_finite _ h
  rw [roundWhole, hx]
  rfl

theorem roundWhole_infinite {n : Int}
    (h : ¬ Binary64.nearestUnits (n.natAbs * Binary64.unitsPerOne) 1 < Binary64.overflowUnits) :
    roundWhole n = .error .wholeTooLarge := by
  have hx : Binary64.ofInt n = .infinite (n < 0) := Binary64.ofUnits_infinite _ h
  rw [roundWhole, hx]
  rfl

/-- A whole number is in range unless it is rounded to an infinity. -/
theorem roundWhole_eq_ok {n : Int} {x : Binary64} : roundWhole n = .ok x ↔
    Binary64.ofInt n = x ∧ Binary64.nearestUnits (n.natAbs * Binary64.unitsPerOne) 1 <
      Binary64.overflowUnits := by
  by_cases h : Binary64.nearestUnits (n.natAbs * Binary64.unitsPerOne) 1 < Binary64.overflowUnits
  · rw [roundWhole_finite h]
    exact ⟨fun hx => ⟨Except.ok.inj hx, h⟩, fun hx => congrArg Except.ok hx.1⟩
  · rw [roundWhole_infinite h]
    exact ⟨fun hx => (nomatch hx), fun hx => absurd hx.2 h⟩

theorem exists_roundWhole_iff {n : Int} : (∃ x, roundWhole n = .ok x) ↔
    Binary64.nearestUnits (n.natAbs * Binary64.unitsPerOne) 1 < Binary64.overflowUnits :=
  ⟨fun ⟨_, h⟩ => (roundWhole_eq_ok.mp h).2, fun h => ⟨_, roundWhole_eq_ok.mpr ⟨rfl, h⟩⟩⟩

/-- A whole number is in range if a greater one is. -/
theorem exists_roundWhole_of_le {m n : Int} (hmn : m.natAbs ≤ n.natAbs)
    (h : ∃ x, roundWhole n = .ok x) : ∃ x, roundWhole m = .ok x := by
  rw [exists_roundWhole_iff] at h ⊢
  exact (Binary64.nearestUnits_mono 1 (Nat.mul_le_mul_right _ hmn)).trans_lt h

theorem roundWhole_one : roundWhole 1 = .ok (.finite false Binary64.unitsPerOne) := by
  decide +kernel

/-- A whole number that is not in range is too large. -/
theorem roundWhole_eq_error {n : Int} {f : Fault} (h : roundWhole n = .error f) :
    f = .wholeTooLarge := by
  by_cases hrange :
      Binary64.nearestUnits (n.natAbs * Binary64.unitsPerOne) 1 < Binary64.overflowUnits
  · rw [roundWhole_finite hrange] at h
    cases h
  · rw [roundWhole_infinite hrange] at h
    exact (Except.error.inj h).symm

theorem atLeastZero_roundWhole {n : Int} {x : Binary64} (hn : 0 ≤ n) (h : roundWhole n = .ok x) :
    x.AtLeastZero := by
  obtain ⟨rfl, -⟩ := roundWhole_eq_ok.mp h
  have hsign : decide (n < 0) = false := decide_eq_false (by omega)
  rw [Binary64.ofInt, hsign]
  exact Binary64.atLeastZero_ofUnits 1 (by simp)

theorem isZero_roundWhole {n : Int} {x : Binary64} (hn : 0 < n) (h : roundWhole n = .ok x) :
    x.isZero = false := by
  obtain ⟨rfl, hrange⟩ := roundWhole_eq_ok.mp h
  have hunits : 0 < n.natAbs * Binary64.unitsPerOne :=
    Nat.mul_pos (by omega) Binary64.unitsPerOne_pos
  have hpos := Binary64.nearestUnits_pos hunits
  rw [Binary64.ofInt, Binary64.ofRatio, Binary64.ofUnits_finite _ hrange, Binary64.isZero,
    beq_eq_false_iff_ne]
  omega

end Number

/-! ## Arithmetic on numbers -/

namespace Number

/-- An operation on numbers of which one is real gives a real one. -/
theorem lift_real {a b : Number} {x y : Binary64} (ha : a.toReal = .ok x) (hb : b.toReal = .ok y)
    (hreal : a = .real x ∨ b = .real y) (f : Int → Int → Int) (g : Binary64 → Binary64 → Binary64) :
    Number.lift f g a b = .ok (.real (g x y)) := by
  rcases hreal with rfl | rfl
  · rw [Number.lift, ha, hb]
    · rfl
    · rintro _ _ ⟨⟩
  · rw [Number.lift, ha, hb]
    · rfl
    · rintro _ _ - ⟨⟩

/-- A quotient of numbers of which one is real, by a number that is not zero. -/
theorem div_real {a b : Number} {x y : Binary64} (ha : a.toReal = .ok x) (hb : b.toReal = .ok y)
    (hreal : a = .real x ∨ b = .real y) (hy : y.isZero = false) :
    a.div b = .ok (.real (x.div y)) := by
  rcases hreal with rfl | rfl
  · rw [Number.div, ha, hb, ok_bind, ok_bind, hy]
    · rfl
    · rintro _ _ ⟨⟩
  · rw [Number.div, ha, hb, ok_bind, ok_bind, hy]
    · rfl
    · rintro _ _ - ⟨⟩

/-- The number is a whole one out of the range of binary64. -/
def TooLarge (n : Number) : Prop := n.toReal = .error .wholeTooLarge

theorem not_tooLarge_real (x : Binary64) : ¬ (real x).TooLarge := fun h => nomatch h

theorem ends_toReal (n : Number) :
    Ends (fun x => n.toReal = .ok x) (fun f => f = .wholeTooLarge ∧ n.TooLarge) n.toReal := by
  cases hread : n.toReal with
  | ok x => exact rfl
  | error f =>
    obtain rfl : f = .wholeTooLarge := by
      cases n with
      | whole m => exact roundWhole_eq_error hread
      | real x => cases hread
    exact ⟨rfl, hread⟩

/-- Every number in range can be rounded. -/
theorem exists_toReal {n : Number} (h : ¬ n.TooLarge) : ∃ x, n.toReal = .ok x := by
  obtain ⟨x, hx, -⟩ := (n.ends_toReal.mono (fun _ => id) fun f hf => h hf.2).exists_ok
  exact ⟨x, hx⟩

theorem exists_roundWhole_of_not_tooLarge {n : Int} (h : ¬ (whole n).TooLarge) :
    ∃ x, roundWhole n = .ok x :=
  exists_toReal h

/-- A whole number is too large if one nearer to zero is. -/
theorem TooLarge.of_natAbs_le {m n : Int} (h : (whole m).TooLarge) (hmn : m.natAbs ≤ n.natAbs) :
    (whole n).TooLarge := by
  by_contra hn
  obtain ⟨y, hy⟩ := exists_roundWhole_of_le hmn (exists_roundWhole_of_not_tooLarge hn)
  exact absurd (h.symm.trans hy) (by rintro ⟨⟩)

theorem TooLarge.of_neg {n : Number} (h : n.neg.TooLarge) : n.TooLarge := by
  cases n with
  | whole m => exact TooLarge.of_natAbs_le h (Int.natAbs_neg m).le
  | real x => cases h

theorem TooLarge.of_abs {n : Number} (h : n.abs.TooLarge) : n.TooLarge := by
  cases n with
  | whole m => exact TooLarge.of_natAbs_le h (Int.natAbs_natCast _).le
  | real x => cases h

/-- An operation on a binary64 number rounds the other one first. -/
theorem lift_real_left (f : Int → Int → Int) (g : Binary64 → Binary64 → Binary64) (x : Binary64)
    (n : Number) : Number.lift f g (.real x) n = do return .real (g x (← n.toReal)) := by
  have hread : (real x).toReal = .ok x := rfl
  rw [Number.lift, hread, ok_bind]
  rintro _ _ ⟨⟩

/-- A difference exists unless one of the numbers is out of range. -/
theorem ends_sub (a b : Number) : Ends (fun _ => True)
    (fun f => f = .wholeTooLarge ∧ (a.TooLarge ∨ b.TooLarge)) (a.sub b) := by
  have hreal : Ends (fun _ => True) (fun f => f = .wholeTooLarge ∧ (a.TooLarge ∨ b.TooLarge))
      (do return real ((← a.toReal).sub (← b.toReal)) : Except Fault Number) := by
    refine (a.ends_toReal.mono (fun _ => id) fun f hf => ⟨hf.1, .inl hf.2⟩).bind fun x _ => ?_
    refine (b.ends_toReal.mono (fun _ => id) fun f hf => ⟨hf.1, .inr hf.2⟩).bind fun y _ => ?_
    trivial
  cases a with
  | whole m => cases b with
    | whole n => trivial
    | real y => exact hreal
  | real x =>
    rw [Number.sub, lift_real_left]
    exact hreal

end Number

/-! ## Values read as numbers -/

namespace Value

/-- The value is a whole number out of the range of binary64. -/
def TooLarge (v : Value) : Prop := ∃ n, v = whole n ∧ Number.roundWhole n = .error .wholeTooLarge

theorem toReal_of_tooLarge {v : Value} (h : v.TooLarge) : v.toReal = .error .wholeTooLarge := by
  obtain ⟨n, rfl, hn⟩ := h
  exact hn

/-- A value that is no number says so, unless it is a whole number out of range. -/
theorem toReal_eq_error {v : Value} {f : Fault} (h : v.toReal = .error f) :
    v.TooLarge ∧ f = .wholeTooLarge ∨ f.category = .type ∨ f.category = .value := by
  have hnumeral : ∀ (cs : List Char) (shown : String), realOfChars cs shown = .error f →
      f.category = .value := by
    intro cs shown hread
    rw [realOfChars] at hread
    split at hread
    · cases hread
    · obtain rfl := Except.error.inj hread
      rfl
  cases v with
  | truth b =>
    obtain ⟨x, hx⟩ : ∃ x, Number.roundWhole (if b then 1 else 0) = .ok x :=
      Number.exists_roundWhole_of_le (by cases b <;> decide) ⟨_, Number.roundWhole_one⟩
    rw [toReal, hx] at h
    cases h
  | number n =>
    cases n with
    | whole n =>
      have hn : Number.roundWhole n = .error f := h
      obtain rfl := Number.roundWhole_eq_error hn
      exact .inl ⟨⟨n, rfl, hn⟩, rfl⟩
    | real x => cases h
  | text t => exact .inr (.inr (hnumeral _ _ h))
  | bytes bs => exact .inr (.inr (hnumeral _ _ h))
  | null | list | object | candle =>
    obtain rfl := Except.error.inj h
    exact .inr (.inl rfl)

end Value

end LiquidityWatch
