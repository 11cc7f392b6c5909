import LiquidityWatch.Proofs.SmoothedAverage

/-! # Laws of the index in exact arithmetic

Without rounding the index is the share that the average gain has in both averages, in percent, and
one hundred where there is no loss (`share`). The division by one plus the strength, and keeping
the result between zero and one hundred, come to no more than that (`ofAverages_exact`). With the
averages taken from `SmoothedAverage` this gives the index in closed form, says when it is at an
end of its range, how a scale and a reflection of the prices act on it, and that it follows the
newest close. -/

namespace LiquidityWatch.Rsi

open Scalar ExactScalar

/-! ## The share of the gains -/

/-- The index that belongs to an average gain and an average loss. -/
def share (g l : Rat) : Rat := if l = 0 then 100 else 100 * g / (g + l)

section Share

variable {g l : Rat}

@[simp] theorem share_zero_loss (g : Rat) : share g 0 = 100 := if_pos rfl

theorem share_of_ne (g : Rat) (hl : l ≠ 0) : share g l = 100 * g / (g + l) := if_neg hl

/-- One hundred less the quotient by one plus the strength is the share of the gains. -/
theorem unclamped_eq_share (hg : 0 ≤ g) (hl : 0 ≤ l) (h : l ≠ 0) :
    100 - 100 / (1 + g / l) = share g l := by
  have hpos := hl.lt_of_ne' h
  have hsum : g + l ≠ 0 := by linarith
  have hstrength : 1 + g / l ≠ 0 := by positivity
  rw [share_of_ne g h]
  field_simp
  ring

theorem share_nonneg (hg : 0 ≤ g) (hl : 0 ≤ l) : 0 ≤ share g l := by
  rw [share]
  split
  · norm_num
  · positivity

theorem share_le_hundred (hg : 0 ≤ g) (hl : 0 ≤ l) : share g l ≤ 100 := by
  rw [share]
  split
  · exact le_rfl
  · rename_i h
    have hpos := hl.lt_of_ne' h
    rw [div_le_iff₀ (by linarith)]
    linarith

/-- There is no loss exactly at the upper end. -/
theorem share_eq_hundred (hg : 0 ≤ g) (hl : 0 ≤ l) : share g l = 100 ↔ l = 0 := by
  constructor
  · intro h
    by_contra hne
    have hpos := hl.lt_of_ne' hne
    rw [share_of_ne g hne, div_eq_iff (by linarith)] at h
    linarith
  · rintro rfl
    exact share_zero_loss g

/-- There is no gain and a loss exactly at the lower end. -/
theorem share_eq_zero (hg : 0 ≤ g) (hl : 0 ≤ l) : share g l = 0 ↔ g = 0 ∧ l ≠ 0 := by
  by_cases h : l = 0
  · rw [h, share_zero_loss]
    norm_num
  · have hpos := hl.lt_of_ne' h
    have hsum : g + l ≠ 0 := by linarith
    rw [share_of_ne g h, div_eq_zero_iff, or_iff_left hsum, mul_eq_zero,
      or_iff_right (by norm_num), and_iff_left h]

theorem share_mul {a : Rat} (ha : a ≠ 0) (g l : Rat) : share (a * g) (a * l) = share g l := by
  by_cases h : l = 0
  · rw [h, mul_zero, share_zero_loss, share_zero_loss]
  · rw [share_of_ne _ (mul_ne_zero ha h), share_of_ne _ h, ← mul_add, mul_left_comm,
      mul_div_mul_left _ _ ha]

/-- Gains and losses that change places share out the whole, unless there is neither. -/
theorem share_swap (hg : 0 ≤ g) (hl : 0 ≤ l) (h : ¬ (g = 0 ∧ l = 0)) :
    share l g + share g l = 100 := by
  by_cases hl' : l = 0
  · have hg' : g ≠ 0 := fun hg' => h ⟨hg', hl'⟩
    rw [hl', share_zero_loss, share_of_ne _ hg', mul_zero, zero_div, zero_add]
  by_cases hg' : g = 0
  · rw [hg', share_zero_loss, share_of_ne _ hl', mul_zero, zero_div, add_zero]
  have hsum : g + l ≠ 0 := by linarith [hg.lt_of_ne' hg']
  rw [share_of_ne _ hg', share_of_ne _ hl', add_comm l g]
  field_simp
  ring

/-- More gain and less loss do not lower the share, also where the loss vanishes. -/
theorem share_mono {g' l' : Rat} (hg : 0 ≤ g) (hgain : g ≤ g') (hl : 0 ≤ l') (hloss : l' ≤ l) :
    share g l ≤ share g' l' := by
  by_cases h' : l' = 0
  · rw [h', share_zero_loss]
    exact share_le_hundred hg (hl.trans hloss)
  · have hpos' := hl.lt_of_ne' h'
    have hpos : 0 < l := hpos'.trans_le hloss
    have hcross : g * l' ≤ g' * l := mul_le_mul hgain hloss hl (hg.trans hgain)
    rw [share_of_ne g hpos.ne', share_of_ne g' h', div_le_div_iff₀ (by linarith) (by linarith)]
    linarith

end Share

/-! ## The index of a series -/

/-- The index of a series: the share of the average gain, and zero of fewer than two closes. -/
def exactIndex (period : Nat) (closes : List Rat) : Rat :=
  if closes.length < 2 then 0
  else share (changeAverage gain period closes) (changeAverage loss period closes)

variable {period : Nat}

section Exact

variable {α : Type} [Scalar α] [ExactScalar α]

/-- The index of two averages is their share; it lies in its range before it is kept there. -/
theorem ofAverages_exact {g l : Rat} (hg : 0 ≤ g) (hl : 0 ≤ l) :
    ofAverages (⟨ofRat g, ofRat l⟩ : Averages α) = .ok (ofRat (share g l)) := by
  rw [ofAverages]
  simp only [isZero_eq]
  by_cases h : l = 0
  · rw [h, share_zero_loss, ← hundred_eq]
    rfl
  · have hstrength : 1 + g / l ≠ 0 := by positivity
    rw [decide_eq_false h, if_neg Bool.false_ne_true, div_eq _ h, ok_bind, ofInt_eq, Int.cast_one,
      add_eq, ok_bind, hundred_eq, div_eq _ hstrength, ok_bind, sub_eq, ok_bind,
      unclamped_eq_share hg hl h, zero_eq, max_eq, ok_bind, max_eq_left (share_nonneg hg hl),
      min_eq, min_eq_left (share_le_hundred hg hl)]

/-- The index of closes of which the finite ones are rationals. -/
theorem ofCloses_exact (hperiod : 0 < period) {closes : List α} {finite : List Rat}
    (hfinite : closes.filterM isFinite = .ok (finite.map ofRat)) :
    ofCloses closes period = .ok (ofRat (exactIndex period finite)) := by
  rw [ofCloses, hfinite, ok_bind, List.length_map, exactIndex]
  by_cases h : finite.length < 2
  · rw [if_pos h, if_pos h, ← zero_eq]
    rfl
  · rw [if_neg h, if_neg h, smoothedAverages_exact hperiod, ok_bind,
      ofAverages_exact (changeAverage_nonneg hperiod gain_nonneg _)
        (changeAverage_nonneg hperiod loss_nonneg _)]

end Exact

theorem ofCloses_rat (hperiod : 0 < period) (closes : List Rat) :
    ofCloses closes period = .ok (exactIndex period closes) := by
  have htest : ∀ x ∈ closes, (isFinite x : Except Fault Bool) = .ok true := fun _ _ => rfl
  refine ofCloses_exact hperiod ?_
  rw [filterM_eq_ok htest, List.filter_true]
  exact congrArg Except.ok (List.map_id closes).symm

theorem smoothedAverages_rat (hperiod : 0 < period) (closes : List Rat) :
    smoothedAverages closes period =
      .ok ⟨changeAverage gain period closes, changeAverage loss period closes⟩ := by
  have h := smoothedAverages_exact (α := Rat) hperiod closes
  rwa [show closes.map (ofRat : Rat → Rat) = closes from List.map_id closes] at h

theorem ofCloses_extended (hperiod : 0 < period) (closes : List ExtendedRat) :
    ofCloses closes period = .ok (.finite (exactIndex period (ExtendedRat.finites closes))) :=
  ofCloses_exact hperiod (ExtendedRat.filterM_isFinite closes)

/-! ## Closed form -/

/-- The average gain of a series in closed form. -/
def averageGain (period : Nat) (closes : List Rat) : Rat :=
  closedAverage period (closes.length - 1) fun j => max (changeTo closes j) 0

/-- The average loss of a series in closed form. -/
def averageLoss (period : Nat) (closes : List Rat) : Rat :=
  closedAverage period (closes.length - 1) fun j => max (-changeTo closes j) 0

/-- **The index in closed form.** The averages of at least two closes are those of the closed form,
over their gains and over their losses. Without a loss the index is one hundred, and otherwise it is
the share of the gains: that is what the formula comes to, and it lies between zero and one hundred
before it is kept there. Where no more changes than the period are averaged, another period that
covers them scales both averages and leaves the index as it is. -/
theorem ofCloses_closed_form {closes : List Rat} (hcloses : 2 ≤ closes.length)
    (hperiod : 1 ≤ period) :
    smoothedAverages closes period = .ok ⟨averageGain period closes, averageLoss period closes⟩ ∧
      (averageLoss period closes = 0 → ofCloses closes period = .ok 100) ∧
      (averageLoss period closes ≠ 0 → ∃ index,
        index = 100 * averageGain period closes /
          (averageGain period closes + averageLoss period closes) ∧
        index = 100 - 100 / (1 + averageGain period closes / averageLoss period closes) ∧
        0 ≤ index ∧ index ≤ 100 ∧ ofCloses closes period = .ok index) ∧
      ∀ other : Nat, closes.length - 1 ≤ period → closes.length - 1 ≤ other →
        smoothedAverages closes other = .ok ⟨period / other * averageGain period closes,
          period / other * averageLoss period closes⟩ ∧
        ofCloses closes other = ofCloses closes period := by
  have hgain : changeAverage gain period closes = averageGain period closes :=
    changeAverage_closed hperiod closes
  have hloss : changeAverage loss period closes = averageLoss period closes :=
    changeAverage_closed hperiod closes
  have hg : 0 ≤ averageGain period closes := hgain ▸ changeAverage_nonneg hperiod gain_nonneg _
  have hl : 0 ≤ averageLoss period closes := hloss ▸ changeAverage_nonneg hperiod loss_nonneg _
  have hindex : ∀ {p : Nat}, exactIndex p closes =
      share (changeAverage gain p closes) (changeAverage loss p closes) := if_neg (by omega)
  have hshare : ofCloses closes period =
      .ok (share (averageGain period closes) (averageLoss period closes)) := by
    rw [ofCloses_rat hperiod, hindex, hgain, hloss]
  refine ⟨?_, fun h => ?_, fun h => ?_, fun other hshort hother => ?_⟩
  · rw [smoothedAverages_rat hperiod, hgain, hloss]
  · rw [hshare, h, share_zero_loss]
  · exact ⟨_, share_of_ne _ h, (unclamped_eq_share hg hl h).symm, share_nonneg hg hl,
      share_le_hundred hg hl, hshare⟩
  · have hpos : 0 < other := by omega
    have hne : (period : Rat) / other ≠ 0 := by positivity
    rw [smoothedAverages_rat hpos, ofCloses_rat hpos, hshare, hindex,
      changeAverage_other hperiod hshort hother, changeAverage_other hperiod hshort hother, hgain,
      hloss, share_mul hne]
    exact ⟨rfl, rfl⟩

/-- Four changes, two of them in the seed: the averages are 5/4 and 5/8. -/
theorem ofCloses_closed_form_five : ∃ index,
    smoothedAverages ([10, 12, 11, 15, 14] : List Rat) 2 = .ok ⟨5 / 4, 5 / 8⟩ ∧
      ofCloses ([10, 12, 11, 15, 14] : List Rat) 2 = .ok index ∧ index = 200 / 3 := by
  have hgain : averageGain 2 [10, 12, 11, 15, 14] = 5 / 4 := by decide +kernel
  have hloss : averageLoss 2 [10, 12, 11, 15, 14] = 5 / 8 := by decide +kernel
  have hcloses : 2 ≤ ([10, 12, 11, 15, 14] : List Rat).length := by decide
  obtain ⟨haverages, -, hindex, -⟩ := ofCloses_closed_form hcloses (by decide : 1 ≤ 2)
  obtain ⟨index, hshare, -, -, -, hofCloses⟩ := hindex (by rw [hloss]; norm_num)
  rw [hgain, hloss] at haverages hshare
  exact ⟨index, haverages, hofCloses, by rw [hshare]; norm_num⟩

/-! ## Range and end points -/

/-- There is no average gain exactly if the series never increases. -/
theorem averageGain_eq_zero (hperiod : 2 ≤ period) (closes : List Rat) :
    changeAverage gain period closes = 0 ↔ closes.Pairwise (· ≥ ·) := by
  rw [changeAverage_eq_zero hperiod gain_nonneg, ← List.isChain_iff_pairwise]
  simp only [gain_eq_zero, sub_nonpos, ge_iff_le]

/-- There is no average loss exactly if the series never decreases. -/
theorem averageLoss_eq_zero (hperiod : 2 ≤ period) (closes : List Rat) :
    changeAverage loss period closes = 0 ↔ closes.Pairwise (· ≤ ·) := by
  rw [changeAverage_eq_zero hperiod loss_nonneg, ← List.isChain_iff_pairwise]
  simp only [loss_eq_zero, sub_nonneg]

/-- Fewer than two closes neither increase nor decrease. -/
theorem pairwise_of_few {closes : List Rat} (h : closes.length < 2) (R : Rat → Rat → Prop) :
    closes.Pairwise R := by
  match closes, h with
  | [], _ => exact .nil
  | [_], _ => exact List.pairwise_singleton _ _

/-- A constant series is one that never decreases and never increases. -/
theorem pairwise_eq_iff {closes : List Rat} :
    closes.Pairwise (· = ·) ↔ closes.Pairwise (· ≤ ·) ∧ closes.Pairwise (· ≥ ·) := by
  rw [← List.pairwise_and_iff]
  simp only [le_antisymm_iff, ge_iff_le]

theorem exactIndex_nonneg (hperiod : 0 < period) (closes : List Rat) :
    0 ≤ exactIndex period closes := by
  rw [exactIndex]
  split
  · exact le_rfl
  · exact share_nonneg (changeAverage_nonneg hperiod gain_nonneg _)
      (changeAverage_nonneg hperiod loss_nonneg _)

theorem exactIndex_le_hundred (hperiod : 0 < period) (closes : List Rat) :
    exactIndex period closes ≤ 100 := by
  rw [exactIndex]
  split
  · norm_num
  · exact share_le_hundred (changeAverage_nonneg hperiod gain_nonneg _)
      (changeAverage_nonneg hperiod loss_nonneg _)

theorem exactIndex_eq_hundred (hperiod : 2 ≤ period) (closes : List Rat) :
    exactIndex period closes = 100 ↔ 2 ≤ closes.length ∧ closes.Pairwise (· ≤ ·) := by
  have hpos : 0 < period := by omega
  rw [exactIndex]
  by_cases h : closes.length < 2
  · rw [if_pos h]
    exact iff_of_false (by norm_num) fun hfull => absurd hfull.1 (not_le.mpr h)
  · rw [if_neg h, share_eq_hundred (changeAverage_nonneg hpos gain_nonneg _)
      (changeAverage_nonneg hpos loss_nonneg _), averageLoss_eq_zero hperiod,
      and_iff_right (not_lt.mp h)]

theorem exactIndex_eq_zero (hperiod : 2 ≤ period) (closes : List Rat) :
    exactIndex period closes = 0 ↔ closes.length < 2 ∨
      closes.Pairwise (· ≥ ·) ∧ ¬ closes.Pairwise (· = ·) := by
  have hpos : 0 < period := by omega
  rw [exactIndex]
  by_cases h : closes.length < 2
  · rw [if_pos h]
    exact iff_of_true rfl (.inl h)
  · rw [if_neg h, share_eq_zero (changeAverage_nonneg hpos gain_nonneg _)
      (changeAverage_nonneg hpos loss_nonneg _), averageGain_eq_zero hperiod, ne_eq,
      averageLoss_eq_zero hperiod, or_iff_right h, pairwise_eq_iff]
    tauto

/-- The index is inside its range exactly if the series both decreases and increases. -/
theorem exactIndex_inside (hperiod : 2 ≤ period) (closes : List Rat) :
    0 < exactIndex period closes ∧ exactIndex period closes < 100 ↔
      ¬ closes.Pairwise (· ≤ ·) ∧ ¬ closes.Pairwise (· ≥ ·) := by
  have hpos : 0 < period := by omega
  rw [(exactIndex_nonneg hpos closes).lt_iff_ne', (exactIndex_le_hundred hpos closes).lt_iff_ne,
    ne_eq, ne_eq, exactIndex_eq_zero hperiod, exactIndex_eq_hundred hperiod, pairwise_eq_iff]
  by_cases h : closes.length < 2
  · have hup := pairwise_of_few h (· ≤ ·)
    tauto
  · have hmany := not_lt.mp h
    tauto

/-- **Range and end points of the index.** With a period of at least two, the index of any closes is
between zero and one hundred. Of the closes that are finite, it is one hundred exactly if there are
at least two and they never decrease, and zero exactly if there are fewer than two, or if they never
increase and are not constant. In every other case, in which some close is below an earlier one and
some close above, it lies strictly between. -/
theorem ofCloses_range (hperiod : 2 ≤ period) (closes : List ExtendedRat) :
    ∃ index finite, finite = ExtendedRat.finites closes ∧
      ofCloses closes period = .ok (.finite index) ∧ 0 ≤ index ∧ index ≤ 100 ∧
      (index = 100 ↔ 2 ≤ finite.length ∧ finite.Pairwise (· ≤ ·)) ∧
      (index = 0 ↔ finite.length < 2 ∨ finite.Pairwise (· ≥ ·) ∧ ¬ finite.Pairwise (· = ·)) ∧
      (0 < index ∧ index < 100 ↔ ¬ finite.Pairwise (· ≤ ·) ∧ ¬ finite.Pairwise (· ≥ ·)) := by
  have hpos : 0 < period := by omega
  exact ⟨_, _, rfl, ofCloses_extended hpos closes, exactIndex_nonneg hpos _,
    exactIndex_le_hundred hpos _, exactIndex_eq_hundred hperiod _, exactIndex_eq_zero hperiod _,
    exactIndex_inside hperiod _⟩

/-- The one gain and the one loss lie behind a NaN and an infinity, which are skipped. -/
theorem ofCloses_range_skipped : ∃ index : Rat,
    ofCloses [.nan, .finite 10, .infinite false, .finite 12, .finite 11] 14 =
      .ok (ExtendedRat.finite index) ∧ 0 < index ∧ index < 100 := by
  obtain ⟨index, finite, rfl, hindex, -, -, -, -, hinner⟩ := ofCloses_range (by decide : 2 ≤ 14)
    [.nan, .finite 10, .infinite false, .finite 12, .finite 11]
  exact ⟨index, hindex, hinner.mpr (by decide +kernel)⟩

/-! ## Scale and reflection -/

/-- **Symmetry and scale of the index.** Prices that are scaled by a positive factor and shifted
have the same index. Prices that are reflected exchange the two averages, and unless both averages
are zero the two indices make one hundred. -/
theorem ofCloses_affine_neg (hperiod : 1 ≤ period) (closes : List Rat) {a : Rat} (ha : 0 < a)
    (b : Rat) :
    ofCloses (closes.map (a * · + b)) period = ofCloses closes period ∧
      ∃ averages index reflected,
        smoothedAverages closes period = .ok averages ∧
        smoothedAverages (closes.map (-·)) period = .ok ⟨averages.loss, averages.gain⟩ ∧
        ofCloses closes period = .ok index ∧
        ofCloses (closes.map (-·)) period = .ok reflected ∧
        (¬ (averages.gain = 0 ∧ averages.loss = 0) → reflected + index = 100) := by
  have hgain : changeAverage gain period (closes.map (-·)) = changeAverage loss period closes :=
    changeAverage_neg closes
  have hloss : changeAverage loss period (closes.map (-·)) =
      changeAverage gain period closes := by
    rw [changeAverage_neg]
    simp only [loss_neg]
  refine ⟨?_, _, _, _, smoothedAverages_rat hperiod closes, ?_, ofCloses_rat hperiod closes,
    ofCloses_rat hperiod _, fun hsome => ?_⟩
  · rw [ofCloses_rat hperiod, ofCloses_rat hperiod, exactIndex, exactIndex, List.length_map,
      changeAverage_affine hperiod (gain_mul ha.le), changeAverage_affine hperiod (loss_mul ha.le),
      share_mul ha.ne']
  · rw [smoothedAverages_rat hperiod, hgain, hloss]
  · have hcloses : ¬ closes.length < 2 := fun hfew =>
      hsome ⟨changeAverage_few hfew, changeAverage_few hfew⟩
    rw [exactIndex, exactIndex, List.length_map, if_neg hcloses, if_neg hcloses, hgain, hloss]
    exact share_swap (changeAverage_nonneg hperiod gain_nonneg _)
      (changeAverage_nonneg hperiod loss_nonneg _) hsome

/-- Three closes, doubled and shifted. -/
theorem ofCloses_affine_neg_three :
    ofCloses ([17, 21, 19] : List Rat) 14 = ofCloses [10, 12, 11] 14 ∧
      ∃ index reflected : Rat, ofCloses [10, 12, 11] 14 = .ok index ∧
        ofCloses [-10, -12, -11] 14 = .ok reflected ∧ reflected + index = 100 := by
  obtain ⟨hscale, averages, index, reflected, haverages, -, hindex, hreflected, hsum⟩ :=
    ofCloses_affine_neg (by decide : 1 ≤ 14) [10, 12, 11] (by norm_num : (0 : Rat) < 2) (-3)
  have hgain : averages.gain = 1 / 7 := by
    have hvalue : smoothedAverages ([10, 12, 11] : List Rat) 14 = .ok ⟨1 / 7, 1 / 14⟩ := by
      decide +kernel
    obtain rfl := Except.ok.inj (hvalue.symm.trans haverages)
    rfl
  have hscaled : ([10, 12, 11] : List Rat).map (2 * · + -3) = [17, 21, 19] := by decide +kernel
  rw [hscaled] at hscale
  exact ⟨hscale, index, reflected, hindex, hreflected,
    hsum fun hzero => absurd (hgain.symm.trans hzero.1) (by norm_num)⟩

/-! ## The newest close -/

/-- **The index follows the newest close.** After any earlier closes a higher newest close does not
have a lower index, also where the higher one leaves no loss. -/
theorem ofCloses_mono_newest (hperiod : 1 ≤ period) (earlier : List Rat) {c c' : Rat}
    (h : c ≤ c') :
    ∃ index index', ofCloses (earlier ++ [c]) period = .ok index ∧
      ofCloses (earlier ++ [c']) period = .ok index' ∧ index ≤ index' := by
  refine ⟨_, _, ofCloses_rat hperiod _, ofCloses_rat hperiod _, ?_⟩
  rcases List.eq_nil_or_concat earlier with rfl | ⟨before, newest, rfl⟩
  · -- A single close has no index.
    exact le_rfl
  · have hcount : ∀ close, ¬ (before ++ [newest] ++ [close]).length < 2 := fun close => by simp
    have hchange : c - newest ≤ c' - newest := sub_le_sub_right h newest
    rw [List.concat_eq_append, exactIndex, exactIndex, if_neg (hcount c), if_neg (hcount c')]
    exact share_mono (changeAverage_nonneg hperiod gain_nonneg _)
      (changeAverage_mono_newest hperiod before (gain_mono hchange))
      (changeAverage_nonneg hperiod loss_nonneg _)
      (changeAverage_mono_newest hperiod before (loss_anti hchange))

/-- A newest close that takes away the only loss of a series of three. -/
theorem ofCloses_mono_newest_three : ∃ index : Rat, ofCloses ([10, 12] ++ [11]) 2 = .ok index ∧
      ofCloses (([10, 12] : List Rat) ++ [13]) 2 = .ok 100 ∧ index ≤ 100 := by
  obtain ⟨index, index', hindex, hindex', hle⟩ :=
    ofCloses_mono_newest (by decide : 1 ≤ 2) [10, 12] (by norm_num : (11 : Rat) ≤ 13)
  have hupper : ofCloses (([10, 12] : List Rat) ++ [13]) 2 = .ok 100 := by decide +kernel
  obtain rfl := Except.ok.inj (hindex'.symm.trans hupper)
  exact ⟨index, hindex, hupper, hle⟩

end LiquidityWatch.Rsi
