import LiquidityWatch.Proofs.ExactScalar
import LiquidityWatch.Rsi
import Mathlib.Algebra.BigOperators.Intervals
import Mathlib.Algebra.BigOperators.Ring.Finset
import Mathlib.Data.List.Induction
import Mathlib.Tactic.FieldSimp
import Mathlib.Tactic.Linarith
import Mathlib.Tactic.Positivity
import Mathlib.Tactic.Ring

/-! # Smoothed averages in exact arithmetic

The index smooths two rows of numbers by one rule: the gains of a series and its losses, a change
being a gain or a loss and zero in the other row. That the seed and the later smoothing treat a
change alike is `smoothedAverages_exact`; from there on `smoothedAverage`, the rule for one row, is
all there is.

One more value lets an average keep a part of what it was, everything while the seed is filled and
`1 - 1 / period` after it, and adds its own `1 / period` (`smoothedAverage_concat`). What holds of
an average is shown by this step, from the end of the row: its closed form, that it is zero only for
zeros, and how it follows its values. Gains and losses then differ in how they measure a change and
in nothing else, and what a series says of its averages is stated for any measure
(`changeAverage`). -/

namespace LiquidityWatch.Rsi

open Scalar ExactScalar

/-! ## Gains and losses -/

/-- The changes of a series of closes. -/
def changes (closes : List Rat) : List Rat :=
  List.zipWith (fun earlier later => later - earlier) closes closes.tail

/-- What a change gains. -/
def gain (change : Rat) : Rat := max change 0

/-- What a change loses. -/
def loss (change : Rat) : Rat := max (-change) 0

theorem gain_nonneg (change : Rat) : 0 ≤ gain change := le_max_right _ _

theorem loss_nonneg (change : Rat) : 0 ≤ loss change := le_max_right _ _

theorem loss_neg (change : Rat) : loss (-change) = gain change := by
  rw [loss, gain, neg_neg]

theorem gain_mul {a : Rat} (ha : 0 ≤ a) (change : Rat) : gain (a * change) = a * gain change := by
  rw [gain, gain, mul_max_of_nonneg _ _ ha, mul_zero]

theorem loss_mul {a : Rat} (ha : 0 ≤ a) (change : Rat) : loss (a * change) = a * loss change := by
  rw [loss, loss, mul_max_of_nonneg _ _ ha, mul_zero, mul_neg]

theorem gain_mono : Monotone gain := fun _ _ h => max_le_max_right 0 h

theorem loss_anti : Antitone loss := fun _ _ h => max_le_max_right 0 (neg_le_neg h)

theorem gain_eq_zero {change : Rat} : gain change = 0 ↔ change ≤ 0 := max_eq_right_iff

theorem loss_eq_zero {change : Rat} : loss change = 0 ↔ 0 ≤ change :=
  max_eq_right_iff.trans neg_nonpos

@[simp] theorem length_changes (closes : List Rat) : (changes closes).length = closes.length - 1 := by
  rw [changes, List.length_zipWith, List.length_tail]
  omega

/-- The changes all have a property exactly if each two neighbours do. -/
theorem forall_changes {P : Rat → Prop} (closes : List Rat) :
    (∀ change ∈ changes closes, P change) ↔
      closes.IsChain fun earlier later => P (later - earlier) := by
  induction closes with
  | nil => simp [changes]
  | cons earlier rest ih =>
    cases rest with
    | nil => simp [changes]
    | cons later rest =>
      rw [List.isChain_cons_cons, ← ih]
      exact List.forall_mem_cons

/-- A further close adds the change to it from the newest one. -/
theorem changes_concat (earlier : List Rat) (newest close : Rat) :
    changes (earlier ++ [newest] ++ [close]) =
      changes (earlier ++ [newest]) ++ [close - newest] := by
  induction earlier with
  | nil => rfl
  | cons x earlier ih =>
    cases earlier with
    | nil => rfl
    | cons y earlier => exact congrArg ((y - x) :: ·) ih

/-- Closes that are all mapped have mapped changes, if differences are mapped to differences. -/
theorem changes_map {f g : Rat → Rat}
    (h : ∀ earlier later, f later - f earlier = g (later - earlier)) (closes : List Rat) :
    changes (closes.map f) = (changes closes).map g := by
  rw [changes, changes, ← List.map_tail, List.zipWith_map, List.map_zipWith]
  congr 1
  funext earlier later
  exact h earlier later

/-! ## The rule for one row -/

/-- One step of smoothing. -/
def smoothed (period : Nat) (average value : Rat) : Rat :=
  (average * (period - 1) + value) / period

/-- The smoothed average of a row: the sum of as many values as the period over the period, and one
step of smoothing for each value after them. -/
def smoothedAverage (period : Nat) (values : List Rat) : Rat :=
  (values.drop period).foldl (smoothed period) ((values.take period).sum / period)

/-- The smoothed average of the changes of a series, each as a measure such as `gain` counts it. -/
def changeAverage (measure : Rat → Rat) (period : Nat) (closes : List Rat) : Rat :=
  smoothedAverage period ((changes closes).map measure)

section Exact

variable {α : Type} [Scalar α] [ExactScalar α] {period : Nat}

theorem priceChanges_exact (closes : List Rat) :
    priceChanges (closes.map ofRat : List α) = .ok ((changes closes).map ofRat) := by
  induction closes with
  | nil => rfl
  | cons earlier rest ih =>
    cases rest with
    | nil => rfl
    | cons later rest =>
      rw [List.map_cons] at ih
      rw [List.map_cons, List.map_cons, priceChanges, sub_eq, ok_bind, ih]
      rfl

/-- The seed adds a change to one sum, which leaves the other as it is. -/
theorem addChange_exact (g l change : Rat) :
    Averages.addChange (⟨ofRat g, ofRat l⟩ : Averages α) (ofRat change) =
      .ok ⟨ofRat (g + gain change), ofRat (l + loss change)⟩ := by
  rw [Averages.addChange, ofInt_eq, lt_eq, ok_bind, Int.cast_zero]
  by_cases h : 0 < change
  · rw [decide_eq_true h, if_pos rfl, add_eq, ok_bind, loss_eq_zero.mpr h.le, add_zero, gain,
      max_eq_left h.le]
    rfl
  · have hle : change ≤ 0 := not_lt.mp h
    rw [decide_eq_false h, if_neg Bool.false_ne_true, ExactScalar.abs_eq, ok_bind, add_eq, ok_bind,
      gain_eq_zero.mpr hle, add_zero, loss, max_eq_left (neg_nonneg.mpr hle), abs_of_nonpos hle]
    rfl

theorem addChanges_exact (row : List Rat) (g l : Rat) :
    (row.map ofRat).foldlM Averages.addChange (⟨ofRat g, ofRat l⟩ : Averages α) =
      .ok ⟨ofRat (g + (row.map gain).sum), ofRat (l + (row.map loss).sum)⟩ := by
  induction row generalizing g l with
  | nil => simp only [List.map_nil, List.sum_nil, add_zero]; rfl
  | cons change row ih =>
    rw [List.map_cons, List.foldlM_cons, addChange_exact, ok_bind, ih]
    simp only [List.map_cons, List.sum_cons, add_assoc]

theorem smooth_exact (hperiod : 0 < period) (average value : Rat) :
    smooth period (ofRat average : α) (ofRat value) =
      .ok (ofRat (smoothed period average value)) := by
  have hne : ((period : Int) : Rat) ≠ 0 := by exact_mod_cast hperiod.ne'
  rw [smooth, ofInt_eq, mul_eq, ok_bind, add_eq, ok_bind, ofInt_eq, div_eq _ hne, smoothed]
  push_cast
  rfl

theorem update_exact (hperiod : 0 < period) (g l change : Rat) :
    Averages.update period (⟨ofRat g, ofRat l⟩ : Averages α) (ofRat change) =
      .ok ⟨ofRat (smoothed period g (gain change)), ofRat (smoothed period l (loss change))⟩ := by
  rw [Averages.update, zero_eq, max_eq, ok_bind, neg_eq, ok_bind, max_eq, ok_bind,
    smooth_exact hperiod, ok_bind, smooth_exact hperiod]
  rfl

theorem updates_exact (hperiod : 0 < period) (row : List Rat) (g l : Rat) :
    (row.map ofRat).foldlM (Averages.update period) (⟨ofRat g, ofRat l⟩ : Averages α) =
      .ok ⟨ofRat ((row.map gain).foldl (smoothed period) g),
        ofRat ((row.map loss).foldl (smoothed period) l)⟩ := by
  induction row generalizing g l with
  | nil => rfl
  | cons change row ih =>
    rw [List.map_cons, List.foldlM_cons, update_exact hperiod, ok_bind, ih]
    rfl

/-- **Gains and losses are smoothed alike.** The averages of a series are the smoothed averages of
the row of its gains and of the row of its losses. -/
theorem smoothedAverages_exact (hperiod : 0 < period) (closes : List Rat) :
    smoothedAverages (closes.map ofRat : List α) period =
      .ok ⟨ofRat (changeAverage gain period closes), ofRat (changeAverage loss period closes)⟩ := by
  have hne : ((period : Int) : Rat) ≠ 0 := by exact_mod_cast hperiod.ne'
  have hseed : ∀ n, boundedLength period n = period := fun n => if_pos (Int.natCast_nonneg period)
  rw [smoothedAverages, priceChanges_exact, ok_bind]
  -- Both parts of the row are parts of the row of changes, before these are made scalars.
  simp only [hseed]
  rw [← List.map_take, ← List.map_drop, zero_eq, addChanges_exact, ok_bind, ofInt_eq,
    div_eq _ hne, ok_bind, div_eq _ hne, ok_bind, updates_exact hperiod]
  simp only [changeAverage, smoothedAverage, List.map_take, List.map_drop, zero_add,
    Int.cast_natCast]

end Exact

/-! ## One more value -/

variable {period : Nat} {values : List Rat}

/-- What an average of some values keeps of itself when another one comes in. -/
def retained (period count : Nat) : Rat := if count < period then 1 else (period - 1) / period

theorem retained_nonneg (hperiod : 0 < period) (count : Nat) : 0 ≤ retained period count := by
  have hone : (1 : Rat) ≤ period := by exact_mod_cast hperiod
  rw [retained]
  split
  · exact zero_le_one
  · exact div_nonneg (sub_nonneg.mpr hone) (by positivity)

/-- Something is kept unless the newest value is all there is. -/
theorem retained_pos (hperiod : 2 ≤ period) (count : Nat) : 0 < retained period count := by
  have htwo : (2 : Rat) ≤ period := by exact_mod_cast hperiod
  rw [retained]
  split
  · exact zero_lt_one
  · exact div_pos (by linarith) (by linarith)

@[simp] theorem smoothedAverage_nil (period : Nat) : smoothedAverage period [] = 0 := by
  simp [smoothedAverage]

/-- A row that does not fill the seed is averaged over the period all the same. -/
theorem smoothedAverage_short (h : values.length ≤ period) :
    smoothedAverage period values = values.sum / period := by
  rw [smoothedAverage, List.drop_eq_nil_of_le h, List.take_of_length_le h, List.foldl_nil]

/-- A further value counts `1 / period`, whether it belongs to the seed or comes after it. -/
theorem smoothedAverage_concat (hperiod : 0 < period) (values : List Rat) (value : Rat) :
    smoothedAverage period (values ++ [value]) =
      retained period values.length * smoothedAverage period values + value / period := by
  rw [retained]
  by_cases h : values.length < period
  · have hconcat : (values ++ [value]).length ≤ period := by simpa using h
    rw [smoothedAverage_short hconcat, smoothedAverage_short h.le, if_pos h, List.sum_append,
      List.sum_singleton, one_mul, add_div]
  · have hle : period ≤ values.length := not_lt.mp h
    rw [smoothedAverage, List.drop_append_of_le_length hle, List.take_append_of_le_length hle,
      List.foldl_append, ← smoothedAverage, if_neg h]
    have hne : (period : Rat) ≠ 0 := by exact_mod_cast hperiod.ne'
    simp only [List.foldl_cons, List.foldl_nil, smoothed]
    field_simp

/-! ## What an average says of its values -/

theorem smoothedAverage_nonneg (hperiod : 0 < period) (hvalues : ∀ v ∈ values, 0 ≤ v) :
    0 ≤ smoothedAverage period values := by
  induction values using List.reverseRecOn with
  | nil => exact (smoothedAverage_nil period).ge
  | append_singleton values value ih =>
    have hbefore := ih fun v hv => hvalues v (List.mem_append_left _ hv)
    have hvalue : 0 ≤ value := hvalues value (by simp)
    rw [smoothedAverage_concat hperiod]
    exact add_nonneg (mul_nonneg (retained_nonneg hperiod _) hbefore) (by positivity)

/-- However long ago a value came in, it has not been forgotten: with a period of at least two, an
average is zero only if all values are. -/
theorem smoothedAverage_eq_zero (hperiod : 2 ≤ period) (hvalues : ∀ v ∈ values, 0 ≤ v) :
    smoothedAverage period values = 0 ↔ ∀ v ∈ values, v = 0 := by
  have hpos : 0 < period := by omega
  induction values using List.reverseRecOn with
  | nil => simp
  | append_singleton values value ih =>
    have hbefore : ∀ v ∈ values, 0 ≤ v := fun v hv => hvalues v (List.mem_append_left _ hv)
    have hvalue : 0 ≤ value := hvalues value (by simp)
    have hkept : 0 ≤ retained period values.length * smoothedAverage period values :=
      mul_nonneg (retained_nonneg hpos _) (smoothedAverage_nonneg hpos hbefore)
    have hne : (period : Rat) ≠ 0 := by exact_mod_cast hpos.ne'
    have hzero : smoothedAverage period values = 0 ↔ ∀ v ∈ values, v = 0 := ih hbefore
    -- Neither part can make up for the other, and what is kept is kept at a rate above zero.
    rw [smoothedAverage_concat hpos, add_eq_zero_iff_of_nonneg hkept (by positivity),
      mul_eq_zero_iff_left (retained_pos hperiod _).ne', hzero, div_eq_zero_iff,
      or_iff_left hne, List.forall_mem_append, List.forall_mem_singleton]

theorem smoothedAverage_map_mul (hperiod : 0 < period) (a : Rat) (values : List Rat) :
    smoothedAverage period (values.map (a * ·)) = a * smoothedAverage period values := by
  induction values using List.reverseRecOn with
  | nil => rw [List.map_nil, smoothedAverage_nil, mul_zero]
  | append_singleton values value ih =>
    rw [List.map_append, List.map_singleton, smoothedAverage_concat hperiod, ih,
      smoothedAverage_concat hperiod, List.length_map]
    ring

/-- An average does not fall when its newest value rises. -/
theorem smoothedAverage_concat_mono (hperiod : 0 < period) (values : List Rat) {v w : Rat}
    (h : v ≤ w) :
    smoothedAverage period (values ++ [v]) ≤ smoothedAverage period (values ++ [w]) := by
  rw [smoothedAverage_concat hperiod, smoothedAverage_concat hperiod]
  gcongr

/-! ## Closed form -/

/-- The smoothed average of `n` values `v 1, …, v n` in closed form. The seed is the sum of the
first values, as many as the period; each value after it has been passed on `n - j` times. -/
def closedAverage (period n : Nat) (v : Nat → Rat) : Rat :=
  1 / period * (((period - 1) / period) ^ (n - min period n) *
      (∑ j ∈ Finset.Icc 1 (min period n), v j) +
    ∑ j ∈ Finset.Ioc (min period n) n, ((period - 1) / period) ^ (n - j) * v j)

theorem closedAverage_succ (period n : Nat) (v : Nat → Rat) :
    closedAverage period (n + 1) v =
      retained period n * closedAverage period n v + v (n + 1) / period := by
  rw [closedAverage, closedAverage, retained]
  by_cases h : n < period
  · rw [if_pos h, min_eq_right h.le, min_eq_right (Nat.succ_le_of_lt h),
      Finset.sum_Icc_succ_top (by omega), Nat.sub_self, Nat.sub_self, Finset.Ioc_self,
      Finset.Ioc_self, Finset.sum_empty, Finset.sum_empty]
    ring
  · have hle : period ≤ n := not_lt.mp h
    have hlast (r : Rat) : ∑ j ∈ Finset.Ioc period (n + 1), r ^ (n + 1 - j) * v j =
        r * ∑ j ∈ Finset.Ioc period n, r ^ (n - j) * v j + v (n + 1) := by
      rw [Finset.sum_Ioc_succ_top hle, Nat.sub_self, pow_zero, one_mul, Finset.mul_sum]
      congr 1
      refine Finset.sum_congr rfl fun j hj => ?_
      rw [Nat.succ_sub (Finset.mem_Ioc.mp hj).2, pow_succ']
      ring
    rw [if_neg h, min_eq_left hle, min_eq_left (Nat.le_succ_of_le hle), hlast, Nat.succ_sub hle,
      pow_succ']
    ring

/-- The smoothing of a row comes to the closed form. -/
theorem smoothedAverage_closed (hperiod : 0 < period) (n : Nat) (v : Nat → Rat) :
    smoothedAverage period ((List.range n).map fun i => v (i + 1)) = closedAverage period n v := by
  induction n with
  | zero => simp [closedAverage]
  | succ n ih =>
    rw [List.range_succ, List.map_append, List.map_singleton, smoothedAverage_concat hperiod, ih,
      List.length_map, List.length_range, closedAverage_succ]

/-! ## The averages of a series -/

section Series

variable {measure : Rat → Rat}

theorem changeAverage_nonneg (hperiod : 0 < period) (hmeasure : ∀ change, 0 ≤ measure change)
    (closes : List Rat) : 0 ≤ changeAverage measure period closes :=
  smoothedAverage_nonneg hperiod (List.forall_mem_map.mpr fun change _ => hmeasure change)

/-- With a period of at least two, an average is zero exactly if no change counts. -/
theorem changeAverage_eq_zero (hperiod : 2 ≤ period) (hmeasure : ∀ change, 0 ≤ measure change)
    (closes : List Rat) : changeAverage measure period closes = 0 ↔
      closes.IsChain fun earlier later => measure (later - earlier) = 0 := by
  rw [changeAverage, smoothedAverage_eq_zero hperiod
    (List.forall_mem_map.mpr fun change _ => hmeasure change), List.forall_mem_map]
  exact forall_changes closes

theorem changeAverage_few {closes : List Rat} (h : closes.length < 2) :
    changeAverage measure period closes = 0 := by
  have hnone : changes closes = [] := List.eq_nil_of_length_eq_zero <| by
    rw [length_changes]
    omega
  rw [changeAverage, hnone, List.map_nil, smoothedAverage_nil]

/-- A scale of the closes scales an average, and a shift leaves it as it is. -/
theorem changeAverage_affine (hperiod : 0 < period) {a : Rat}
    (hmeasure : ∀ change, measure (a * change) = a * measure change) (b : Rat)
    (closes : List Rat) :
    changeAverage measure period (closes.map (a * · + b)) =
      a * changeAverage measure period closes := by
  have hchange : ∀ earlier later : Rat, a * later + b - (a * earlier + b) = a * (later - earlier) :=
    fun earlier later => by ring
  rw [changeAverage, changeAverage, changes_map hchange, ← smoothedAverage_map_mul hperiod,
    List.map_map, List.map_map]
  exact congrArg _ (List.map_congr_left fun change _ => hmeasure change)

/-- Closes that are reflected have the average of the reflected measure. -/
theorem changeAverage_neg (closes : List Rat) : changeAverage measure period (closes.map (-·)) =
    changeAverage (fun change => measure (-change)) period closes := by
  have hchange : ∀ earlier later : Rat, -later - -earlier = -(later - earlier) :=
    fun earlier later => by ring
  rw [changeAverage, changeAverage, changes_map hchange, List.map_map]
  rfl

/-- An average does not fall when the newest change counts more. -/
theorem changeAverage_mono_newest (hperiod : 0 < period) (earlier : List Rat)
    {newest c c' : Rat} (h : measure (c - newest) ≤ measure (c' - newest)) :
    changeAverage measure period (earlier ++ [newest] ++ [c]) ≤
      changeAverage measure period (earlier ++ [newest] ++ [c']) := by
  rw [changeAverage, changeAverage, changes_concat, changes_concat, List.map_append,
    List.map_append]
  exact smoothedAverage_concat_mono hperiod _ h

/-- Averages over a seed that is not filled differ by the ratio of the periods. -/
theorem changeAverage_other {other : Nat} {closes : List Rat} (hperiod : 0 < period)
    (h : closes.length - 1 ≤ period) (hother : closes.length - 1 ≤ other) :
    changeAverage measure other closes = period / other * changeAverage measure period closes := by
  have hne : (period : Rat) ≠ 0 := by exact_mod_cast hperiod.ne'
  have hlength : ((changes closes).map measure).length = closes.length - 1 := by
    rw [List.length_map, length_changes]
  rw [changeAverage, changeAverage, smoothedAverage_short (hlength ▸ hother),
    smoothedAverage_short (hlength ▸ h)]
  field_simp

/-- The change to a close from the one before it. -/
def changeTo (closes : List Rat) (j : Nat) : Rat := closes.getD j 0 - closes.getD (j - 1) 0

theorem changes_eq (closes : List Rat) :
    changes closes = (List.range (closes.length - 1)).map fun i => changeTo closes (i + 1) := by
  refine List.ext_getElem (by simp) fun i hi _ => ?_
  rw [length_changes] at hi
  have hlater : i + 1 < closes.length := by omega
  have hearlier : i < closes.length := by omega
  simp [changes, changeTo, hlater, hearlier]

theorem changeAverage_closed (hperiod : 0 < period) (closes : List Rat) :
    changeAverage measure period closes =
      closedAverage period (closes.length - 1) fun j => measure (changeTo closes j) := by
  rw [changeAverage, changes_eq, List.map_map, ← smoothedAverage_closed hperiod]
  rfl

end Series

end LiquidityWatch.Rsi
