import LiquidityWatch.Proofs.Rounding
import LiquidityWatch.Rsi
import LiquidityWatch.Value.Arithmetic

/-! # The index always exists

The formulas of the index divide three times: by the period, by the average loss, and by one plus
the relative strength. None of these divisions fails. The invariant is that both averages are
binary64 numbers at least zero (`Averages.AtLeastZero`): the seed establishes it, smoothing keeps
it, and so one plus the strength cannot be zero (`exists_ofAverages`).

The one thing that can go wrong is a whole number out of the range of binary64, which may be a
close, a change or the period (`ends_ofCloses`). Binary64 closes have an index (`exists_ofCloses`).

Numbers are computed with by themselves or as values; `NumberScalar` says that this makes no
difference, so everything here holds of both. -/

namespace LiquidityWatch

/-- Scalars that contain the numbers: an operation does on them what it does on numbers. -/
class NumberScalar (α : Type) [Scalar α] where
  ofNumber : Number → α
  ofInt_eq (n : Int) : Scalar.ofInt n = ofNumber (.whole n)
  ofDecimal_eq (d : Decimal) : Scalar.ofDecimal d = ofNumber (.real d.toBinary64)
  ofReal_eq (x : Binary64) : Scalar.ofReal x = .ok (ofNumber (.real x))
  add_eq (a b : Number) : Scalar.add (ofNumber a) (ofNumber b) = (a.add b).map ofNumber
  sub_eq (a b : Number) : Scalar.sub (ofNumber a) (ofNumber b) = (a.sub b).map ofNumber
  mul_eq (a b : Number) : Scalar.mul (ofNumber a) (ofNumber b) = (a.mul b).map ofNumber
  div_eq (a b : Number) : Scalar.div (ofNumber a) (ofNumber b) = (a.div b).map ofNumber
  neg_eq (a : Number) : Scalar.neg (ofNumber a) = .ok (ofNumber a.neg)
  abs_eq (a : Number) : Scalar.abs (ofNumber a) = .ok (ofNumber a.abs)
  lt_eq (a b : Number) : Comparable.lt (ofNumber a) (ofNumber b) = .ok (a.lt b)
  isZero_eq (a : Number) : Scalar.isZero (ofNumber a) = a.isZero
  isFinite_eq (a : Number) : Scalar.isFinite (ofNumber a) = a.isFinite
  isOrder_eq (ns : List Number) (h : ∀ n ∈ ns, n.place?.isSome) :
    Comparable.isOrder (ns.map ofNumber) = true

instance : NumberScalar Number where
  ofNumber := id
  ofInt_eq _ := rfl
  ofDecimal_eq _ := rfl
  ofReal_eq _ := rfl
  add_eq a b := (congrFun Except.map_id (a.add b)).symm
  sub_eq a b := (congrFun Except.map_id (a.sub b)).symm
  mul_eq a b := (congrFun Except.map_id (a.mul b)).symm
  div_eq a b := (congrFun Except.map_id (a.div b)).symm
  neg_eq _ := rfl
  abs_eq _ := rfl
  lt_eq _ _ := rfl
  isZero_eq _ := rfl
  isFinite_eq _ := rfl
  isOrder_eq ns h := by
    rw [List.map_id]
    exact List.all_eq_true.mpr h

instance : NumberScalar Value where
  ofNumber := .number
  ofInt_eq _ := rfl
  ofDecimal_eq _ := rfl
  ofReal_eq _ := rfl
  add_eq _ _ := rfl
  sub_eq _ _ := rfl
  mul_eq _ _ := rfl
  div_eq _ _ := rfl
  neg_eq _ := rfl
  abs_eq _ := rfl
  lt_eq _ _ := rfl
  isZero_eq a := Bool.not_not _
  isFinite_eq _ := rfl
  isOrder_eq ns h := by
    have hplaced : (ns.map Value.number).all Value.isPlaced = true := by
      rw [List.all_map]
      exact List.all_eq_true.mpr h
    show ((ns.map Value.number).all Value.isPlaced || _) = true
    rw [hplaced, Bool.true_or]

namespace NumberScalar

open Scalar

variable {α : Type} [Scalar α] [NumberScalar α]

/-- A binary64 number as a scalar. -/
def real (x : Binary64) : α := ofNumber (.real x)

/-! ## Operations -/

theorem sub_real (x y : Binary64) : sub (real x : α) (real y) = .ok (real (x.sub y)) :=
  sub_eq _ _

theorem div_real (x : Binary64) {y : Binary64} (hy : y.isZero = false) :
    div (real x : α) (real y) = .ok (real (x.div y)) := by
  have hquotient : (Number.real x).div (.real y) = .ok (.real (x.div y)) :=
    Number.div_real rfl rfl (.inl rfl) hy
  rw [real, real, div_eq, hquotient]
  rfl

/-- Adding to a binary64 number rounds what is added first. -/
theorem real_add (x : Binary64) (n : Number) :
    add (real x : α) (ofNumber n) = do return real (x.add (← n.toReal)) := by
  rw [real, add_eq, Number.add, Number.lift_real_left]
  cases n.toReal <;> rfl

theorem real_mul_whole (x : Binary64) (n : Int) :
    mul (real x : α) (ofInt n) = do return real (x.mul (← Number.roundWhole n)) := by
  rw [real, ofInt_eq, mul_eq, Number.mul, Number.lift_real_left, Number.toReal]
  cases Number.roundWhole n <;> rfl

theorem real_div_whole (x : Binary64) {n : Int} (hn : 0 < n) :
    div (real x : α) (ofInt n) = do return real (x.div (← Number.roundWhole n)) := by
  have hquotient : (Number.real x).div (.whole n) =
      do return .real (x.div (← Number.roundWhole n)) := by
    rw [Number.div, Number.toReal, Number.toReal, ok_bind]
    · cases hround : Number.roundWhole n with
      | error f => rfl
      | ok y => rw [ok_bind, Number.isZero_roundWhole hn hround]; rfl
    · rintro _ _ ⟨⟩
  rw [ofInt_eq, real, div_eq, hquotient]
  cases Number.roundWhole n <;> rfl

theorem one_add (x : Binary64) :
    add (ofInt 1) (real x : α) =
      .ok (real ((Binary64.finite false Binary64.unitsPerOne).add x)) := by
  have hone : (Number.whole 1).toReal = .ok (.finite false Binary64.unitsPerOne) :=
    Number.roundWhole_one
  have hreal : (Number.real x).toReal = .ok x := rfl
  rw [ofInt_eq, real, add_eq, Number.add, Number.lift_real hone hreal (.inr rfl)]
  rfl

theorem lt_real (x y : Binary64) :
    Comparable.lt (real x : α) (real y) = .ok (Number.lt (.real x) (.real y)) := lt_eq _ _

theorem isZero_real (x : Binary64) : isZero (real x : α) = x.isZero := isZero_eq _

theorem zero_eq : (zero : α) = real .zero := ofDecimal_eq _

theorem hundred_eq : (hundred : α) = real (Decimal.toBinary64 ⟨false, 100, 0⟩) := ofDecimal_eq _

end NumberScalar

namespace Number

/-- What the number is rounded to does not lie below zero. -/
def AtLeastZero (n : Number) : Prop := ∀ x, n.toReal = .ok x → x.AtLeastZero

theorem atLeastZero_whole {n : Int} (h : 0 ≤ n) : (whole n).AtLeastZero :=
  fun _ hx => atLeastZero_roundWhole h hx

theorem atLeastZero_real {x : Binary64} (h : x.AtLeastZero) : (real x).AtLeastZero := by
  rintro _ ⟨⟩
  exact h

-- A number of hundreds of digits, which proofs must not compute with.
attribute [local irreducible] Binary64.unitsPerOne

theorem atLeastZero_abs (n : Number) : n.abs.AtLeastZero := by
  cases n with
  | whole m => exact atLeastZero_whole (Int.natCast_nonneg _)
  | real x =>
    apply atLeastZero_real
    cases x with
    | nan => trivial
    | infinite negative => rfl
    | finite negative units => exact fun hsign => nomatch hsign

/-- A number above zero is at least zero. -/
theorem atLeastZero_of_pos {n : Number} (h : Number.lt (.whole 0) n = true) : n.AtLeastZero := by
  have hzero : (0 : Int) * Binary64.unitsPerOne = 0 := Int.zero_mul _
  have hunits : (0 : Int) < Binary64.unitsPerOne := Int.natCast_pos.mpr Binary64.unitsPerOne_pos
  cases n with
  | whole m =>
    have hpos : (0 : Int) * Binary64.unitsPerOne < m * Binary64.unitsPerOne := of_decide_eq_true h
    rw [hzero] at hpos
    exact atLeastZero_whole (Int.le_of_lt (Int.pos_of_mul_pos_left hpos hunits))
  | real x =>
    apply atLeastZero_real
    cases x with
    | nan => trivial
    | infinite negative =>
      cases negative with
      | false => rfl
      | true => cases h
    | finite negative units =>
      intro hsign
      subst hsign
      have hpos : (0 : Int) * Binary64.unitsPerOne < -units := of_decide_eq_true h
      rw [hzero] at hpos
      omega

/-- A number above zero is not zero. -/
theorem isZero_of_pos {x : Binary64} (h : Number.lt (.whole 0) (.real x) = true) :
    x.isZero = false := by
  cases x with
  | nan | infinite => rfl
  | finite negative units =>
    rw [Binary64.isZero, beq_eq_false_iff_ne]
    intro hunits
    have hpos : (0 : Int) * Binary64.unitsPerOne < Binary64.signedUnits negative units :=
      of_decide_eq_true h
    rw [hunits, Int.zero_mul] at hpos
    cases negative <;> exact absurd hpos (by decide)

/-- A number that is not below zero is at least zero. -/
theorem atLeastZero_of_not_neg {n : Number} (h : Number.lt n (.real .zero) = false) :
    n.AtLeastZero := by
  cases n with
  | whole m =>
    have hneg : ¬ m * Binary64.unitsPerOne < 0 := of_decide_eq_false h
    refine atLeastZero_whole (Int.not_lt.mp fun hm => hneg ?_)
    exact Int.mul_neg_of_neg_of_pos hm (Int.natCast_pos.mpr Binary64.unitsPerOne_pos)
  | real x =>
    apply atLeastZero_real
    cases x with
    | nan => trivial
    | infinite negative =>
      cases negative with
      | false => rfl
      | true => cases h
    | finite negative units =>
      intro hsign
      subst hsign
      have hneg : ¬ (-units : Int) < 0 := of_decide_eq_false h
      omega

end Number

theorem Binary64.atLeastZero_zero : zero.AtLeastZero := fun _ => rfl

namespace Rsi

open Scalar NumberScalar

variable {α : Type} [Scalar α] [NumberScalar α]

-- What a number is rounded to is not computed in these proofs.
attribute [local irreducible] Number.roundWhole

/-- The fault of a number out of range, which is met only for a reason. -/
def OutOfRange (reason : Prop) (f : Fault) : Prop := f = .wholeTooLarge ∧ reason

variable {reason : Prop}

theorem ends_toReal {n : Number} (hn : n.TooLarge → reason) :
    Ends (fun x => n.toReal = .ok x) (OutOfRange reason) n.toReal :=
  n.ends_toReal.mono (fun _ => id) fun _ hf => ⟨hf.1, hn hf.2⟩

theorem ends_roundWhole {n : Int} (hn : (Number.whole n).TooLarge → reason) :
    Ends (fun x => Number.roundWhole n = .ok x) (OutOfRange reason) (Number.roundWhole n) :=
  ends_toReal hn

/-- The scalar is a binary64 number at least zero. -/
def AtLeastZero (a : α) : Prop := ∃ x : Binary64, a = real x ∧ x.AtLeastZero

theorem atLeastZero_zero : AtLeastZero (zero : α) := ⟨_, zero_eq, Binary64.atLeastZero_zero⟩

theorem AtLeastZero.add {a : α} (ha : AtLeastZero a) {n : Number} (hn : n.AtLeastZero)
    (hlarge : n.TooLarge → reason) :
    Ends AtLeastZero (OutOfRange reason) (Scalar.add a (ofNumber n)) := by
  obtain ⟨x, rfl, hx⟩ := ha
  rw [real_add]
  exact (ends_toReal hlarge).bind fun y hy => ⟨_, rfl, hx.add (hn y hy)⟩

/-- The greater of a number and zero. -/
theorem ends_max_zero (n : Number) : ∃ m : Number,
    Scalar.max (ofNumber n : α) zero = .ok (ofNumber m) ∧ m.AtLeastZero ∧
      (m.TooLarge → n.TooLarge) := by
  rw [zero_eq, Scalar.max, real, lt_eq, ok_bind]
  cases h : Number.lt n (.real .zero) with
  | true =>
    exact ⟨_, rfl, Number.atLeastZero_real Binary64.atLeastZero_zero,
      fun hlarge => absurd hlarge (Number.not_tooLarge_real _)⟩
  | false => exact ⟨n, rfl, Number.atLeastZero_of_not_neg h, id⟩

/-- The changes between closes, each the difference of two of them. -/
theorem ends_priceChanges (closes : List Number)
    (hlarge : ∀ n ∈ closes, n.TooLarge → reason) :
    Ends (fun changes => ∃ ns : List Number, changes = (ns.map ofNumber : List α) ∧
        ∀ n ∈ ns, ∃ earlier ∈ closes, ∃ later ∈ closes, later.sub earlier = .ok n)
      (OutOfRange reason) (priceChanges (closes.map ofNumber : List α)) := by
  induction closes with
  | nil => exact ⟨[], rfl, fun n hn => absurd hn List.not_mem_nil⟩
  | cons earlier rest ih =>
    cases rest with
    | nil => exact ⟨[], rfl, fun n hn => absurd hn List.not_mem_nil⟩
    | cons later rest =>
      have hrest : ∀ n ∈ later :: rest, n.TooLarge → reason :=
        fun n hn => hlarge n (List.mem_cons_of_mem _ hn)
      rw [List.map_cons, List.map_cons, priceChanges, sub_eq]
      cases hsub : later.sub earlier with
      | error f =>
        have hends := Number.ends_sub later earlier
        rw [hsub] at hends
        refine ⟨hends.1, hends.2.elim (hrest later List.mem_cons_self) ?_⟩
        exact hlarge earlier List.mem_cons_self
      | ok change =>
        refine (ih hrest).bind fun changes hchanges => ?_
        obtain ⟨ns, rfl, hns⟩ := hchanges
        refine ⟨change :: ns, rfl, List.forall_mem_cons.mpr ⟨?_, fun n hn => ?_⟩⟩
        · exact ⟨earlier, List.mem_cons_self, later,
            List.mem_cons_of_mem _ List.mem_cons_self, hsub⟩
        · obtain ⟨a, ha, b, hb, hab⟩ := hns n hn
          exact ⟨a, List.mem_cons_of_mem _ ha, b, List.mem_cons_of_mem _ hb, hab⟩

/-! ## The averages -/

/-- Both averages are binary64 numbers at least zero. -/
structure Averages.AtLeastZero (averages : Averages α) : Prop where
  gain : Rsi.AtLeastZero averages.gain
  loss : Rsi.AtLeastZero averages.loss

namespace Averages.AtLeastZero

variable {averages : Averages α}

/-- A change makes one of the sums greater. -/
theorem addChange (h : averages.AtLeastZero) {n : Number} (hlarge : n.TooLarge → reason) :
    Ends Averages.AtLeastZero (OutOfRange reason) (averages.addChange (ofNumber n)) := by
  rw [Averages.addChange, ofInt_eq, lt_eq, ok_bind]
  cases hn : Number.lt (.whole 0) n with
  | true =>
    exact (h.gain.add (Number.atLeastZero_of_pos hn) hlarge).bind fun gain hgain =>
      ⟨hgain, h.loss⟩
  | false =>
    rw [if_neg Bool.false_ne_true, NumberScalar.abs_eq, ok_bind]
    exact (h.loss.add n.atLeastZero_abs fun habs => hlarge habs.of_abs).bind fun loss hloss =>
      ⟨h.gain, hloss⟩

end Averages.AtLeastZero

/-- The period of the averages: at least one, and in the range of binary64 numbers. -/
structure IsPeriod (period : Int) : Prop where
  pos : 0 < period
  inRange : ∃ x, Number.roundWhole period = .ok x

variable {period : Int}

theorem AtLeastZero.div_period {a : α} (ha : AtLeastZero a) (hpos : 0 < period)
    (hlarge : (Number.whole period).TooLarge → reason) :
    Ends AtLeastZero (OutOfRange reason) (Scalar.div a (ofInt period)) := by
  obtain ⟨x, rfl, hx⟩ := ha
  rw [real_div_whole x hpos]
  refine (ends_roundWhole hlarge).bind fun y hy => ⟨_, rfl, hx.div ?_ ?_⟩
  · exact Number.atLeastZero_roundWhole (Int.le_of_lt hpos) hy
  · exact Number.isZero_roundWhole hpos hy

/-- Smoothing an average with a value keeps it at least zero. -/
theorem AtLeastZero.smooth {average : α} (ha : AtLeastZero average) {n : Number}
    (hn : n.AtLeastZero) (hlarge : n.TooLarge → reason) (hpos : 0 < period)
    (hperiod : (Number.whole period).TooLarge → reason) :
    Ends AtLeastZero (OutOfRange reason) (Rsi.smooth period average (ofNumber n)) := by
  obtain ⟨x, rfl, hx⟩ := ha
  -- One less than the period is in range if the period is.
  have hless : (Number.whole (period - 1)).TooLarge → reason :=
    fun h => hperiod (h.of_natAbs_le (by omega))
  rw [Rsi.smooth, real_mul_whole]
  have hproduct : Ends Rsi.AtLeastZero (OutOfRange reason)
      (do return real (x.mul (← Number.roundWhole (period - 1))) : Except Fault α) :=
    (ends_roundWhole hless).bind fun y hy =>
      ⟨_, rfl, hx.mul (Number.atLeastZero_roundWhole (by omega) hy)⟩
  refine hproduct.bind fun product hproduct => ?_
  exact (hproduct.add hn hlarge).bind fun sum hsum => hsum.div_period hpos hperiod

namespace Averages.AtLeastZero

variable {averages : Averages α}

theorem update (h : averages.AtLeastZero) {n : Number} (hlarge : n.TooLarge → reason)
    (hpos : 0 < period) (hperiod : (Number.whole period).TooLarge → reason) :
    Ends Averages.AtLeastZero (OutOfRange reason) (averages.update period (ofNumber n)) := by
  obtain ⟨gain, hgain, hgain', hgainlarge⟩ := ends_max_zero (α := α) n
  obtain ⟨loss, hloss, hloss', hlosslarge⟩ := ends_max_zero (α := α) n.neg
  rw [Averages.update, hgain, ok_bind, neg_eq, ok_bind, hloss, ok_bind]
  refine (h.gain.smooth hgain' (fun hg => hlarge (hgainlarge hg)) hpos hperiod).bind
    fun smoothGain hsmoothGain => ?_
  refine (h.loss.smooth hloss' (fun hl => hlarge (hlosslarge hl).of_neg) hpos hperiod).bind
    fun smoothLoss hsmoothLoss => ?_
  exact ⟨hsmoothGain, hsmoothLoss⟩

end Averages.AtLeastZero

/-- The averages of closes are at least zero. -/
theorem ends_smoothedAverages (hpos : 0 < period)
    (hperiod : (Number.whole period).TooLarge → reason) (closes : List Number)
    (hcloses : ∀ n ∈ closes, n.TooLarge → reason)
    (hchanges : ∀ earlier ∈ closes, ∀ later ∈ closes, ∀ n, later.sub earlier = .ok n →
      n.TooLarge → reason) :
    Ends Averages.AtLeastZero (OutOfRange reason)
      (smoothedAverages (closes.map ofNumber : List α) period) := by
  have hstart : Averages.AtLeastZero (⟨zero, zero⟩ : Averages α) :=
    ⟨atLeastZero_zero, atLeastZero_zero⟩
  rw [smoothedAverages]
  refine (ends_priceChanges closes hcloses).bind fun changes hchanged => ?_
  obtain ⟨ns, rfl, hns⟩ := hchanged
  have hlarge : ∀ a ∈ (ns.map ofNumber : List α), ∃ n : Number, a = ofNumber n ∧
      (n.TooLarge → reason) := by
    intro a ha
    obtain ⟨n, hn, rfl⟩ := List.mem_map.mp ha
    obtain ⟨earlier, he, later, hl, hsub⟩ := hns n hn
    exact ⟨n, rfl, hchanges earlier he later hl n hsub⟩
  generalize (ns.map ofNumber : List α) = changes at hlarge ⊢
  generalize boundedLength period changes.length = seed
  have hsums : Ends Averages.AtLeastZero (OutOfRange reason)
      ((changes.take seed).foldlM Averages.addChange (⟨zero, zero⟩ : Averages α)) := by
    refine Ends.foldlM (fun sums hsums change hchange => ?_) hstart
    obtain ⟨n, rfl, hn⟩ := hlarge change (List.mem_of_mem_take hchange)
    exact hsums.addChange hn
  refine hsums.bind fun sums hsums => ?_
  refine (hsums.gain.div_period hpos hperiod).bind fun gain hgain => ?_
  refine (hsums.loss.div_period hpos hperiod).bind fun loss hloss => ?_
  refine Ends.foldlM (fun averages haverages change hchange => ?_) ⟨hgain, hloss⟩
  obtain ⟨n, rfl, hn⟩ := hlarge change (List.mem_of_mem_drop hchange)
  exact haverages.update hn hpos hperiod

/-! ## The index -/

/-- An index kept between zero and one hundred is a binary64 number. -/
theorem exists_clamped (x : Binary64) : ∃ index : Binary64, (do
    Scalar.min (← Scalar.max (real x) zero) hundred : Except Fault α) = .ok (real index) := by
  have hmax : ∃ y : Binary64, Scalar.max (real x : α) zero = .ok (real y) := by
    rw [zero_eq, Scalar.max, lt_real, ok_bind]
    split
    · exact ⟨_, rfl⟩
    · exact ⟨_, rfl⟩
  obtain ⟨y, hmax⟩ := hmax
  rw [hmax, ok_bind, hundred_eq, Scalar.min, lt_real, ok_bind]
  split
  · exact ⟨_, rfl⟩
  · exact ⟨_, rfl⟩

/-- Averages at least zero have an index: one plus their quotient is not zero. -/
theorem exists_ofAverages {averages : Averages α} (h : averages.AtLeastZero) :
    ∃ index : Binary64, ofAverages averages = .ok (real index) := by
  obtain ⟨gain, loss⟩ := averages
  obtain ⟨⟨x, hx, hgain⟩, ⟨y, hy, hloss⟩⟩ := h
  obtain rfl : gain = real x := hx
  obtain rfl : loss = real y := hy
  rw [ofAverages]
  simp only [isZero_real]
  cases hzero : y.isZero with
  | true => exact ⟨_, congrArg Except.ok hundred_eq⟩
  | false =>
    have hsum := Binary64.isZero_one_add (hgain.div hloss hzero)
    rw [if_neg Bool.false_ne_true, div_real x hzero, ok_bind, one_add, ok_bind, hundred_eq,
      div_real _ hsum, ok_bind, sub_real, ok_bind, ← hundred_eq]
    exact exists_clamped _

/-- **Closes have an index, unless a number is out of range.** Closes that are not finite are
skipped. Only the closes, the changes between them and the period are converted to binary64. -/
theorem ends_ofCloses (hpos : 0 < period) (hperiod : (Number.whole period).TooLarge → reason)
    (closes : List Number) (hcloses : ∀ n ∈ closes, n.TooLarge → reason)
    (hchanges : ∀ earlier ∈ closes, ∀ later ∈ closes, ∀ n, later.sub earlier = .ok n →
      n.TooLarge → reason) :
    Ends (fun index => ∃ x : Binary64, index = (real x : α)) (OutOfRange reason)
      (ofCloses (closes.map ofNumber : List α) period) := by
  have hfinite : ∀ a ∈ (closes.map ofNumber : List α),
      Ends (fun _ => True) (OutOfRange reason) (isFinite a) := by
    intro a ha
    obtain ⟨n, hn, rfl⟩ := List.mem_map.mp ha
    rw [isFinite_eq]
    exact (ends_toReal (hcloses n hn)).bind fun x _ => trivial
  rw [ofCloses]
  refine (Ends.filterM hfinite).bind fun kept hkept => ?_
  obtain ⟨ns, hns, rfl⟩ := List.sublist_map_iff.mp hkept
  split
  · exact ⟨_, zero_eq⟩
  · have haverages := ends_smoothedAverages (α := α) hpos hperiod ns
      (fun n hn => hcloses n (hns.subset hn))
      fun earlier he later hl => hchanges earlier (hns.subset he) later (hns.subset hl)
    refine haverages.bind fun averages hpositive => ?_
    obtain ⟨x, hx⟩ := exists_ofAverages hpositive
    rw [hx]
    exact ⟨x, rfl⟩

/-- **Any binary64 closes have an index**, which is a binary64 number. -/
theorem exists_ofCloses (hperiod : IsPeriod period) (closes : List Binary64) :
    ∃ index : Binary64, ofCloses (closes.map real : List α) period = .ok (real index) := by
  have hreal : ∀ n ∈ closes.map Number.real, ∃ x, n = .real x := fun n hn => by
    obtain ⟨x, -, rfl⟩ := List.mem_map.mp hn
    exact ⟨x, rfl⟩
  have hends : Ends (fun index => ∃ x : Binary64, index = (real x : α)) (OutOfRange False)
      (ofCloses ((closes.map Number.real).map ofNumber : List α) period) := by
    refine ends_ofCloses hperiod.pos (fun hlarge => ?_) _ (fun n hn hlarge => ?_) ?_
    · obtain ⟨x, hx⟩ := hperiod.inRange
      exact nomatch (hx.symm.trans hlarge)
    · obtain ⟨x, rfl⟩ := hreal n hn
      exact Number.not_tooLarge_real x hlarge
    · rintro _ he _ hl n hsub hlarge
      obtain ⟨x, rfl⟩ := hreal _ he
      obtain ⟨y, rfl⟩ := hreal _ hl
      obtain rfl := Except.ok.inj hsub
      exact Number.not_tooLarge_real _ hlarge
  rw [List.map_map] at hends
  obtain ⟨_, hindex, x, rfl⟩ := (hends.mono (fun _ => id) fun _ hf => hf.2).exists_ok
  exact ⟨x, hindex⟩

end Rsi

end LiquidityWatch
