import LiquidityWatch.Proofs.Outcome
import LiquidityWatch.Scalar
import Mathlib.Algebra.Order.Field.Rat
import Mathlib.Tactic.NormNum

/-! # Exact arithmetic with values that are not finite

A binary64 number is rounded, and may be no number at all. The extended rationals keep the second
and drop the first: a NaN, the two infinities and the rationals, with the rules of binary64 between
them and no rounding. On them the formulas are exact, and still meet what is not finite.

`ExactScalar` says that a scalar contains the rationals and computes on them exactly. Both the
rationals and the extended rationals do, so what is shown of exact scalars holds of both. -/

namespace LiquidityWatch

/-- A rational number, an infinity, or no number. -/
inductive ExtendedRat where
  | nan
  | infinite (negative : Bool)
  | finite (q : Rat)
deriving DecidableEq

namespace ExtendedRat

def isFinite : ExtendedRat → Bool
  | finite _ => true
  | _ => false

def isZero : ExtendedRat → Bool
  | finite q => q == 0
  | _ => false

/-- A NaN shows no sign, and zero has none. -/
def isNegative : ExtendedRat → Bool
  | nan => false
  | infinite negative => negative
  | finite q => q < 0

/-- The rational that a finite value is. -/
def toRat? : ExtendedRat → Option Rat
  | finite q => some q
  | _ => none

/-- The value of a binary64 number. -/
def ofBinary64 (x : Binary64) : ExtendedRat :=
  match x.toRat? with
  | some q => finite q
  | none => if x.isNaN then nan else infinite x.isNegative

def neg : ExtendedRat → ExtendedRat
  | nan => nan
  | infinite negative => infinite (!negative)
  | finite q => finite (-q)

def abs (x : ExtendedRat) : ExtendedRat := if x.isNegative then x.neg else x

def add : ExtendedRat → ExtendedRat → ExtendedRat
  | finite p, finite q => finite (p + q)
  | infinite a, infinite b => if a = b then infinite a else nan
  | infinite a, finite _ => infinite a
  | finite _, infinite b => infinite b
  | _, _ => nan

def sub (x y : ExtendedRat) : ExtendedRat := x.add y.neg

def mul : ExtendedRat → ExtendedRat → ExtendedRat
  | finite p, finite q => finite (p * q)
  | nan, _ => nan
  | _, nan => nan
  | x, y => if x.isZero || y.isZero then nan else infinite (x.isNegative != y.isNegative)

/-- The quotient; callers test for a zero divisor first. -/
def div : ExtendedRat → ExtendedRat → ExtendedRat
  | finite p, finite q => finite (p / q)
  | finite _, infinite _ => finite 0
  | infinite a, finite q => infinite (a != decide (q < 0))
  | _, _ => nan

/-- A NaN is not before or after anything. -/
def lt : ExtendedRat → ExtendedRat → Bool
  | finite p, finite q => p < q
  | infinite true, finite _ => true
  | finite _, infinite false => true
  | infinite true, infinite false => true
  | _, _ => false

def le (x y : ExtendedRat) : Bool := x.lt y || (x == y && x != nan)

instance : Scalar ExtendedRat where
  lt x y := .ok (x.lt y)
  le x y := .ok (x.le y)
  isOrder xs := xs.all (· != nan)
  ofInt n := finite n
  ofWhole n := .ok (finite n)
  ofDecimal d := finite d.toRat
  ofReal x := .ok (ofBinary64 x)
  add x y := .ok (x.add y)
  sub x y := .ok (x.sub y)
  mul x y := .ok (x.mul y)
  div x y := if y.isZero then .error .divisionByZero else .ok (x.div y)
  neg x := .ok x.neg
  abs x := .ok x.abs
  isZero := isZero
  isFinite x := .ok x.isFinite

/-- The finite values of a list, in their order. -/
def finites (xs : List ExtendedRat) : List Rat := xs.filterMap toRat?

theorem filter_isFinite (xs : List ExtendedRat) :
    xs.filter isFinite = (finites xs).map finite := by
  induction xs with
  | nil => rfl
  | cons x xs ih =>
    cases x with
    | finite q => exact congrArg (finite q :: ·) ih
    | nan | infinite negative => exact ih

/-- Skipping what is not finite leaves the finite values. -/
theorem filterM_isFinite (xs : List ExtendedRat) :
    xs.filterM Scalar.isFinite = .ok ((finites xs).map finite) := by
  have htest : ∀ x ∈ xs, Scalar.isFinite x = .ok x.isFinite := fun _ _ => rfl
  rw [filterM_eq_ok htest, filter_isFinite]

end ExtendedRat

/-- Scalars that contain the rationals: an operation on them is exact. -/
class ExactScalar (α : Type) [Scalar α] where
  ofRat : Rat → α
  ofInt_eq (n : Int) : Scalar.ofInt n = ofRat n
  ofDecimal_eq (d : Decimal) : Scalar.ofDecimal d = ofRat d.toRat
  add_eq (a b : Rat) : Scalar.add (ofRat a) (ofRat b) = .ok (ofRat (a + b))
  sub_eq (a b : Rat) : Scalar.sub (ofRat a) (ofRat b) = .ok (ofRat (a - b))
  mul_eq (a b : Rat) : Scalar.mul (ofRat a) (ofRat b) = .ok (ofRat (a * b))
  div_eq (a : Rat) {b : Rat} (hb : b ≠ 0) :
    Scalar.div (ofRat a) (ofRat b) = .ok (ofRat (a / b))
  neg_eq (a : Rat) : Scalar.neg (ofRat a) = .ok (ofRat (-a))
  abs_eq (a : Rat) : Scalar.abs (ofRat a) = .ok (ofRat |a|)
  lt_eq (a b : Rat) : Comparable.lt (ofRat a) (ofRat b) = .ok (decide (a < b))
  isZero_eq (a : Rat) : Scalar.isZero (ofRat a) = decide (a = 0)

theorem ite_neg_eq_abs (a : Rat) : (if a < 0 then -a else a) = |a| := by
  by_cases h : a < 0
  · rw [if_pos h, abs_of_neg h]
  · rw [if_neg h, abs_of_nonneg (not_lt.mp h)]

instance : ExactScalar Rat where
  ofRat := id
  ofInt_eq _ := rfl
  ofDecimal_eq _ := rfl
  add_eq _ _ := rfl
  sub_eq _ _ := rfl
  mul_eq _ _ := rfl
  div_eq _ _ hb := if_neg hb
  neg_eq _ := rfl
  abs_eq a := congrArg Except.ok (ite_neg_eq_abs a)
  lt_eq _ _ := rfl
  isZero_eq _ := rfl

instance : ExactScalar ExtendedRat where
  ofRat := .finite
  ofInt_eq _ := rfl
  ofDecimal_eq _ := rfl
  add_eq _ _ := rfl
  sub_eq a b := congrArg (fun q => Except.ok (ExtendedRat.finite q)) (sub_eq_add_neg a b).symm
  mul_eq _ _ := rfl
  div_eq _ _ hb := if_neg fun h => hb (eq_of_beq h)
  neg_eq _ := rfl
  abs_eq a := by
    rw [← ite_neg_eq_abs, apply_ite ExtendedRat.finite]
    show Except.ok (if decide (a < 0) = true then _ else _) = _
    simp only [decide_eq_true_eq]
    rfl
  lt_eq _ _ := rfl
  isZero_eq _ := rfl

namespace ExactScalar

open Scalar

variable {α : Type} [Scalar α] [ExactScalar α]

theorem zero_eq : (zero : α) = ofRat 0 := by
  rw [zero, ofDecimal_eq]
  norm_num [Decimal.toRat]

theorem hundred_eq : (hundred : α) = ofRat 100 := by
  rw [hundred, ofDecimal_eq]
  norm_num [Decimal.toRat]

theorem max_eq (a b : Rat) : Scalar.max (ofRat a : α) (ofRat b) = .ok (ofRat (max a b)) := by
  rw [Scalar.max, lt_eq, ok_bind]
  by_cases h : a < b
  · rw [decide_eq_true h, if_pos rfl, max_eq_right h.le]
    rfl
  · rw [decide_eq_false h, if_neg Bool.false_ne_true, max_eq_left (not_lt.mp h)]
    rfl

theorem min_eq (a b : Rat) : Scalar.min (ofRat a : α) (ofRat b) = .ok (ofRat (min a b)) := by
  rw [Scalar.min, lt_eq, ok_bind]
  by_cases h : b < a
  · rw [decide_eq_true h, if_pos rfl, min_eq_right h.le]
    rfl
  · rw [decide_eq_false h, if_neg Bool.false_ne_true, min_eq_left (not_lt.mp h)]
    rfl

end ExactScalar

end LiquidityWatch
