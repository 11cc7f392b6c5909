import LiquidityWatch.World
import Mathlib.Data.List.Forall2

/-! # Two rounds

Of actions that are started together, those that begin at once come before those that only start
others at first (`Run.gatherRounds`). The order of the rounds is a permutation of the order in which
the actions were started, and results that stand opposite to their actions in each of the rounds do
so again when they are rejoined. -/

namespace LiquidityWatch.Run

variable {ι α : Type} {atOnce : ι → Bool} {xs : List ι}

/-- Things in the order of the rounds in which they are dealt with. -/
def inRounds (atOnce : ι → Bool) (xs : List ι) : List ι :=
  xs.filter atOnce ++ xs.filter fun x => !atOnce x

theorem inRounds_perm (atOnce : ι → Bool) (xs : List ι) : (inRounds atOnce xs).Perm xs :=
  List.filter_append_perm atOnce xs

/-- What begins at once overtakes what was started before it. -/
example (w : World) : ((gatherRounds (· == "B") print ["A", "B", "C"]).run w).run.2.printed =
    w.printed ++ ["B"] ++ ["A"] ++ ["C"] := rfl

theorem forall₂_rejoin {R : ι → α → Prop} {first later : List α}
    (hfirst : List.Forall₂ R (xs.filter atOnce) first)
    (hlater : List.Forall₂ R (xs.filter fun x => !atOnce x) later) :
    List.Forall₂ R xs (rejoin (xs.map atOnce) first later) := by
  induction xs generalizing first later with
  | nil => exact .nil
  | cons x xs ih =>
    rw [List.map_cons]
    cases hx : atOnce x with
    | true =>
      rw [List.filter_cons_of_pos hx] at hfirst
      rw [List.filter_cons_of_neg (by simp [hx])] at hlater
      cases hfirst with
      | cons ha hrest => exact .cons ha (ih hrest hlater)
    | false =>
      rw [List.filter_cons_of_neg (by simp [hx])] at hfirst
      rw [List.filter_cons_of_pos (by simp [hx])] at hlater
      cases hlater with
      | cons ha hrest => exact .cons ha (ih hfirst hrest)

/-- All results that stand opposite to their actions are results of two rounds. -/
theorem exists_rejoin (atOnce : ι → Bool) {R : ι → α → Prop} {as : List α}
    (h : List.Forall₂ R xs as) : ∃ first later, as = rejoin (xs.map atOnce) first later ∧
      List.Forall₂ R (xs.filter atOnce) first ∧
      List.Forall₂ R (xs.filter fun x => !atOnce x) later := by
  induction h with
  | nil => exact ⟨[], [], rfl, .nil, .nil⟩
  | @cons x a xs as ha _ ih =>
    obtain ⟨first, later, rfl, hfirst, hlater⟩ := ih
    rw [List.map_cons]
    cases hx : atOnce x with
    | true =>
      refine ⟨a :: first, later, rfl, ?_, ?_⟩
      · rw [List.filter_cons_of_pos hx]
        exact .cons ha hfirst
      · rwa [List.filter_cons_of_neg (by simp [hx])]
    | false =>
      refine ⟨first, a :: later, rfl, ?_, ?_⟩
      · rwa [List.filter_cons_of_neg (by simp [hx])]
      · rw [List.filter_cons_of_pos (by simp [hx])]
        exact .cons ha hlater

/-- Only results of one of the rounds are rejoined. -/
theorem forall_mem_rejoin {P : α → Prop} {flags : List Bool} {first later : List α}
    (hfirst : ∀ a ∈ first, P a) (hlater : ∀ a ∈ later, P a) :
    ∀ a ∈ rejoin flags first later, P a := by
  induction flags, first, later using rejoin.induct with
  | case1 flags a first later ih =>
    obtain ⟨ha, hrest⟩ := List.forall_mem_cons.mp hfirst
    exact List.forall_mem_cons.mpr ⟨ha, ih hrest hlater⟩
  | case2 flags first b later ih =>
    obtain ⟨hb, hrest⟩ := List.forall_mem_cons.mp hlater
    exact List.forall_mem_cons.mpr ⟨hb, ih hfirst hrest⟩
  | case3 flags first later hnone hnone' =>
    rw [rejoin.eq_3 _ _ _ hnone hnone']
    exact fun a ha => absurd ha List.not_mem_nil

end LiquidityWatch.Run
