import LiquidityWatch.Comparable
import LiquidityWatch.Sorting.Adaptive

/-! # Sorting

Sorting by keys, stable in their order. Keys among which there is no order are arranged all the
same, as long as no comparison fails, in the way that `Sorting.adaptiveSort` says. -/

namespace LiquidityWatch

variable {α κ : Type} [Comparable κ]

/-- The elements of a list in the order of their keys. -/
def sortedBy (key : α → κ) (xs : List α) : Except Fault (List α) :=
  if Comparable.isOrder (xs.map key) then
    .ok (xs.mergeSort fun x y => Comparable.atMost (key x) (key y))
  else Sorting.adaptiveSort (fun x y => Comparable.lt (key x) (key y)) xs

end LiquidityWatch
