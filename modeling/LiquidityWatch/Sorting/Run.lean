import LiquidityWatch.Fault

/-! # Runs

A run is a row of elements that are in order already. The run at the front of a list is taken as it
is, turned round when it descends strictly; one that is too short is filled up by placing further
elements into it by halving. The order may be inconsistent: what is compared, and when, is part of
what these functions say. -/

namespace LiquidityWatch.Sorting

variable {α : Type} (lt : α → α → Except Fault Bool)

/-- The longest front of the list that goes on from `last` without stepping down, and the rest. -/
def ascendingRun (last : α) : List α → Except Fault (List α × List α)
  | [] => .ok ([], [])
  | x :: rest => do
    if ← lt x last then return ([], x :: rest)
    else
      let (run, after) ← ascendingRun x rest
      return (x :: run, after)

/-- The longest front of the list that goes on from `last` with steps down only, and the rest. -/
def descendingRun (last : α) : List α → Except Fault (List α × List α)
  | [] => .ok ([], [])
  | x :: rest => do
    if ← lt x last then
      let (run, after) ← descendingRun x rest
      return (x :: run, after)
    else return ([], x :: rest)

/-- The run that a list begins with, in ascending order, and the rest. -/
def leadingRun : List α → Except Fault (List α × List α)
  | x :: y :: rest => do
    if ← lt y x then
      let (run, after) ← descendingRun lt y rest
      return ((x :: y :: run).reverse, after)
    else
      let (run, after) ← ascendingRun lt y rest
      return (x :: y :: run, after)
  | short => .ok (short, [])

/-- Puts an element into an ordered list, after its equals. -/
def place (x : α) (sorted : List α) : Except Fault (List α) :=
  match _h : sorted.drop (sorted.length / 2) with
  | [] => .ok (sorted ++ [x])
  | middle :: upper => do
    let lower := sorted.take (sorted.length / 2)
    if ← lt x middle then return (← place x lower) ++ middle :: upper
    else return lower ++ middle :: (← place x upper)
termination_by sorted.length
decreasing_by
  · have := congrArg List.length _h
    simp only [List.length_drop, List.length_cons, List.length_take] at this ⊢
    omega
  · have := congrArg List.length _h
    simp only [List.length_drop, List.length_cons] at this
    omega

/-- A run of a least length, as far as there are elements, from the front of a list, and the
rest. -/
def frontRun (least : Nat) (xs : List α) : Except Fault (List α × List α) := do
  let (run, rest) ← leadingRun lt xs
  let missing := least - run.length
  let filled ← (rest.take missing).foldlM (fun sorted x => place lt x sorted) run
  return (filled, rest.drop missing)

end LiquidityWatch.Sorting
