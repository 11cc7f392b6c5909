import LiquidityWatch.Fault

/-! # Merging two runs

A merge works from the front or from the back, so that it ends at the side of the shorter run.
It takes the heads of the runs one by one, and as soon as one run wins again and again it gallops:
it leaps ahead in steps that double to find how many elements of a run go next. How many wins it
waits for is its patience, which galloping lowers while it pays and raises when it stops paying. For
a consistent order this is the stable merge; for one that is not it says which arrangement
results. -/

namespace LiquidityWatch.Sorting

variable {α : Type}

/-- The end that a merge works from. The runs are seen from it: their heads are their last elements
when it is the back. -/
inductive Side where
  | front
  | back
deriving DecidableEq

/-! ## Galloping -/

/-- Leaps ahead over elements that are taken: the last one that was met, and the first position that
is not known to be taken. -/
def leap (taken : Nat → Except Fault Bool) (length last next : Nat) : Except Fault (Nat × Nat) :=
  if next < length then do
    if ← taken next then leap taken length next (2 * next + 1) else return (last, next)
  else .ok (last, length)
termination_by length - next

/-- The place between two positions where taking ends. The middle is rounded towards the side. -/
def halve (side : Side) (taken : Nat → Except Fault Bool) (low high : Nat) : Except Fault Nat :=
  if low < high then do
    let middle := match side with
      | .front => low + (high - low) / 2
      | .back => low + (high - low - 1) / 2
    if ← taken middle then halve side taken (middle + 1) high else halve side taken low middle
  else .ok low
termination_by high - low
decreasing_by
  · cases side <;> simp only [] <;> omega
  · cases side <;> simp only [] <;> omega

/-- How many elements at the head of a run are taken. -/
def gallop (side : Side) (taken : α → Except Fault Bool) (run : List α) : Except Fault Nat := do
  let takenAt (i : Nat) : Except Fault Bool := match run[i]? with
    | some x => taken x
    | none => .ok false
  if ← takenAt 0 then
    let (last, next) ← leap takenAt run.length 0 1
    halve side takenAt (last + 1) next
  else return 0

/-! ## The merge -/

variable (lt : α → α → Except Fault Bool) (side : Side)

/-- An element of the first run is taken before one of the second. -/
def takesFirst (x y : α) : Except Fault Bool := do
  let less ← lt y x
  return match side with
    | .front => !less
    | .back => less

/-- What is left of two runs, and what has been merged, the last element first. -/
structure Merging (α : Type) where
  first : List α
  second : List α
  merged : List α

namespace Merging

def takeFirst (m : Merging α) (n : Nat) : Merging α :=
  { m with first := m.first.drop n, merged := (m.first.take n).reverse ++ m.merged }

def takeSecond (m : Merging α) (n : Nat) : Merging α :=
  { m with second := m.second.drop n, merged := (m.second.take n).reverse ++ m.merged }

/-- A run is used up, or nothing but the last element of the shorter one is left of it: that element
comes at the end. -/
def isOver (m : Merging α) : Bool :=
  match side with
  | .front => m.first.length ≤ 1 || m.second.isEmpty
  | .back => m.second.length ≤ 1 || m.first.isEmpty

/-- The result of a merge that is over, in its proper direction. -/
def result (m : Merging α) : List α :=
  match side with
  | .front => m.merged.reverse ++ (m.second ++ m.first)
  | .back => (m.first ++ m.second).reverse ++ m.merged

/-- A round of galloping through both runs, with the greater number of elements that it took at
once. After the elements of each run goes the head of the other one, which stopped them. -/
def gallopRound (m : Merging α) : Except Fault (Merging α × Nat) := do
  let fromFirst ← match m.second with
    | y :: _ => gallop side (fun x => takesFirst lt side x y) m.first
    | [] => .ok 0
  let m := m.takeFirst fromFirst
  if m.isOver side then return (m, fromFirst)
  let m := m.takeSecond 1
  if m.isOver side then return (m, fromFirst)
  let fromSecond ← match m.first with
    | x :: _ => gallop side (fun y => do return !(← takesFirst lt side x y)) m.second
    | [] => .ok 0
  let m := m.takeSecond fromSecond
  if m.isOver side then return (m, max fromFirst fromSecond)
  return (m.takeFirst 1, max fromFirst fromSecond)

end Merging

/-- How a merge goes on: one element at a time, with the number of times that each run has just won
in a row, or galloping. -/
inductive Pace where
  | stepping (first second : Nat)
  | galloping

/-- The patience that merges begin with, and the number of elements that makes galloping pay. -/
def standardPatience : Nat := 7

/-- Carries a merge on to its end; gives the result and the patience that is left. Every step takes
an element, so the number of elements is enough fuel. -/
def mergeOn : Nat → Nat → Pace → Merging α → Except Fault (List α × Nat)
  | 0, patience, _, m => .ok (m.result side, patience)
  | fuel + 1, patience, pace, m =>
    if m.isOver side then .ok (m.result side, patience)
    else match pace, m.first, m.second with
      | .stepping firstWins secondWins, x :: _, y :: _ => do
        if ← takesFirst lt side x y then
          let pace := if patience ≤ firstWins + 1 then .galloping else .stepping (firstWins + 1) 0
          mergeOn fuel patience pace (m.takeFirst 1)
        else
          let pace :=
            if patience ≤ secondWins + 1 then .galloping else .stepping 0 (secondWins + 1)
          mergeOn fuel patience pace (m.takeSecond 1)
      | _, _, _ => do
        let (m, taken) ← m.gallopRound lt side
        if m.isOver side then return (m.result side, patience)
        if standardPatience ≤ taken then
          mergeOn fuel (if 1 < patience then patience - 1 else patience) .galloping m
        else mergeOn fuel (patience + 1) (.stepping 0 0) m

/-- Merges two runs seen from a side. The head of the longer run is known to go first. -/
def mergeFrom (patience : Nat) (first second : List α) : Except Fault (List α × Nat) :=
  let m : Merging α := match side with
    | .front => (Merging.mk first second []).takeSecond 1
    | .back => (Merging.mk first.reverse second.reverse []).takeFirst 1
  mergeOn lt side (first.length + second.length) patience (.stepping 0 0) m

/-- Merges two runs that follow each other. Elements at the front of the first run and at the back
of the second that are in their places already are left there. -/
def mergeRuns (patience : Nat) (first second : List α) : Except Fault (List α × Nat) :=
  match second, first.getLast? with
  | y :: _, some x => do
    let settled ← gallop .front (fun x => takesFirst lt .front x y) first
    if settled = first.length then return (first ++ second, patience)
    let behind ← gallop .back (fun y => do return !(← takesFirst lt .back x y)) second.reverse
    if behind = second.length then return (first ++ second, patience)
    let left := first.drop settled
    let right := second.take (second.length - behind)
    let side : Side := if left.length ≤ right.length then .front else .back
    let (merged, patience) ← mergeFrom lt side patience left right
    return (first.take settled ++ merged ++ second.drop (second.length - behind), patience)
  | _, _ => .ok (first ++ second, patience)

end LiquidityWatch.Sorting
