import LiquidityWatch.Sorting.Merge
import LiquidityWatch.Sorting.Run

/-! # Sorting by runs

A list is cut into runs from its front, and the runs are merged as they are found. Which ones are
merged first depends on where they lie: the boundary between two runs has a power, which is the
depth at which halving the list again and again first separates their middles, and the boundary of
the greatest power goes first. For a consistent order the result is the stable sort. -/

namespace LiquidityWatch.Sorting

variable {α : Type} (lt : α → α → Except Fault Bool)

/-- Lists shorter than this are one run. -/
def runBound : Nat := 64

/-- The least length of a run in a list of length `n`, such that its multiples come close to the
length times a power of two from below. `odd` says that a half has been cut off. -/
def leastRun (n : Nat) (odd : Bool) : Nat :=
  if runBound ≤ n then leastRun (n / 2) (odd || n % 2 = 1)
  else if odd then n + 1 else n
termination_by n
decreasing_by simp only [runBound] at *; omega

/-- The number of binary digits up to the first in which two fractions below two differ: `a / n` and
`b / n`, of which the second is the greater one. The number of digits is bounded by the fuel. -/
def differingDigit (n : Nat) : Nat → Nat → Nat → Nat
  | 0, _, _ => 0
  | fuel + 1, a, b =>
    if n ≤ a then 1 + differingDigit n fuel (2 * (a - n)) (2 * (b - n))
    else if n ≤ b then 1
    else 1 + differingDigit n fuel (2 * a) (2 * b)

/-- A run that waits for being merged: where it starts, and the power of the boundary after it. -/
structure Pending (α : Type) where
  run : List α
  start : Nat
  power : Nat

/-- Runs that wait, the last one first. -/
abbrev Stack (α : Type) := List (Pending α)

/-- The power of the boundary between a run that waits and one of a given length after it, in a list
of length `n`. -/
def Pending.boundaryPower (n : Nat) (p : Pending α) (length : Nat) : Nat :=
  let middle := 2 * p.start + p.run.length
  differingDigit n n middle (middle + p.run.length + length)

/-- Merges the last two runs as long as the boundary between them has more than a given power. -/
def collapse (power patience : Nat) (stack : Stack α) : Except Fault (Stack α × Nat) :=
  match stack with
  | last :: before :: rest =>
    if power < before.power then do
      let (run, patience) ← mergeRuns lt patience before.run last.run
      collapse power patience ({ before with run } :: rest)
    else .ok (stack, patience)
  | _ => .ok (stack, patience)
termination_by stack.length

/-- Adds the next run of a list of length `n`. -/
def push (n patience : Nat) (stack : Stack α) (run : List α) : Except Fault (Stack α × Nat) :=
  match stack with
  | [] => .ok ([⟨run, 0, 0⟩], patience)
  | last :: _ => do
    let power := last.boundaryPower n run.length
    let (stack, patience) ← collapse lt power patience stack
    let marked := match stack with
      | last :: rest => { last with power } :: rest
      | [] => []
    return (⟨run, last.start + last.run.length, 0⟩ :: marked, patience)

/-- Merges all runs, each time the last two, unless the one before them is shorter than the last. -/
def collapseAll (patience : Nat) (stack : Stack α) : Except Fault (List α) :=
  match stack with
  | [] => .ok []
  | [only] => .ok only.run
  | last :: middle :: before :: rest =>
    if before.run.length < last.run.length then do
      let (run, patience) ← mergeRuns lt patience before.run middle.run
      collapseAll patience (last :: { before with run } :: rest)
    else do
      let (run, patience) ← mergeRuns lt patience middle.run last.run
      collapseAll patience ({ middle with run } :: before :: rest)
  | [last, before] => do return (← mergeRuns lt patience before.run last.run).1
termination_by stack.length

/-- Cuts a list into runs and merges them. Every run takes an element, so the length of the list is
enough fuel. -/
def sortRuns (n least : Nat) : Nat → Nat → Stack α → List α → Except Fault (List α)
  | fuel + 1, patience, stack, x :: rest => do
    let (run, after) ← frontRun lt least (x :: rest)
    let (stack, patience) ← push lt n patience stack run
    sortRuns n least fuel patience stack after
  | _, patience, stack, _ => collapseAll lt patience stack

/-- Sorts a list by an order that may be inconsistent. -/
def adaptiveSort (xs : List α) : Except Fault (List α) :=
  let n := xs.length
  sortRuns lt n (leastRun n false) n standardPatience [] xs

end LiquidityWatch.Sorting
