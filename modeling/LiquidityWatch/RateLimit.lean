import LiquidityWatch.Scalar

/-! # Rate limits

A limiter grants a number of requests per period. It keeps the times of the grants that lie in the
last period; while a slot is free a request is granted at once, and otherwise it waits until a tenth
of a second after the oldest of those grants has left the period. -/

namespace LiquidityWatch

open Comparable Scalar

structure Limiter (α : Type) where
  slots : Int
  period : α
  granted : List α

/-- How a request was granted: when, after which wait, and the limiter afterwards. -/
structure Grant (α : Type) where
  limiter : Limiter α
  time : α
  waited : Option α

namespace Limiter

variable {α : Type} [Scalar α]

/-- A limiter that has granted nothing. -/
def fresh (slots : Int) (period : α) : Limiter α := ⟨slots, period, []⟩

/-- The time that is waited beyond the end of the period. -/
def margin : α := ofDecimal ⟨false, 1, -1⟩

/-- Forgets the grants that lie outside the period before `now`. -/
def purge (l : Limiter α) (now : α) : Except Fault (Limiter α) := do
  return { l with granted := ← l.granted.filterM fun t => do lt (← sub now t) l.period }

/-- How long a request has to wait at `now`, if at all. -/
def wait (l : Limiter α) (now : α) : Except Fault (Option α) :=
  if (l.granted.length : Int) < l.slots then .ok none
  else match l.granted with
    | [] => .error .noSlot
    | oldest :: _ => do
      let time ← add (← sub l.period (← sub now oldest)) margin
      if ← lt (ofInt 0) time then return some time else return none

/-- Grants a request that comes at `now` to a limiter without outdated grants. The clock goes on by
the time that is waited. -/
def grant (l : Limiter α) (now : α) : Except Fault (Grant α) := do
  let waited ← l.wait now
  let time ← match waited with
    | none => .ok now
    | some seconds => add now seconds
  return ⟨{ l with granted := l.granted ++ [time] }, time, waited⟩

/-- A request at `now`. -/
def acquire (l : Limiter α) (now : α) : Except Fault (Grant α) := do (← l.purge now).grant now

end Limiter

end LiquidityWatch
