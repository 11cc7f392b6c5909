import LiquidityWatch.Deposit
import LiquidityWatch.Rsi.Reading
import LiquidityWatch.Summary

/-! # Monitoring cycles

What is carried from one cycle of monitoring to the next. Each cycle merges what it found: the first
deposit found for a position stays and fixes its initial value, while the metrics of a token are
replaced by newer ones. Metrics without a time of their own get the time of the cycle. -/

namespace LiquidityWatch

/-- The market data of a token. -/
structure TokenMetrics (α : Type) where
  mint : Text
  name : Value
  price : α
  rsi : Rsi.Reading α
  fetchedAt : α

structure MonitorState (α : Type) where
  cycle : Nat
  initialValues : Ledger Identifier α
  deposits : Ledger Identifier (Deposit α)
  metrics : Ledger Text (TokenMetrics α)
  lastSummary : Option (Summary α)

/-- What one cycle found. A deposit is absent where it was looked up in vain. -/
structure CycleData (α : Type) where
  valuations : List (Valuation α)
  deposits : Ledger Identifier (Option (Deposit α))
  metrics : List (TokenMetrics α)
  now : α

namespace MonitorState

/-- The state before the first cycle. -/
def initial {α : Type} : MonitorState α := ⟨0, ∅, ∅, ∅, none⟩

variable {α : Type} [Scalar α]

/-- The initial values and the deposits they come from. -/
structure Deposits (α : Type) where
  initialValues : Ledger Identifier α
  deposits : Ledger Identifier (Deposit α)

/-- Enters the deposit of a position unless its initial value is known. -/
def Deposits.enter (known : Deposits α) (found : Identifier × Option (Deposit α)) :
    Except Fault (Deposits α) :=
  match found with
  | (_, none) => .ok known
  | (id, some deposit) =>
    if known.initialValues.contains id then .ok known
    else do
      return ⟨known.initialValues.insert id (← deposit.initialValue),
        known.deposits.insert id deposit⟩

/-- Metrics with a time: their own, or the time of the cycle. -/
def stamp (now : α) (m : TokenMetrics α) : TokenMetrics α :=
  if Scalar.isZero m.fetchedAt then { m with fetchedAt := now } else m

/-- One cycle: its summary and the next state. -/
def run (s : MonitorState α) (data : CycleData α) : Except Fault (Summary α × MonitorState α) := do
  let known ← data.deposits.entries.foldlM Deposits.enter ⟨s.initialValues, s.deposits⟩
  let metrics := data.metrics.foldl
    (fun metrics m => metrics.insert m.mint (stamp data.now m)) s.metrics
  let summary ← Summary.ofValuations known.initialValues data.valuations
  return (summary, {
    cycle := s.cycle + 1
    initialValues := known.initialValues
    deposits := known.deposits
    metrics
    lastSummary := some summary })

end MonitorState

end LiquidityWatch
