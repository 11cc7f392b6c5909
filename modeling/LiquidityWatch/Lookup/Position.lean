import LiquidityWatch.Deposit
import LiquidityWatch.Lookup.Prices

/-! # Deposits and pairs

What the position service knows: the first deposit into a position, and the fees of a pair. -/

namespace LiquidityWatch.Lookup

/-- Says that a lookup timed out or failed. -/
def reportFault (onTimeout onFailure : String) (f : Fault) : Run Unit :=
  Run.print (if f = .timedOut then onTimeout else onFailure)

/-- The first deposit in an answer. -/
def firstDeposit : Value → Except Fault (Option (Deposit Number))
  | .list (first :: _) => do return some (← Deposit.ofRecord first)
  | _ => .ok none

/-- The first deposit into a position. -/
def initialDeposit (position : Text) : Run (Option (Deposit Number)) :=
  Run.recover
    (do firstDeposit (← Run.fetch .positions (Endpoint.deposits position)))
    fun f => do
      reportFault "⏰ Timeout fetching deposit information"
        "❌ Deposit lookup failed. Check the position address." f
      return none

/-- The fees of a pair in percent, and its name, which need not be text. -/
structure FeeInfo where
  base : Number
  max : Number
  name : Value

namespace FeeInfo

/-- The names of the fields of a pair. -/
def baseField : Text := "base_fee_percentage"

def maxField : Text := "max_fee_percentage"

def nameField : Text := "name"

/-- The fees in an answer. -/
def ofAnswer (answer : Value) : Except Fault FeeInfo := do
  let base ← (← answer.item baseField).toReal
  let max ← ((← answer.fieldD maxField .null).orElse (.whole 0)).toReal
  let name ← answer.fieldD nameField (.text "")
  return ⟨.real base, .real max, name⟩

/-- The fee that a pair charges at present is the base fee. -/
def current (info : FeeInfo) : Number := info.base

def toValue (info : FeeInfo) : Value :=
  .object [(baseField, .number info.base), (maxField, .number info.max), (nameField, info.name)]

end FeeInfo

/-- The fees of a pair. -/
def feeInfo (pool : Text) : Run (Option FeeInfo) :=
  Run.recover
    (do return some (← FeeInfo.ofAnswer (← Run.fetch .positions (Endpoint.pair pool))))
    fun f => do
      reportFault "⏰ Timeout fetching pair information"
        "❌ Pair lookup failed. Check the pool address." f
      return none

/-- The fee that a pair charges at present; fees that are known already are not looked up again. -/
def currentFee (pool : Text) (known : Value) : Run Value :=
  match known with
  | .null => do
    match ← feeInfo pool with
    | none => return .null
    | some info => return .number info.current
  | known => Run.ofExcept (known.item FeeInfo.baseField)

end LiquidityWatch.Lookup
