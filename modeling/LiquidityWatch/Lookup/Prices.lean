import LiquidityWatch.Address
import LiquidityWatch.Ledger
import LiquidityWatch.World

/-! # Token prices

Prices are asked for in one request. A token that is not in the answer has the price zero. Reading
the answer ends at the first entry that is malformed: the prices read before it stand. -/

namespace LiquidityWatch

/-- The object without fields, which stands in for whatever an answer leaves out. -/
def Value.nothing : Value := .object []

/-- What an answer gives under the name `data`. -/
def Value.dataField (answer : Value) : Except Fault Value :=
  (answer.orElse .nothing).fieldD "data" .null

namespace Lookup

/-- The price of a token in the entries of an answer; `none` where it has none. -/
def priceOf (entries : Value) (mint : Text) : Except Fault (Option Number) := do
  let entry := (← entries.fieldD mint .null).orElse .nothing
  match ← entry.field? "price" with
  | none | some .null => return none
  | some price => return some (.real (← price.toReal))

/-- Enters the prices of tokens up to the first malformed entry, and says which fault that has. -/
def fillPrices (entries : Value) :
    List Text → Ledger Text Number → Ledger Text Number × Option Fault
  | [], known => (known, none)
  | mint :: rest, known => match priceOf entries mint with
    | .error f => (known, some f)
    | .ok none => fillPrices entries rest known
    | .ok (some price) => fillPrices entries rest (known.insert mint price)

/-- Every token at the price zero. -/
def unpriced (mints : List Text) : Ledger Text Number :=
  .ofList (mints.map fun mint => (mint, .real .zero))

/-- The prices in an answer, and the fault that ended reading it. -/
def readPrices (answer : Value) (mints : List Text) : Ledger Text Number × Option Fault :=
  match answer.dataField with
  | .error f => (unpriced mints, some f)
  | .ok entries => fillPrices (entries.orElse .nothing) mints (unpriced mints)

/-- Says why prices are missing, or passes on a fault that a lookup does not recover from. -/
def reportPriceFault (f : Fault) : Run Unit :=
  if !f.isRecoverable then throw f
  else if f = .timedOut then Run.print "⏰ Timeout fetching token prices"
  else Run.print "❌ Price fetch failed. Using $0 for unpriced tokens."

/-- The dollar price of each token. -/
def prices (mints : List Text) : Run (Ledger Text Number) :=
  match mints with
  | [] => return ∅
  | mints => do
    match ← Run.attempt (Run.fetch .prices (Endpoint.prices mints)) with
    | .error f =>
      reportPriceFault f
      return unpriced mints
    | .ok answer =>
      let (found, fault) := readPrices answer mints
      fault.forM reportPriceFault
      return found

/-- The dollar price of one token. -/
def price (mint : Text) : Run Number := do
  return ((← prices [mint]).get? mint).getD (.real .zero)

end Lookup

end LiquidityWatch
