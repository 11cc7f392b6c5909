import LiquidityWatch.Lookup.Position
import LiquidityWatch.Lookup.Token
import LiquidityWatch.Money
import LiquidityWatch.Calendar
import LiquidityWatch.Monitor
import LiquidityWatch.SnapshotFile
import LiquidityWatch.Value.Arithmetic

/-! # Reports

A report values the positions of a snapshot file in one monitoring cycle. It asks for the prices of
all tokens, for the index of the tracked token of every pair, for the deposits that are not known
yet, and for the fees of every pool, and then shows a block for each position and the totals of the
wallet. What is shown is data first (`Report`); its lines follow from it. -/

namespace LiquidityWatch

/-- What a report shows about one position. -/
structure ReportBlock where
  position : Position Int
  valuation : Valuation Number
  metrics : TokenMetrics Number
  fees : Option Lookup.FeeInfo
  deposit : Option (Deposit Number)
  initialValue : Option Number

structure Report where
  blocks : List ReportBlock
  summary : Summary Number

namespace Report

/-- The mint of wrapped SOL, one side of most pairs. -/
def solMint : Text := "So11111111111111111111111111111111111111112"

/-! ## Lines -/

/-- A number of dollars. -/
def dollarText (v : Except Fault Number) : Except Fault String := do
  return "$" ++ (← (← v).fixed Money.dollars)

/-- A profit, absolute and in percent. -/
def profitText (p : Profit Number) : Except Fault String := do
  return (← Money.signedUsd p.difference) ++ " (" ++ (← Money.signedPercent p.percent) ++ ")"

/-- The line with the values of a position. -/
def valueLine (v : Valuation Number) : Except Fault String := do
  let value ← dollarText v.positionValue
  let claimed ← dollarText v.claimedValue
  let unclaimed ← dollarText v.unclaimedValue
  let total ← dollarText v.currentValue
  return s!"   Value {value} | Claimed {claimed} | Unclaimed {unclaimed} | Total {total}"

/-- The line with the fees that a pair charges. -/
def feeLine (fees : Lookup.FeeInfo) : Except Fault String := do
  let base ← fees.base.fixed Money.feePercent
  let current ← fees.current.fixed Money.currentFeePercent
  return s!"   Base Fee: {base}% | Current Dynamic Fee: {current}%"

/-- The line with the index of the tracked token. -/
def rsiLine (label : String) (m : TokenMetrics Number) : Except Fault String := do
  let index ← if m.rsi.hasData then m.rsi.value.fixed Money.percent else pure "n/a"
  return s!"   {label} RSI ({m.name.shown}): {index}"

def depositLine (d : Deposit Number) : Except Fault String := do
  let time ← Calendar.text d.timestamp
  let price ← d.price.fixed Money.depositPrice
  return s!"   Deposited {time} at price ${price}"

def profitLine (v : Valuation Number) (initial : Number) : Except Fault String := do
  let profit ← Profit.over (← v.currentValue) initial
  let initialText ← dollarText (.ok initial)
  let change ← profitText profit
  return s!"   Initial {initialText} → PnL {change}"

/-- The lines of a block. Each may have a fault of its own; those before it are shown. -/
def blockLines (label : String) (b : ReportBlock) : List (Except Fault String) :=
  let p := b.position
  let status := if b.valuation.inRange then "🟢 IN RANGE" else "🔴 OUT OF RANGE"
  [.ok s!"\n📍 Position {p.id.shown}",
    .ok s!"   Pool: {p.pool.shown}   Pair: SOL/{b.metrics.name.shown}   {status}",
    .ok s!"   Bins: [{p.lowerBin} to {p.upperBin}], current {p.activeBin}"] ++
  (b.fees.map feeLine).toList ++
  [valueLine b.valuation,
    (do return "   Total Fees (Claimed + Unclaimed): " ++ (← dollarText b.valuation.totalFees)),
    rsiLine label b.metrics] ++
  (b.deposit.map depositLine).toList ++
  (b.initialValue.map (profitLine b.valuation)).toList

/-- The lines of the totals. -/
def summaryLines (s : Summary Number) : List (Except Fault String) :=
  let total (name : String) (v : Except Fault Number) : Except Fault String := do
    return "   " ++ name ++ ": " ++ (← dollarText v)
  [.ok "\n📊 WALLET SUMMARY",
    .ok s!"   Positions: {s.positions} ({s.inRange} in range, {s.outOfRange} out)",
    total "Initial Value" (.ok s.initialValue),
    total "Position Value" (.ok s.positionValue),
    total "Claimed Fees" (.ok s.claimedFees),
    total "Unclaimed Fees" (.ok s.unclaimedFees),
    total "Total Current Value" s.currentValue,
    do
      let profit ← s.profit
      return Money.trend profit.difference ++ " TOTAL PnL: " ++ (← profitText profit)]

/-- All lines of a report. -/
def lines (label : String) (r : Report) : List (Except Fault String) :=
  r.blocks.flatMap (blockLines label) ++ summaryLines r.summary

/-! ## What is looked up -/

/-- Values that are names, each once and in order. -/
def sortedDistinct (values : List Value) : Except Fault (List Value) := do
  let names ← values.mapM Value.identifier
  sortedBy id (names.eraseDups.map Identifier.toValue)

/-- The side of a pair whose index is tracked: the one that is not SOL. -/
def trackedMint (p : Position Int) : Value :=
  match p.x.mint with
  | .text t => if t = solMint then p.y.mint else p.x.mint
  | _ => p.x.mint

/-- The price of a token. -/
def priceIn (prices : Ledger Text Number) (mint : Value) : Number :=
  (prices.get? mint.shown).getD (.real .zero)

/-- Fresh metrics of a token. A name that is known is not looked up again. -/
def lookUpMetrics (network : Text) (prices : Ledger Text Number)
    (state : MonitorState Number) (mint : Text) : Run (TokenMetrics Number) := do
  let price := (prices.get? mint).getD (.real .zero)
  match state.metrics.get? mint with
  | some known =>
    let rsi ← Lookup.tokenRsi network mint none
    return ⟨mint, known.name, price, rsi, .real .zero⟩
  | none =>
    let (name, rsi) ← Run.both (Lookup.tokenName network mint) (Lookup.tokenRsi network mint none)
    return ⟨mint, name, price, rsi, .real .zero⟩

/-- Fresh metrics of tokens. Where the name is known the index is looked up at once; name and index
of any other token are two lookups that are started then. -/
def lookUpAllMetrics (network : Text) (prices : Ledger Text Number) (state : MonitorState Number)
    (mints : List Text) : Run (List (TokenMetrics Number)) :=
  Run.gatherRounds state.metrics.contains (lookUpMetrics network prices state) mints

/-- The positions whose deposits are not known. -/
def unknownPositions (state : MonitorState Number) :
    List (Position Int) → Except Fault (List Identifier)
  | [] => .ok []
  | p :: rest => do
    let id ← p.id.identifier
    let others ← unknownPositions state rest
    return if state.initialValues.contains id then others else id :: others

/-- The fees of pools, without those whose lookup failed. -/
def lookUpFees (pools : List Value) : Run (Ledger Identifier Lookup.FeeInfo) := do
  let found ← Run.gather (pools.map fun pool => Lookup.feeInfo pool.shown)
  let names ← Run.ofExcept (pools.mapM Value.identifier)
  return .ofList ((names.zip found).filterMap fun (pool, fees) => fees.map ((pool, ·)))

/-- The deposits of positions; of several answers for one position the last counts. -/
def lookUpDeposits (unknown : List Identifier) :
    Run (Ledger Identifier (Option (Deposit Number))) := do
  let found ← Run.gather (unknown.map fun id => Lookup.initialDeposit id.toValue.shown)
  return .ofList (unknown.zip found)

/-- All that a report on positions has looked up. -/
structure Findings where
  prices : Ledger Text Number
  metrics : Ledger Text (TokenMetrics Number)
  deposits : Ledger Identifier (Option (Deposit Number))
  fees : Ledger Identifier Lookup.FeeInfo

/-- Looks up all that a report on positions needs. -/
def lookUp (network : Text) (state : MonitorState Number) (positions : List (Position Int)) :
    Run Findings := do
  let mints ← sortedDistinct (positions.map (·.x.mint) ++ positions.map (·.y.mint))
  let prices ← Lookup.prices (← Value.texts 0 mints)
  let tracked ← sortedDistinct (positions.map trackedMint)
  let metrics ← lookUpAllMetrics network prices state (tracked.map (·.shown))
  let unknown ← unknownPositions state positions
  let pools ← sortedDistinct (positions.map (·.pool))
  let (deposits, fees) ← Run.both (lookUpDeposits unknown) (lookUpFees pools)
  return { prices, metrics := .ofList (metrics.map fun m => (m.mint, m)), deposits, fees }

/-! ## The report -/

/-- The block of a position. -/
def blockOf (findings : Findings) (state : MonitorState Number) (p : Position Int)
    (valuation : Valuation Number) : Except Fault (Option ReportBlock) := do
  let id ← p.id.identifier
  let pool ← p.pool.identifier
  return (findings.metrics.get? (trackedMint p).shown).map fun metrics => {
    position := p
    valuation, metrics
    fees := findings.fees.get? pool
    deposit := state.deposits.get? id
    initialValue := state.initialValues.get? id }

/-- The report on positions and the state after its cycle. -/
def ofFindings (findings : Findings) (state : MonitorState Number) (now : Number)
    (positions : List (Position Int)) : Except Fault (Report × MonitorState Number) := do
  let valuations ← positions.mapM fun p =>
    p.value (priceIn findings.prices p.x.mint) (priceIn findings.prices p.y.mint)
  let (summary, next) ← state.run
    { valuations, deposits := findings.deposits
      metrics := findings.metrics.entries.map Prod.snd, now }
  let blocks ← (positions.zip valuations).mapM fun (p, v) => blockOf findings next p v
  return (⟨blocks.filterMap id, summary⟩, next)

/-- A cycle without positions. -/
def runEmpty (state : MonitorState Number) :
    Run (Option (Summary Number × MonitorState Number)) := do
  Run.print "No positions found in snapshot."
  return some (← state.run ⟨[], ∅, [], (← get).now⟩)

/-- A cycle over positions: looks up what is needed and shows the report. -/
def runPositions (state : MonitorState Number) (positions : List (Position Int)) :
    Run (Option (Summary Number × MonitorState Number)) := do
  Run.print s!"🔍 Valuing {positions.length} position(s)..."
  let w ← get
  let network := Endpoint.networkOr "" w.settings.network
  let findings ← lookUp network state positions
  let (report, next) ← ofFindings findings state w.now positions
  Run.printAll (report.lines w.settings.label)
  return some (report.summary, next)

/-- The report on a snapshot file. A file that cannot be loaded is reported, and then nothing is
asked. -/
def run (path : Text) (state : MonitorState Number) :
    Run (Option (Summary Number × MonitorState Number)) := do
  match SnapshotFile.load (← get).files path with
  | .error f =>
    if f.isValueFault then
      Run.print s!"❌ {f.message}"
      return none
    else throw f
  | .ok [] => runEmpty state
  | .ok positions => runPositions state positions

end Report

end LiquidityWatch
