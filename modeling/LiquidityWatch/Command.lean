import LiquidityWatch.Report

/-! # Commands

What a user can ask for: the index of a token, prices, the fees of a pair, the first deposit into a
position, a report, and information about the program. Every command prints what it finds and ends
with an exit code, which is zero when it found something. Commands on addresses check them first and
ask nothing when one is malformed. -/

namespace LiquidityWatch

inductive Command where
  | info
  | rsi (mint : Text) (aggregate : Option Int) (network : Option Text)
  | price (mints : List Text)
  | fee (pool : Text)
  | deposit (position : Text) (currentValue : Option Number)
  | report (path : Text)

namespace Command

def programName : String := "DLMM Watch"

def programVersion : String := "1.0.0"

/-- The program and its version. -/
def versionLine : String := programName ++ " v" ++ programVersion

/-- The lines about the program and its settings. -/
def infoLines (s : Settings) : List String :=
  [s!"\n📊 {versionLine}",
    String.ofList (List.replicate 55 '='),
    "🔗 Protocol   : Meteora DLMM (Solana)",
    s!"🌐 Network    : {s.network}",
    s!"📈 RSI        : Wilder, period {Rsi.standardPeriod}, {s.label} candles",
    "",
    "📡 Data Sources:",
    s!"   Prices  : {Endpoint.priceBase}{Endpoint.pricePath}",
    s!"   Candles : {Endpoint.marketBase}",
    s!"   Deposits: {Endpoint.positionBase}",
    "",
    "📁 Files:",
    "   run.py                — CLI entry point",
    "   rsi_engine.py         — Wilder RSI over OHLCV candles",
    "   position_math.py      — Position valuation, PnL, monitor state",
    "   dlmm_watch/           — API clients, config, commands",
    "",
    "🔗 Quick Start:",
    "   python run.py rsi     <token_mint>",
    s!"   python run.py price   {Report.solMint}",
    "   python run.py report  positions.json"]

def showInfo : Run Unit := do (infoLines (← get).settings).forM Run.print

/-- The index of a token, with candles of a given size or of the one that is set. -/
def showRsi (mint : Text) (aggregate : Option Int) (network : Option Text) :
    Run (Rsi.Reading Number) := do
  let network ← Lookup.clientNetwork network
  let settings := (← get).settings
  let label := match aggregate with
    | none | some 0 => settings.label
    | some size => s!"{size}min"
  let (name, reading) ← Run.both (Lookup.tokenName network mint)
    (Lookup.tokenRsi network mint aggregate)
  if reading.hasData then
    let index ← reading.value.fixed Money.percent
    Run.print s!"📊 {label} RSI ({name.shown}): {index}"
    let time ← Calendar.text reading.timestamp
    Run.print s!"🕒 As of: {time}"
  else Run.print s!"⚠️ No candle data for {name.shown} — RSI unavailable (reported as 0)"
  return reading

/-- The line of a token in a list of prices. -/
def priceLine (mint : Text) (price : Number) : Except Fault String := do
  if Number.lt (.whole 0) price then
    let text ← price.fixed Money.dollarPrice
    return s!"💰 {Address.shorten mint}: ${text}"
  else return s!"❌ {Address.shorten mint}: no price"

/-- The prices of tokens. -/
def showPrices (mints : List Text) : Run (Ledger Text Number) := do
  let prices ← Lookup.prices mints
  Run.printAll (prices.entries.map fun entry => priceLine entry.1 entry.2)
  return prices

/-- The lines about the fees of a pair. -/
def feeLines (info : Lookup.FeeInfo) : List (Except Fault String) :=
  (if info.name.isTruthy then [.ok s!"🏦 Pair: {info.name.shown}"] else []) ++
  [do return "💰 Base Fee: " ++ (← info.base.fixed Money.feePercent) ++ "%",
    do return "📊 Current Dynamic Fee: " ++ (← info.current.fixed Money.currentFeePercent) ++ "%",
    do return "📈 Max Fee: " ++ (← info.max.fixed Money.feePercent) ++ "%"]

/-- The fees of a pair. -/
def showFees (pool : Text) : Run (Option Lookup.FeeInfo) := do
  match ← Lookup.feeInfo pool with
  | none => return none
  | some found =>
    Run.printAll (feeLines found)
    return some found

/-- The lines about a deposit made at a time. -/
def depositLines (d : Deposit Number) (time : String) : List (Except Fault String) :=
  [.ok "\n📝 Initial Deposit Information:",
    .ok s!"└── 🕒 Timestamp: {time}",
    do return "└── 💲 Initial Price: $" ++ (← d.price.fixed Money.depositPrice),
    do return "└── 💰 Initial Value: " ++ (← Report.dollarText d.initialValue)]

/-- The lines that compare a deposit with a current value. -/
def currentValueLines (current : Number) (profit : Profit Number) : List (Except Fault String) :=
  [do return "└── 💵 Current Total Value: " ++ (← Report.dollarText (.ok current)),
    do return "└── " ++ Money.trend profit.difference ++ " PnL: " ++ (← Report.profitText profit)]

/-- The first deposit into a position, and the profit of a current value over it. -/
def showDeposit (position : Text) (currentValue : Option Number) :
    Run (Option (Deposit Number)) := do
  match ← Lookup.initialDeposit position with
  | none =>
    Run.print s!"❌ No deposit found for position {Address.shorten position}"
    return none
  | some found =>
    let time ← Calendar.text found.timestamp
    Run.printAll (depositLines found time)
    match currentValue with
    | none => return some found
    | some current =>
      let profit ← Profit.over current (← found.initialValue)
      Run.printAll (currentValueLines current profit)
      return some found

/-! ## Running commands -/

/-- The line about a malformed address. -/
def badAddressLine (address : Text) : String :=
  s!"❌ Invalid address: {address}. Must be a base58 Solana public key."

/-- Goes on only if all addresses are well-formed, and otherwise names those that are not. -/
def checking (addresses : List Text) (action : Run Nat) : Run Nat :=
  match addresses.filter fun a => !Address.isAddress a with
  | [] => action
  | bad => do
    bad.forM fun a => Run.print (badAddressLine a)
    return 1

/-- The exit code that says whether something was found. -/
def exitCode (found : Bool) : Nat := if found then 0 else 1

/-- Carries out a command and gives its exit code. -/
def run : Command → Run Nat
  | info => do
    showInfo
    return 0
  | rsi mint aggregate network => checking [mint] do
    return exitCode (← showRsi mint aggregate network).hasData
  | price mints => checking mints do
    let _ ← showPrices mints
    return 0
  | fee pool => checking [pool] do
    return exitCode (← showFees pool).isSome
  | deposit position currentValue => checking [position] do
    return exitCode (← showDeposit position currentValue).isSome
  | report path => do
    return exitCode (← Report.run path .initial).isSome

end Command

end LiquidityWatch
