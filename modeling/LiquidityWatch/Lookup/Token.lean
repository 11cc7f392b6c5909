import LiquidityWatch.Lookup.Prices
import LiquidityWatch.Rsi.Reading

/-! # Tokens, their pools and their index

The name of a token, the pool that holds most of it, the candles of that pool and the index of
those. Every lookup answers what it cannot find with a neutral value: the shortened address for a
name, no pool, no candles, a reading without data. -/

namespace LiquidityWatch.Lookup

/-- The network that a client asks: the one given, or the one that is set. -/
def clientNetwork (given : Option Text) : Run Text := do
  return Endpoint.networkOr (given.getD "") (← get).settings.network

/-- The attributes in an answer. -/
def attributesOf (answer : Value) : Except Fault Value := do
  ((← answer.dataField).orElse .nothing).fieldD "attributes" .nothing

/-- The name of a token, which need not be text; the shortened address if there is none. -/
def tokenName (network mint : Text) : Run Value := do
  let name ← Run.recover
    (do
      let answer ← Run.fetch .market (Endpoint.token network mint)
      (← attributesOf answer).fieldD "name" .null)
    fun _ => do
      Run.print s!"⚠️ Token name lookup failed for {Address.shorten mint}"
      return .null
  return name.orElse (.text (Address.shorten mint))

/-- The reserve of a pool in dollars; one that is absent or empty is zero. -/
def reserveOf (pool : Value) : Except Fault Binary64 := do
  let attributes := (← pool.fieldD "attributes" .null).orElse .nothing
  ((← attributes.fieldD "reserve_in_usd" .null).orElse (.whole 0)).toReal

/-- The first of the candidates whose measure no later one exceeds. -/
def greatest {α : Type} (best : α × Binary64) : List (α × Binary64) → α
  | [] => best.1
  | next :: rest =>
    if Number.lt (.real best.2) (.real next.2) then greatest next rest else greatest best rest

/-- The address of the pool with the greatest reserve; null for an empty list. -/
def mostLiquid (pools : List Value) : Except Fault Value := do
  match ← pools.mapM fun pool => do return (pool, ← reserveOf pool) with
  | [] => return .null
  | first :: rest => (← (greatest first rest).item "attributes").item "address"

/-- The address of the pool that holds most of a token; null if there is none. -/
def mostLiquidPool (network mint : Text) : Run Value :=
  Run.recover
    (do
      let answer ← Run.fetch .market (Endpoint.tokenPools network mint)
      mostLiquid (← ((← answer.dataField).orElse (.list [])).elements))
    fun _ => do
      Run.print s!"❌ Pool lookup failed for {Address.shorten mint}"
      return .null

/-- The rows of candles of a pool, as they come. A timeframe or a size that is not given, or empty,
is the one that is set. -/
def candles (network : Text) (pool : Value) (timeframe : Option String) (aggregate : Option Int) :
    Run (List Value) := do
  let settings := (← get).settings
  let timeframe := match timeframe with
    | none | some "" => Settings.timeframe
    | some given => given
  let aggregate := match aggregate with
    | none | some 0 => settings.aggregate
    | some given => given
  let url := Endpoint.candles network pool.shown timeframe (toString aggregate)
  Run.recover
    (do
      let answer ← Run.fetch .market url
      ((← (← attributesOf answer).fieldD "ohlcv_list" .null).orElse (.list [])).elements)
    fun f => do
      if f = .timedOut then Run.print "⏰ Timeout fetching candles"
      else
        let shortened ← Address.shortenValue pool
        Run.print s!"❌ Candle fetch failed for pool {shortened}"
      return []

/-- The reading of a token from the candles of its most liquid pool. -/
def tokenRsi (network mint : Text) (aggregate : Option Int) : Run (Rsi.Reading Number) := do
  let pool ← mostLiquidPool network mint
  let now := (← get).now
  if pool.isTruthy then
    let rows ← candles network pool none aggregate
    Rsi.Reading.ofSamples (rows.map .row) Rsi.standardPeriod now
  else
    Run.print s!"🔍 No liquid pool found for token {Address.shorten mint}"
    return .noData now

end LiquidityWatch.Lookup
