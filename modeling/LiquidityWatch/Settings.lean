import LiquidityWatch.Value

/-! # Settings

What can be set from outside: the time-out of requests, the size of candles and the network.
Settings come as texts by name. A text that is no whole number is ignored with a warning, once for
every setting that reads it; an absent or blank one is ignored silently. The network is taken as it
is. -/

namespace LiquidityWatch

/-- The texts that are set, by name. -/
abbrev Environment := List (String × String)

structure Settings where
  priceTimeout : Int
  marketTimeout : Int
  positionTimeout : Int
  network : String
  aggregate : Int
deriving DecidableEq

namespace Settings

def timeoutName : String := "DLMM_WATCH_TIMEOUT"

def aggregateName : String := "DLMM_WATCH_OHLCV_AGGREGATE"

def networkName : String := "DLMM_WATCH_NETWORK"

/-- Seconds. -/
def defaultTimeout : Int := 15

/-- Minutes. -/
def defaultAggregate : Int := 5

def defaultNetwork : String := "solana"

/-- The timeframe whose candles the index is computed from. -/
def timeframe : String := "minute"

/-- Candle sizes that the price service offers for each timeframe. -/
def offeredAggregates : String → List Int
  | "day" => [1]
  | "hour" => [1, 4, 12]
  | "minute" => [1, 5, 15]
  | _ => []

/-- How labels abbreviate a timeframe. -/
def timeframeUnit : String → String
  | "minute" => "min"
  | "hour" => "h"
  | "day" => "d"
  | other => other

/-- A whole number that may be set, and the warning about a text that is none. -/
def wholeSetting (environment : Environment) (name : String) (default : Int) : Int × List String :=
  let raw := strip ((environment.lookup name).getD "")
  if raw = "" then (default, [])
  else match readWhole raw.toList with
    | .ok n => (n, [])
    | .error _ => (default, [s!"⚠️ Ignoring invalid {name}={quoted raw} (expected an integer)"])

/-- The settings of an environment, and the warnings. -/
def ofEnvironment (environment : Environment) : Settings × List String :=
  let (timeout, timeoutWarnings) := wholeSetting environment timeoutName defaultTimeout
  let (aggregate, aggregateWarnings) := wholeSetting environment aggregateName defaultAggregate
  ({  priceTimeout := timeout
      marketTimeout := timeout
      positionTimeout := timeout
      network := (environment.lookup networkName).getD defaultNetwork
      aggregate },
    timeoutWarnings ++ timeoutWarnings ++ timeoutWarnings ++ aggregateWarnings)

/-- The settings of an empty environment. -/
def standard : Settings := (ofEnvironment []).1

/-- The name of a candle size. -/
def label (s : Settings) : String := toString s.aggregate ++ timeframeUnit timeframe

end Settings

end LiquidityWatch
