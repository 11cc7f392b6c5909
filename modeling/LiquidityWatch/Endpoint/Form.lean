import LiquidityWatch.Arguments
import LiquidityWatch.Endpoint

/-! # Forms of addresses

An address of a service is a form that is filled in with arguments, in order or by name. A network
that is left out or empty is the one that the service has by itself; everything else goes into the
address as it is shown. Prices are asked for any number of tokens, which have to be text. -/

namespace LiquidityWatch.Endpoint

inductive Form where
  | prices
  | token
  | tokenPools
  | candles
  | deposits
  | pair

namespace Form

def all : List Form := [prices, token, tokenPools, candles, deposits, pair]

/-- How messages call the service that a form belongs to. -/
def owner : Form → String
  | prices => "JupiterAPI"
  | token | tokenPools | candles => "GeckoTerminalAPI"
  | deposits | pair => "MeteoraAPI"

/-- How messages call a form. -/
def name : Form → String
  | prices => "get_price_url"
  | token => "get_token_url"
  | tokenPools => "get_token_pools_url"
  | candles => "get_ohlcv_url"
  | deposits => "get_deposits_url"
  | pair => "get_pair_url"

/-- The form of a service with a given name. -/
def find (owner name : String) : Except Fault Form :=
  match all.find? fun form => form.owner == owner && form.name == name with
  | some form => .ok form
  | none => .error (.unknownAttribute owner name)

def required : Form → List String
  | prices => []
  | token | tokenPools => ["mint"]
  | candles | pair => ["pool"]
  | deposits => ["position"]

def optional : Form → List (String × Value)
  | prices | deposits | pair => []
  | token | tokenPools => [("network", .null)]
  | candles =>
    [("timeframe", .text Settings.timeframe), ("aggregate", .whole Settings.defaultAggregate),
      ("network", .null)]

def signature (form : Form) : Signature :=
  ⟨form.owner ++ "." ++ form.name, form.required, form.optional⟩

/-- The address of a form with its arguments; `network` is the one that the service has by
itself. -/
def fill (form : Form) (network : Text) (ordered : List Value) (named : List (Text × Value)) :
    Except Fault String := do
  match form with
  | prices =>
    named.forM fun argument => form.signature.checkNamed [] argument.1
    return Endpoint.prices (← Value.texts 0 ordered)
  | _ =>
    let bound ← form.signature.bind ordered named
    let get (name : Text) : Value := (Value.lookup name bound).getD .null
    let network := ((get "network").orElse (.text network)).shown
    return match form with
      | prices | token => Endpoint.token network (get "mint").shown
      | tokenPools => Endpoint.tokenPools network (get "mint").shown
      | candles =>
        Endpoint.candles network (get "pool").shown (get "timeframe").shown (get "aggregate").shown
      | deposits => Endpoint.deposits (get "position").shown
      | pair => Endpoint.pair (get "pool").shown

end Form

end LiquidityWatch.Endpoint
