import LiquidityWatch.Settings

/-! # Endpoints

The addresses of the services that are asked: token prices, tokens with their pools and candles on a
network, and positions and pairs. Parts are put into an address as they are. -/

namespace LiquidityWatch.Endpoint

def priceBase : String := "https://api.jup.ag"

def pricePath : String := "/price/v2"

def marketBase : String := "https://api.geckoterminal.com/api/v2"

def positionBase : String := "https://dlmm-api.meteora.ag"

/-- The network to ask: the one given unless it is empty. -/
def networkOr (given default : Text) : Text := if given = "" then default else given

def prices (mints : List Text) : String :=
  s!"{priceBase}{pricePath}?ids=" ++ String.intercalate "," (mints.map Text.toString)

def token (network mint : Text) : String := s!"{marketBase}/networks/{network}/tokens/{mint}"

def tokenPools (network mint : Text) : String := token network mint ++ "/pools?page=1"

def candles (network pool timeframe aggregate : Text) : String :=
  s!"{marketBase}/networks/{network}/pools/{pool}/ohlcv/{timeframe}?aggregate={aggregate}"

def deposits (position : Text) : String := s!"{positionBase}/position/{position}/deposits"

def pair (pool : Text) : String := s!"{positionBase}/pair/{pool}"

end LiquidityWatch.Endpoint
