import LiquidityWatch.Amount
import LiquidityWatch.Arguments
import LiquidityWatch.Value.Order

/-! # Positions

A liquidity position as a snapshot records it: what it is called, the pool and the two tokens, the
bins it covers and the bin that is active, and for each token the raw amounts held, claimed and
still to be claimed. `Position.ofEntry` checks all of an entry, so that a position it accepts can be
valued. Positions that come from elsewhere (`Position.ofFields`) may have bins and decimals of any
kind. -/

namespace LiquidityWatch

/-- What a position records about one of its tokens, in raw amounts. -/
structure TokenRecord (β : Type) where
  mint : Value
  decimals : β
  total : Value
  claimed : Value
  claimable : Value

structure Position (β : Type) where
  id : Value
  pool : Value
  x : TokenRecord β
  y : TokenRecord β
  lowerBin : β
  upperBin : β
  activeBin : β

namespace Position

/-- The active bin is one of those that the position covers, bounds included. -/
def inRange {β : Type} [Comparable β] (p : Position β) : Except Fault Bool := do
  if ← Comparable.le p.lowerBin p.activeBin then Comparable.le p.activeBin p.upperBin
  else return false

/-- The raw amounts of a position with their names and decimals, in the order of their checks. -/
def amounts {β : Type} (p : Position β) : List (String × Value × β) :=
  [("total_x", p.x.total, p.x.decimals), ("total_y", p.y.total, p.y.decimals),
    ("claimed_fee_x", p.x.claimed, p.x.decimals), ("claimed_fee_y", p.y.claimed, p.y.decimals),
    ("fee_x", p.x.claimable, p.x.decimals), ("fee_y", p.y.claimable, p.y.decimals)]

/-- A raw amount can be converted. A fault of its value names the field; a number out of range does
not. -/
def checkAmount : String × Value × Int → Except Fault Unit
  | (name, raw, decimals) => match (Amount.ofRaw raw decimals : Except Fault Number) with
    | .ok _ => .ok ()
    | .error f => .error (if f.isValueFault then .inField name f else f)

/-- The fields that an entry has to have. -/
def requiredFields : List String := ["position_id", "pool_address", "token_x_mint", "token_y_mint"]

/-- The fields of an entry. -/
abbrev Entry := List (Text × Value)

/-- The field of an entry, or a default. -/
def fieldD (entry : Entry) (name : Text) (default : Value) : Value :=
  (Value.lookup name entry).getD default

/-- The field of an entry as a whole number, or a default. -/
def wholeD (entry : Entry) (name : Text) (default : Int) : Except Fault Int :=
  match Value.lookup name entry with
  | none => .ok default
  | some v => v.toWhole

/-- The decimals of a token for which an entry gives none. -/
def defaultDecimals : Int := 9

/-- The position of an entry, without the check of its amounts. -/
def readEntry (entry : Entry) : Except Fault (Position Int) := do
  let decimalsX ← wholeD entry "token_x_decimals" defaultDecimals
  let decimalsY ← wholeD entry "token_y_decimals" defaultDecimals
  let lowerBin ← wholeD entry "lower_bin_id" 0
  let upperBin ← wholeD entry "upper_bin_id" 0
  let activeBin ← wholeD entry "active_bin_id" 0
  let get (name : Text) := fieldD entry name (.whole 0)
  return {
    id := get "position_id"
    pool := get "pool_address"
    x := ⟨get "token_x_mint", decimalsX, get "total_x", get "claimed_fee_x", get "fee_x"⟩
    y := ⟨get "token_y_mint", decimalsY, get "total_y", get "claimed_fee_y", get "fee_y"⟩
    lowerBin, upperBin, activeBin }

/-- The required fields that are absent or empty. -/
def missingFields (entry : Entry) : List String :=
  requiredFields.filter fun (name : String) => !(fieldD entry name .null).isTruthy

/-- The position of an entry. -/
def ofEntry (entry : Entry) : Except Fault (Position Int) :=
  match missingFields entry with
  | [] => do
    let position ← readEntry entry
    position.amounts.forM checkAmount
    return position
  | names => .error (.missingFields names)

/-- The fields that a position is made of, with the defaults of those that may be left out. -/
def signature : Signature where
  owner := "PositionSnapshot.__init__"
  required := requiredFields
  optional :=
    [("token_x_decimals", .whole defaultDecimals), ("token_y_decimals", .whole defaultDecimals),
      ("lower_bin_id", .whole 0), ("upper_bin_id", .whole 0), ("active_bin_id", .whole 0),
      ("total_x", .whole 0), ("total_y", .whole 0), ("claimed_fee_x", .whole 0),
      ("claimed_fee_y", .whole 0), ("fee_x", .whole 0), ("fee_y", .whole 0)]

/-- The position of fields that are taken as they are. -/
def ofFields (fields : Entry) : Except Fault (Position Value) := do
  let bound ← signature.bind [] fields
  let get (name : Text) := fieldD bound name .null
  let token (mint decimals total claimed claimable : Text) : TokenRecord Value :=
    ⟨get mint, get decimals, get total, get claimed, get claimable⟩
  return {
    id := get "position_id"
    pool := get "pool_address"
    x := token "token_x_mint" "token_x_decimals" "total_x" "claimed_fee_x" "fee_x"
    y := token "token_y_mint" "token_y_decimals" "total_y" "claimed_fee_y" "fee_y"
    lowerBin := get "lower_bin_id"
    upperBin := get "upper_bin_id"
    activeBin := get "active_bin_id" }

end Position

end LiquidityWatch
