import LiquidityWatch.Position
import LiquidityWatch.Text.Encoding
import LiquidityWatch.Value.Json

/-! # Snapshot files

A snapshot file holds positions as JSON: a list of entries, or an object with such a list under
`positions`. A file is loaded as a whole or not at all, and the fault names the first entry that is
not a position. -/

namespace LiquidityWatch.SnapshotFile

/-- The text with every kind of line end as a line feed. -/
def unifyLineEnds : List Code → List Code
  | .char '\r' :: .char '\n' :: rest => .char '\n' :: unifyLineEnds rest
  | .char '\r' :: rest => .char '\n' :: unifyLineEnds rest
  | c :: rest => c :: unifyLineEnds rest
  | [] => []

/-- The field that holds the entries of an object. -/
def positionsField : String := "positions"

/-- The entries of a document. -/
def entriesOf : Value → Except Fault (List Value)
  | .list entries => .ok entries
  | .object fields => match (Value.lookup positionsField fields).getD (.list []) with
    | .list entries => .ok entries
    | _ => .error .snapshotNotList
  | _ => .error .snapshotNotList

/-- The faults of an entry that are reported with its index. -/
def namesEntry (f : Fault) : Bool :=
  f.isValueFault || f.category == .type || f.category == .range

/-- The position of one entry. -/
def positionOf (index : Nat) : Value → Except Fault (Position Int)
  | .object fields => match Position.ofEntry fields with
    | .ok p => .ok p
    | .error f => .error (if namesEntry f then .inPosition index f else f)
  | _ => .error (.positionNotObject index)

/-- The positions of entries, the first of which has the index. -/
def positionsFrom (index : Nat) : List Value → Except Fault (List (Position Int))
  | [] => .ok []
  | entry :: rest => do
    let p ← positionOf index entry
    return p :: (← positionsFrom (index + 1) rest)

/-- The document in the content of a file. -/
def document (path : Text) (content : List UInt8) : Except Fault Value := do
  let text := unifyLineEnds (← decodeUtf8 content)
  match Json.read text with
  | .ok v => return v
  | .error flaw => throw (flaw.fault fun rest => .malformedFile path (Json.lineOf text rest))

/-- The positions in the content of a file. -/
def parse (path : Text) (content : List UInt8) : Except Fault (List (Position Int)) := do
  positionsFrom 0 (← entriesOf (← document path content))

/-- The positions in the file at a path. -/
def load (files : Text → Option (List UInt8)) (path : Text) :
    Except Fault (List (Position Int)) :=
  if path.toChars.contains '\x00' then .error .nullInPath
  else match files path with
    | none => .error (.unreadableFile path)
    | some content => parse path content

end LiquidityWatch.SnapshotFile
