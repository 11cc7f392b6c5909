import LiquidityWatch.Text.Unit
import LiquidityWatch.Value

/-! # Reading JSON

A JSON text as a value. Besides the standard grammar the names `NaN`, `Infinity` and `-Infinity` are
read; of fields with one name the last counts, in the place of the first. A text that cannot be read
is answered with what is left of it where reading stopped: for a string, from its opening quote.
Lists and objects may be nested, but not without bound. -/

namespace LiquidityWatch.Json

/-- Why a text cannot be read. -/
inductive Flaw where
  | malformed (rest : List Code)
  | tooManyDigits (digits : Nat)
  | tooDeep (container : Kind)
deriving DecidableEq

/-- The fault of a text that cannot be read, given the fault of one that is malformed. -/
def Flaw.fault (onMalformed : List Code → Fault) : Flaw → Fault
  | malformed rest => onMalformed rest
  | tooManyDigits digits => .tooManyDigits (some digits)
  | tooDeep container => .tooDeep container

/-- The value that was read, and the text after it. -/
abbrev Found := Value × List Code

def isSpace (c : Code) : Bool :=
  c == .char ' ' || c == .char '\t' || c == .char '\n' || c == .char '\r'

def skipSpace (cs : List Code) : List Code := cs.dropWhile isSpace

/-! ## Strings -/

def hexValue? (c : Char) : Option Nat :=
  if isAsciiDigit c then some (c.toNat - 48)
  else if 'a' ≤ c && c ≤ 'f' then some (c.toNat - 87)
  else if 'A' ≤ c && c ≤ 'F' then some (c.toNat - 55)
  else none

/-- The number that four hexadecimal digits spell. -/
def hexUnit? (a b c d : Char) : Option Nat := do
  return 4096 * (← hexValue? a) + 256 * (← hexValue? b) + 16 * (← hexValue? c) + (← hexValue? d)

/-- The character that a backslash with one character stands for. -/
def escaped? (c : Char) : Option Char :=
  if c = '\x22' || c = '\x5c' || c = '/' then some c
  else if c = 'b' then some '\x08'
  else if c = 'f' then some '\x0c'
  else if c = 'n' then some '\n'
  else if c = 'r' then some '\r'
  else if c = 't' then some '\t'
  else none

/-- The pieces of a string up to its closing quote, and what comes after it. Control characters have
to be escaped. -/
def readPieces : List Code → Option (List Piece × List Code)
  | .char '\x22' :: rest => some ([], rest)
  | .char '\x5c' :: .char 'u' :: .char a :: .char b :: .char c :: .char d :: rest => do
    let n ← hexUnit? a b c d
    let (pieces, after) ← readPieces rest
    return (.unit n :: pieces, after)
  | .char '\x5c' :: .char c :: rest => do
    let found ← escaped? c
    let (pieces, after) ← readPieces rest
    return (.code (.char found) :: pieces, after)
  | .char '\x5c' :: _ => none
  | c :: rest =>
    if c.toNat < 0x20 then none
    else do
      let (pieces, after) ← readPieces rest
      return (.code c :: pieces, after)
  | [] => none

/-- Reads a string whose opening quote has been taken off. -/
def readString (cs : List Code) : Option (Text × List Code) :=
  (readPieces cs).map fun (pieces, rest) => (⟨codesOfPieces pieces⟩, rest)

/-! ## Numbers and names -/

def isDigit (c : Code) : Bool := isAsciiDigit c.toChar

/-- The number that a row of digits spells. -/
def digitsNumber (digits : List Code) : Nat := digitsValue (digits.map Code.toChar)

/-- Takes a minus off. -/
def takeMinus : List Code → Bool × List Code
  | .char '-' :: rest => (true, rest)
  | cs => (false, cs)

/-- Takes a sign off; the flag says that it was a minus. -/
def takeSign : List Code → Bool × List Code
  | .char '+' :: rest => (false, rest)
  | cs => takeMinus cs

/-- The digits before the point: a zero stands alone. -/
def wholePart : List Code → List Code
  | .char '0' :: _ => [.char '0']
  | cs => cs.takeWhile isDigit

/-- The digits after a point, which needs one at least. -/
def fractionPart : List Code → Option (List Code × List Code)
  | .char '.' :: rest =>
    let digits := rest.takeWhile isDigit
    if digits.isEmpty then none else some (digits, rest.dropWhile isDigit)
  | _ => none

/-- The exponent after its mark, which needs one digit at least. -/
def exponentPart : List Code → Option (Int × List Code)
  | e :: rest =>
    let (negative, unsigned) := takeSign rest
    let digits := unsigned.takeWhile isDigit
    if (e == .char 'e' || e == .char 'E') && !digits.isEmpty then
      let magnitude : Int := digitsNumber digits
      some (if negative then -magnitude else magnitude, unsigned.dropWhile isDigit)
    else none
  | [] => none

/-- Reads a number; without fraction and exponent it is a whole one. -/
def readNumber (cs : List Code) : Except Flaw Found :=
  let (negative, unsigned) := takeMinus cs
  let whole := wholePart unsigned
  let afterWhole := unsigned.drop whole.length
  if whole.isEmpty then .error (.malformed cs)
  else
    let (fraction, afterFraction) := (fractionPart afterWhole).getD ([], afterWhole)
    let exponent := exponentPart afterFraction
    if fraction.isEmpty && exponent.isNone then
      if Fault.digitLimit < whole.length then .error (.tooManyDigits whole.length)
      else
        let magnitude : Int := digitsNumber whole
        .ok (.whole (if negative then -magnitude else magnitude), afterFraction)
    else
      let (shift, rest) := exponent.getD (0, afterFraction)
      let decimal : Decimal :=
        ⟨negative, digitsNumber (whole ++ fraction), shift - fraction.length⟩
      .ok (.real decimal.toBinary64, rest)

/-- The names that stand for values. -/
def names : List (Text × Value) :=
  [("null", .null), ("true", .truth true), ("false", .truth false), ("NaN", .real .nan),
    ("Infinity", .real (.infinite false)), ("-Infinity", .real (.infinite true))]

/-- Reads a name. -/
def readName (cs : List Code) : Option Found :=
  names.findSome? fun (name, v) =>
    if name.codes.isPrefixOf cs then some (v, cs.drop name.length) else none

/-! ## Lists, objects and whole texts -/

/-- How deep lists and objects may be nested. Reading takes a frame for each level, and the
interpreter stops at 1000 frames; 15 of them are taken to be in use where a document is read. How
many really are depends on the path of calls that leads there. -/
def depthLimit : Nat := 985

mutual

/-- Reads a value at the beginning of a text. `room` says how deep it may be nested, and `fuel`
bounds the recursion. -/
def readValue (room : Nat) : Nat → List Code → Except Flaw Found
  | 0, cs => .error (.malformed cs)
  | fuel + 1, cs =>
    match cs with
    | .char '\x22' :: rest => match readString rest with
      | some (t, after) => .ok (.text t, after)
      | none => .error (.malformed cs)
    | .char '\x5b' :: rest => match room, skipSpace rest with
      | 0, _ => .error (.tooDeep .list)
      | _, .char '\x5d' :: after => .ok (.list [], after)
      | room + 1, items => readItems room fuel [] items
    | .char '\x7b' :: rest => match room, skipSpace rest with
      | 0, _ => .error (.tooDeep .object)
      | _, .char '\x7d' :: after => .ok (.object [], after)
      | room + 1, fields => readFields room fuel [] fields
    | other => match readName other with
      | some found => .ok found
      | none => readNumber other

/-- Reads the items of a list from one of them to the closing bracket. -/
def readItems (room : Nat) : Nat → List Value → List Code → Except Flaw Found
  | 0, _, cs => .error (.malformed cs)
  | fuel + 1, before, cs => do
    let (v, rest) ← readValue room fuel cs
    match skipSpace rest with
    | .char ',' :: more => readItems room fuel (v :: before) (skipSpace more)
    | .char '\x5d' :: after => return (.list (v :: before).reverse, after)
    | other => .error (.malformed other)

/-- Reads the fields of an object from one of them to the closing brace. -/
def readFields (room : Nat) : Nat → List (Text × Value) → List Code → Except Flaw Found
  | 0, _, cs => .error (.malformed cs)
  | fuel + 1, before, cs =>
    match cs with
    | .char '\x22' :: rest => match readString rest with
      | none => .error (.malformed cs)
      | some (name, afterName) => match skipSpace afterName with
        | .char ':' :: afterColon => do
          let (v, afterValue) ← readValue room fuel (skipSpace afterColon)
          let fields := Value.insertField before name v
          match skipSpace afterValue with
          | .char ',' :: more => readFields room fuel fields (skipSpace more)
          | .char '\x7d' :: after => return (.object fields, after)
          | other => .error (.malformed other)
        | other => .error (.malformed other)
    | other => .error (.malformed other)

end

/-- Every step of the recursion but the first takes a character or follows one that does. -/
def fuelFor (cs : List Code) : Nat := 2 * cs.length + 2

/-- Reads a whole text, which holds one value and blanks around it. A text that begins with a byte
order mark is refused at once. -/
def read (cs : List Code) : Except Flaw Value :=
  if cs.head? = some (.char '\ufeff') then .error (.malformed cs)
  else do
    let (v, rest) ← readValue depthLimit (fuelFor cs) (skipSpace cs)
    match skipSpace rest with
    | [] => return v
    | other => .error (.malformed other)

/-- The line of a text on which what is left of it begins. -/
def lineOf (cs rest : List Code) : Nat := 1 + (cs.take (cs.length - rest.length)).count (.char '\n')

end LiquidityWatch.Json
