import LiquidityWatch.Text.Quoted

/-! # Faults

What can go wrong, by cause. `Fault.message` holds every wording, and `Fault.category` says what
sort of failure a cause is: a lookup recovers from some categories and lets others through, and the
checks on a snapshot file report some and not others. -/

namespace LiquidityWatch

/-- What a value is. -/
inductive Kind where
  | null
  | truth
  | whole
  | real
  | text
  | bytes
  | list
  | object
  | candle
deriving DecidableEq

/-- How messages name a kind. -/
def Kind.name : Kind → String
  | null => "NoneType"
  | truth => "bool"
  | whole => "int"
  | real => "float"
  | text => "str"
  | bytes => "bytes"
  | list => "list"
  | object => "dict"
  | candle => "Candle"

/-- How a row of bytes fails to be UTF-8. -/
inductive EncodingFlaw where
  | start
  | continuation
  | truncated
deriving DecidableEq

inductive Fault where
  /-- Two values without an order between them; `strict` tells `<` from `≤`. -/
  | unordered (strict : Bool) (left right : Kind)
  /-- No arithmetic between two values; `sign` is the operator. -/
  | unsupported (sign : String) (left right : Kind)
  /-- A sequence can only be joined with its like. -/
  | notJoinable (sequence other : Kind)
  /-- A sequence can only be repeated a whole number of times. -/
  | notCount (found : Kind)
  | countTooLarge
  /-- No such operation on one value. -/
  | unsupportedUnary (operation : String) (operand : Kind)
  | notNumeric (found : Kind)
  | notReadableAsReal (found : Kind)
  | notReadableAsWhole (found : Kind)
  | notIterable (found : Kind)
  | withoutLength (found : Kind)
  | notSliceable (found : Kind)
  /-- A list or an object cannot serve as a key. -/
  | notKey (found : Kind)
  /-- An item of a joined list is not text. -/
  | notText (index : Nat) (found : Kind)
  /-- A field was asked of something that has no fields. -/
  | withoutFields (found : Kind)
  /-- An item was asked of something that is not an object. -/
  | withoutItems (found : Kind)
  | missingKey (key : Text)
  | badWhole (shown : String)
  | badReal (shown : String)
  /-- A whole number is written with more digits than are converted; `none` when it is the number
  that is to be written. -/
  | tooManyDigits (digits : Option Nat)
  | nanAsWhole
  | infinityAsWhole
  /-- A whole number is too large for a binary64 number. -/
  | wholeTooLarge
  | quotientTooLarge
  | divisionByZero
  /-- A rate limiter without a single slot. -/
  | noSlot
  | negativeDecimals (shown : String)
  /-- Decimals that are no whole number cannot be used to write a fraction. -/
  | fractionalDecimals
  | badDecimals (shown : String) (found : Kind)
  /-- A power of ten is out of range. -/
  | powerTooLarge
  | badAmount (shown : String)
  | truthAmount
  | badAmountKind (found : Kind)
  | missingFields (names : List String)
  /-- An argument is given under a name that no parameter of the owner has. -/
  | unexpectedArgument (owner : String) (name : Text)
  /-- A parameter of the owner is given twice. -/
  | repeatedArgument (owner : String) (name : Text)
  | tooManyArguments (owner : String) (least most given : Nat)
  | missingArguments (owner : String) (names : List String)
  /-- The owner has nothing of that name. -/
  | unknownAttribute (owner name : String)
  /-- A fault in a named field. -/
  | inField (name : String) (cause : Fault)
  /-- A fault in an entry of a snapshot file. -/
  | inPosition (index : Nat) (cause : Fault)
  | positionNotObject (index : Nat)
  | snapshotNotList
  | unreadableFile (path : Text)
  | nullInPath
  | malformedFile (path : Text) (line : Nat)
  /-- Bytes `first` to `last` are not UTF-8; `byte` is the first of them. -/
  | badEncoding (flaw : EncodingFlaw) (byte : UInt8) (first last : Nat)
  /-- Lists and objects of a document are nested too deeply. -/
  | tooDeep (container : Kind)
  /-- The body of a response is not a document. -/
  | malformedBody
  | nanTimestamp
  /-- A timestamp outside the range of the clock. -/
  | timestampOutOfRange
  /-- A timestamp whose year does not fit a calendar date at all. -/
  | yearOverflow
  | yearOutOfRange (year : Int)
  | timedOut
  | requestFailed
deriving DecidableEq

namespace Fault

/-- The sorts of failure. -/
inductive Category where
  | type
  | value
  | encoding
  | range
  | key
  | field
  | index
  | division
  | depth
  | system
  | request
deriving DecidableEq

def category : Fault → Category
  | unordered .. | unsupported .. | notJoinable .. | notCount _ | unsupportedUnary ..
  | notNumeric _ | notReadableAsReal _ | notReadableAsWhole _ | notIterable _ | withoutLength _
  | notSliceable _ | notKey _ | notText .. | withoutItems _ | unexpectedArgument ..
  | repeatedArgument .. | tooManyArguments .. | missingArguments .. => .type
  | withoutFields _ | unknownAttribute .. => .field
  | missingKey _ => .key
  | wholeTooLarge | countTooLarge | infinityAsWhole | quotientTooLarge | powerTooLarge
  | timestampOutOfRange => .range
  | divisionByZero => .division
  | tooDeep _ => .depth
  | noSlot => .index
  | badEncoding .. => .encoding
  | yearOverflow => .system
  | timedOut | requestFailed => .request
  | _ => .value

/-- The fault says that a value is wrong; text in a wrong encoding is a case of it. -/
def isValueFault (f : Fault) : Bool := f.category == .value || f.category == .encoding

/-- A lookup answers these with its neutral value. -/
def isRecoverable (f : Fault) : Bool :=
  f.isValueFault || f.category == .type || f.category == .key || f.category == .field ||
    f.category == .request

/-- Whole numbers are read and written with at most this many digits. -/
def digitLimit : Nat := 4300

/-- A text that is no whole number is shown up to this length. -/
def shownLimit : Nat := 200

/-- Names between quotes, as a sentence lists them. -/
def enumerated (names : List String) : String :=
  match names.map fun name => s!"'{name}'" with
  | [first, second] => s!"{first} and {second}"
  | quotedNames => match quotedNames.reverse with
    | last :: before :: rest =>
      String.intercalate ", " (before :: rest).reverse ++ ", and " ++ last
    | short => String.join short

def message : Fault → String
  | unordered strict left right =>
    let relation := if strict then "<" else "<="
    s!"'{relation}' not supported between instances of '{left.name}' and '{right.name}'"
  | unsupported sign left right =>
    s!"unsupported operand type(s) for {sign}: '{left.name}' and '{right.name}'"
  | notJoinable .bytes other => s!"can't concat {other.name} to bytes"
  | notJoinable sequence other =>
    s!"can only concatenate {sequence.name} (not \"{other.name}\") to {sequence.name}"
  | notCount found => s!"can't multiply sequence by non-int of type '{found.name}'"
  | countTooLarge => "cannot fit 'int' into an index-sized integer"
  | unsupportedUnary operation operand => s!"bad operand type for {operation}: '{operand.name}'"
  | notNumeric found => s!"must be real number, not {found.name}"
  | notReadableAsReal found =>
    s!"float() argument must be a string or a real number, not '{found.name}'"
  | notReadableAsWhole found =>
    s!"int() argument must be a string, a bytes-like object or a real number, not '{found.name}'"
  | notIterable found => s!"'{found.name}' object is not iterable"
  | withoutLength found => s!"object of type '{found.name}' has no len()"
  | notSliceable .object => "unhashable type: 'slice'"
  | notSliceable found => s!"'{found.name}' object is not subscriptable"
  | notKey found => s!"unhashable type: '{found.name}'"
  | notText index found => s!"sequence item {index}: expected str instance, {found.name} found"
  | withoutFields found => s!"'{found.name}' object has no attribute 'get'"
  | withoutItems .text => "string indices must be integers, not 'str'"
  | withoutItems .list => "list indices must be integers or slices, not str"
  | withoutItems .bytes => "byte indices must be integers or slices, not str"
  | withoutItems found => s!"'{found.name}' object is not subscriptable"
  | missingKey key => quoted key
  | badWhole shown =>
    "invalid literal for int() with base 10: " ++ String.ofList (shown.toList.take shownLimit)
  | badReal shown => s!"could not convert string to float: {shown}"
  | tooManyDigits none =>
    s!"Exceeds the limit ({digitLimit} digits) for integer string conversion; use sys.set_int_max_str_digits() to increase the limit"
  | tooManyDigits (some digits) =>
    s!"Exceeds the limit ({digitLimit} digits) for integer string conversion: value has {digits} digits; use sys.set_int_max_str_digits() to increase the limit"
  | nanAsWhole => "cannot convert float NaN to integer"
  | infinityAsWhole => "cannot convert float infinity to integer"
  | wholeTooLarge => "int too large to convert to float"
  | quotientTooLarge => "integer division result too large for a float"
  | divisionByZero => "float division by zero"
  | noSlot => "list index out of range"
  | negativeDecimals shown => s!"decimals must be >= 0, got {shown}"
  | fractionalDecimals => "Unknown format code 'd' for object of type 'float'"
  | badDecimals shown found =>
    s!"Invalid format specifier '0{shown}d' for object of type '{found.name}'"
  | powerTooLarge => "(34, 'Numerical result out of range')"
  | badAmount shown => s!"Invalid raw amount: {shown}"
  | truthAmount => "Raw amount must be an integer, not bool"
  | badAmountKind found => s!"Invalid raw amount type: {found.name}"
  | missingFields names => "Position entry missing: " ++ String.intercalate ", " names
  | unknownAttribute owner name => s!"'{owner}' object has no attribute '{name}'"
  | unexpectedArgument owner name => s!"{owner}() got an unexpected keyword argument '{name}'"
  | repeatedArgument owner name => s!"{owner}() got multiple values for argument '{name}'"
  | tooManyArguments owner least most given =>
    let count := if least = most then toString most else s!"from {least} to {most}"
    let plural := if least = most && most = 1 then "" else "s"
    s!"{owner}() takes {count} positional argument{plural} but {given} were given"
  | missingArguments owner names =>
    let plural := if names.length = 1 then "" else "s"
    s!"{owner}() missing {names.length} required positional argument{plural}: {enumerated names}"
  | inField name cause => s!"{name}: {cause.message}"
  | inPosition index cause => s!"Position #{index}: {cause.message}"
  | positionNotObject index => s!"Position #{index} is not an object"
  | snapshotNotList => "Snapshot must be a list of positions"
  | unreadableFile path => s!"Cannot read snapshot file: {path}"
  | nullInPath => "embedded null byte"
  | malformedFile path line => s!"Invalid JSON in {path} (line {line})"
  | badEncoding flaw byte first last =>
    let code := String.ofList (hexDigits 2 byte.toNat)
    let place := if first = last then s!"byte 0x{code} in position {first}"
      else s!"bytes in position {first}-{last}"
    let reason := match flaw with
      | .start => "invalid start byte"
      | .continuation => "invalid continuation byte"
      | .truncated => "unexpected end of data"
    s!"'utf-8' codec can't decode {place}: {reason}"
  | tooDeep container =>
    let name := if container = .list then "array" else "object"
    s!"maximum recursion depth exceeded while decoding a JSON {name} from a unicode string"
  | malformedBody => "Expecting value"
  | nanTimestamp => "Invalid value NaN (not a number)"
  | timestampOutOfRange => "timestamp out of range for platform time_t"
  | yearOverflow => "Value too large for defined data type"
  | yearOutOfRange year => s!"year {year} is out of range"
  | timedOut => "timed out"
  | requestFailed => "request failed"

end Fault

end LiquidityWatch
