import LiquidityWatch.Command

/-! # The command line

Arguments as a request. Options begin with a dash and may be shortened as long as they stay
unambiguous; a value follows an option or is attached to it with an equals sign. Negative numbers
and arguments with a space are no options, and after `--` nothing is. An argument that fits nowhere
makes the whole line invalid, but help and version are given as soon as they are met.

Arguments are text, since a byte of a line that is no character reaches the program as a surrogate.
Where they are compared with names or read as numbers a surrogate counts as the replacement
character, which is part of neither. -/

namespace LiquidityWatch.CommandLine

/-- What an option does. -/
inductive OptionKind where
  | help
  | version
  | valued (name : String)
deriving DecidableEq

/-- Options by name. -/
abbrev Options := List (String × OptionKind)

/-- What is attached to an option: a value to a name, further letters to a single letter. Letters
may follow the first one at once or after an equals sign. -/
inductive Attached where
  | afterEquals (value : Text)
  | bundled (letters : List Char)

/-- An argument as the options of a line see it. -/
inductive Token where
  | plain (argument : Text)
  | separator
  | unknown
  | option (kind : OptionKind) (attached : Option Attached)

/-! ## Telling options from arguments -/

def isDecimalDigit (c : Char) : Bool := (digitValue? c).isSome

/-- The argument is a negative number: digits, or a point with digits after it and perhaps before. A
line feed at the end does not count. -/
def isNegativeNumber : List Char → Bool
  | '-' :: cs =>
    let digits := match cs.reverse with
      | '\n' :: rest => rest.reverse
      | _ => cs
    match digits.dropWhile isDecimalDigit with
    | [] => !digits.isEmpty
    | '.' :: fraction => !fraction.isEmpty && fraction.all isDecimalDigit
    | _ => false
  | _ => false

/-- Parts an argument at its first equals sign. -/
def splitEquals (argument : Text) : Text × Option Text :=
  let name := ⟨argument.codes.takeWhile (· != .char '=')⟩
  match argument.codes.dropWhile (· != .char '=') with
  | _ :: value => (name, some ⟨value⟩)
  | [] => (name, none)

/-- What follows the equals sign of an option with a given name. -/
def attachedTo (name value : Text) : Attached :=
  if "--".toList.isPrefixOf name.toChars then .afterEquals value else .bundled value.toChars

/-- The options that a shortened argument may mean. -/
def candidates (options : Options) (argument : Text) : List Token :=
  match argument.toChars with
  | '-' :: '-' :: _ =>
    let (name, value) := splitEquals argument
    options.filterMap fun (full, kind) =>
      if name.toChars.isPrefixOf full.toList then some (.option kind (value.map .afterEquals))
      else none
  | '-' :: letter :: rest =>
    options.filterMap fun (full, kind) =>
      if full.toList = ['-', letter] then some (.option kind (some (.bundled rest)))
      else if argument.toChars.isPrefixOf full.toList then some (.option kind none)
      else none
  | _ => []

/-- An argument before the separator; `none` when it may mean several options. -/
def classify (options : Options) (argument : Text) : Option Token :=
  if argument.toChars.head? ≠ some '-' || argument = "-" then some (.plain argument)
  else match options.lookup argument.toString with
    | some kind => some (.option kind none)
    | none =>
      let (name, value) := splitEquals argument
      match value, options.lookup name.toString with
      | some v, some kind => some (.option kind (some (attachedTo name v)))
      | _, _ => match candidates options argument with
        | [token] => some token
        | [] =>
          if isNegativeNumber argument.toChars || argument.toChars.contains ' ' then
            some (.plain argument)
          else some .unknown
        | _ => none

/-- All arguments of a line. -/
def tokenize (options : Options) : List Text → Option (List Token)
  | [] => some []
  | argument :: rest =>
    if argument = "--" then some (.separator :: rest.map .plain)
    else do
      let token ← classify options argument
      return token :: (← tokenize options rest)

/-! ## Requests -/

/-- What a line asks for. -/
inductive Request where
  | command (c : Command)
  | help
  | version
  | invalid

/-- What is attached to `-h` asks for help too, as long as it is a row of the same letter. Releases
of the option parser differ in this; what is defined here is seen in runs of the program. In later
releases help is given at the first letter, whichever letter follows, and an equals sign is never
let through. -/
def bundledHelp (letters : List Char) : Request :=
  if !letters.isEmpty && letters.all (· == 'h') then .help else .invalid

/-- What an option without a value asks for. -/
def plainOption (request : Request) : Option Attached → Request
  | none => request
  | some (.afterEquals _) => .invalid
  | some (.bundled letters) => bundledHelp letters

/-- How many arguments a command takes besides its options. -/
inductive Arity where
  | none
  | one
  | many
deriving DecidableEq

/-- How far the arguments of a command have been found. They have to stand together. -/
inductive Phase where
  | ahead
  | within
  | behind
deriving DecidableEq

/-- A line as far as it has been read: its arguments and the values of its options. `awaiting` is
the option whose value comes next; `superfluous` says that an argument fitted nowhere. -/
structure Reading where
  phase : Phase
  arguments : List Text
  values : List (String × Text)
  awaiting : Option String
  superfluous : Bool

/-- Accepts a value of an option, or does not. -/
abbrev ValueCheck := String → Text → Bool

/-- Notes the value of an option. -/
def Reading.note (check : ValueCheck) (r : Reading) (name : String) (value : Text) :
    Except Request Reading :=
  if check name value then
    .ok { r with values := (name, value) :: r.values, awaiting := none }
  else .error .invalid

/-- The next argument that is no option. -/
def Reading.addPlain (arity : Arity) (r : Reading) (argument : Text) : Reading :=
  match r.phase, arity with
  | .ahead, _ => { r with phase := .within, arguments := [argument] }
  | .within, .many => { r with arguments := r.arguments ++ [argument] }
  | _, _ => { r with superfluous := true }

/-- The next token of a line; the line ends early with help or as invalid. -/
def Reading.next (arity : Arity) (check : ValueCheck) (r : Reading) (token : Token) :
    Except Request Reading :=
  let closed := if r.phase = .within then { r with phase := Phase.behind } else r
  match r.awaiting, token with
  | some name, .plain value => r.note check name value
  | some _, _ => .error .invalid
  | none, .plain argument => .ok (r.addPlain arity argument)
  | none, .separator => .ok (if r.phase = .behind then { r with superfluous := true } else r)
  | none, .unknown => .ok { closed with superfluous := true }
  | none, .option .help attached => .error (plainOption .help attached)
  | none, .option .version attached => .error (plainOption .version attached)
  | none, .option (.valued name) (some (.afterEquals value)) => closed.note check name value
  | none, .option (.valued _) (some (.bundled _)) => .error .invalid
  | none, .option (.valued name) none => .ok { closed with awaiting := some name }

/-- What a command takes: how many arguments, which options with values, which values it accepts,
and the command that they make. -/
structure Form where
  arity : Arity
  options : List String
  check : ValueCheck
  build : List Text → List (String × Text) → Option Command

def helpOptions : Options := [("-h", .help), ("--help", .help)]

/-- Reads the arguments of a command. -/
def Form.read (form : Form) (arguments : List Text) : Request :=
  let options := helpOptions ++ form.options.map fun name => (name, .valued name)
  let start : Reading := ⟨if form.arity = .none then .behind else .ahead, [], [], none, false⟩
  match tokenize options arguments with
  | none => .invalid
  | some tokens => match tokens.foldlM (Reading.next form.arity form.check) start with
    | .error request => request
    | .ok r =>
      if r.awaiting.isSome || r.phase = .ahead || r.superfluous then .invalid
      else match form.build r.arguments r.values with
        | some command => .command command
        | none => .invalid

/-! ## The commands -/

def aggregateOption : String := "--aggregate"

def networkOption : String := "--network"

def currentValueOption : String := "--current-value"

/-- A candle size, which has to be one that is offered. -/
def aggregateOf? (value : Text) : Option Int :=
  match readWhole value.toChars with
  | .ok n => if (Settings.offeredAggregates Settings.timeframe).contains n then some n else none
  | .error _ => none

/-- A current value. -/
def currentValueOf? (value : Text) : Option Number :=
  (readReal value.toChars).map fun numeral => .real numeral.toBinary64

/-- The command that a single argument makes. -/
def onOne (command : Text → Command) : List Text → Option Command
  | [argument] => some (command argument)
  | _ => none

/-- The form of a command. -/
def formOf? : String → Option Form
  | "rsi" => some {
      arity := .one
      options := [aggregateOption, networkOption]
      check := fun name value => name != aggregateOption || (aggregateOf? value).isSome
      build := fun arguments values => onOne
        (fun mint => .rsi mint ((values.lookup aggregateOption).bind aggregateOf?)
          (values.lookup networkOption)) arguments }
  | "price" => some ⟨.many, [], fun _ _ => true, fun arguments _ => some (.price arguments)⟩
  | "fee" => some ⟨.one, [], fun _ _ => true, fun arguments _ => onOne .fee arguments⟩
  | "deposit" => some {
      arity := .one
      options := [currentValueOption]
      check := fun _ value => (currentValueOf? value).isSome
      build := fun arguments values => onOne
        (fun position => .deposit position
          ((values.lookup currentValueOption).bind currentValueOf?)) arguments }
  | "report" => some ⟨.one, [], fun _ _ => true, fun arguments _ => onOne .report arguments⟩
  | "info" => some ⟨.none, [], fun _ _ => true, fun _ _ => some .info⟩
  | _ => none

/-- Options before the command. -/
def globalOptions : Options := helpOptions ++ [("--version", .version)]

/-- The request of a command with its arguments. -/
def readCommand (name : Text) (arguments : List Text) : Request :=
  match formOf? name.toString with
  | some form => form.read arguments
  | none => .invalid

/-- A request that is made after arguments that fitted nowhere. -/
def Request.afterSuperfluous (superfluous : Bool) (request : Request) : Request :=
  match superfluous, request with
  | true, .command _ => .invalid
  | _, request => request

/-- Reads the options before the command, and then the command. Without a command help is given. -/
def readTokens (superfluous : Bool) : List (Token × Text) → Request
  | [] => if superfluous then .invalid else .help
  | (.plain name, _) :: rest =>
    (readCommand name (rest.map Prod.snd)).afterSuperfluous superfluous
  | (.separator, _) :: _ => .invalid
  | (.unknown, _) :: rest => readTokens true rest
  | (.option .help attached, _) :: _ => plainOption .help attached
  | (.option .version attached, _) :: _ => plainOption .version attached
  | (.option (.valued _) _, _) :: _ => .invalid

/-- The request of a line of arguments. -/
def read (arguments : List Text) : Request :=
  match tokenize globalOptions arguments with
  | none => .invalid
  | some tokens => readTokens false (tokens.zip arguments)

/-- The exit code for an invalid line. -/
def usageCode : Nat := 2

/-- Carries out a request and gives its exit code. The text of help, which is laid out for the width
of the terminal, is left out. -/
def Request.run : Request → Run Nat
  | command c => c.run
  | help => return 0
  | version => do
    Run.print Command.versionLine
    return 0
  | invalid => return usageCode

end LiquidityWatch.CommandLine
