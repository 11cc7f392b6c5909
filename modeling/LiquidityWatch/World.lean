import LiquidityWatch.Endpoint
import LiquidityWatch.RateLimit
import LiquidityWatch.Text.Encoding
import LiquidityWatch.Value.Json

/-! # The world that lookups run in

A run asks services, waits for its turn, and prints. The world holds what a run can see (the
network, the files, the settings, two clocks) and what it leaves behind (requests, printed lines,
waits); a fault ends a run but keeps the traces that it has left. -/

namespace LiquidityWatch

/-- What becomes of a request. Every request is assumed to be sent: a client that refuses an address
for its form, before it asks anybody, is no part of this. -/
inductive Response where
  | timedOut
  | failed
  | answered (status : Nat) (body : List UInt8)

/-- A network answers a request depending on the requests before it. -/
abbrev Network := List String → String → Response

/-- A network that always answers an address in the same way. -/
def Network.constant (answer : String → Response) : Network := fun _ url => answer url

/-- The services that are asked. -/
inductive Service where
  | prices
  | market
  | positions
deriving DecidableEq

structure World where
  network : Network
  /-- The content of the file at a path, where there is one that can be read. -/
  files : Text → Option (List UInt8)
  settings : Settings
  /-- The time of day. -/
  now : Number
  /-- The clock that requests are timed by. -/
  clock : Number
  priceLimiter : Limiter Number
  marketLimiter : Limiter Number
  requests : List String
  printed : List String
  waits : List Number

namespace World

/-- The period of both rate limits in seconds. -/
def limitPeriod : Number := .whole 60

def priceSlots : Int := 500

/-- The price service grants two more; they are left as a margin. -/
def marketSlots : Int := 28

/-- A world in which nothing has been asked. -/
def start (network : Network) (files : Text → Option (List UInt8)) (settings : Settings)
    (now : Number) : World :=
  { network, files, settings, now
    clock := .real .zero
    priceLimiter := .fresh priceSlots limitPeriod
    marketLimiter := .fresh marketSlots limitPeriod
    requests := []
    printed := []
    waits := [] }

/-- The limiter of a service; positions are asked without a limit. -/
def limiter? (w : World) : Service → Option (Limiter Number)
  | .prices => some w.priceLimiter
  | .market => some w.marketLimiter
  | .positions => none

def setLimiter (w : World) (service : Service) (l : Limiter Number) : World :=
  match service with
  | .prices => { w with priceLimiter := l }
  | .market => { w with marketLimiter := l }
  | .positions => w

/-- All that was printed. -/
def output (w : World) : String := String.join (w.printed.map (· ++ "\n"))

end World

/-- A computation in the world that may end with a fault. -/
abbrev Run := ExceptT Fault (StateM World)

namespace Run

/-- The outcome of a computation outside the world. -/
def ofExcept {α : Type} (outcome : Except Fault α) : Run α := ExceptT.mk (pure outcome)

instance : MonadLift (Except Fault) Run := ⟨ofExcept⟩

/-- Runs an action and hands its fault on as a value. -/
def attempt {α : Type} (action : Run α) : Run (Except Fault α) := ExceptT.lift action.run

/-- Runs an action; a fault from which a lookup recovers is answered by the fallback. -/
def recover {α : Type} (action : Run α) (fallback : Fault → Run α) : Run α := do
  match ← attempt action with
  | .ok a => return a
  | .error f => if f.isRecoverable then fallback f else throw f

/-! ### Actions that are started together

Actions that are started together take turns on a single thread, and one gives way to the others
only where it waits: for its turn at a service, for a response, or for actions that it has started
itself. The last kind of waiting is modelled (`gatherRounds`). Of the other two it is assumed that
nothing else goes on meanwhile. Where they take time and actions overlap, the requests and messages
of different actions may come in another order, and of several faults another one may be the
first. -/

/-- Actions that are started together and wait for no others: each is carried out in its turn, and
then the first fault among them counts. -/
def gather {α : Type} (actions : List (Run α)) : Run (List α) := do
  let outcomes ← actions.mapM attempt
  outcomes.mapM ofExcept

/-- Two actions that are started together and wait for no others. -/
def both {α β : Type} (first : Run α) (second : Run β) : Run (α × β) := do
  let a ← attempt first
  let b ← attempt second
  return (← ofExcept a, ← ofExcept b)

/-- Two groups in their common order; the flags tell which members are of the first one. -/
def rejoin {α : Type} : List Bool → List α → List α → List α
  | true :: flags, a :: first, later => a :: rejoin flags first later
  | false :: flags, first, b :: later => b :: rejoin flags first later
  | _, _, _ => []

/-- Actions that are started together, of which some begin at once, while each of the others starts
actions of its own and waits for these. Those come into their turns when all that were started
together have been, so they are carried out in a second round. -/
def gatherRounds {ι α : Type} (atOnce : ι → Bool) (action : ι → Run α) (xs : List ι) :
    Run (List α) := do
  let (first, later) ← both (gather ((xs.filter atOnce).map action))
    (gather ((xs.filter fun x => !atOnce x).map action))
  return rejoin (xs.map atOnce) first later

/-- Prints a line. Every line is assumed to be printable, also where it holds the replacement of a
surrogate that stands alone, which an encoding of the output may refuse. -/
def print (line : String) : Run Unit := modify fun w => { w with printed := w.printed ++ [line] }

/-- Prints lines up to the first one that has a fault. -/
def printAll : List (Except Fault String) → Run Unit
  | [] => return
  | line :: rest => do
    print (← ofExcept line)
    printAll rest

/-- Waits for a turn at a service. -/
def takeTurn (service : Service) : Run Unit := do
  let w ← get
  match w.limiter? service with
  | none => return
  | some limiter =>
    let purged ← limiter.purge w.clock
    modify fun w => w.setLimiter service purged
    let grant ← purged.grant w.clock
    modify fun w => { w.setLimiter service grant.limiter with
      clock := grant.time
      waits := w.waits ++ grant.waited.toList }

/-- The document in a body. -/
def readBody (bytes : List UInt8) : Except Fault Value := do
  match Json.read (← decodeBody bytes) with
  | .ok v => return v
  | .error flaw => throw (flaw.fault fun _ => .malformedBody)

/-- The document in a response; only a status from 200 to 299 is a success. -/
def readResponse : Response → Except Fault Value
  | .timedOut => .error .timedOut
  | .failed => .error .requestFailed
  | .answered status body =>
    if 200 ≤ status ∧ status < 300 then readBody body else .error .requestFailed

/-- Asks a service for the document at an address. -/
def fetch (service : Service) (url : String) : Run Value := do
  takeTurn service
  let w ← get
  set { w with requests := w.requests ++ [url] }
  readResponse (w.network w.requests url)

end Run

end LiquidityWatch
