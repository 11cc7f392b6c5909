import LiquidityWatch.Lookup.Position
import LiquidityWatch.Lookup.Token
import LiquidityWatch.Proofs.Effect

/-! # What lookups answer

Every lookup is settled: in given surroundings it always has the same effect. Names, pools, prices,
deposits and fees have it at any time of day; the index of a token takes the time of day into its
reading. `Answers` holds these effects together. -/

namespace LiquidityWatch

open Run

namespace Lookup

variable {s : Surroundings}

theorem settled_tokenName (network mint : Text) : Settled s (tokenName network mint) := by
  refine Settled.bind (.recover ?_ fun fault => ?_) fun name => .pure _
  · exact (Settled.fetch _ _).bind fun answer => (Settled.lift _).bind fun attributes => .lift _
  · refine (Settled.print ?_).bind fun _ => .pure _
    exact isMessage_append (by decide) _

theorem settled_mostLiquidPool (network mint : Text) : Settled s (mostLiquidPool network mint) := by
  refine .recover ?_ fun fault => ?_
  · exact (Settled.fetch _ _).bind fun answer => (Settled.lift _).bind fun data =>
      (Settled.lift _).bind fun pools => .lift _
  · refine (Settled.print ?_).bind fun _ => .pure _
    exact isMessage_append (by decide) _

theorem settled_candles (network : Text) (pool : Value) (timeframe : Option String)
    (aggregate : Option Int) : Settled s (candles network pool timeframe aggregate) := by
  refine Settled.get ?_ fun w hw => by rw [hw.settings]
  refine .recover ?_ fun fault => ?_
  · exact (Settled.fetch _ _).bind fun answer => (Settled.lift _).bind fun attributes =>
      (Settled.lift _).bind fun rows => .lift _
  · show Settled s (do
      if fault = .timedOut then Run.print "⏰ Timeout fetching candles"
      else
        let shortened ← Address.shortenValue pool
        Run.print s!"❌ Candle fetch failed for pool {shortened}"
      return [])
    split
    · exact (Settled.print (by decide)).bind fun _ => .pure _
    · refine (Settled.lift _).bind fun shortened => (Settled.print ?_).bind fun _ => .pure _
      exact isMessage_append (by decide) _

/-- The index of a token, at one time of day. -/
theorem settled_tokenRsi (network mint : Text) (aggregate : Option Int) (now : Number) :
    Settled (s.at now) (tokenRsi network mint aggregate) := by
  refine (settled_mostLiquidPool network mint).bind fun pool => ?_
  refine Settled.get ?_ fun w hw => by rw [show w.now = now from hw.times]
  split
  · exact (settled_candles network pool none aggregate).bind fun rows => .lift _
  · refine (Settled.print ?_).bind fun _ => .pure _
    exact isMessage_append (by decide) _

theorem settled_reportFault {onTimeout onFailure : String} (htimeout : isMessage onTimeout)
    (hfailure : isMessage onFailure) (fault : Fault) :
    Settled s (reportFault onTimeout onFailure fault) := by
  refine .print ?_
  split
  · exact htimeout
  · exact hfailure

theorem settled_initialDeposit (position : Text) : Settled s (initialDeposit position) := by
  refine .recover ?_ fun fault => ?_
  · exact (Settled.fetch _ _).bind fun answer => .lift _
  · exact (settled_reportFault (by decide) (by decide) fault).bind fun _ => .pure _

theorem settled_feeInfo (pool : Text) : Settled s (feeInfo pool) := by
  refine .recover ?_ fun fault => ?_
  · exact (Settled.fetch _ _).bind fun answer => (Settled.lift _).bind fun info => .pure _
  · exact (settled_reportFault (by decide) (by decide) fault).bind fun _ => .pure _

theorem settled_reportPriceFault (fault : Fault) : Settled s (reportPriceFault fault) := by
  rw [reportPriceFault]
  split
  · exact .throw fault
  · split
    · exact .print (by decide)
    · exact .print (by decide)

theorem settled_prices (mints : List Text) : Settled s (prices mints) := by
  cases mints with
  | nil => exact .pure _
  | cons mint mints =>
    refine (Settled.fetch _ _).attempt.bind fun outcome => ?_
    cases outcome with
    | error fault => exact (settled_reportPriceFault fault).bind fun _ => .pure _
    | ok answer =>
      show Settled s ((readPrices answer (mint :: mints)).2.forM reportPriceFault >>= fun _ =>
        Pure.pure (readPrices answer (mint :: mints)).1)
      cases (readPrices answer (mint :: mints)).2 with
      | none => exact (Settled.pure _).bind fun _ => .pure _
      | some fault => exact (settled_reportPriceFault fault).bind fun _ => .pure _

end Lookup

/-- What the lookups of reports come to in given surroundings, on a network of the market. -/
structure Answers (s : Surroundings) (network : Text) where
  prices : List Text → Effect (Ledger Text Number)
  name : Text → Effect Value
  rsi : Number → Text → Effect (Rsi.Reading Number)
  deposit : Text → Effect (Option (Deposit Number))
  fees : Text → Effect (Option Lookup.FeeInfo)
  gives_prices : ∀ mints, Gives s (Lookup.prices mints) (prices mints)
  gives_name : ∀ mint, Gives s (Lookup.tokenName network mint) (name mint)
  gives_rsi : ∀ now mint, Gives (s.at now) (Lookup.tokenRsi network mint none) (rsi now mint)
  gives_deposit : ∀ position, Gives s (Lookup.initialDeposit position) (deposit position)
  gives_fees : ∀ pool, Gives s (Lookup.feeInfo pool) (fees pool)

theorem exists_answers (s : Surroundings) (network : Text) : Nonempty (Answers s network) := by
  choose prices hprices using Lookup.settled_prices (s := s)
  choose name hname using Lookup.settled_tokenName (s := s) network
  choose rsi hrsi using fun now mint => Lookup.settled_tokenRsi (s := s) network mint none now
  choose deposit hdeposit using Lookup.settled_initialDeposit (s := s)
  choose fees hfees using Lookup.settled_feeInfo (s := s)
  exact ⟨prices, name, rsi, deposit, fees, hprices, hname, hrsi, hdeposit, hfees⟩

end LiquidityWatch
