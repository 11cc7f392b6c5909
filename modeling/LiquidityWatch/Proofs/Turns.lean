import LiquidityWatch.Proofs.Findings
import LiquidityWatch.Proofs.RequestPlan

/-! # Turns of reports

Only what is asked about prices and tokens takes turns; deposits and fees are asked for without a
limit (`Run.Untimed`). So two reports from worlds in step that ask the same about prices and tokens
take the same turns, whatever deposits they ask for (`Report.sameTurns_runPositions`). -/

namespace LiquidityWatch

namespace World

variable {w w' w'' : World}

namespace InStep

theorem refl (w : World) : w.InStep w := ⟨rfl, rfl, rfl⟩

theorem symm (h : w.InStep w') : w'.InStep w := ⟨h.clock.symm, h.prices.symm, h.market.symm⟩

theorem trans (h : w.InStep w') (h' : w'.InStep w'') : w.InStep w'' :=
  ⟨h'.clock.trans h.clock, h'.prices.trans h.prices, h'.market.trans h.market⟩

end InStep

/-- Where nothing has been asked, any two worlds are in step. -/
theorem inStep_start (network network' : Network) (files files' : Text → Option (List UInt8))
    (settings settings' : Settings) (now now' : Number) :
    (World.start network files settings now).InStep
      (World.start network' files' settings' now') :=
  ⟨rfl, rfl, rfl⟩

/-- No turn is taken on the way from one world to the other. -/
structure NoTurns (w after : World) : Prop where
  inStep : w.InStep after
  waits : after.waits = w.waits

instance : IsPreorder World NoTurns where
  refl w := ⟨.refl w, rfl⟩
  trans _ _ _ h h' := ⟨h.inStep.trans h'.inStep, h'.waits.trans h.waits⟩

end World

namespace Run

variable {α : Type}

/-- The action takes no turns. -/
abbrev Untimed (action : Run α) : Prop := Leads World.NoTurns action

theorem untimed_print (line : String) : Untimed (Run.print line) := fun _ => ⟨⟨rfl, rfl, rfl⟩, rfl⟩

/-- Positions are asked for without a limit. -/
theorem untimed_fetch (url : String) : Untimed (Run.fetch .positions url) :=
  fun _ => ⟨⟨rfl, rfl, rfl⟩, rfl⟩

theorem Untimed.of_result {action : Run α} {x : Except Fault α} {w after : World}
    (h : Untimed action) (hresult : action.result w = (x, after)) : w.NoTurns after := by
  have hw := h w
  rwa [hresult] at hw

end Run

open Run

namespace Lookup

theorem untimed_initialDeposit (position : Text) : Untimed (initialDeposit position) := by
  refine .recover ?_ fun fault => ?_
  · exact (untimed_fetch _).bind fun answer => .lift _
  · exact (untimed_print _).bind fun _ => .pure _

theorem untimed_feeInfo (pool : Text) : Untimed (feeInfo pool) := by
  refine .recover ?_ fun fault => ?_
  · exact (untimed_fetch _).bind fun answer => (Leads.lift _).bind fun info => .pure _
  · exact (untimed_print _).bind fun _ => .pure _

end Lookup

namespace Report

theorem untimed_lookUpDeposits (unknown : List Identifier) : Untimed (lookUpDeposits unknown) := by
  refine (Leads.gather fun id _ => ?_).bind fun found => .pure _
  exact Lookup.untimed_initialDeposit id.toValue.shown

theorem untimed_lookUpFees (pools : List Value) : Untimed (lookUpFees pools) := by
  refine (Leads.gather fun pool _ => ?_).bind fun found => (Leads.lift _).bind fun names => .pure _
  exact Lookup.untimed_feeInfo pool.shown

/-- What a report asks about prices and tokens. -/
def lookUpMarket (network : Text) (state : MonitorState Number) (mints tracked : List Text) :
    Run (List (TokenMetrics Number)) := do
  let prices ← Lookup.prices mints
  lookUpAllMetrics network prices state tracked

variable {s : Surroundings} {w w' after after' : World} {state next next' : MonitorState Number}
  {positions positions' : List (Position Int)} {summary summary' : Summary Number}

theorem sameTurns_lookUpMarket (hw : w.Within s) (hw' : w'.Within s) (hnow : w'.now = w.now)
    (h : w.InStep w') (network : Text) (state : MonitorState Number) (mints tracked : List Text) :
    w.SameTurns w' ((lookUpMarket network state mints tracked).result w).2
      ((lookUpMarket network state mints tracked).result w').2 := by
  obtain ⟨A⟩ := exists_answers s network
  have hgives := ((A.gives_prices mints).at_time hw.times).bind fun prices =>
    A.gives_allMetrics hw.times prices state tracked
  exact hgives.turns w w' ⟨hw.network, hw.settings, rfl, hw.ready⟩
    ⟨hw'.network, hw'.settings, hnow, hw'.ready⟩ h

/-- After prices and tokens, a report that ends well takes no turns. -/
theorem noTurns_of_runPositions (htext : ∀ p ∈ positions, p.TextNamed)
    (h : (runPositions state positions).result w = (.ok (some (summary, next)), after)) :
    let market := (lookUpMarket (Endpoint.networkOr "" w.settings.network) state
      (mintNames positions) (trackedNames positions)).result (w.showing [header positions])
    market.2.NoTurns after := by
  rw [runPositions, result_bind_ok (result_print _ _), result_bind_ok (result_get _)] at h
  obtain ⟨findings, w₁, hfindings, h⟩ := result_bind_eq_ok.mp h
  rw [lookUp_eq htext] at hfindings
  obtain ⟨prices, w₂, hprices, hfindings⟩ := result_bind_eq_ok.mp hfindings
  obtain ⟨metrics, w₃, hmetrics, hfindings⟩ := result_bind_eq_ok.mp hfindings
  have hmarket : (lookUpMarket (Endpoint.networkOr "" w.settings.network) state
      (mintNames positions) (trackedNames positions)).result (w.showing [header positions]) =
      (.ok metrics, w₃) := (result_bind_ok hprices _).trans hmetrics
  have hlater : Untimed (Run.both (lookUpDeposits ((unknownNames state positions).map .text))
      (lookUpFees ((poolNames positions).map .text)) >>= fun pair => Pure.pure
        (Findings.mk prices (.ofList (metrics.map fun m => (m.mint, m))) pair.1 pair.2)) :=
    ((untimed_lookUpDeposits _).both (untimed_lookUpFees _)).bind fun _ => .pure _
  have hrest : Untimed (do
      let found ← ofFindings findings state w.now positions
      Run.printAll (found.1.lines w.settings.label)
      return some (found.1.summary, found.2)) :=
    (Leads.lift _).bind fun found => (Leads.printAll untimed_print _).bind fun _ => .pure _
  dsimp only
  rw [hmarket]
  exact IsTrans.trans _ _ _ (hlater.of_result hfindings) (hrest.of_result h)

/-- Reports in step that ask the same about prices and tokens take the same turns. -/
theorem sameTurns_runPositions (hw : w.Within s) (hw' : w'.Within s) (hnow : w'.now = w.now)
    (hstep : w.InStep w') (htext : ∀ p ∈ positions, p.TextNamed)
    (htext' : ∀ p ∈ positions', p.TextNamed) (hmints : mintNames positions' = mintNames positions)
    (htracked : trackedNames positions' = trackedNames positions)
    (h : (runPositions state positions).result w = (.ok (some (summary, next)), after))
    (h' : (runPositions state positions').result w' = (.ok (some (summary', next')), after')) :
    w.SameTurns w' after after' := by
  obtain ⟨hmarket, hwaits⟩ := noTurns_of_runPositions htext h
  obtain ⟨hmarket', hwaits'⟩ := noTurns_of_runPositions htext' h'
  rw [hmints, htracked, hw'.settings, ← hw.settings] at hmarket' hwaits'
  have hturns := sameTurns_lookUpMarket (hw.proceed (w.proceeds_showing [header positions]))
    (hw'.proceed (w'.proceeds_showing [header positions'])) hnow
    ⟨hstep.clock, hstep.prices, hstep.market⟩ (Endpoint.networkOr "" w.settings.network) state
    (mintNames positions) (trackedNames positions)
  have hstart : w.SameTurns w' (w.showing [header positions]) (w'.showing [header positions']) :=
    .of_waits_eq ⟨hstep.clock, hstep.prices, hstep.market⟩ rfl rfl
  exact (hstart.trans hturns).trans
    (.of_waits_eq ((hmarket.symm.trans hturns.inStep).trans hmarket') hwaits hwaits')

end Report

end LiquidityWatch
