import LiquidityWatch.Proofs.Requests
import LiquidityWatch.Proofs.Session

/-! # Deposits over a session of reports

A report looks up the deposits of the positions whose initial value is not known, one request for
each entry of its file, and the network may answer a request differently each time. The answers of
one report are collected under the name of their position, where the last answer counts
(`lastFound`), and a deposit that has been collected once stays. So a session knows for every
position the first of these last answers (`Stage.deposits_kept`); it is the first deposit ever
found as long as repeated lookups in one report agree. -/

namespace LiquidityWatch

/-! ## Actions one after the other -/

namespace Run

variable {α : Type}

/-- The outcomes of actions that are carried out one after the other, and the world after them. -/
def outcomes : List (Run α) → World → List (Except Fault α) × World
  | [], w => ([], w)
  | action :: rest, w =>
    let later := outcomes rest (action.result w).2
    ((action.result w).1 :: later.1, later.2)

theorem length_outcomes (actions : List (Run α)) (w : World) :
    (outcomes actions w).1.length = actions.length := by
  induction actions generalizing w with
  | nil => rfl
  | cons action rest ih => rw [outcomes, List.length_cons, List.length_cons, ih]

theorem result_mapM_attempt (actions : List (Run α)) (w : World) :
    (actions.mapM attempt).result w = (.ok (outcomes actions w).1, (outcomes actions w).2) := by
  induction actions generalizing w with
  | nil => rfl
  | cons action rest ih =>
    rw [List.mapM_cons, result_bind_ok (result_attempt action w), result_bind_ok (ih _)]
    rfl

theorem result_mapM_ofExcept (xs : List (Except Fault α)) (w : World) :
    (xs.mapM ofExcept).result w = (xs.mapM id, w) := by
  induction xs with
  | nil => rfl
  | cons x xs ih =>
    have hfirst : (ofExcept x).result w = (x, w) := rfl
    rw [List.mapM_cons, List.mapM_cons]
    cases x with
    | error fault => exact result_bind_error hfirst _
    | ok a =>
      rw [result_bind_ok hfirst, result_bind, ih]
      show _ = ((do return a :: (← xs.mapM id) : Except Fault (List α)), w)
      cases xs.mapM id <;> rfl

/-- Actions that are started together have their outcomes one after the other. -/
theorem result_gather (actions : List (Run α)) (w : World) :
    (gather actions).result w = ((outcomes actions w).1.mapM id, (outcomes actions w).2) := by
  rw [gather, result_bind_ok (result_mapM_attempt actions w), result_mapM_ofExcept]

/-- Actions of one request each leave their requests in the log, in order. -/
theorem proceeds_outcomes {ι : Type} {xs : List ι} {f : ι → Run α} {url : ι → String}
    {answer : ι → Response → Except Fault α}
    (h : ∀ x ∈ xs, AsksOnce (f x) (fun _ => url x) (answer x)) {w : World} (hw : w.Ready) :
    ∃ ms, w.Proceeds (outcomes (xs.map f) w).2 ms ∧
      (outcomes (xs.map f) w).2.requests = w.requests ++ xs.map url := by
  induction xs generalizing w with
  | nil => exact ⟨[], .refl w, (List.append_nil _).symm⟩
  | cons x xs ih =>
    obtain ⟨hx, hxs⟩ := List.forall_mem_cons.mp h
    obtain ⟨w', ms, hresult, hproceeds, hrequests⟩ := hx w hw
    obtain ⟨ms', hproceeds', hrequests'⟩ := ih hxs (hproceeds.ready hw)
    rw [List.map_cons, outcomes, hresult]
    refine ⟨ms ++ ms', hproceeds.trans hproceeds', ?_⟩
    rw [hrequests', hrequests, List.map_cons, ← List.append_cons]

end Run

/-! ## Addresses of deposits -/

namespace Endpoint

/-- How the addresses begin that deposits are asked for at. -/
def depositsStart : List Char := (positionBase ++ "/position/").toList

/-- The text differs from that beginning somewhere. -/
def Misses (s : String) : Prop := ¬ depositsStart <+: s.toList ∧ ¬ s.toList <+: depositsStart

instance (s : String) : Decidable (Misses s) :=
  inferInstanceAs (Decidable (¬ depositsStart <+: s.toList ∧ ¬ s.toList <+: depositsStart))

theorem Misses.append {s : String} (h : Misses s) (t : String) : Misses (s ++ t) := by
  rw [Misses, String.toList_append]
  constructor
  · intro hstart
    have happend := List.prefix_append s.toList t.toList
    rcases List.prefix_or_prefix_of_prefix hstart happend with hs | hs
    · exact h.1 hs
    · exact h.2 hs
  · intro hstart
    exact h.2 ((List.prefix_append _ _).trans hstart)

theorem not_misses_deposits (position : Text) : ¬ Misses (deposits position) := by
  intro h
  refine h.1 ?_
  rw [deposits, String.toList_append, String.toList_append]
  exact (List.prefix_append _ _).trans (List.prefix_append _ _)

theorem misses_prices (mints : List Text) : Misses (prices mints) := by
  have hbase : Misses priceBase := by decide +kernel
  exact ((hbase.append _).append _).append _

theorem misses_token (network mint : Text) : Misses (token network mint) := by
  have hbase : Misses marketBase := by decide +kernel
  exact (((hbase.append _).append _).append _).append _

theorem misses_tokenPools (network mint : Text) : Misses (tokenPools network mint) :=
  (misses_token network mint).append _

theorem misses_candles (network pool timeframe aggregate : Text) :
    Misses (candles network pool timeframe aggregate) := by
  have hbase : Misses marketBase := by decide +kernel
  exact (((((((hbase.append _).append _).append _).append _).append _).append _).append _).append _

theorem misses_pair (pool : Text) : Misses (pair pool) := by
  have hbase : Misses (positionBase ++ "/pair/") := by decide +kernel
  exact hbase.append _

end Endpoint

/-! ## The lookups of one report -/

namespace Report

open Run

/-- What a report has looked up and read before it asks for deposits. -/
structure Prepared where
  prices : Ledger Text Number
  metrics : List (TokenMetrics Number)
  unknown : List Identifier
  pools : List Value

/-- A report up to the lookups of deposits. -/
def prepare (network : Text) (state : MonitorState Number) (positions : List (Position Int)) :
    Run Prepared := do
  let mints ← sortedDistinct (positions.map (·.x.mint) ++ positions.map (·.y.mint))
  let prices ← Lookup.prices (← Value.texts 0 mints)
  let tracked ← sortedDistinct (positions.map trackedMint)
  let metrics ← lookUpAllMetrics network prices state (tracked.map (·.shown))
  let unknown ← unknownPositions state positions
  let pools ← sortedDistinct (positions.map (·.pool))
  return ⟨prices, metrics, unknown, pools⟩

/-- A report after the lookups of deposits. -/
def conclude (label : String) (now : Number) (state : MonitorState Number)
    (positions : List (Position Int)) (prepared : Prepared)
    (deposits : Except Fault (Ledger Identifier (Option (Deposit Number)))) :
    Run (Option (Summary Number × MonitorState Number)) := do
  let fees ← Run.attempt (lookUpFees prepared.pools)
  let deposits ← deposits
  let fees ← fees
  let (report, next) ← ofFindings
    ⟨prepared.prices, .ofList (prepared.metrics.map fun m => (m.mint, m)), deposits, fees⟩
    state now positions
  Run.printAll (report.lines label)
  return some (report.summary, next)

theorem runPositions_eq (state : MonitorState Number) (positions : List (Position Int)) :
    runPositions state positions = (do
      Run.print (header positions)
      let w ← get
      let prepared ← prepare (Endpoint.networkOr "" w.settings.network) state positions
      let deposits ← Run.attempt (lookUpDeposits prepared.unknown)
      conclude w.settings.label w.now state positions prepared deposits) := by
  simp only [runPositions, lookUp, prepare, conclude, Run.both, bind_assoc, pure_bind]
  rfl

variable {Q : Settings → String → Prop}

theorem asksBy_lookUpMetrics {network mint : Text} (prices : Ledger Text Number)
    (state : MonitorState Number) (hname : ∀ settings, Q settings (Endpoint.token network mint))
    (hpools : ∀ settings, Q settings (Endpoint.tokenPools network mint))
    (hcandles : ∀ settings pool,
      Q settings (Lookup.candlesUrl network pool none none settings)) :
    AsksBy Q (lookUpMetrics network prices state mint) := by
  have hrsi := Lookup.asksBy_tokenRsi hpools hcandles
  rw [lookUpMetrics]
  split
  · exact hrsi.bind fun rsi => .pure _
  · exact (((Lookup.asksOnce_tokenName network mint).asksBy hname).both hrsi).bind fun found =>
      .pure _

/-- Up to the lookups of deposits a report asks for prices, names, pools and candles. -/
theorem asksBy_prepare {network : Text} (state : MonitorState Number)
    (positions : List (Position Int))
    (hprices : ∀ settings names, Q settings (Endpoint.prices names))
    (hname : ∀ settings mint, Q settings (Endpoint.token network mint))
    (hpools : ∀ settings mint, Q settings (Endpoint.tokenPools network mint))
    (hcandles : ∀ settings pool,
      Q settings (Lookup.candlesUrl network pool none none settings)) :
    AsksBy Q (prepare network state positions) := by
  refine (AsksBy.lift _).bind fun mints => (AsksBy.lift _).bind fun names => ?_
  refine (Lookup.asksBy_prices fun settings => hprices settings names).bind fun prices => ?_
  refine (AsksBy.lift _).bind fun tracked => (AsksBy.gatherRounds ?_).bind fun metrics => ?_
  · exact fun mint _ => asksBy_lookUpMetrics prices state (fun settings => hname settings mint)
      (fun settings => hpools settings mint) hcandles
  · exact (AsksBy.lift _).bind fun unknown => (AsksBy.lift _).bind fun pools => .pure _

theorem asksBy_lookUpFees (pools : List Value)
    (hfees : ∀ settings pool, Q settings (Endpoint.pair pool)) : AsksBy Q (lookUpFees pools) := by
  refine (AsksBy.gather fun pool _ => ?_).bind fun found =>
    (AsksBy.lift _).bind fun names => .pure _
  exact (Lookup.asksOnce_feeInfo pool.shown).asksBy fun settings => hfees settings pool.shown

/-- Names, pools, candles and prices are not asked for where deposits are. -/
theorem asks_prepare (network : Text) (state : MonitorState Number)
    (positions : List (Position Int)) :
    Asks Endpoint.Misses (prepare network state positions) :=
  (asksBy_prepare state positions (fun _ => Endpoint.misses_prices)
    (fun _ => Endpoint.misses_token network) (fun _ => Endpoint.misses_tokenPools network)
    fun _ _ => Endpoint.misses_candles network _ _ _).asks

/-- Neither are the fees of pairs. -/
theorem asks_conclude (label : String) (now : Number) (state : MonitorState Number)
    (positions : List (Position Int)) (prepared : Prepared)
    (deposits : Except Fault (Ledger Identifier (Option (Deposit Number)))) :
    Asks Endpoint.Misses (conclude label now state positions prepared deposits) := by
  have hfees : AsksBy (fun _ => Endpoint.Misses) (lookUpFees prepared.pools) :=
    asksBy_lookUpFees prepared.pools fun _ => Endpoint.misses_pair
  refine AsksBy.asks (hfees.attempt.bind fun fees => (AsksBy.lift _).bind fun deposits => ?_)
  refine (AsksBy.lift _).bind fun fees => (AsksBy.lift _).bind fun report => ?_
  exact (AsksBy.printAll _).bind fun _ => .pure _

/-- The address that the deposits of a position are asked for at. -/
def depositsUrl (id : Identifier) : String := Endpoint.deposits id.toValue.shown

/-- The lookup of the deposits of a position. -/
abbrev lookUpDeposit (id : Identifier) : Run (Option (Deposit Number)) :=
  Lookup.initialDeposit id.toValue.shown

/-- The positions whose deposits a report looks up, each with the outcome of its lookup. -/
def depositLookups (w : World) (state : MonitorState Number) (positions : List (Position Int)) :
    List (Identifier × Except Fault (Option (Deposit Number))) :=
  match (prepare (Endpoint.networkOr "" w.settings.network) state positions).result
      (w.showing [header positions]) with
  | (.ok prepared, w') =>
    prepared.unknown.zip (outcomes (prepared.unknown.map lookUpDeposit) w').1
  | (.error _, _) => []

variable {w after : World} {state next : MonitorState Number} {positions : List (Position Int)}
  {summary : Summary Number}

theorem result_lookUpDeposits (unknown : List Identifier) (w : World) :
    (lookUpDeposits unknown).result w =
      ((do
        let found ← (outcomes (unknown.map lookUpDeposit) w).1.mapM id
        return .ofList (unknown.zip found)),
      (outcomes (unknown.map lookUpDeposit) w).2) := by
  rw [lookUpDeposits, result_bind, result_gather]
  cases (outcomes (unknown.map lookUpDeposit) w).1.mapM id <;> rfl

/-- The lookups go to the addresses of all positions that are not known. -/
theorem map_depositsUrl_zip (unknown : List Identifier) (w : World) :
    (unknown.zip (outcomes (unknown.map lookUpDeposit) w).1).map
      (fun lookup => depositsUrl lookup.1) = unknown.map depositsUrl := by
  have hlength : unknown.length ≤ (outcomes (unknown.map lookUpDeposit) w).1.length := by
    rw [length_outcomes, List.length_map]
  show List.map (depositsUrl ∘ Prod.fst) _ = _
  rw [← List.map_map, List.map_fst_zip hlength]

/-- Up to the lookups of deposits, a report either ends with a fault or has prepared them. -/
theorem result_runPositions_eq (w : World) (state : MonitorState Number)
    (positions : List (Position Int)) : (runPositions state positions).result w =
      match (prepare (Endpoint.networkOr "" w.settings.network) state positions).result
        (w.showing [header positions]) with
      | (.error fault, w') => (.error fault, w')
      | (.ok prepared, w') =>
        (conclude w.settings.label w.now state positions prepared
          ((lookUpDeposits prepared.unknown).result w').1).result
          ((lookUpDeposits prepared.unknown).result w').2 := by
  have hsettings : (w.showing [header positions]).settings = w.settings := rfl
  have hnow : (w.showing [header positions]).now = w.now := rfl
  rw [runPositions_eq, result_bind_ok (result_print _ _), result_bind_ok (result_get _),
    result_bind, hsettings, hnow]
  rcases (prepare (Endpoint.networkOr "" w.settings.network) state positions).result
    (w.showing [header positions]) with ⟨fault | prepared, w'⟩
  · rfl
  · rfl

/-- A report asks for deposits one after the other, exactly at the addresses of the positions that
it looks up, and before and after that for other things. -/
theorem requests_runPositions (hw : w.Ready) (state : MonitorState Number)
    (positions : List (Position Int)) : ∃ before later ms,
      w.Proceeds ((runPositions state positions).result w).2 ms ∧
      ((runPositions state positions).result w).2.requests = w.requests ++ before ++
        (depositLookups w state positions).map (fun lookup => depositsUrl lookup.1) ++ later ∧
      ∀ url ∈ before ++ later, Endpoint.Misses url := by
  have hshown := w.proceeds_showing [header positions]
  have hready := hshown.ready hw
  obtain ⟨before, ms, hprepare, hbefore, hmisses⟩ :=
    asks_prepare (Endpoint.networkOr "" w.settings.network) state positions _ hready
  rw [result_runPositions_eq, depositLookups]
  rcases hresult : (prepare (Endpoint.networkOr "" w.settings.network) state positions).result
    (w.showing [header positions]) with ⟨fault | prepared, w'⟩
  · rw [hresult] at hprepare hbefore
    refine ⟨before, [], _, hshown.trans hprepare, ?_, ?_⟩
    · rw [List.map_nil, List.append_nil, List.append_nil]
      exact hbefore
    · rw [List.append_nil]
      exact hmisses
  · rw [hresult] at hprepare hbefore
    dsimp only at hprepare hbefore ⊢
    have honce := fun id (_ : id ∈ prepared.unknown) =>
      Lookup.asksOnce_initialDeposit id.toValue.shown
    obtain ⟨ms', hlookups, hurls⟩ := proceeds_outcomes honce (hprepare.ready hready)
    have hready' := hlookups.ready (hprepare.ready hready)
    rw [result_lookUpDeposits]
    obtain ⟨later, ms'', hconclude, hlater, hmisses'⟩ := asks_conclude w.settings.label w.now state
      positions prepared _ _ hready'
    refine ⟨before, later, _, hshown.trans (hprepare.trans (hlookups.trans hconclude)), ?_,
      List.forall_mem_append.mpr ⟨hmisses, hmisses'⟩⟩
    rw [hlater, hurls, hbefore, map_depositsUrl_zip]
    rfl

/-- What is prepared for the lookups of deposits are the positions that are not known. -/
theorem unknown_of_prepare {network : Text} {prepared : Prepared}
    (h : (prepare network state positions).result w = (.ok prepared, after)) :
    unknownPositions state positions = .ok prepared.unknown := by
  obtain ⟨mints, w₁, -, h⟩ := result_bind_eq_ok.mp h
  obtain ⟨names, w₂, -, h⟩ := result_bind_eq_ok.mp h
  obtain ⟨prices, w₃, -, h⟩ := result_bind_eq_ok.mp h
  obtain ⟨tracked, w₄, -, h⟩ := result_bind_eq_ok.mp h
  obtain ⟨metrics, w₅, -, h⟩ := result_bind_eq_ok.mp h
  obtain ⟨unknown, w₆, hunknown, h⟩ := result_bind_eq_ok.mp h
  obtain ⟨pools, w₇, -, h⟩ := result_bind_eq_ok.mp h
  obtain ⟨hprepared, -⟩ := Prod.mk.inj h
  rw [(result_lift_eq_ok.mp hunknown).1, ← Except.ok.inj hprepared]

/-- A position whose initial value is known is not looked up. -/
theorem not_known_of_mem_unknown {ids : List Identifier}
    (h : unknownPositions state positions = .ok ids) {id : Identifier} (hid : id ∈ ids) :
    state.initialValues.contains id = false := by
  induction positions generalizing ids with
  | nil =>
    obtain rfl := Except.ok.inj h
    exact absurd hid List.not_mem_nil
  | cons p rest ih =>
    obtain ⟨name, -, h⟩ := bind_eq_ok.mp h
    obtain ⟨others, hothers, h⟩ := bind_eq_ok.mp h
    have hids := pure_eq_ok.mp h
    cases hknown : state.initialValues.contains name with
    | true =>
      rw [hknown, if_pos rfl] at hids
      exact ih hothers (hids ▸ hid)
    | false =>
      rw [hknown, if_neg Bool.false_ne_true] at hids
      rcases List.mem_cons.mp (hids ▸ hid) with rfl | hid
      · exact hknown
      · exact ih hothers hid

theorem not_known_of_mem_lookups {lookup : Identifier × Except Fault (Option (Deposit Number))}
    (h : lookup ∈ depositLookups w state positions) :
    state.initialValues.contains lookup.1 = false := by
  rw [depositLookups] at h
  split at h
  · rename_i prepared w' hprepare
    exact not_known_of_mem_unknown (unknown_of_prepare hprepare) (List.of_mem_zip h).1
  · exact absurd h List.not_mem_nil

/-- A report that ends well has found what its lookups answered, and enters that in its cycle. -/
theorem found_of_runPositions
    (h : (runPositions state positions).result w = (.ok (some (summary, next)), after)) :
    ∃ (found : List (Identifier × Option (Deposit Number))) (data : CycleData Number),
      depositLookups w state positions = found.map (fun lookup => (lookup.1, .ok lookup.2)) ∧
        data.deposits = .ofList found ∧ state.run data = .ok (summary, next) := by
  rw [result_runPositions_eq] at h
  rw [depositLookups]
  rcases hprepare : (prepare (Endpoint.networkOr "" w.settings.network) state positions).result
    (w.showing [header positions]) with ⟨fault | prepared, w'⟩
  · rw [hprepare] at h
    cases h
  · rw [hprepare] at h
    dsimp only at h ⊢
    rw [result_lookUpDeposits] at h
    obtain ⟨fees, w₁, -, h⟩ := result_bind_eq_ok.mp h
    obtain ⟨deposits, w₂, hdeposits, h⟩ := result_bind_eq_ok.mp h
    obtain ⟨fees', w₃, -, h⟩ := result_bind_eq_ok.mp h
    obtain ⟨⟨report, next'⟩, w₄, hreport, h⟩ := result_bind_eq_ok.mp h
    obtain ⟨_, w₅, -, h⟩ := result_bind_eq_ok.mp h
    obtain ⟨hvalue, -⟩ := Prod.mk.inj h
    obtain ⟨rfl, rfl⟩ := Prod.mk.inj (Option.some.inj (Except.ok.inj hvalue))
    -- All lookups of deposits ended well.
    obtain ⟨found, hfound, hall⟩ := bind_eq_ok.mp (result_lift_eq_ok.mp hdeposits).1
    obtain rfl := pure_eq_ok.mp hall
    rw [mapM_id_eq_ok] at hfound
    obtain ⟨valuations, -, hcycle⟩ := bind_eq_ok.mp (result_lift_eq_ok.mp hreport).1
    obtain ⟨⟨total, last⟩, hrun, hblocks⟩ := bind_eq_ok.mp hcycle
    obtain ⟨blocks, -, hresult⟩ := bind_eq_ok.mp hblocks
    obtain ⟨rfl, rfl⟩ := Prod.mk.inj (pure_eq_ok.mp hresult)
    refine ⟨prepared.unknown.zip found, _, ?_, rfl, hrun⟩
    rw [hfound, List.zip_map_right]
    rfl

end Report

/-! ## The session -/

/-- The last answer for a position among the answers of one report. -/
def lastFound (k : Identifier) (found : List (Identifier × Option (Deposit Number))) :
    Option (Deposit Number) :=
  ((found.reverse.find? fun lookup => lookup.1 == k).map Prod.snd).join

namespace Stage

/-- A session against any network. -/
def begin (network : Network) (settings : Settings) : Stage :=
  ⟨.start network (fun _ => none) settings (.whole 0), .initial⟩

/-- The positions whose deposits a call looks up, each with the outcome of its lookup. -/
def lookups (g : Stage) (c : Call) : List (Identifier × Except Fault (Option (Deposit Number))) :=
  match SnapshotFile.load c.files c.path with
  | .ok (p :: rest) => Report.depositLookups (c.enter g.world) g.state (p :: rest)
  | _ => []

/-- The answers of the lookups of a call. -/
def found (g : Stage) (c : Call) : List (Identifier × Option (Deposit Number)) :=
  (g.lookups c).map fun lookup => (lookup.1, lookup.2.toOption.join)

/-- The call returns a state. -/
def completes (g : Stage) (c : Call) : Bool := (g.call c).1.toOption.join.isSome

/-- The answers of the lookups of each call that returns a state. -/
def history (g : Stage) : List Call → List (List (Identifier × Option (Deposit Number)))
  | [] => []
  | c :: rest => (if g.completes c then [g.found c] else []) ++ (g.next c).history rest

variable {g : Stage} {c : Call}

theorem ready_enter {w : World} (hw : w.Ready) (c : Call) : (c.enter w).Ready :=
  ⟨⟨_, rfl⟩, hw.prices, hw.market⟩

/-- A call asks for deposits exactly at the addresses of the positions that it looks up, and leaves
a world in which requests can take their turns. -/
theorem requests_call (hg : g.world.Ready) (c : Call) : (g.call c).2.Ready ∧
    ∃ before later, (g.call c).2.requests = g.world.requests ++ before ++
        (g.lookups c).map (fun lookup => Report.depositsUrl lookup.1) ++ later ∧
      ∀ url ∈ before ++ later, Endpoint.Misses url := by
  have hready := ready_enter hg c
  have hnone : ∀ lines, ((c.enter g.world).showing lines).requests =
      g.world.requests ++ [] ++ [] ++ [] := by
    intro lines
    rw [List.append_nil, List.append_nil, List.append_nil]
    rfl
  have hsilent : ∀ lines, ((c.enter g.world).showing lines).Ready :=
    fun lines => ((c.enter g.world).proceeds_showing lines).ready hready
  have hfiles : (c.enter g.world).files = c.files := rfl
  rw [call, lookups, Report.result_run, hfiles]
  rcases SnapshotFile.load c.files c.path with f | _ | ⟨p, rest⟩
  · dsimp only
    split
    · exact ⟨hsilent _, [], [], hnone _, fun _ hurl => absurd hurl List.not_mem_nil⟩
    · rw [← World.showing_nil (c.enter g.world)]
      exact ⟨hsilent [], [], [], hnone [], fun _ hurl => absurd hurl List.not_mem_nil⟩
  · exact ⟨hsilent _, [], [], hnone _, fun _ hurl => absurd hurl List.not_mem_nil⟩
  · obtain ⟨before, later, ms, hproceeds, hrequests, hmisses⟩ :=
      Report.requests_runPositions hready g.state (p :: rest)
    exact ⟨hproceeds.ready hready, before, later, hrequests, hmisses⟩

theorem ready_after (hg : g.world.Ready) (calls : List Call) : (g.after calls).world.Ready := by
  induction calls generalizing g with
  | nil => exact hg
  | cons c rest ih =>
    have hnext : (g.next c).world.Ready := by
      rw [world_next]
      exact (requests_call hg c).1
    exact ih hnext

/-- What a call that returns a state has found, and how it enters that. -/
theorem found_of_call {summary : Summary Number} {next : MonitorState Number} {after : World}
    (h : g.call c = (.ok (some (summary, next)), after)) :
    (∀ lookup ∈ g.lookups c, ∃ answer, lookup.2 = .ok answer) ∧
      (g.state.known.Coherent → next.known.Coherent ∧ ∀ k,
        next.deposits.get? k = (g.state.deposits.get? k).or (lastFound k (g.found c))) := by
  have hfiles : (c.enter g.world).files = c.files := rfl
  rw [call, Report.result_run, hfiles] at h
  rw [found, lookups]
  rcases hload : SnapshotFile.load c.files c.path with f | _ | ⟨p, rest⟩
  · rw [hload] at h
    dsimp only at h
    split at h
    · cases h
    · cases h
  · rw [hload] at h
    obtain ⟨hvalue, -⟩ := Prod.mk.inj h
    obtain ⟨-, rfl⟩ := Prod.mk.inj (Option.some.inj (Except.ok.inj hvalue))
    exact ⟨fun _ hlookup => absurd hlookup List.not_mem_nil,
      fun hc => ⟨hc, fun k => Option.or_none.symm⟩⟩
  · rw [hload] at h
    obtain ⟨found, data, hlookups, hdata, hrun⟩ := Report.found_of_runPositions h
    dsimp only
    have hfound : (found.map fun lookup =>
        (lookup.1, (Except.ok lookup.2 : Except Fault (Option (Deposit Number))))).map
          (fun lookup => (lookup.1, lookup.2.toOption.join)) = found := by
      rw [List.map_map]
      exact List.map_id found
    rw [hlookups, hfound]
    refine ⟨fun lookup hlookup => ?_, fun hc => ?_⟩
    · obtain ⟨entry, -, rfl⟩ := List.mem_map.mp hlookup
      exact ⟨entry.2, rfl⟩
    · obtain ⟨hentered, -⟩ := MonitorState.run_eq_ok.mp hrun
      obtain ⟨hnext, hget⟩ := hc.enterAll hentered
      refine ⟨hnext, fun k => (hget k).trans ?_⟩
      -- The ledger keeps the last answer for a position, and that is what the cycle finds first.
      rw [hdata, MonitorState.firstFound, Ledger.findSome?_entries (Ledger.distinct_ofList _),
        Ledger.get?_ofList]
      rfl

/-- A call keeps what is known, and adds what it found if it returns a state. -/
theorem deposits_next (hg : g.state.known.Coherent) (c : Call) :
    (g.next c).state.known.Coherent ∧ ∀ k, (g.next c).state.deposits.get? k =
      (g.state.deposits.get? k).or (if g.completes c then lastFound k (g.found c) else none) := by
  rw [next, completes]
  rcases hcall : g.call c with ⟨fault | _ | ⟨summary, next⟩, after⟩
  · exact ⟨hg, fun k => Option.or_none.symm⟩
  · exact ⟨hg, fun k => Option.or_none.symm⟩
  · exact (found_of_call hcall).2 hg

theorem deposits_after_coherent (hg : g.state.known.Coherent) (calls : List Call) :
    (g.after calls).state.known.Coherent ∧ ∀ k, (g.after calls).state.deposits.get? k =
      (g.state.deposits.get? k).or ((g.history calls).findSome? (lastFound k)) := by
  induction calls generalizing g with
  | nil => exact ⟨hg, fun k => Option.or_none.symm⟩
  | cons c rest ih =>
    obtain ⟨hnext, hget⟩ := deposits_next hg c
    obtain ⟨hlast, hrest⟩ := ih hnext
    refine ⟨hlast, fun k => ?_⟩
    have hstep := hrest k
    rw [hget, Option.or_assoc] at hstep
    rw [history, List.findSome?_append]
    refine hstep.trans (congrArg _ (congrArg (fun x => Option.or x _) ?_))
    cases g.completes c with
    | true => simp
    | false => rfl

/-- If the last answers for a position are the first deposits found for it, report by report, then
the first of them is the first deposit found at all. -/
theorem findSome?_lastFound {k : Identifier}
    {history : List (List (Identifier × Option (Deposit Number)))}
    (h : ∀ found ∈ history, lastFound k found = MonitorState.firstFound k found) :
    history.findSome? (lastFound k) = MonitorState.firstFound k history.flatten := by
  induction history with
  | nil => rfl
  | cons found rest ih =>
    obtain ⟨hfound, hrest⟩ := List.forall_mem_cons.mp h
    rw [List.findSome?_cons, List.flatten_cons, MonitorState.firstFound_append, hfound, ih hrest]
    cases MonitorState.firstFound k found <;> rfl

/-- A position whose deposit is known is not looked up. -/
theorem not_looked_up (hg : g.state.known.Coherent) {k : Identifier}
    (hknown : (g.state.deposits.get? k).isSome) (c : Call) :
    ∀ lookup ∈ g.lookups c, (lookup.1 == k) = false := by
  intro lookup hlookup
  have hunknown : g.state.known.initialValues.contains lookup.1 = false := by
    rw [lookups] at hlookup
    split at hlookup
    · exact Report.not_known_of_mem_lookups hlookup
    · exact absurd hlookup List.not_mem_nil
  by_contra hsame
  rw [hg.contains_iff, Ledger.get?_congr _ (Bool.eq_true_of_not_eq_false hsame)] at hunknown
  exact absurd (hunknown.symm.trans hknown) Bool.false_ne_true

/-- **Which deposits a session knows.** After any calls against any network, the deposit known for a
position is the first one among the last answers of the reports that returned a state. As long as
the last lookup of the position in every report answers the first deposit that was found there, this
is the first deposit that was ever found for it. The initial value is that of the deposit. A deposit
that is known stays known whatever is called, and is never looked up again: a call asks for the
deposits of the positions that it looks up, and for no others. -/
theorem deposits_kept (network : Network) (settings : Settings) (calls : List Call)
    (k : Identifier) :
    let start := begin network settings
    let g := start.after calls
    g.state.deposits.get? k = (start.history calls).findSome? (lastFound k) ∧
    ((∀ found ∈ start.history calls, lastFound k found = MonitorState.firstFound k found) →
      g.state.deposits.get? k = MonitorState.firstFound k (start.history calls).flatten) ∧
    (g.state.initialValues.get? k).map Except.ok =
      (g.state.deposits.get? k).map Deposit.initialValue ∧
    ((g.state.deposits.get? k).isSome → ∀ later,
      (g.after later).state.deposits.get? k = g.state.deposits.get? k ∧
      ∀ c, ∀ lookup ∈ (g.after later).lookups c, (lookup.1 == k) = false) ∧
    ∀ c, ∃ before later, (g.call c).2.requests = g.world.requests ++ before ++
        (g.lookups c).map (fun lookup => Report.depositsUrl lookup.1) ++ later ∧
      ∀ url ∈ before ++ later, ∀ position, url ≠ Endpoint.deposits position := by
  intro start g
  have hstart : start.state.known.Coherent := .empty
  obtain ⟨hcoherent, hget⟩ := deposits_after_coherent hstart calls
  have hknown : g.state.deposits.get? k = (start.history calls).findSome? (lastFound k) :=
    (hget k).trans (Option.none_or ..)
  refine ⟨hknown, fun hagree => ?_, hcoherent.values k, fun hsome later => ?_, fun c => ?_⟩
  · rw [hknown]
    exact findSome?_lastFound hagree
  · obtain ⟨hlater, hkept⟩ := deposits_after_coherent hcoherent later
    have hsame : (g.after later).state.deposits.get? k = g.state.deposits.get? k :=
      (hkept k).trans (Option.or_of_isSome hsome)
    refine ⟨hsame, not_looked_up hlater ?_⟩
    exact (congrArg Option.isSome hsame).trans hsome
  · have hready : g.world.Ready := ready_after (World.ready_start ..) calls
    obtain ⟨-, before, later, hrequests, hmisses⟩ := requests_call hready c
    refine ⟨before, later, hrequests, fun url hurl position heq => ?_⟩
    exact Endpoint.not_misses_deposits position (heq ▸ hmisses url hurl)

/-- A network that knows the deposit, but fails to answer some of the requests for it. -/
def sampleNetwork (fails : List String → Bool) : Network :=
  fun log url => if fails log then .failed else sampleAnswer url

/-- The deposit was asked for already. -/
def wasAsked (log : List String) : Bool := log.contains (Endpoint.deposits "A")

/-- The first report looks up the deposit in vain, the second finds it, and the third does not ask
again. -/
theorem deposits_kept_sample :
    let g := (begin (sampleNetwork fun log => !wasAsked log) .standard).after
      [sampleCall, sampleCall]
    g.state.deposits.get? (.text "A") = MonitorState.firstFound (.text "A")
        ((begin (sampleNetwork fun log => !wasAsked log) .standard).history
          [sampleCall, sampleCall]).flatten ∧
      (g.state.deposits.get? (.text "A")).isSome ∧
      (g.after [sampleCall]).state.deposits.get? (.text "A") =
        g.state.deposits.get? (.text "A") := by
  obtain ⟨-, hfirst, -, hstays, -⟩ :=
    deposits_kept (sampleNetwork fun log => !wasAsked log) .standard [sampleCall, sampleCall]
      (.text "A")
  have hagree : ∀ found ∈ (begin (sampleNetwork fun log => !wasAsked log) .standard).history
      [sampleCall, sampleCall], lastFound (.text "A") found =
        MonitorState.firstFound (.text "A") found := by decide +kernel
  have hsome : (((begin (sampleNetwork fun log => !wasAsked log) .standard).after
      [sampleCall, sampleCall]).state.deposits.get? (.text "A")).isSome := by decide +kernel
  exact ⟨hfirst hagree, hsome, (hstays hsome [sampleCall]).1⟩

/-- A call for a report on a file in which the position stands twice. -/
def twiceCall : Call :=
  { sampleCall with
    files := fun _ => some ("[\x7b\"position_id\": \"A\", \"pool_address\": \"B\", " ++
      "\"token_x_mint\": \"C\", \"token_y_mint\": \"C\"\x7d, \x7b\"position_id\": \"A\", " ++
      "\"pool_address\": \"B\", \"token_x_mint\": \"C\", \"token_y_mint\": \"C\"\x7d]"
      ).toUTF8.toList }

/-- A deposit that was found is lost: the second lookup of the position in the same report fails,
and the report, which ends well, returns a state without the deposit. -/
theorem deposit_lost_sample :
    (begin (sampleNetwork wasAsked) .standard).completes twiceCall = true ∧
      (MonitorState.firstFound (.text "A")
        ((begin (sampleNetwork wasAsked) .standard).history [twiceCall]).flatten).isSome ∧
      (((begin (sampleNetwork wasAsked) .standard).after [twiceCall]).state.deposits.get?
        (.text "A")).isNone := by
  decide +kernel

end Stage

end LiquidityWatch
