import LiquidityWatch.Proofs.Answers
import LiquidityWatch.Proofs.History
import LiquidityWatch.Report
import Mathlib.Data.List.Flatten

/-! # What a report finds

The lookups of a report depend on the state that it carries on: names and deposits that are known
are not looked up again. As long as what is known is what the lookups would answer
(`Answers.Bears`), a report finds the same as from the initial state, but for deposits that it knows
already, and prints no message that it would not print from there. -/

namespace LiquidityWatch

open Run

namespace Answers

variable {s : Surroundings} {network : Text} (A : Answers s network)

/-! ## The effects of the lookups -/

/-- Fresh metrics of a token. -/
def metrics (now : Number) (prices : Ledger Text Number) (state : MonitorState Number)
    (mint : Text) : Effect (TokenMetrics Number) :=
  let price := (prices.get? mint).getD (.real .zero)
  match state.metrics.get? mint with
  | some known => do
    let rsi ← A.rsi now mint
    return ⟨mint, known.name, price, rsi, .real .zero⟩
  | none => do
    let (name, rsi) ← (A.name mint).both (A.rsi now mint)
    return ⟨mint, name, price, rsi, .real .zero⟩

/-- Fresh metrics of tokens. -/
def allMetrics (now : Number) (prices : Ledger Text Number) (state : MonitorState Number)
    (mints : List Text) : Effect (List (TokenMetrics Number)) :=
  Effect.gatherRounds state.metrics.contains (A.metrics now prices state) mints

/-- The fees of pools. -/
def poolFees (pools : List Value) : Effect (Ledger Identifier Lookup.FeeInfo) := do
  let found ← Effect.gather (pools.map fun pool => A.fees pool.shown)
  let names ← (pools.mapM Value.identifier : Except Fault (List Identifier))
  return .ofList ((names.zip found).filterMap fun (pool, fees) => fees.map ((pool, ·)))

/-- The deposits of positions. -/
def deposits (unknown : List Identifier) :
    Effect (Ledger Identifier (Option (Deposit Number))) := do
  let found ← Effect.gather (unknown.map fun id => A.deposit id.toValue.shown)
  return .ofList (unknown.zip found)

/-- All that a report on positions looks up. -/
def findings (now : Number) (state : MonitorState Number) (positions : List (Position Int)) :
    Effect Report.Findings := do
  let mints ← Report.sortedDistinct (positions.map (·.x.mint) ++ positions.map (·.y.mint))
  let names ← Value.texts 0 mints
  let prices ← A.prices names
  let tracked ← Report.sortedDistinct (positions.map Report.trackedMint)
  let metrics ← A.allMetrics now prices state (tracked.map (·.shown))
  let unknown ← Report.unknownPositions state positions
  let pools ← Report.sortedDistinct (positions.map (·.pool))
  let (deposits, fees) ← (A.deposits unknown).both (A.poolFees pools)
  return { prices, metrics := .ofList (metrics.map fun m => (m.mint, m)), deposits, fees }

variable {now : Number} (hnow : s.times now)

include hnow

theorem gives_metrics (prices : Ledger Text Number) (state : MonitorState Number) (mint : Text) :
    Gives (s.at now) (Report.lookUpMetrics network prices state mint)
      (A.metrics now prices state mint) := by
  rw [Report.lookUpMetrics, metrics]
  cases state.metrics.get? mint with
  | some known => exact (A.gives_rsi now mint).bind fun rsi => .pure _
  | none =>
    exact (((A.gives_name mint).at_time hnow).both (A.gives_rsi now mint)).bind fun found => .pure _

theorem gives_allMetrics (prices : Ledger Text Number) (state : MonitorState Number)
    (mints : List Text) : Gives (s.at now) (Report.lookUpAllMetrics network prices state mints)
      (A.allMetrics now prices state mints) :=
  .gatherRounds fun mint _ => A.gives_metrics hnow prices state mint

theorem gives_poolFees (pools : List Value) :
    Gives (s.at now) (Report.lookUpFees pools) (A.poolFees pools) :=
  (Gives.gather fun pool _ => (A.gives_fees pool.shown).at_time hnow).bind fun _ =>
    (Gives.ofExcept _).bind fun _ => .pure _

theorem gives_deposits (unknown : List Identifier) :
    Gives (s.at now) (Report.lookUpDeposits unknown) (A.deposits unknown) :=
  (Gives.gather fun id _ => (A.gives_deposit id.toValue.shown).at_time hnow).bind fun _ =>
    .pure _

theorem gives_findings (state : MonitorState Number) (positions : List (Position Int)) :
    Gives (s.at now) (Report.lookUp network state positions) (A.findings now state positions) := by
  refine (Gives.ofExcept _).bind fun mints => (Gives.ofExcept _).bind fun names => ?_
  refine ((A.gives_prices names).at_time hnow).bind fun prices => ?_
  refine (Gives.ofExcept _).bind fun tracked => ?_
  refine (A.gives_allMetrics hnow prices state _).bind fun found => ?_
  refine (Gives.ofExcept _).bind fun unknown => (Gives.ofExcept _).bind fun pools => ?_
  exact ((A.gives_deposits hnow unknown).both (A.gives_poolFees hnow pools)).bind
    fun pair => .pure _

omit hnow

/-! ## What is known -/

/-- All that a state knows is what the lookups answer. -/
structure Bears (state : MonitorState Number) : Prop where
  coherent : state.known.Coherent
  names : ∀ mint known, state.metrics.get? mint = some known →
    (A.name mint).outcome = .ok known.name
  deposits : ∀ id deposit, state.deposits.get? id = some deposit →
    ∃ position, id = .text position ∧ (A.deposit position).outcome = .ok (some deposit)

theorem bears_initial : A.Bears .initial :=
  ⟨.empty, fun _ _ h => (nomatch h), fun _ _ h => (nomatch h)⟩

variable {A} {state : MonitorState Number}

/-- An initial value is known exactly where a deposit is. -/
theorem Bears.contains_eq (hb : A.Bears state) (id : Identifier) :
    state.initialValues.contains id = (state.deposits.get? id).isSome :=
  hb.coherent.contains_iff id

/-- Metrics with a known name. -/
theorem metrics_of_known {mint : Text} {known : TokenMetrics Number}
    (h : state.metrics.get? mint = some known) (prices : Ledger Text Number) :
    A.metrics now prices state mint = (do
      let rsi ← A.rsi now mint
      return ⟨mint, known.name, (prices.get? mint).getD (.real .zero), rsi, .real .zero⟩) := by
  rw [metrics, h]

/-- Metrics with a name that is looked up. -/
theorem metrics_of_unknown {mint : Text} (h : state.metrics.get? mint = none)
    (prices : Ledger Text Number) :
    A.metrics now prices state mint = (do
      let (name, rsi) ← (A.name mint).both (A.rsi now mint)
      return ⟨mint, name, (prices.get? mint).getD (.real .zero), rsi, .real .zero⟩) := by
  rw [metrics, h]

/-- A name that is known makes no difference to the metrics, but no message about it is printed. -/
theorem Bears.metrics_eq (hb : A.Bears state) (prices : Ledger Text Number) (mint : Text) :
    (A.metrics now prices state mint).outcome = (A.metrics now prices .initial mint).outcome ∧
      (A.metrics now prices state mint).messages.Sublist
        (A.metrics now prices .initial mint).messages := by
  have hinitial : (MonitorState.initial : MonitorState Number).metrics.get? mint = none := rfl
  rw [metrics_of_unknown hinitial]
  cases hknown : state.metrics.get? mint with
  | none => rw [metrics_of_unknown hknown]; exact ⟨rfl, .refl _⟩
  | some known =>
    have hname := hb.names mint known hknown
    rw [metrics_of_known hknown]
    generalize A.name mint = name at hname
    generalize A.rsi now mint = rsi
    obtain ⟨outcome, ms⟩ := rsi
    obtain ⟨_, ms'⟩ := name
    obtain rfl := hname
    cases outcome with
    | error fault => exact ⟨rfl, List.sublist_append_right _ _⟩
    | ok reading => exact ⟨rfl, .append (List.sublist_append_right _ _) (.refl _)⟩

/-- The name in the metrics is the one that a lookup would answer. -/
theorem Bears.metrics_name (hb : A.Bears state) {prices : Ledger Text Number} {mint : Text}
    {m : TokenMetrics Number} (h : (A.metrics now prices state mint).outcome = .ok m) :
    m.mint = mint ∧ (A.name mint).outcome = .ok m.name := by
  have hinitial : (MonitorState.initial : MonitorState Number).metrics.get? mint = none := rfl
  rw [(hb.metrics_eq prices mint).1, metrics_of_unknown hinitial] at h
  obtain ⟨⟨name, rsi⟩, _, _, hboth, hm, -⟩ := Effect.bind_eq_ok.mp (Effect.ext h rfl)
  obtain ⟨hname, -, -⟩ := Effect.both_eq_ok.mp hboth
  obtain rfl := Except.ok.inj (Effect.mk.inj hm).1
  exact ⟨rfl, hname⟩

/-- The metrics of all tokens are the same as without known names. The messages come in another
order, since a token with a known name does not wait for the lookup of its name. -/
theorem Bears.allMetrics_below (hb : A.Bears state) (prices : Ledger Text Number)
    (mints : List Text) :
    (A.allMetrics now prices state mints).Below
      (fun found found' => found' = found ∧ ∀ m ∈ found, (A.name m.mint).outcome = .ok m.name)
      (A.allMetrics now prices .initial mints) := by
  intro found ms h
  obtain ⟨hall, rfl⟩ := Effect.gatherRounds_eq_ok.mp h
  refine ⟨found, _, Effect.gatherRounds_eq_ok.mpr ⟨?_, rfl⟩, ⟨rfl, fun m hm => ?_⟩, ?_⟩
  · exact hall.imp fun mint m hm => (hb.metrics_eq prices mint).1 ▸ hm
  · obtain ⟨mint, -, hmint⟩ := exists_of_forall₂_right hall hm
    obtain ⟨hm, hname⟩ := hb.metrics_name hmint
    rw [hm, hname]
  · -- In the order of one of the two, each token has no messages that it would not have initially.
    have hsub : ((inRounds state.metrics.contains mints).flatMap
        fun mint => (A.metrics now prices state mint).messages).Sublist
        ((inRounds state.metrics.contains mints).flatMap
          fun mint => (A.metrics now prices .initial mint).messages) :=
      List.Sublist.flatMap_right _ fun mint _ => (hb.metrics_eq prices mint).2
    have hperm (atOnce : Text → Bool) :
        (inRounds state.metrics.contains mints).Perm (inRounds atOnce mints) :=
      (inRounds_perm _ mints).trans (inRounds_perm _ mints).symm
    exact hsub.subperm.trans ((hperm _).flatMap_right _).subperm

/-! ## Deposits that are looked up -/

/-- The deposit that a lookup would answer. -/
def depositOf (A : Answers s network) (position : Text) : Option (Deposit Number) :=
  (A.deposit position).outcome.toOption.join

/-- The deposits that lookups would answer for positions. -/
def depositsOf (A : Answers s network) (positions : List Text) :
    Ledger Identifier (Option (Deposit Number)) :=
  .ofList (positions.map fun position => (.text position, A.depositOf position))

/-- The lookups of deposits end well exactly if each of them does. -/
theorem deposits_eq_ok {positions : List Text}
    {found : Ledger Identifier (Option (Deposit Number))} {ms : List String} :
    A.deposits (positions.map .text) = ⟨.ok found, ms⟩ ↔
      (∀ position ∈ positions, (A.deposit position).outcome = .ok (A.depositOf position)) ∧
        found = A.depositsOf positions ∧
        ms = positions.flatMap fun position => (A.deposit position).messages := by
  have hzip : (positions.map Identifier.text).zip (positions.map A.depositOf) =
      positions.map fun position => (.text position, A.depositOf position) :=
    List.zip_map' ..
  have hgather : Effect.gather ((positions.map Identifier.text).map
      fun id => A.deposit id.toValue.shown) = Effect.gather (positions.map A.deposit) := by
    rw [List.map_map]
    rfl
  rw [deposits, hgather]
  constructor
  · intro h
    obtain ⟨answers, m, m', hanswers, hfound, rfl⟩ := Effect.bind_eq_ok.mp h
    obtain ⟨hall, rfl⟩ := Effect.gather_eq_ok.mp hanswers
    obtain ⟨hfound, hm'⟩ := Effect.mk.inj hfound
    -- The answer that was gathered for a position is the one that `depositOf` reads off its lookup.
    have houtcome : ∀ position ∈ positions,
        (A.deposit position).outcome = .ok (A.depositOf position) := by
      intro position hposition
      obtain ⟨answer, hanswer⟩ := exists_of_forall₂_left hall hposition
      rw [depositOf, hanswer]
      rfl
    have hanswers : answers = positions.map A.depositOf :=
      Except.ok.inj ((mapM_eq_ok.mpr hall).symm.trans (mapM_eq_map houtcome))
    refine ⟨houtcome, ?_, ?_⟩
    · rw [← Except.ok.inj hfound, hanswers, hzip]
      rfl
    · rw [← hm', List.append_nil]
  · rintro ⟨houtcome, rfl, rfl⟩
    refine Effect.bind_eq_ok.mpr ⟨positions.map A.depositOf, _, [],
      Effect.gather_eq_ok.mpr ⟨mapM_eq_ok.mp (mapM_eq_map houtcome), rfl⟩, ?_,
      (List.append_nil _).symm⟩
    rw [hzip]
    rfl

/-- The positions that are looked up are those whose deposits are not known. -/
theorem unknownPositions_eq {positions : List (Position Int)} {ids : List Text}
    (hids : positions.map (·.id) = ids.map .text) :
    Report.unknownPositions state positions =
      .ok ((ids.filter fun id => !state.initialValues.contains (.text id)).map .text) := by
  induction positions generalizing ids with
  | nil =>
    obtain rfl := List.map_eq_nil_iff.mp hids.symm
    rfl
  | cons p rest ih =>
    cases ids with
    | nil => cases hids
    | cons id ids =>
      obtain ⟨hid, hrest⟩ := List.cons.inj hids
      have hid : p.id = .text id := hid
      rw [Report.unknownPositions, hid, ih hrest, List.filter_cons]
      show Except.ok (if state.initialValues.contains (.text id) then _ else _) = _
      cases state.initialValues.contains (.text id) <;> rfl

/-- A deposit that is known is the one that a lookup would answer. -/
theorem Bears.depositOf_eq (hb : A.Bears state) {id : Text} {deposit : Deposit Number}
    (h : state.deposits.get? (.text id) = some deposit) :
    (A.deposit id).outcome = .ok (A.depositOf id) ∧ A.depositOf id = some deposit := by
  obtain ⟨position, hposition, houtcome⟩ := hb.deposits _ _ h
  obtain rfl := Identifier.text.inj hposition
  have hdeposit : A.depositOf id = some deposit := by
    rw [depositOf, houtcome]
    rfl
  exact ⟨houtcome.trans (congrArg Except.ok hdeposit.symm), hdeposit⟩

/-- The positions whose deposits a state does not know. -/
def unknownIn (state : MonitorState Number) (ids : List Text) : List Text :=
  ids.filter fun id => !state.initialValues.contains (.text id)

/-- The deposits that are not looked up are known, so all lookups of deposits end well. -/
theorem Bears.deposits_below (hb : A.Bears state) (ids : List Text) :
    (A.deposits ((unknownIn state ids).map .text)).Below
      (fun found found' =>
        (∀ id ∈ ids, (A.deposit id).outcome = .ok (A.depositOf id)) ∧
          found = A.depositsOf (unknownIn state ids) ∧ found' = A.depositsOf ids)
      (A.deposits (ids.map .text)) := by
  intro found ms h
  obtain ⟨hunknown, hfound, rfl⟩ := deposits_eq_ok.mp h
  have hall : ∀ id ∈ ids, (A.deposit id).outcome = .ok (A.depositOf id) := by
    intro id hid
    by_cases hknown : state.initialValues.contains (.text id)
    · rw [hb.contains_eq, Option.isSome_iff_exists] at hknown
      obtain ⟨deposit, hdeposit⟩ := hknown
      exact (hb.depositOf_eq hdeposit).1
    · exact hunknown id (List.mem_filter.mpr ⟨hid, by simpa using hknown⟩)
  exact ⟨_, _, deposits_eq_ok.mpr ⟨hall, rfl, rfl⟩, ⟨hall, hfound, rfl⟩,
    (List.filter_sublist.flatMap _).subperm⟩

/-! ## All that is looked up -/

/-- What a report finds from a state: the lookups of all its deposits end well, those that are not
known are found, and every name is the one that a lookup would answer. -/
structure Found (A : Answers s network) (state : MonitorState Number) (ids : List Text)
    (findings : Report.Findings) : Prop where
  answered : ∀ id ∈ ids, (A.deposit id).outcome = .ok (A.depositOf id)
  deposits : findings.deposits = A.depositsOf (unknownIn state ids)
  names : ∀ e ∈ findings.metrics.entries, (A.name e.2.mint).outcome = .ok e.2.name

/-- From a state that knows what the lookups answer, a report finds the same as from the initial
state, but for the deposits that are known. -/
theorem Bears.findings_below (hb : A.Bears state) {positions : List (Position Int)}
    {ids : List Text} (hids : positions.map (·.id) = ids.map .text) :
    (A.findings now state positions).Below
      (fun found found' => A.Found state ids found ∧
        found' = { found with deposits := A.depositsOf ids })
      (A.findings now .initial positions) := by
  have hnone : unknownIn .initial ids = ids := List.filter_eq_self.mpr fun _ _ => rfl
  -- Prices and the tokens that are tracked do not depend on the state.
  refine .bind (.refl _) ?_
  rintro mints _ rfl
  refine .bind (.refl _) ?_
  rintro names _ rfl
  refine .bind (.refl _) ?_
  rintro prices _ rfl
  refine .bind (.refl _) ?_
  rintro tracked _ rfl
  -- Names and deposits do: what is known is left out on one side.
  refine .bind (hb.allMetrics_below prices _) ?_
  rintro metrics _ ⟨rfl, hnames⟩
  rw [unknownPositions_eq hids, unknownPositions_eq hids]
  refine .bind (R := fun u u' => u = (unknownIn state ids).map .text ∧ u' = ids.map .text)
    (.pure ⟨rfl, congrArg _ hnone⟩) ?_
  rintro _ _ ⟨rfl, rfl⟩
  refine .bind (.refl _) ?_
  rintro pools _ rfl
  refine .bind ((hb.deposits_below ids).both (.refl _)) ?_
  rintro ⟨deposits, fees⟩ ⟨deposits', _⟩ ⟨⟨hanswered, hdeposits, rfl⟩, rfl⟩
  refine .pure ⟨⟨hanswered, hdeposits, fun e he => ?_⟩, rfl⟩
  obtain ⟨_, hm, hvalue⟩ := Ledger.exists_of_mem_ofList he
  obtain ⟨m, hmem, rfl⟩ := List.mem_map.mp hm
  rw [← hvalue]
  exact hnames m hmem

end Answers

end LiquidityWatch
