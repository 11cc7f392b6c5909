import LiquidityWatch.Proofs.Session
import LiquidityWatch.Proofs.SortedNames

/-! # Reports on positions with names

Where all names in a file are text, what a report finds hangs on the names alone: which tokens there
are, which of them are tracked, which pools, and which positions have no known deposit
(`Answers.findings_named`). The block of a position then goes by its own entry and by what was found
under its names, and no position is without a block (`Report.Rests.blocks`). -/

namespace LiquidityWatch

open Run

/-! ## Deposits that are entered -/

namespace MonitorState.Deposits

variable {α : Type} [Scalar α]

/-- What a record knows after deposits were entered, whatever it knew before: the first deposit
found for a position counts, unless its initial value was known. -/
theorem get?_enterAll {entries : List (Identifier × Option (Deposit α))} {known after : Deposits α}
    (h : entries.foldlM enter known = .ok after) (k : Identifier) :
    after.initialValues.get? k = (known.initialValues.get? k).or
      ((firstFound k entries).bind fun deposit => deposit.initialValue.toOption) ∧
    after.deposits.get? k = if known.initialValues.contains k then known.deposits.get? k
      else (firstFound k entries).or (known.deposits.get? k) := by
  induction entries generalizing known with
  | nil =>
    obtain rfl := Except.ok.inj h
    exact ⟨(Option.or_none ..).symm, (ite_self _).symm⟩
  | cons e rest ih =>
    obtain ⟨id, found⟩ := e
    obtain ⟨middle, hmiddle, hrest⟩ := bind_eq_ok.mp h
    obtain ⟨hvalue, hdeposit⟩ := ih hrest
    have hfirst : firstFound k ((id, found) :: rest) =
        (if id == k then found else none).or (firstFound k rest) := by
      rw [← List.singleton_append, firstFound_append, firstFound_singleton]
    rw [hfirst, hvalue, hdeposit]
    cases found with
    | none =>
      obtain rfl := Except.ok.inj hmiddle
      simp
    | some deposit =>
      rw [enter] at hmiddle
      by_cases hknown : known.initialValues.contains id
      · rw [if_pos hknown] at hmiddle
        obtain rfl := Except.ok.inj hmiddle
        by_cases hsame : id == k
        · -- The position is known already, so nothing is entered for it.
          rw [Ledger.contains, Ledger.get?_congr _ hsame, Option.isSome_iff_exists] at hknown
          obtain ⟨value, hget⟩ := hknown
          simp [Ledger.contains, hget]
        · simp [hsame]
      · rw [if_neg hknown] at hmiddle
        obtain ⟨value, hinitial, hmiddle⟩ := bind_eq_ok.mp hmiddle
        obtain rfl := pure_eq_ok.mp hmiddle
        rw [Ledger.contains_insert, Ledger.get?_insert, Ledger.get?_insert]
        by_cases hsame : id == k
        · rw [Ledger.contains, Ledger.get?_congr _ hsame, Bool.not_eq_true,
            Option.isSome_eq_false_iff, Option.isNone_iff_eq_none] at hknown
          simp [Ledger.contains, hsame, hknown, hinitial, Except.toOption]
        · simp [hsame]

end MonitorState.Deposits

/-! ## What is found -/

namespace Answers

variable {s : Surroundings} {network : Text} {A : Answers s network} {now : Number}
  {state : MonitorState Number} {positions : List (Position Int)}

/-- Where all names are text, a report goes through them without a fault. -/
theorem findings_named (htext : ∀ p ∈ positions, p.TextNamed) (now : Number)
    (state : MonitorState Number) : A.findings now state positions = (do
      let prices ← A.prices (Report.mintNames positions)
      let metrics ← A.allMetrics now prices state (Report.trackedNames positions)
      let (deposits, fees) ← (A.deposits ((Report.unknownNames state positions).map .text)).both
        (A.poolFees ((Report.poolNames positions).map .text))
      return {
        prices, metrics := .ofList (metrics.map fun m => (m.mint, m)), deposits, fees }) := by
  have hlift : ∀ {α β : Type} (a : α) (f : α → Effect β),
      ((liftM (Except.ok a : Except Fault α) : Effect α) >>= f) = f a := fun _ _ => rfl
  rw [findings, Report.sortedDistinct_mints htext, Report.sortedDistinct_tracked htext,
    Report.sortedDistinct_pools htext,
    unknownPositions_eq (Value.map_eq_text fun p hp => (htext p hp).id)]
  simp only [hlift, Report.texts_text, Value.map_shown_text]
  rfl

theorem mint_of_metrics {prices : Ledger Text Number} {mint : Text} {m : TokenMetrics Number}
    (h : (A.metrics now prices state mint).outcome = .ok m) : m.mint = mint := by
  rw [metrics] at h
  cases hknown : state.metrics.get? mint with
  | some known =>
    rw [hknown] at h
    obtain ⟨rsi, _, _, -, hm, -⟩ := Effect.bind_eq_ok.mp (Effect.ext h rfl)
    rw [← Except.ok.inj (Effect.mk.inj hm).1]
  | none =>
    rw [hknown] at h
    obtain ⟨⟨name, rsi⟩, _, _, -, hm, -⟩ := Effect.bind_eq_ok.mp (Effect.ext h rfl)
    rw [← Except.ok.inj (Effect.mk.inj hm).1]

/-- What was found on positions with names: all but the deposits goes by the names of tokens and
pools, and every token that is tracked has metrics. -/
structure Named (A : Answers s network) (now : Number) (state : MonitorState Number)
    (positions : List (Position Int)) (findings : Report.Findings) : Prop where
  prices : (A.prices (Report.mintNames positions)).outcome = .ok findings.prices
  metrics : ∃ found, List.Forall₂ (fun mint m =>
      (A.metrics now findings.prices state mint).outcome = .ok m)
      (Report.trackedNames positions) found ∧
    findings.metrics = .ofList (found.map fun m => (m.mint, m))
  deposits : findings.deposits = A.depositsOf (Report.unknownNames state positions)
  fees : (A.poolFees ((Report.poolNames positions).map .text)).outcome = .ok findings.fees

theorem named_of_findings (htext : ∀ p ∈ positions, p.TextNamed) {findings : Report.Findings}
    {ms : List String} (h : A.findings now state positions = ⟨.ok findings, ms⟩) :
    A.Named now state positions findings := by
  rw [findings_named htext] at h
  obtain ⟨prices, _, _, hprices, h, -⟩ := Effect.bind_eq_ok.mp h
  obtain ⟨found, _, _, hfound, h, -⟩ := Effect.bind_eq_ok.mp h
  obtain ⟨⟨deposits, fees⟩, _, _, hboth, h, -⟩ := Effect.bind_eq_ok.mp h
  obtain ⟨hdeposits, hfees, -⟩ := Effect.both_eq_ok.mp hboth
  obtain rfl := Except.ok.inj (Effect.mk.inj h).1
  obtain ⟨hall, -⟩ := Effect.gatherRounds_eq_ok.mp hfound
  obtain ⟨-, hanswers, -⟩ := deposits_eq_ok.mp (Effect.ext hdeposits rfl)
  exact ⟨congrArg Effect.outcome hprices, ⟨found, hall, rfl⟩, hanswers, hfees⟩

theorem Named.exists_metrics {findings : Report.Findings}
    (h : A.Named now state positions findings) {mint : Text}
    (hmint : mint ∈ Report.trackedNames positions) :
    ∃ m, findings.metrics.get? mint = some m := by
  obtain ⟨found, hall, hmetrics⟩ := h.metrics
  have hmints : found.map (·.mint) = Report.trackedNames positions :=
    map_eq_of_forall₂ hall fun _ _ => mint_of_metrics
  rw [← hmints] at hmint
  obtain ⟨m, hm, rfl⟩ := List.mem_map.mp hmint
  rw [hmetrics, ← Option.isSome_iff_exists]
  exact (Ledger.contains_ofList _ _).mpr
    ⟨(m.mint, m), List.mem_map_of_mem hm, beq_self_eq_true _⟩

/-- What is found on the same positions in another order differs in the order of deposits at
most. -/
theorem Named.of_perm {positions' : List (Position Int)} {findings findings' : Report.Findings}
    (h : A.Named now state positions findings) (h' : A.Named now state positions' findings')
    (hperm : positions.Perm positions') : findings' = { findings with
      deposits := A.depositsOf (Report.unknownNames state positions') } := by
  have hprices : findings'.prices = findings.prices := by
    have hsame := h'.prices
    rw [Report.mintNames_perm hperm, h.prices] at hsame
    exact (Except.ok.inj hsame).symm
  have hfees : findings'.fees = findings.fees := by
    have hsame := h'.fees
    rw [Report.poolNames_perm hperm, h.fees] at hsame
    exact (Except.ok.inj hsame).symm
  have hmetrics : findings'.metrics = findings.metrics := by
    obtain ⟨found, hfound, hledger⟩ := h.metrics
    obtain ⟨found', hfound', hledger'⟩ := h'.metrics
    rw [Report.trackedNames_perm hperm, hprices, ← mapM_eq_ok] at hfound'
    rw [← mapM_eq_ok, hfound'] at hfound
    rw [hledger, hledger', Except.ok.inj hfound]
  obtain ⟨prices, metrics, deposits, fees⟩ := findings'
  obtain rfl := h'.deposits
  simp only at hprices hfees hmetrics
  rw [hprices, hfees, hmetrics]

/-- The deposits that were found do not depend on the order in which they were looked up. -/
theorem firstFound_perm {ids ids' : List Text} (h : ids.Perm ids') (k : Identifier) :
    MonitorState.firstFound k (A.depositsOf ids').entries =
      MonitorState.firstFound k (A.depositsOf ids).entries := by
  have hsome : ∀ (ids : List Text) found, (A.depositsOf ids).get? k = some found ↔
      ∃ id ∈ ids, k = .text id ∧ found = A.depositOf id := by
    intro ids found
    constructor
    · exact exists_of_get?_depositsOf
    · rintro ⟨id, hid, rfl, rfl⟩
      exact get?_depositsOf hid
  rw [firstFound_depositsOf, firstFound_depositsOf]
  refine congrArg Option.join (Option.ext fun found => ?_)
  rw [hsome, hsome]
  exact exists_congr fun id => and_congr_left fun _ => h.symm.mem_iff

end Answers

/-! ## What is shown -/

namespace Report

/-- The block of a position at the prices of its tokens. -/
def blockAt (findings : Findings) (state : MonitorState Number) (p : Position Int) :
    Except Fault (Option ReportBlock) := do
  let valuation ← p.value (priceIn findings.prices p.x.mint) (priceIn findings.prices p.y.mint)
  blockOf findings state p valuation

/-- The totals over positions at given prices, where these initial values are known. -/
def totals {α : Type} [Scalar α] (price : Value → α) (known : Ledger Identifier α)
    (positions : List (Position Int)) : Except Fault (Summary α) := do
  let valuations ← positions.mapM fun p => p.value (price p.x.mint) (price p.y.mint)
  Summary.ofValuations known valuations

variable {findings : Findings} {state next : MonitorState Number} {now : Number}
  {positions : List (Position Int)} {report : Report}

/-- What a report rests on: the next state is that of a cycle on the findings, the totals are taken
at the prices found, and the blocks are those of the positions. -/
structure Rests (findings : Findings) (state : MonitorState Number) (now : Number)
    (positions : List (Position Int)) (report : Report) (next : MonitorState Number) : Prop where
  entered : findings.deposits.entries.foldlM MonitorState.Deposits.enter state.known =
    .ok next.known
  cycle : next.cycle = state.cycle + 1
  metrics : next.metrics = (findings.metrics.entries.map Prod.snd).foldl
    (fun metrics m => metrics.insert m.mint (MonitorState.stamp now m)) state.metrics
  totals : totals (priceIn findings.prices) next.initialValues positions = .ok report.summary
  blocks : ∃ blocks, positions.mapM (blockAt findings next) = .ok blocks ∧
    report.blocks = blocks.filterMap id

theorem rests_of_findings (h : ofFindings findings state now positions = .ok (report, next)) :
    Rests findings state now positions report next := by
  obtain ⟨valuations, hvaluations, h⟩ := bind_eq_ok.mp h
  obtain ⟨⟨summary, after⟩, hrun, h⟩ := bind_eq_ok.mp h
  obtain ⟨blocks, hblocks, h⟩ := bind_eq_ok.mp h
  obtain ⟨rfl, hnext⟩ := Prod.mk.inj (pure_eq_ok.mp h)
  subst hnext
  obtain ⟨hentered, htotal, hcycle, hmetrics, -⟩ := MonitorState.run_eq_ok.mp hrun
  exact ⟨hentered, hcycle, hmetrics, bind_eq_ok.mpr ⟨valuations, hvaluations, htotal⟩,
    blocks, mapM_zip_eq_ok hvaluations hblocks, rfl⟩

/-- A position of which metrics were found has a block of its own. -/
theorem position_of_blockAt {p : Position Int} {block : Option ReportBlock}
    (h : blockAt findings next p = .ok block) {m : TokenMetrics Number}
    (hm : findings.metrics.get? (trackedMint p).shown = some m) :
    ∃ b, block = some b ∧ b.position = p := by
  obtain ⟨valuation, -, h⟩ := bind_eq_ok.mp h
  obtain ⟨id, -, h⟩ := bind_eq_ok.mp h
  obtain ⟨pool, -, h⟩ := bind_eq_ok.mp h
  rw [hm, Option.map_some] at h
  exact ⟨_, (pure_eq_ok.mp h).symm, rfl⟩

end Report

end LiquidityWatch
