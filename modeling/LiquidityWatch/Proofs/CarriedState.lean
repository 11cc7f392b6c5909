import LiquidityWatch.Proofs.Findings

/-! # Reports on a carried state

A report may carry on the state of earlier reports or start from the initial one: against a network
that always answers alike it shows the same blocks and the same totals. The invariant is that a
state knows only what the lookups would answer (`Answers.Bears`); it holds initially and is kept by
every report (`Stage.Sound.after`), so that what is known can be exchanged for what is looked up. -/

namespace LiquidityWatch

namespace Identifier

/-- A name that is text is the same as no other name. -/
theorem eq_of_text_beq {t : Text} {id : Identifier} (h : (text t == id) = true) : id = text t := by
  rw [beq_iff] at h
  cases id with
  | text t' => rw [show t = t' from Key.text.inj h]
  | null | truth | number | bytes => cases h

end Identifier

namespace Summary

/-- Summing up asks for the initial values of the positions in question only. -/
theorem ofValuations_congr {known known' : Ledger Identifier Number}
    {valuations : List (Valuation Number)}
    (h : ∀ v ∈ valuations, ∃ id, v.positionId = .text id ∧
      known.get? (.text id) = known'.get? (.text id)) :
    ofValuations known valuations = ofValuations known' valuations := by
  refine foldlM_congr (fun total v hv => ?_) _
  obtain ⟨id, hid, hget⟩ := h v hv
  have hvalue : knownInitialValue known v.positionId =
      knownInitialValue known' v.positionId := by
    rw [hid]
    exact congrArg (fun found : Option Number => Except.ok (found.getD Scalar.zero)) hget
  rw [addValuation, hvalue]
  rfl

end Summary

/-- A state carries on all that another one holds, and has the same totals last. -/
structure MonitorState.Carries (s s' : MonitorState Number) : Prop where
  deposits : ∀ id deposit, s'.deposits.get? id = some deposit → s.deposits.get? id = some deposit
  initialValues : ∀ id value,
    s'.initialValues.get? id = some value → s.initialValues.get? id = some value
  metrics : ∀ mint m, s'.metrics.get? mint = some m → s.metrics.get? mint = some m
  summary : s.lastSummary = s'.lastSummary

namespace Answers

variable {s : Surroundings} {network : Text} {A : Answers s network}

/-! ## The ledger of deposits -/

theorem exists_of_get?_depositsOf {ids : List Text} {k : Identifier}
    {found : Option (Deposit Number)} (h : (A.depositsOf ids).get? k = some found) :
    ∃ id ∈ ids, k = .text id ∧ found = A.depositOf id := by
  obtain ⟨k', hmem, hkey⟩ := Ledger.exists_of_get?_ofList h
  obtain ⟨id, hid, heq⟩ := List.mem_map.mp hmem
  obtain ⟨rfl, rfl⟩ := Prod.mk.inj heq
  exact ⟨id, hid, Identifier.eq_of_text_beq hkey, rfl⟩

theorem get?_depositsOf {ids : List Text} {id : Text} (hid : id ∈ ids) :
    (A.depositsOf ids).get? (.text id) = some (A.depositOf id) := by
  cases h : (A.depositsOf ids).get? (.text id) with
  | some found =>
    obtain ⟨id', -, hid', rfl⟩ := exists_of_get?_depositsOf h
    rw [Identifier.text.inj hid']
  | none =>
    -- A position that was looked up cannot be missing.
    rw [depositsOf, Ledger.get?_ofList, Option.map_eq_none_iff, List.find?_eq_none] at h
    exact absurd (beq_self_eq_true _) (h (.text id, A.depositOf id)
      (List.mem_reverse.mpr (List.mem_map.mpr ⟨id, hid, rfl⟩)))

/-- What is found first for a position among the deposits that were looked up. -/
theorem firstFound_depositsOf (ids : List Text) (k : Identifier) :
    MonitorState.firstFound k (A.depositsOf ids).entries = ((A.depositsOf ids).get? k).join :=
  Ledger.findSome?_entries (Ledger.distinct_ofList _) k

/-- Deposits that a record knows can be entered into an empty one, which then knows the same of
them, and nothing else. -/
theorem exists_entered {ids : List Text} {after : MonitorState.Deposits Number}
    (hc : after.Coherent) (h : ∀ id ∈ ids, after.deposits.get? (.text id) = A.depositOf id) :
    ∃ known : MonitorState.Deposits Number,
      (A.depositsOf ids).entries.foldlM MonitorState.Deposits.enter ⟨∅, ∅⟩ = .ok known ∧
        known.Coherent ∧
        (∀ id ∈ ids, known.deposits.get? (.text id) = after.deposits.get? (.text id)) ∧
        ∀ k, (known.deposits.get? k).isSome → ∃ id ∈ ids, k = .text id := by
  -- The initial values can be computed, since `after` has them.
  have hvalue : ∀ e ∈ (A.depositsOf ids).entries, ∀ deposit, e.2 = some deposit →
      ∃ value, deposit.initialValue = .ok value := by
    intro e he deposit hdeposit
    obtain ⟨_, hentry, hfound⟩ := Ledger.exists_of_mem_ofList he
    obtain ⟨id, hid, rfl⟩ := List.mem_map.mp hentry
    obtain ⟨value, -, hvalue⟩ :=
      hc.initialValue_eq_ok ((h id hid).trans (hfound.trans hdeposit))
    exact ⟨value, hvalue⟩
  obtain ⟨known, hentered⟩ := MonitorState.Deposits.exists_enterAll hvalue ⟨∅, ∅⟩
  obtain ⟨hknown, hget⟩ := MonitorState.Deposits.Coherent.empty.enterAll hentered
  have hlookup : ∀ k, known.deposits.get? k = ((A.depositsOf ids).get? k).join := by
    intro k
    rw [hget, firstFound_depositsOf]
    rfl
  refine ⟨known, hentered, hknown, fun id hid => ?_, fun k hk => ?_⟩
  · rw [hlookup, get?_depositsOf hid]
    exact (h id hid).symm
  · obtain ⟨deposit, hdeposit⟩ := Option.isSome_iff_exists.mp hk
    rw [hlookup] at hdeposit
    obtain ⟨id, hid, hkey, -⟩ := exists_of_get?_depositsOf (Option.join_eq_some_iff.mp hdeposit)
    exact ⟨id, hid, hkey⟩

/-! ## One cycle -/

variable {state next : MonitorState Number} {ids : List Text} {summary : Summary Number}

/-- What a cycle makes of the deposits that are looked up for it. -/
theorem deposits_of_run {data : CycleData Number} (hc : state.known.Coherent)
    (hdata : data.deposits = A.depositsOf ids) (hrun : state.run data = .ok (summary, next)) :
    next.known.Coherent ∧ ∀ k, next.deposits.get? k =
      (state.deposits.get? k).or ((A.depositsOf ids).get? k).join := by
  obtain ⟨hentered, -⟩ := MonitorState.run_eq_ok.mp hrun
  obtain ⟨hnext, hget⟩ := hc.enterAll hentered
  refine ⟨hnext, fun k => (hget k).trans ?_⟩
  rw [hdata, firstFound_depositsOf]
  rfl

/-- After a cycle the deposits of its positions are known as the lookups answer them. -/
theorem Bears.deposits_after (hb : A.Bears state) {data : CycleData Number}
    (hdata : data.deposits = A.depositsOf (unknownIn state ids))
    (hrun : state.run data = .ok (summary, next)) {id : Text} (hid : id ∈ ids) :
    next.deposits.get? (.text id) = A.depositOf id := by
  rw [(deposits_of_run hb.coherent hdata hrun).2]
  cases hknown : state.deposits.get? (.text id) with
  | some deposit =>
    rw [(hb.depositOf_eq hknown).2]
    rfl
  | none =>
    have hunknown : id ∈ unknownIn state ids := by
      refine List.mem_filter.mpr ⟨hid, ?_⟩
      rw [hb.contains_eq, hknown]
      rfl
    rw [get?_depositsOf hunknown]
    rfl

/-- A cycle on what was looked up leaves a state that knows only what the lookups answer. -/
theorem Bears.after (hb : A.Bears state) {findings : Report.Findings}
    (hf : A.Found state ids findings) {data : CycleData Number}
    (hdata : data.deposits = findings.deposits)
    (hmetrics : data.metrics = findings.metrics.entries.map Prod.snd)
    (hrun : state.run data = .ok (summary, next)) : A.Bears next := by
  obtain ⟨hnext, hget⟩ := deposits_of_run hb.coherent (hdata.trans hf.deposits) hrun
  refine ⟨hnext, fun mint known hknown => ?_, fun k deposit hdeposit => ?_⟩
  · obtain ⟨-, -, -, hall, -⟩ := MonitorState.run_eq_ok.mp hrun
    rw [hall, hmetrics, Ledger.get?_foldl_insert, Option.or_eq_some_iff] at hknown
    -- Metrics of this cycle replace those of earlier ones.
    rcases hknown with hfound | ⟨-, hbefore⟩
    · obtain ⟨m, hm, rfl⟩ := Option.map_eq_some_iff.mp hfound
      obtain ⟨e, he, rfl⟩ := List.mem_map.mp (List.mem_reverse.mp (List.mem_of_find?_eq_some hm))
      have hmint : e.2.mint = mint := by simpa using List.find?_some hm
      rw [← hmint, MonitorState.stamp_eq_kept]
      exact hf.names e he
    · exact hb.names mint known hbefore
  · rw [hget, Option.or_eq_some_iff] at hdeposit
    -- Deposits of earlier cycles stay.
    rcases hdeposit with hbefore | ⟨-, hfound⟩
    · exact hb.deposits k deposit hbefore
    · obtain ⟨id, hid, rfl, hanswer⟩ :=
        exists_of_get?_depositsOf (Option.join_eq_some_iff.mp hfound)
      have hmem : id ∈ ids := (List.mem_filter.mp hid).1
      exact ⟨id, rfl, by rw [hf.answered id hmem, hanswer]⟩

/-- Positions that a cycle has in common with one on the initial state have the same deposits and
initial values after both. -/
theorem Bears.run_initial (hb : A.Bears state) {findings : Report.Findings}
    (hf : A.Found state ids findings) {valuations : List (Valuation Number)}
    (hvaluations : ∀ v ∈ valuations, ∃ id ∈ ids, v.positionId = .text id)
    {metrics : List (TokenMetrics Number)} {now : Number}
    (hrun : state.run ⟨valuations, findings.deposits, metrics, now⟩ = .ok (summary, next)) :
    ∃ next', MonitorState.initial.run ⟨valuations, A.depositsOf ids, metrics, now⟩ =
        .ok (summary, next') ∧ next.Carries next' ∧
      ∀ id ∈ ids, next'.deposits.get? (.text id) = next.deposits.get? (.text id) ∧
        next'.initialValues.get? (.text id) = next.initialValues.get? (.text id) := by
  obtain ⟨hnext, -⟩ := deposits_of_run hb.coherent hf.deposits hrun
  obtain ⟨-, htotal, -, hmetrics, hlast⟩ := MonitorState.run_eq_ok.mp hrun
  -- All that was looked up can be entered, because the carried state has entered it, too.
  obtain ⟨known, hentered, hknown, hdeposits, hkeys⟩ :=
    exists_entered hnext fun id hid => hb.deposits_after hf.deposits hrun hid
  have hvalues : ∀ id ∈ ids,
      known.initialValues.get? (.text id) = next.initialValues.get? (.text id) :=
    fun id hid => hknown.initialValue_congr hnext (hdeposits id hid)
  have htotal' : Summary.ofValuations known.initialValues valuations = .ok summary := by
    rw [← htotal]
    refine Summary.ofValuations_congr fun v hv => ?_
    obtain ⟨id, hid, hv⟩ := hvaluations v hv
    exact ⟨id, hv, hvalues id hid⟩
  refine ⟨⟨1, known.initialValues, known.deposits, metrics.foldl
      (fun metrics m => metrics.insert m.mint (MonitorState.stamp now m)) ∅, some summary⟩,
    MonitorState.run_eq_ok.mpr ⟨hentered, htotal', rfl, rfl, rfl⟩, ⟨?_, ?_, ?_, hlast⟩,
    fun id hid => ⟨hdeposits id hid, hvalues id hid⟩⟩
  · intro k deposit hdeposit
    obtain ⟨id, hid, rfl⟩ := hkeys k (Option.isSome_iff_exists.mpr ⟨deposit, hdeposit⟩)
    exact (hdeposits id hid).symm.trans hdeposit
  · intro k value hvalue
    have hcontains : known.initialValues.contains k :=
      Option.isSome_iff_exists.mpr ⟨value, hvalue⟩
    rw [hknown.contains_iff] at hcontains
    obtain ⟨id, hid, rfl⟩ := hkeys k hcontains
    exact (hvalues id hid).symm.trans hvalue
  · intro mint m hm
    rw [hmetrics]
    rw [Ledger.get?_foldl_insert] at hm ⊢
    rw [Ledger.get?_empty, Option.or_none] at hm
    exact Option.or_eq_some_iff.mpr (.inl hm)

/-! ## One report -/

theorem positionId_of_value {p : Position Int} {priceX priceY : Number} {v : Valuation Number}
    (h : p.value priceX priceY = .ok v) : v.positionId = p.id := by
  obtain ⟨_, -, h⟩ := bind_eq_ok.mp h
  obtain ⟨_, -, h⟩ := bind_eq_ok.mp h
  obtain ⟨_, -, h⟩ := bind_eq_ok.mp h
  obtain ⟨_, -, h⟩ := bind_eq_ok.mp h
  obtain ⟨_, -, h⟩ := bind_eq_ok.mp h
  obtain ⟨_, -, h⟩ := bind_eq_ok.mp h
  obtain ⟨_, -, h⟩ := bind_eq_ok.mp h
  obtain rfl := pure_eq_ok.mp h
  rfl

/-- The report on what was found is the same as from the initial state, and leaves a state that
knows only what the lookups answer. -/
theorem Bears.ofFindings_initial (hb : A.Bears state) {findings : Report.Findings}
    (hf : A.Found state ids findings) {positions : List (Position Int)}
    (hids : positions.map (·.id) = ids.map .text) {now : Number} {report : Report}
    (h : Report.ofFindings findings state now positions = .ok (report, next)) :
    A.Bears next ∧ ∃ next',
      Report.ofFindings { findings with deposits := A.depositsOf ids } .initial now positions =
        .ok (report, next') ∧ next.Carries next' := by
  obtain ⟨valuations, hvaluations, h⟩ := bind_eq_ok.mp h
  obtain ⟨⟨summary, after⟩, hrun, h⟩ := bind_eq_ok.mp h
  obtain ⟨blocks, hblocks, h⟩ := bind_eq_ok.mp h
  obtain ⟨rfl, rfl⟩ := Prod.mk.inj (pure_eq_ok.mp h)
  have hmem : ∀ p ∈ positions, ∃ id ∈ ids, p.id = .text id := by
    intro p hp
    have hid : p.id ∈ ids.map Value.text := hids ▸ List.mem_map_of_mem hp
    obtain ⟨id, hid, heq⟩ := List.mem_map.mp hid
    exact ⟨id, hid, heq.symm⟩
  have hnames : ∀ v ∈ valuations, ∃ id ∈ ids, v.positionId = .text id := by
    intro v hv
    obtain ⟨p, hp, hvalue⟩ := exists_of_mem_mapM hvaluations hv
    rw [positionId_of_value hvalue]
    exact hmem p hp
  obtain ⟨next', hrun', hcarries, hsame⟩ := hb.run_initial hf hnames hrun
  refine ⟨hb.after hf rfl rfl hrun, next', ?_, hcarries⟩
  -- A block shows what is known of its own position, which is the same after both cycles.
  have hblocks' : (positions.zip valuations).mapM (fun pv =>
      Report.blockOf { findings with deposits := A.depositsOf ids } next' pv.1 pv.2) =
        .ok blocks := by
    rw [← hblocks]
    refine mapM_congr fun pv hpv => ?_
    obtain ⟨id, hid, hp⟩ := hmem pv.1 (List.of_mem_zip hpv).1
    obtain ⟨hdeposit, hinitial⟩ := hsame id hid
    simp only [Report.blockOf, hp, Value.identifier, ok_bind, hdeposit, hinitial]
  refine bind_eq_ok.mpr ⟨valuations, hvaluations, bind_eq_ok.mpr ⟨(summary, next'), hrun', ?_⟩⟩
  exact bind_eq_ok.mpr ⟨blocks, hblocks', rfl⟩

end Answers

end LiquidityWatch
