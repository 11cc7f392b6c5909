import LiquidityWatch.Proofs.Conservation
import LiquidityWatch.Proofs.NamedReports
import LiquidityWatch.Proofs.SnapshotLoading
import LiquidityWatch.Proofs.Turns

/-! # The order of a file

Against a network that always answers alike, a report says the same whatever the order of the
entries in its file: each position has the same block, and what is known afterwards is the same. The
order is left in three places: in that of the blocks, in that of the requests for deposits, and in
the rounding of the totals, which are sums in the order of the file. In exact arithmetic they are
the same, too (`FinishedReport.alike_of_perm`). When a request gets its turn is decided by the clock
and the limiters, so the order of all other requests is compared where those are the same. -/

namespace LiquidityWatch

open Run

namespace Report

/-! ## Totals -/

/-- A position that is added is counted. -/
theorem counts_of_addValuation {known : Ledger Identifier Number} {before after : Summary Number}
    {v : Valuation Number} (h : Summary.addValuation known before v = .ok after) :
    after.positions = before.positions + 1 ∧
      after.inRange = before.inRange + if v.inRange then 1 else 0 := by
  obtain ⟨_, -, h⟩ := bind_eq_ok.mp h
  obtain ⟨_, -, h⟩ := bind_eq_ok.mp h
  obtain ⟨_, -, h⟩ := bind_eq_ok.mp h
  obtain ⟨_, -, h⟩ := bind_eq_ok.mp h
  obtain ⟨_, -, h⟩ := bind_eq_ok.mp h
  obtain ⟨_, -, h⟩ := bind_eq_ok.mp h
  obtain ⟨_, -, h⟩ := bind_eq_ok.mp h
  obtain ⟨_, -, h⟩ := bind_eq_ok.mp h
  obtain rfl := pure_eq_ok.mp h
  refine ⟨rfl, ?_⟩
  by_cases hrange : v.inRange
  · simp [hrange]
  · simp [hrange]

theorem counts_of_ofValuations {known : Ledger Identifier Number}
    {valuations : List (Valuation Number)} {summary : Summary Number}
    (h : Summary.ofValuations known valuations = .ok summary) :
    summary.positions = valuations.length ∧
      summary.inRange = valuations.countP fun v => v.inRange := by
  induction valuations using List.reverseRecOn generalizing summary with
  | nil =>
    obtain rfl := Except.ok.inj h
    exact ⟨rfl, rfl⟩
  | append_singleton valuations v ih =>
    rw [Summary.ofValuations, List.foldlM_append] at h
    obtain ⟨before, hbefore, h⟩ := bind_eq_ok.mp h
    obtain ⟨hpositions, hrange⟩ := ih hbefore
    rw [List.foldlM_cons] at h
    obtain ⟨after, hadd, h⟩ := bind_eq_ok.mp h
    obtain rfl := Except.ok.inj h
    obtain ⟨hpositions', hrange'⟩ := counts_of_addValuation hadd
    rw [hpositions', hrange', hpositions, hrange]
    simp

/-- In exact arithmetic the totals over accepted positions do not depend on their order. -/
theorem totals_perm {positions positions' : List (Position Int)}
    (haccepted : ∀ p ∈ positions, ∃ entry, Position.ofEntry entry = .ok p)
    (htext : ∀ p ∈ positions, p.TextNamed) (h : positions.Perm positions')
    (price : Value → Rat) {known known' : Ledger Identifier Rat}
    (hknown : ∀ k, known'.get? k = known.get? k) :
    ∃ total, totals price known positions = .ok total ∧
      totals price known' positions' = .ok total := by
  have htally : ∀ (known : Ledger Identifier Rat) (ps : List (Position Int)),
      (∀ p ∈ ps, p ∈ positions) → totals price known ps = .ok (Summary.tally known price ps) := by
    intro known ps hps
    have hvalues : ps.mapM (fun p => p.value (price p.x.mint) (price p.y.mint)) =
        .ok (ps.map (Position.valuation price)) := by
      refine mapM_eq_map fun p hp => ?_
      obtain ⟨entry, hentry⟩ := haccepted p (hps p hp)
      exact Position.value_of_ofEntry hentry price
    rw [totals, hvalues, ok_bind]
    apply Summary.ofValuations_eq_tally
    intro p hp
    exact ⟨_, Value.eq_text_of_isText (htext p (hps p hp)).id⟩
  have hinitial : Position.initialIn known' = Position.initialIn known := by
    funext p
    rw [Position.initialIn, Position.initialIn, funext hknown]
  refine ⟨Summary.tally known price positions, htally known positions fun _ hp => hp, ?_⟩
  rw [htally known' positions' fun _ hp => h.symm.subset hp]
  simp only [Summary.tally, hinitial, h.length_eq, h.countP_eq, (h.map _).sum_eq]

/-! ## Requests -/

/-- The pool of a token does not depend on what was asked before. -/
theorem tokensInquiries_constant (answer : String → Response) (settings : Settings)
    (known : Text → Bool) (log log' : List String) (mints : List Text) :
    tokensInquiries (.constant answer) settings known log mints =
      tokensInquiries (.constant answer) settings known log' mints := by
  induction mints generalizing log log' with
  | nil => rfl
  | cons mint rest ih =>
    have hfirst : tokenInquiries (.constant answer) settings (known mint) log mint =
        tokenInquiries (.constant answer) settings (known mint) log' mint := rfl
    rw [tokensInquiries, tokensInquiries, hfirst]
    exact congrArg _ (ih _ _)

/-- What is asked about prices and tokens, against a network that always answers alike. -/
def marketInquiries (answer : String → Response) (settings : Settings)
    (state : MonitorState Number) (positions : List (Position Int)) : List Inquiry :=
  .prices (mintNames positions) ::
    tokensInquiries (.constant answer) settings state.metrics.contains []
      (inRounds state.metrics.contains (trackedNames positions))

theorem inquiries_constant (answer : String → Response) (settings : Settings)
    (state : MonitorState Number) (log : List String) (positions : List (Position Int)) :
    inquiries (.constant answer) settings state log positions =
      marketInquiries answer settings state positions ++
        (unknownNames state positions).map .deposits ++ (poolNames positions).map .fees := by
  rw [inquiries, marketInquiries, tokensInquiries_constant answer settings _ _ []]

theorem position?_of_mem_market {answer : String → Response} {settings : Settings}
    {state : MonitorState Number} {positions : List (Position Int)} {q : Inquiry}
    (h : q ∈ marketInquiries answer settings state positions) : q.position? = none := by
  rcases List.mem_cons.mp h with rfl | h
  · rfl
  · obtain ⟨mint, -, hmint⟩ := token?_of_mem_tokensInquiries h
    exact (Inquiry.of_token? hmint).1

/-! ## Blocks -/

variable {s : Surroundings} {network : Text} {A : Answers s network} {now : Number}
  {state next next' : MonitorState Number} {positions : List (Position Int)} {findings : Findings}
  {report : Report}

/-- A block goes by what is known of its position. -/
theorem blockAt_congr (hdeposits : ∀ id, next'.deposits.get? id = next.deposits.get? id)
    (hinitial : ∀ id, next'.initialValues.get? id = next.initialValues.get? id)
    (deposits : Ledger Identifier (Option (Deposit Number))) (p : Position Int) :
    blockAt { findings with deposits } next' p = blockAt findings next p := by
  simp only [blockAt, blockOf, hdeposits, hinitial]

/-- Each position has a block. -/
theorem exists_block (hnamed : A.Named now state positions findings)
    (hrests : Rests findings state now positions report next) (htext : ∀ p ∈ positions, p.TextNamed)
    (hne : positions ≠ []) : ∃ block : Position Int → ReportBlock, ∀ p ∈ positions,
      blockAt findings next p = .ok (some (block p)) ∧ (block p).position = p := by
  obtain ⟨blocks, hblocks, -⟩ := hrests.blocks
  have hall : ∀ p ∈ positions, ∃ b : ReportBlock,
      blockAt findings next p = .ok (some b) ∧ b.position = p := by
    intro p hp
    obtain ⟨block, hblock⟩ := exists_of_forall₂_left (mapM_eq_ok.mp hblocks) hp
    have hmint : (trackedMint p).shown ∈ trackedNames positions := by
      rw [(htext p hp).trackedMint_eq, trackedNames, Text.mem_sortedDistinct]
      exact List.mem_map_of_mem hp
    obtain ⟨m, hm⟩ := hnamed.exists_metrics hmint
    obtain ⟨b, rfl, hposition⟩ := position_of_blockAt hblock hm
    exact ⟨b, hblock, hposition⟩
  obtain ⟨p, rest, rfl⟩ := List.exists_cons_of_ne_nil hne
  obtain ⟨b, -⟩ := hall p List.mem_cons_self
  have : Nonempty ReportBlock := ⟨b⟩
  choose! block hblock using hall
  exact ⟨block, hblock⟩

theorem Rests.blocks_eq (hrests : Rests findings state now positions report next)
    {block : Position Int → ReportBlock}
    (hblock : ∀ p ∈ positions, blockAt findings next p = .ok (some (block p))) :
    report.blocks = positions.map block := by
  obtain ⟨blocks, hblocks, hreport⟩ := hrests.blocks
  rw [mapM_eq_map hblock] at hblocks
  rw [hreport, ← Except.ok.inj hblocks]
  simp

end Report

/-! ## Reports on files -/

/-- A report that returned a state: the positions in its file, the world before and after it, and
what it returned. -/
structure FinishedReport where
  positions : List (Position Int)
  before : World
  after : World
  summary : Summary Number
  next : MonitorState Number

namespace FinishedReport

/-- The report on the file at a path, from a state. -/
structure IsRun (r : FinishedReport) (path : Text) (state : MonitorState Number) : Prop where
  load : SnapshotFile.load r.before.files path = .ok r.positions
  result : (Report.run path state).result r.before = (.ok (some (r.summary, r.next)), r.after)

/-- The report has shown these blocks, one for each position, and its totals; before that it has
printed messages at most. -/
def Shows (r : FinishedReport) (block : Position Int → ReportBlock) : Prop :=
  ∃ ms texts, (∀ m ∈ ms, isMessage m) ∧
    Report.lines r.before.settings.label ⟨r.positions.map block, r.summary⟩ = texts.map .ok ∧
    r.after.printed = r.before.printed ++ (ms ++ texts)

/-- The report has sent these requests. -/
def Sent (r : FinishedReport) (asked : List Inquiry) : Prop :=
  r.after.requests = r.before.requests ++ asked.map (Inquiry.url r.before.settings)

/-- Deposits are asked for in another order, and all else in the same one. -/
def SameOrder (r r' : FinishedReport) : Prop :=
  ∃ (first last : List Inquiry) (ids ids' : List Text), ids.Perm ids' ∧
    (∀ q ∈ first ++ last, q.position? = none) ∧
    r.Sent (first ++ ids.map .deposits ++ last) ∧ r'.Sent (first ++ ids'.map .deposits ++ last)

/-- Two reports are the same but for the order of their positions: each position has the same block
in both, the same requests are sent, the states know the same, the counts are equal, and the totals
are those of the positions at the same prices, which in exact arithmetic are equal, too. Where the
reports begin in step, all requests but those for deposits come in the same order, and take the same
turns. -/
structure Alike (r r' : FinishedReport) : Prop where
  blocks : r.positions ≠ [] → ∃ block : Position Int → ReportBlock,
    (∀ p ∈ r.positions, (block p).position = p) ∧ r.Shows block ∧ r'.Shows block
  requests : ∃ asked asked' : List Inquiry, asked.Perm asked' ∧ r.Sent asked ∧ r'.Sent asked'
  order : r.before.InStep r'.before →
    r.SameOrder r' ∧ r.before.SameTurns r'.before r.after r'.after
  cycle : r'.next.cycle = r.next.cycle
  initialValues : ∀ id, r'.next.initialValues.get? id = r.next.initialValues.get? id
  deposits : ∀ id, r'.next.deposits.get? id = r.next.deposits.get? id
  metrics : ∀ mint, r'.next.metrics.get? mint = r.next.metrics.get? mint
  counts : r'.summary.positions = r.summary.positions ∧ r'.summary.inRange = r.summary.inRange
  totals : ∃ price, Report.totals price r.next.initialValues r.positions = .ok r.summary ∧
    Report.totals price r'.next.initialValues r'.positions = .ok r'.summary
  exact : ∀ (price : Value → Rat) (known known' : Ledger Identifier Rat),
    (∀ id, known'.get? id = known.get? id) →
    ∃ total, Report.totals price known r.positions = .ok total ∧
      Report.totals price known' r'.positions = .ok total

/-- What a report on positions was made of. -/
structure Explained {s : Surroundings} {network : Text} (A : Answers s network)
    (state : MonitorState Number) (r : FinishedReport) (findings : Report.Findings)
    (blocks : List ReportBlock) : Prop where
  named : A.Named r.before.now state r.positions findings
  rests : Report.Rests findings state r.before.now r.positions ⟨blocks, r.summary⟩ r.next
  shown : ∃ ms texts, (∀ m ∈ ms, isMessage m) ∧
    Report.lines r.before.settings.label ⟨blocks, r.summary⟩ = texts.map .ok ∧
    r.after.printed = r.before.printed ++ (ms ++ texts)

variable {s : Surroundings} {r r' : FinishedReport} {path : Text} {state : MonitorState Number}

theorem result_runPositions (h : r.IsRun path state) (hne : r.positions ≠ []) :
    (Report.runPositions state r.positions).result r.before =
      (.ok (some (r.summary, r.next)), r.after) := by
  obtain ⟨p, rest, hpositions⟩ := List.exists_cons_of_ne_nil hne
  have hresult := h.result
  rw [Report.result_run, h.load, hpositions] at hresult
  rw [hpositions]
  exact hresult

/-- On a file without positions nothing is asked, and nothing is learned. -/
theorem empty_of_isRun (h : r.IsRun path state) (hempty : r.positions = []) :
    r.Sent [] ∧ r.summary = .empty ∧ r.next = Report.afterEmpty state := by
  have hresult := h.result
  rw [Report.result_run, h.load, hempty] at hresult
  obtain ⟨hvalue, hafter⟩ := Prod.mk.inj hresult
  obtain ⟨hsummary, hnext⟩ := Prod.mk.inj (Option.some.inj (Except.ok.inj hvalue))
  refine ⟨?_, hsummary.symm, hnext.symm⟩
  rw [Sent, List.map_nil, List.append_nil, ← hafter]

/-- On files without positions no turns are taken. -/
theorem sameTurns_of_empty {path' : Text} (h : r.IsRun path state) (h' : r'.IsRun path' state)
    (hempty : r.positions = []) (hempty' : r'.positions = []) (hstep : r.before.InStep r'.before) :
    r.before.SameTurns r'.before r.after r'.after := by
  have hresult := h.result
  have hresult' := h'.result
  rw [Report.result_run, h.load, hempty] at hresult
  rw [Report.result_run, h'.load, hempty'] at hresult'
  obtain ⟨-, hafter⟩ := Prod.mk.inj hresult
  obtain ⟨-, hafter'⟩ := Prod.mk.inj hresult'
  rw [← hafter, ← hafter']
  exact .of_waits_eq ⟨hstep.clock, hstep.prices, hstep.market⟩ rfl rfl

theorem exists_explained (h : r.IsRun path state) (hw : r.before.Within s)
    (A : Answers s (Endpoint.networkOr "" s.settings.network))
    (htext : ∀ p ∈ r.positions, p.TextNamed) (hne : r.positions ≠ []) :
    ∃ findings blocks, Explained A state r findings blocks := by
  obtain ⟨ms, texts, report, hcompletes, hsummary, hprinted⟩ :=
    Report.Completes.of_result (A := A) hw (result_runPositions h hne)
  obtain ⟨findings, hfindings, hreport⟩ := hcompletes.findings
  have hlines := hcompletes.lines
  have hmessages := (A.gives_findings hw.times state r.positions).messages
  rw [hfindings] at hmessages
  obtain ⟨blocks, summary⟩ := report
  obtain rfl : summary = r.summary := hsummary
  refine ⟨findings, blocks, A.named_of_findings htext hfindings, Report.rests_of_findings hreport,
    Report.header r.positions :: ms, texts, ?_, by rw [hw.settings]; exact hlines, hprinted⟩
  exact List.forall_mem_cons.mpr
    ⟨isMessage_append (isMessage_append (by decide) _) _, hmessages⟩

/-- What is asked on a file. -/
theorem sent_of_isRun (h : r.IsRun path state) (hw : r.before.Within s)
    (htext : ∀ p ∈ r.positions, p.TextNamed) (hne : r.positions ≠ []) :
    r.Sent (Report.marketInquiries s.answer s.settings state r.positions ++
      (Report.unknownNames state r.positions).map .deposits ++
      (Report.poolNames r.positions).map .fees) := by
  obtain ⟨-, hsent⟩ := Report.sends_runPositions hw.ready htext hne (result_runPositions h hne)
  have hrequests := hsent.requests
  rw [hw.network, Report.inquiries_constant, hw.settings] at hrequests
  rw [Sent, hw.settings]
  exact hrequests

/-- Requests that come in the same order are the same. -/
theorem SameOrder.exists_perm (h : r.SameOrder r') :
    ∃ asked asked' : List Inquiry, asked.Perm asked' ∧ r.Sent asked ∧ r'.Sent asked' := by
  obtain ⟨first, last, ids, ids', hperm, -, hsent, hsent'⟩ := h
  exact ⟨_, _, ((hperm.map Inquiry.deposits).append_left first).append_right last, hsent, hsent'⟩

/-- What is asked about prices, tokens and pools goes by the names in a file, not by their order. -/
theorem sameOrder_of_perm {path' : Text} (h : r.IsRun path state) (h' : r'.IsRun path' state)
    (hw : r.before.Within s) (hw' : r'.before.Within s) (htext : ∀ p ∈ r.positions, p.TextNamed)
    (hperm : r.positions.Perm r'.positions) (hne : r.positions ≠ []) : r.SameOrder r' := by
  have hne' : r'.positions ≠ [] := fun hnil => hne (List.perm_nil.mp (hnil ▸ hperm))
  have htext' : ∀ p ∈ r'.positions, p.TextNamed := fun p hp => htext p (hperm.symm.subset hp)
  have hsent := sent_of_isRun h hw htext hne
  have hsent' := sent_of_isRun h' hw' htext' hne'
  rw [Report.marketInquiries, Report.mintNames_perm hperm, Report.trackedNames_perm hperm,
    Report.poolNames_perm hperm] at hsent'
  refine ⟨_, _, _, _, Report.unknownNames_perm hperm state, fun q hq => ?_, hsent, hsent'⟩
  rcases List.mem_append.mp hq with hq | hq
  · exact Report.position?_of_mem_market hq
  · obtain ⟨pool, -, rfl⟩ := List.mem_map.mp hq
    rfl

section Explained

variable {network : Text} {A : Answers s network} {findings findings' : Report.Findings}
  {blocks blocks' : List ReportBlock}

/-- What is known of a position afterwards does not depend on the order of the deposits found. -/
theorem Explained.known_perm (h : Explained A state r findings blocks)
    (h' : Explained A state r' findings' blocks') (hperm : r.positions.Perm r'.positions)
    (id : Identifier) : r'.next.initialValues.get? id = r.next.initialValues.get? id ∧
      r'.next.deposits.get? id = r.next.deposits.get? id := by
  obtain ⟨hvalue, hdeposit⟩ := MonitorState.Deposits.get?_enterAll h.rests.entered id
  obtain ⟨hvalue', hdeposit'⟩ := MonitorState.Deposits.get?_enterAll h'.rests.entered id
  have hfound : MonitorState.firstFound id findings'.deposits.entries =
      MonitorState.firstFound id findings.deposits.entries := by
    rw [h.named.deposits, h'.named.deposits]
    exact Answers.firstFound_perm (Report.unknownNames_perm hperm state) id
  rw [hfound] at hvalue' hdeposit'
  exact ⟨hvalue'.trans hvalue.symm, hdeposit'.trans hdeposit.symm⟩

/-- The findings are the same, but for the order of the deposits. -/
theorem Explained.findings_perm (h : Explained A state r findings blocks)
    (h' : Explained A state r' findings' blocks') (hnow : r'.before.now = r.before.now)
    (hperm : r.positions.Perm r'.positions) :
    ∃ deposits, findings' = { findings with deposits } := by
  have hnamed := h'.named
  rw [hnow] at hnamed
  exact ⟨_, h.named.of_perm hnamed hperm⟩

theorem Explained.shows (h : Explained A state r findings blocks)
    {block : Position Int → ReportBlock}
    (hblock : ∀ p ∈ r.positions, Report.blockAt findings r.next p = .ok (some (block p))) :
    r.Shows block := by
  have hblocks : blocks = r.positions.map block := h.rests.blocks_eq hblock
  rw [Shows, ← hblocks]
  exact h.shown

/-- Each position has the same block in both reports. -/
theorem Explained.blocks_perm (h : Explained A state r findings blocks)
    (h' : Explained A state r' findings' blocks') (hnow : r'.before.now = r.before.now)
    (htext : ∀ p ∈ r.positions, p.TextNamed) (hperm : r.positions.Perm r'.positions)
    (hne : r.positions ≠ []) : ∃ block : Position Int → ReportBlock,
      (∀ p ∈ r.positions, (block p).position = p) ∧ r.Shows block ∧ r'.Shows block := by
  obtain ⟨block, hblock⟩ := Report.exists_block h.named h.rests htext hne
  obtain ⟨deposits, rfl⟩ := h.findings_perm h' hnow hperm
  refine ⟨block, fun p hp => (hblock p hp).2, h.shows fun p hp => (hblock p hp).1, ?_⟩
  refine h'.shows fun p hp => ?_
  have hsame : Report.blockAt { findings with deposits } r'.next p =
      Report.blockAt findings r.next p :=
    Report.blockAt_congr (fun id => (h.known_perm h' hperm id).2)
      (fun id => (h.known_perm h' hperm id).1) deposits p
  rw [hsame]
  exact (hblock p (hperm.symm.subset hp)).1

theorem Explained.counts_perm (h : Explained A state r findings blocks)
    (h' : Explained A state r' findings' blocks') (hnow : r'.before.now = r.before.now)
    (hperm : r.positions.Perm r'.positions) :
    r'.summary.positions = r.summary.positions ∧ r'.summary.inRange = r.summary.inRange := by
  obtain ⟨deposits, rfl⟩ := h.findings_perm h' hnow hperm
  obtain ⟨valuations, hvaluations, htotal⟩ := bind_eq_ok.mp h.rests.totals
  obtain ⟨valuations', hvaluations', htotal'⟩ := bind_eq_ok.mp h'.rests.totals
  obtain ⟨hpositions, hrange⟩ := Report.counts_of_ofValuations htotal
  obtain ⟨hpositions', hrange'⟩ := Report.counts_of_ofValuations htotal'
  have hvalues : valuations.Perm valuations' := mapM_perm hperm hvaluations hvaluations'
  rw [hpositions, hrange, hpositions', hrange', hvalues.length_eq, hvalues.countP_eq]
  exact ⟨rfl, rfl⟩

end Explained

/-- Two reports on files without positions are the same. -/
theorem alike_of_empty {path' : Text} (h : r.IsRun path state) (h' : r'.IsRun path' state)
    (hempty : r.positions = []) (hempty' : r'.positions = []) : r.Alike r' := by
  obtain ⟨hsent, hsummary, hnext⟩ := empty_of_isRun h hempty
  obtain ⟨hsent', hsummary', hnext'⟩ := empty_of_isRun h' hempty'
  have hnone : ∀ q ∈ ([] ++ [] : List Inquiry), q.position? = none :=
    fun q hq => absurd hq List.not_mem_nil
  have horder : r.SameOrder r' := ⟨[], [], [], [], .refl _, hnone, hsent, hsent'⟩
  have htotals : ∀ {α : Type} [Scalar α] (price : Value → α) (known : Ledger Identifier α),
      Report.totals price known [] = .ok .empty := fun _ _ => rfl
  exact
    { blocks := fun hne => absurd hempty hne
      requests := horder.exists_perm
      order := fun hstep => ⟨horder, sameTurns_of_empty h h' hempty hempty' hstep⟩
      cycle := by rw [hnext, hnext']
      initialValues := fun id => by rw [hnext, hnext']
      deposits := fun id => by rw [hnext, hnext']
      metrics := fun mint => by rw [hnext, hnext']
      counts := by rw [hsummary, hsummary']; exact ⟨rfl, rfl⟩
      totals := ⟨fun _ => .real .zero, by rw [hempty, hsummary, htotals],
        by rw [hempty', hsummary', htotals]⟩
      exact := fun price known known' _ => ⟨.empty, by rw [hempty, htotals],
        by rw [hempty', htotals]⟩ }

/-- **The order of a file.** Against a network that always answers alike, at the same time and from
the same state, two reports that end well on the same positions, with names that are text, are the
same but for the order of the positions. -/
theorem alike_of_perm {answer : String → Response} {settings : Settings} {path' : Text}
    (h : r.IsRun path state) (h' : r'.IsRun path' state)
    (hw : r.before.Within (.anytime answer settings))
    (hw' : r'.before.Within (.anytime answer settings)) (hnow : r'.before.now = r.before.now)
    (htext : ∀ p ∈ r.positions, p.TextNamed) (hperm : r.positions.Perm r'.positions) :
    r.Alike r' := by
  by_cases hne : r.positions = []
  · exact alike_of_empty h h' hne (List.nil_perm.mp (hne ▸ hperm))
  · have hne' : r'.positions ≠ [] := fun hnil => hne (List.perm_nil.mp (hnil ▸ hperm))
    have htext' : ∀ p ∈ r'.positions, p.TextNamed := fun p hp => htext p (hperm.symm.subset hp)
    obtain ⟨A⟩ := exists_answers (.anytime answer settings)
      (Endpoint.networkOr "" settings.network)
    obtain ⟨findings, blocks, hr⟩ := exists_explained h hw A htext hne
    obtain ⟨findings', blocks', hr'⟩ := exists_explained h' hw' A htext' hne'
    have horder := sameOrder_of_perm h h' hw hw' htext hperm hne
    obtain ⟨deposits, hfindings⟩ := hr.findings_perm hr' hnow hperm
    refine
      { blocks := fun _ => hr.blocks_perm hr' hnow htext hperm hne
        requests := horder.exists_perm
        order := fun hstep => ⟨horder, Report.sameTurns_runPositions hw hw' hnow hstep htext htext'
          (Report.mintNames_perm hperm) (Report.trackedNames_perm hperm)
          (result_runPositions h hne) (result_runPositions h' hne')⟩
        cycle := hr'.rests.cycle.trans hr.rests.cycle.symm
        initialValues := fun id => (hr.known_perm hr' hperm id).1
        deposits := fun id => (hr.known_perm hr' hperm id).2
        metrics := fun mint => ?_
        counts := hr.counts_perm hr' hnow hperm
        totals := ⟨_, hr.rests.totals, ?_⟩
        exact := fun price _ _ => Report.totals_perm (SnapshotFile.accepted_of_load h.load) htext
          hperm price }
    · rw [hr.rests.metrics, hr'.rests.metrics, hnow, hfindings]
    · have htotals := hr'.rests.totals
      rw [hfindings] at htotals
      exact htotals

/-- An entry without amounts, as a file has it. -/
def entryText (id : String) : String :=
  "\x7b\"position_id\": \"" ++ id ++ "\", \"pool_address\": \"B\", \"token_x_mint\": \"C\", " ++
    "\"token_y_mint\": \"C\"\x7d"

/-- The position of that entry. -/
def emptyPosition (id : Text) : Position Int where
  id := .text id
  pool := .text "B"
  x := ⟨.text "C", 9, .whole 0, .whole 0, .whole 0⟩
  y := ⟨.text "C", 9, .whole 0, .whole 0, .whole 0⟩
  lowerBin := 0
  upperBin := 0
  activeBin := 0

/-- A world with a file of two entries. -/
def twoEntries (id id' : String) : World :=
  .start (.constant Stage.sampleAnswer)
    (fun _ => some ("[" ++ entryText id ++ ", " ++ entryText id' ++ "]").toUTF8.toList)
    .standard (.whole 0)

/-- Positions can be compared where they hold text and whole numbers. -/
def isEmptyPosition (id : Text) : Position Int → Bool
  | ⟨.text i, .text q, ⟨.text x, dx, .number (.whole a), .number (.whole b), .number (.whole c)⟩,
      ⟨.text y, dy, .number (.whole d), .number (.whole e), .number (.whole f)⟩, l, u, n⟩ =>
    decide (i = id ∧ q = "B" ∧ x = "C" ∧ y = "C") && decide (dx = 9 ∧ dy = 9) &&
      decide (a = 0 ∧ b = 0 ∧ c = 0 ∧ d = 0 ∧ e = 0 ∧ f = 0) && decide (l = 0 ∧ u = 0 ∧ n = 0)
  | _ => false

theorem eq_of_isEmptyPosition {id : Text} {p : Position Int} (h : isEmptyPosition id p) :
    p = emptyPosition id := by
  unfold isEmptyPosition at h
  split at h
  · simp only [Bool.and_eq_true, decide_eq_true_eq] at h
    obtain ⟨⟨⟨⟨rfl, rfl, rfl, rfl⟩, rfl, rfl⟩, rfl, rfl, rfl, rfl, rfl, rfl⟩, rfl, rfl, rfl⟩ := h
    rfl
  · cases h

/-- The report on a file of two entries, if it ends well. -/
theorem exists_isRun {id id' : String}
    (hload : ((SnapshotFile.load (twoEntries id id').files "p").toOption.map fun ps => match ps with
      | [p, p'] => isEmptyPosition id p && isEmptyPosition id' p'
      | _ => false) = some true)
    (hsome : ((Report.run "p" .initial).result (twoEntries id id')).1.toOption.join.isSome) :
    ∃ r : FinishedReport, r.IsRun "p" .initial ∧ r.before = twoEntries id id' ∧
      r.positions = [emptyPosition id, emptyPosition id'] := by
  obtain ⟨ps, hps, hmatch⟩ := Option.map_eq_some_iff.mp hload
  have hpositions : ps = [emptyPosition id, emptyPosition id'] := by
    split at hmatch
    · obtain ⟨hp, hp'⟩ := Bool.and_eq_true_iff.mp hmatch
      rw [eq_of_isEmptyPosition hp, eq_of_isEmptyPosition hp']
    · cases hmatch
  have hload : SnapshotFile.load (twoEntries id id').files "p" = .ok ps := by
    rcases hresult : SnapshotFile.load (twoEntries id id').files "p" with f | found
    · rw [hresult] at hps
      cases hps
    · rw [hresult] at hps
      rw [Option.some.inj hps]
  rcases hresult : (Report.run "p" .initial).result (twoEntries id id') with
    ⟨_ | _ | ⟨summary, next⟩, after⟩
  · rw [hresult] at hsome
    cases hsome
  · rw [hresult] at hsome
    cases hsome
  · exact ⟨⟨ps, _, after, summary, next⟩, ⟨hload, hresult⟩, rfl, hpositions⟩

/-- Two files with the same two entries, and reports on them that begin in step. -/
theorem alike_of_perm_sample : ∃ r r' : FinishedReport,
    r.IsRun "p" .initial ∧ r.positions = [emptyPosition "A", emptyPosition "D"] ∧
    r'.IsRun "p" .initial ∧ r'.positions = [emptyPosition "D", emptyPosition "A"] ∧
    r.before.InStep r'.before ∧ r.Alike r' := by
  obtain ⟨r, hr, hbefore, hpositions⟩ :=
    @exists_isRun "A" "D" (by decide +kernel) (by decide +kernel)
  obtain ⟨r', hr', hbefore', hpositions'⟩ :=
    @exists_isRun "D" "A" (by decide +kernel) (by decide +kernel)
  have hnow : ∀ id id', (twoEntries id id').now = .whole 0 := fun _ _ => rfl
  have hwithin : ∀ id id', (twoEntries id id').Within
      (.anytime Stage.sampleAnswer .standard) :=
    fun _ _ => ⟨rfl, rfl, trivial, World.ready_start ..⟩
  have hstep : r.before.InStep r'.before := by
    rw [hbefore, hbefore']
    exact World.inStep_start ..
  refine ⟨r, r', hr, hpositions, hr', hpositions', hstep, ?_⟩
  have htext : ∀ p ∈ r.positions, p.TextNamed := by
    rw [hpositions]
    decide
  have hperm : r.positions.Perm r'.positions := by
    rw [hpositions, hpositions']
    exact .swap ..
  exact alike_of_perm hr hr' (hbefore ▸ hwithin ..) (hbefore' ▸ hwithin ..)
    (by rw [hbefore, hbefore', hnow, hnow]) htext hperm

end FinishedReport

end LiquidityWatch
