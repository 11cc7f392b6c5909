import LiquidityWatch.Proofs.NamedReports
import LiquidityWatch.Proofs.SentRequests

/-! # The plan of requests

Which requests a report sends is decided by three things: the names in its file, what the state
already knows, and, for candles, the answer that the request for the pools of a token has just got.
`Report.inquiries` are these requests, and a report that ends well has sent exactly them
(`Report.sends_runPositions`). `Report.Plan` says what they are for each token, position and pool.
It leaves open in which order the requests for different tokens come, and whether those for one of
them come in one go. -/

namespace LiquidityWatch

open Run

/-! ## The plan -/

/-- What a request asks for. -/
inductive Inquiry where
  | prices (mints : List Text)
  | name (mint : Text)
  | pools (mint : Text)
  | candles (mint pool : Text)
  | deposits (position : Text)
  | fees (pool : Text)
deriving DecidableEq

namespace Inquiry

/-- The address that a request of a report goes to. -/
def url (settings : Settings) : Inquiry → String
  | prices mints => Endpoint.prices mints
  | name mint => Endpoint.token (Endpoint.networkOr "" settings.network) mint
  | pools mint => Endpoint.tokenPools (Endpoint.networkOr "" settings.network) mint
  | candles _ pool =>
    Lookup.candlesUrl (Endpoint.networkOr "" settings.network) (.text pool) none none settings
  | deposits position => Endpoint.deposits position
  | fees pool => Endpoint.pair pool

/-- The token that is asked about; prices are asked for all of them together. -/
def token? : Inquiry → Option Text
  | name mint | pools mint | candles mint _ => some mint
  | _ => none

/-- The position whose deposits are asked for. -/
def position? : Inquiry → Option Text
  | deposits position => some position
  | _ => none

/-- The pool whose fees are asked for. -/
def pool? : Inquiry → Option Text
  | fees pool => some pool
  | _ => none

/-- The pool whose candles are asked for to find the index of a token. -/
def candles? (mint : Text) : Inquiry → Option Text
  | candles token pool => if token = mint then some pool else none
  | _ => none

theorem candles?_eq_none {q : Inquiry} {mint : Text} (h : q.token? ≠ some mint) :
    q.candles? mint = none := by
  cases q with
  | candles token pool => exact if_neg fun hsame => h (congrArg some hsame)
  | prices | name | pools | deposits | fees => rfl

/-- A question about a token is about nothing else. -/
theorem of_token? {q : Inquiry} {mint : Text} (h : q.token? = some mint) :
    q.position? = none ∧ q.pool? = none := by
  cases q with
  | name | pools | candles => exact ⟨rfl, rfl⟩
  | prices | deposits | fees => cases h

end Inquiry

namespace Report

section Plan

variable (network : Network) (settings : Settings)

/-- The pool that the network names for a token, after these requests. -/
def poolAt (log : List String) (mint : Text) : Value :=
  Lookup.poolFrom (network log ((Inquiry.pools mint).url settings))

/-- What is asked about a token: its name unless it is known, its pools, and the candles of the pool
that the answer names, if it names one. -/
def tokenInquiries (known : Bool) (log : List String) (mint : Text) : List Inquiry :=
  let named := if known then [] else [.name mint]
  let pool := poolAt network settings (log ++ named.map (Inquiry.url settings)) mint
  named ++ .pools mint :: if pool.isTruthy then [.candles mint pool.shown] else []

/-- What is asked about tokens, one after the other. -/
def tokensInquiries (known : Text → Bool) (log : List String) : List Text → List Inquiry
  | [] => []
  | mint :: rest =>
    let first := tokenInquiries network settings (known mint) log mint
    first ++ tokensInquiries known (log ++ first.map (Inquiry.url settings)) rest

/-- What a report on positions asks. Tokens with known names come first. -/
def inquiries (state : MonitorState Number) (log : List String)
    (positions : List (Position Int)) : List Inquiry :=
  let prices := Inquiry.prices (mintNames positions)
  let known := state.metrics.contains
  prices :: tokensInquiries network settings known (log ++ [prices.url settings])
    (inRounds known (trackedNames positions)) ++
    (unknownNames state positions).map .deposits ++ (poolNames positions).map .fees

end Plan

/-! ## A report that ended well -/

variable {w after : World} {state next : MonitorState Number} {positions : List (Position Int)}

/-- The index of a token takes one request, or two. -/
theorem sends_tokenRsi (hw : w.Ready) {mint : Text} {reading : Rsi.Reading Number}
    (h : (Lookup.tokenRsi (Endpoint.networkOr "" w.settings.network) mint none).result w =
      (.ok reading, after)) :
    let pool := poolAt w.network w.settings w.requests mint
    w.Sends after ((.pools mint :: if pool.isTruthy then [.candles mint pool.shown] else []).map
      (Inquiry.url w.settings)) := by
  intro pool
  obtain ⟨found, w', hpools, h⟩ := result_bind_eq_ok.mp h
  obtain ⟨hfound, hsent⟩ := (Lookup.asksOnce_mostLiquidPool _ mint).sends hw hpools
  have hpool : found = pool := by
    have hends := (Lookup.settles_recovered Lookup.reads_poolIn (w.reply (Endpoint.tokenPools
      (Endpoint.networkOr "" w.settings.network) mint)) .null).ends
    rw [← hfound] at hends
    exact hends
  subst hpool
  rw [result_bind_ok (result_get w')] at h
  dsimp only at h
  by_cases htruthy : pool.isTruthy
  · rw [if_pos htruthy] at h ⊢
    obtain ⟨rows, w'', hrows, h⟩ := result_bind_eq_ok.mp h
    obtain ⟨-, hsent'⟩ := (Lookup.asksOnce_candles _ pool none none).sends (hsent.ready hw) hrows
    obtain ⟨-, rfl⟩ := result_lift_eq_ok.mp h
    rw [hsent.settings] at hsent'
    exact hsent.trans hsent'
  · rw [if_neg htruthy] at h ⊢
    obtain ⟨-, hsilent⟩ := ((Silent.print _).bind fun _ => .pure _).sends h
    exact hsent.trans hsilent

/-- Fresh metrics are those of the token, with the name that is known. -/
structure Renews (state : MonitorState Number) (mint : Text) (m : TokenMetrics Number) : Prop where
  mint_eq : m.mint = mint
  name_eq : ∀ known, state.metrics.get? mint = some known → m.name = known.name

theorem sends_lookUpMetrics (hw : w.Ready) {prices : Ledger Text Number} {mint : Text}
    {m : TokenMetrics Number}
    (h : (lookUpMetrics (Endpoint.networkOr "" w.settings.network) prices state mint).result w =
      (.ok m, after)) :
    Renews state mint m ∧ w.Sends after ((tokenInquiries w.network w.settings
      (state.metrics.contains mint) w.requests mint).map (Inquiry.url w.settings)) := by
  rw [lookUpMetrics] at h
  rw [tokenInquiries, Ledger.contains]
  cases hknown : state.metrics.get? mint with
  | some known =>
    rw [hknown] at h
    obtain ⟨rsi, w', hrsi, h⟩ := result_bind_eq_ok.mp h
    obtain ⟨hm, rfl⟩ := Prod.mk.inj h
    obtain rfl := Except.ok.inj hm
    refine ⟨⟨rfl, fun known' h' => ?_⟩, ?_⟩
    · rw [← Option.some.inj (hknown.symm.trans h')]
    · simpa using sends_tokenRsi hw hrsi
  | none =>
    rw [hknown] at h
    obtain ⟨⟨name, rsi⟩, w', hboth, h⟩ := result_bind_eq_ok.mp h
    obtain ⟨hm, rfl⟩ := Prod.mk.inj h
    obtain rfl := Except.ok.inj hm
    obtain ⟨w'', hname, hrsi⟩ := result_both.mp hboth
    obtain ⟨-, hsent⟩ := (Lookup.asksOnce_tokenName _ mint).sends hw hname
    rw [← hsent.settings] at hrsi
    have hsent' := sends_tokenRsi (hsent.ready hw) hrsi
    rw [hsent.settings, hsent.network, hsent.requests] at hsent'
    refine ⟨⟨rfl, fun known' h' => ?_⟩, ?_⟩
    · cases hknown.symm.trans h'
    · exact hsent.trans hsent'

theorem sends_metrics (hw : w.Ready) {prices : Ledger Text Number} {mints : List Text}
    {metrics : List (TokenMetrics Number)}
    (h : (Run.gather (mints.map (lookUpMetrics (Endpoint.networkOr "" w.settings.network) prices
      state))).result w = (.ok metrics, after)) :
    List.Forall₂ (Renews state) mints metrics ∧
      w.Sends after ((tokensInquiries w.network w.settings state.metrics.contains w.requests
        mints).map (Inquiry.url w.settings)) := by
  -- The requests for a token stand in the log when the next one is asked about.
  induction mints generalizing w metrics with
  | nil =>
    obtain ⟨rfl, rfl⟩ := result_gather_nil.mp h
    exact ⟨.nil, .refl w⟩
  | cons mint rest ih =>
    obtain ⟨m, later, w', rfl, hfirst, hrest⟩ := result_gather_cons.mp h
    obtain ⟨hm, hsent⟩ := sends_lookUpMetrics hw hfirst
    rw [← hsent.settings] at hrest
    obtain ⟨hlater, hsent'⟩ := ih (hsent.ready hw) hrest
    rw [hsent.settings, hsent.network, hsent.requests] at hsent'
    refine ⟨.cons hm hlater, ?_⟩
    rw [tokensInquiries, List.map_append]
    exact hsent.trans hsent'

theorem tokensInquiries_append (network : Network) (settings : Settings) (known : Text → Bool)
    (log : List String) (mints more : List Text) :
    tokensInquiries network settings known log (mints ++ more) =
      tokensInquiries network settings known log mints ++
        tokensInquiries network settings known
          (log ++ (tokensInquiries network settings known log mints).map (Inquiry.url settings))
          more := by
  induction mints generalizing log with
  | nil => rw [tokensInquiries, List.map_nil, List.append_nil, List.nil_append, List.nil_append]
  | cons mint rest ih =>
    rw [List.cons_append, tokensInquiries, tokensInquiries, ih, List.map_append, List.append_assoc,
      List.append_assoc]

theorem sends_allMetrics (hw : w.Ready) {prices : Ledger Text Number} {mints : List Text}
    {metrics : List (TokenMetrics Number)}
    (h : (lookUpAllMetrics (Endpoint.networkOr "" w.settings.network) prices state mints).result w =
      (.ok metrics, after)) :
    List.Forall₂ (Renews state) mints metrics ∧
      w.Sends after ((tokensInquiries w.network w.settings state.metrics.contains w.requests
        (inRounds state.metrics.contains mints)).map (Inquiry.url w.settings)) := by
  obtain ⟨first, later, w', hfirst, hlater, rfl⟩ := result_gatherRounds h
  obtain ⟨hrenewed, hsent⟩ := sends_metrics hw hfirst
  rw [← hsent.settings] at hlater
  obtain ⟨hrenewed', hsent'⟩ := sends_metrics (hsent.ready hw) hlater
  refine ⟨forall₂_rejoin hrenewed hrenewed', ?_⟩
  rw [hsent.settings, hsent.network, hsent.requests] at hsent'
  rw [inRounds, tokensInquiries_append, List.map_append]
  exact hsent.trans hsent'

/-- Where all names are text, a report goes through them without a fault. -/
theorem lookUp_eq (htext : ∀ p ∈ positions, p.TextNamed) (network : Text)
    (state : MonitorState Number) : lookUp network state positions = (do
      let prices ← Lookup.prices (mintNames positions)
      let metrics ← lookUpAllMetrics network prices state (trackedNames positions)
      let (deposits, fees) ← Run.both
        (lookUpDeposits ((unknownNames state positions).map .text))
        (lookUpFees ((poolNames positions).map .text))
      return {
        prices, metrics := .ofList (metrics.map fun m => (m.mint, m)), deposits, fees }) := by
  rw [lookUp, sortedDistinct_mints htext, sortedDistinct_tracked htext, sortedDistinct_pools htext,
    Answers.unknownPositions_eq (Value.map_eq_text fun p hp => (htext p hp).id)]
  simp only [lift_ok_bind, texts_text, Value.map_shown_text]
  rfl

theorem mintNames_ne_nil (hne : positions ≠ []) : mintNames positions ≠ [] := by
  cases positions with
  | nil => exact absurd rfl hne
  | cons p rest =>
    have hmem : p.x.mint.shown ∈ mintNames (p :: rest) := by simp [mintNames]
    exact List.ne_nil_of_mem hmem

theorem sends_lookUpDeposits (hw : w.Ready) {ids : List Text}
    {x : Except Fault (Ledger Identifier (Option (Deposit Number)))}
    (h : (lookUpDeposits (ids.map .text)).result w = (x, after)) :
    w.Sends after (ids.map Endpoint.deposits) := by
  have honce := fun id (_ : id ∈ ids.map Identifier.text) =>
    Lookup.asksOnce_initialDeposit id.toValue.shown
  obtain ⟨ms, hproceeds, hrequests⟩ := proceeds_outcomes honce hw
  rw [result_lookUpDeposits] at h
  obtain ⟨-, rfl⟩ := Prod.mk.inj h
  refine ⟨⟨ms, hproceeds⟩, hrequests.trans ?_⟩
  rw [List.map_map]
  rfl

theorem sends_lookUpFees (hw : w.Ready) {pools : List Text}
    {fees : Ledger Identifier Lookup.FeeInfo}
    (h : (lookUpFees (pools.map .text)).result w = (.ok fees, after)) :
    w.Sends after (pools.map Endpoint.pair) := by
  obtain ⟨found, w', hfound, h⟩ := result_bind_eq_ok.mp h
  obtain ⟨names, w'', hnames, h⟩ := result_bind_eq_ok.mp h
  obtain ⟨-, rfl⟩ := result_lift_eq_ok.mp hnames
  obtain ⟨-, rfl⟩ := Prod.mk.inj h
  have hsent := sends_gather (fun pool _ => Lookup.asksOnce_feeInfo pool.shown) hw hfound
  rwa [List.map_map] at hsent

/-- The metrics of a report are fresh ones of the tokens that it tracks. -/
def FindsMetrics (state : MonitorState Number) (mints : List Text) (findings : Findings) : Prop :=
  ∃ metrics, List.Forall₂ (Renews state) mints metrics ∧
    findings.metrics = .ofList (metrics.map fun m => (m.mint, m))

/-- What a report learns about tokens: it has metrics of these afterwards, and keeps all names. -/
structure Learns (state next : MonitorState Number) (mints : List Text) : Prop where
  contains : ∀ mint, next.metrics.contains mint ↔ state.metrics.contains mint ∨ mint ∈ mints
  names : ∀ mint known, state.metrics.get? mint = some known →
    ∃ m, next.metrics.get? mint = some m ∧ m.name = known.name

theorem FindsMetrics.learns {mints : List Text} {findings : Findings} {now : Number}
    {report : Report} (hfound : FindsMetrics state mints findings) (hnodup : mints.Nodup)
    (h : ofFindings findings state now positions = .ok (report, next)) :
    Learns state next mints := by
  obtain ⟨metrics, hrenewed, hmetrics⟩ := hfound
  have hmints : metrics.map (·.mint) = mints :=
    map_eq_of_forall₂ hrenewed fun _ _ => Renews.mint_eq
  have hentries : findings.metrics.entries.map Prod.snd = metrics := by
    rw [hmetrics, Ledger.entries_ofList, List.map_map]
    · exact List.map_id metrics
    · rw [List.pairwise_map]
      rw [← hmints, List.Nodup, List.pairwise_map] at hnodup
      exact hnodup.imp fun hne => beq_false_of_ne hne
  have hget : ∀ mint, next.metrics.get? mint =
      ((metrics.reverse.find? fun m => m.mint == mint).map (MonitorState.stamp now)).or
        (state.metrics.get? mint) := by
    intro mint
    rw [(rests_of_findings h).metrics, hentries, Ledger.get?_foldl_insert]
  have hname : ∀ m : TokenMetrics Number, (MonitorState.stamp now m).name = m.name := by
    intro m
    rw [MonitorState.stamp_eq_kept]
    rfl
  constructor
  · intro mint
    rw [Ledger.contains, hget, Option.isSome_or, Option.isSome_map, Bool.or_eq_true,
      List.find?_isSome, or_comm, ← hmints]
    simp [Ledger.contains]
  · intro mint known hknown
    rw [hget, hknown]
    cases hfind : metrics.reverse.find? fun m => m.mint == mint with
    | none => exact ⟨known, rfl, rfl⟩
    | some m =>
      have hm : m ∈ metrics := List.mem_reverse.mp (List.mem_of_find?_eq_some hfind)
      have hmint : m.mint = mint := by simpa using List.find?_some hfind
      obtain ⟨mint', -, hrenews⟩ := exists_of_forall₂_right hrenewed hm
      obtain rfl := hrenews.mint_eq.symm.trans hmint
      exact ⟨_, rfl, (hname m).trans (hrenews.name_eq known hknown)⟩

theorem sends_lookUp (hw : w.Ready) (htext : ∀ p ∈ positions, p.TextNamed) (hne : positions ≠ [])
    {findings : Findings} (h : (lookUp (Endpoint.networkOr "" w.settings.network) state
      positions).result w = (.ok findings, after)) :
    FindsMetrics state (trackedNames positions) findings ∧
      w.Sends after ((inquiries w.network w.settings state w.requests positions).map
        (Inquiry.url w.settings)) := by
  rw [lookUp_eq htext] at h
  obtain ⟨prices, w₁, hprices, h⟩ := result_bind_eq_ok.mp h
  obtain ⟨metrics, w₂, hmetrics, h⟩ := result_bind_eq_ok.mp h
  obtain ⟨⟨deposits, fees⟩, w₃, hboth, h⟩ := result_bind_eq_ok.mp h
  obtain ⟨w₄, hdeposits, hfees⟩ := result_both.mp hboth
  obtain ⟨hfindings, rfl⟩ := Prod.mk.inj h
  obtain rfl := Except.ok.inj hfindings
  have hsent := ((Lookup.asksOnce_prices (mintNames_ne_nil hne)).sends hw hprices).2
  rw [← hsent.settings] at hmetrics
  obtain ⟨hrenewed, hsent'⟩ := sends_allMetrics (hsent.ready hw) hmetrics
  have hsent₂ := hsent.trans hsent'
  have hsent₃ := hsent₂.trans (sends_lookUpDeposits (hsent₂.ready hw) hdeposits)
  have hall := hsent₃.trans (sends_lookUpFees (hsent₃.ready hw) hfees)
  refine ⟨⟨metrics, hrenewed, rfl⟩, ?_⟩
  rw [hsent.settings, hsent.network, hsent.requests] at hall
  rw [inquiries, List.map_append, List.map_append, List.map_map, List.map_map]
  exact hall

theorem sends_runPositions (hw : w.Ready) (htext : ∀ p ∈ positions, p.TextNamed)
    (hne : positions ≠ []) {summary : Summary Number} (h : (runPositions state positions).result w =
      (.ok (some (summary, next)), after)) :
    Learns state next (trackedNames positions) ∧
      w.Sends after ((inquiries w.network w.settings state w.requests positions).map
        (Inquiry.url w.settings)) := by
  have hshown := World.Sends.showing w [header positions]
  rw [runPositions, result_bind_ok (result_print _ _), result_bind_ok (result_get _)] at h
  obtain ⟨findings, w₁, hfindings, h⟩ := result_bind_eq_ok.mp h
  obtain ⟨⟨report, next'⟩, w₂, hreport, h⟩ := result_bind_eq_ok.mp h
  obtain ⟨hfindings', rfl⟩ := result_lift_eq_ok.mp hreport
  obtain ⟨_, w₃, hprinted, h⟩ := result_bind_eq_ok.mp h
  obtain ⟨hvalue, rfl⟩ := Prod.mk.inj h
  obtain ⟨rfl, rfl⟩ := Prod.mk.inj (Option.some.inj (Except.ok.inj hvalue))
  obtain ⟨hfound, hsent⟩ := sends_lookUp (hshown.ready hw) htext hne hfindings
  obtain ⟨outcome, texts, hlines, -⟩ := result_printAll (report.lines w.settings.label) w₁
  obtain ⟨-, rfl⟩ := Prod.mk.inj (hlines.symm.trans hprinted)
  refine ⟨hfound.learns (Text.nodup_sortedDistinct _) hfindings', ?_⟩
  have hall := (hshown.trans hsent).trans (.showing w₁ texts)
  rw [List.nil_append, List.append_nil] at hall
  exact hall

/-! ## What the plan says -/

variable {network : Network} {settings : Settings} {known : Text → Bool} {log : List String}

theorem token?_of_mem_tokenInquiries {b : Bool} {mint : Text} {q : Inquiry}
    (h : q ∈ tokenInquiries network settings b log mint) : q.token? = some mint := by
  rcases List.mem_append.mp h with h | h
  · by_cases hb : b
    · simp [hb] at h
    · simp only [hb] at h
      rw [List.mem_singleton.mp h]
      rfl
  · rcases List.mem_cons.mp h with rfl | h
    · rfl
    · by_cases hpool : (poolAt network settings (log ++ List.map (Inquiry.url settings)
        (if b then [] else [.name mint])) mint).isTruthy
      · rw [if_pos hpool] at h
        rw [List.mem_singleton.mp h]
        rfl
      · rw [if_neg hpool] at h
        cases h

/-- The name of a token is asked for once, unless it is known. -/
theorem count_name_tokenInquiries (b : Bool) (mint : Text) :
    (tokenInquiries network settings b log mint).count (.name mint) = if b then 0 else 1 := by
  rw [tokenInquiries]
  cases b <;> simp <;> split <;> simp

theorem token?_of_mem_tokensInquiries {mints : List Text} {q : Inquiry}
    (h : q ∈ tokensInquiries network settings known log mints) :
    ∃ mint ∈ mints, q.token? = some mint := by
  induction mints generalizing log with
  | nil => cases h
  | cons mint rest ih =>
    rcases List.mem_append.mp h with h | h
    · exact ⟨mint, List.mem_cons_self, token?_of_mem_tokenInquiries h⟩
    · obtain ⟨mint', hmint', hq⟩ := ih h
      exact ⟨mint', List.mem_cons_of_mem _ hmint', hq⟩

/-- All that is asked about a token is asked in one go. -/
theorem tokensInquiries_split (network : Network) (settings : Settings) (known : Text → Bool)
    {mints : List Text} (hnodup : mints.Nodup) {mint : Text} (h : mint ∈ mints)
    (log : List String) : ∃ before later,
      tokensInquiries network settings known log mints =
        before ++ tokenInquiries network settings (known mint)
          (log ++ before.map (Inquiry.url settings)) mint ++ later ∧
      ∀ q ∈ before ++ later, q.token? ≠ some mint := by
  induction mints generalizing log with
  | nil => cases h
  | cons first rest ih =>
    obtain ⟨hfirst, hrest⟩ := List.nodup_cons.mp hnodup
    by_cases hsame : mint = first
    · subst hsame
      refine ⟨[], tokensInquiries network settings known (log ++
        (tokenInquiries network settings (known mint) log mint).map (Inquiry.url settings)) rest,
        ?_, ?_⟩
      · rw [List.map_nil, List.append_nil]
        rfl
      intro q hq heq
      obtain ⟨mint', hmint', hq⟩ := token?_of_mem_tokensInquiries hq
      obtain rfl := Option.some.inj (heq.symm.trans hq)
      exact hfirst hmint'
    · have hmem : mint ∈ rest := (List.mem_cons.mp h).resolve_left hsame
      obtain ⟨before, later, hsplit, hothers⟩ := ih hrest hmem
        (log ++ (tokenInquiries network settings (known first) log first).map
          (Inquiry.url settings))
      refine ⟨tokenInquiries network settings (known first) log first ++ before, later, ?_, ?_⟩
      · rw [tokensInquiries, hsplit]
        simp
      · intro q hq heq
        rw [List.append_assoc] at hq
        rcases List.mem_append.mp hq with hq | hq
        · rw [token?_of_mem_tokenInquiries hq] at heq
          exact hsame (Option.some.inj heq).symm
        · exact hothers q hq heq

/-- The pools of a token are asked for once, and candles after that if a pool is named. -/
theorem exists_pools_split {sent before later : List Inquiry} {b : Bool} {mint : Text}
    (hsplit : sent = before ++ tokenInquiries network settings b
      (log ++ before.map (Inquiry.url settings)) mint ++ later)
    (hothers : ∀ q ∈ before ++ later, q.token? ≠ some mint) : ∃ before later,
      sent = before ++ .pools mint :: later ∧ .pools mint ∉ before ++ later ∧
      before.filterMap (Inquiry.candles? mint) = [] ∧
      let pool := poolAt network settings (log ++ before.map (Inquiry.url settings)) mint
      later.filterMap (Inquiry.candles? mint) = if pool.isTruthy then [pool.shown] else [] := by
  obtain ⟨hbefore, hlater⟩ := List.forall_mem_append.mp hothers
  have hnone : ∀ qs : List Inquiry, (∀ q ∈ qs, q.token? ≠ some mint) →
      qs.filterMap (Inquiry.candles? mint) = [] ∧ .pools mint ∉ qs := fun qs h =>
    ⟨List.filterMap_eq_nil_iff.mpr fun q hq => Inquiry.candles?_eq_none (h q hq),
      fun hq => h _ hq rfl⟩
  let named : List Inquiry := if b then [] else [.name mint]
  have hnamed : named.filterMap (Inquiry.candles? mint) = [] ∧ .pools mint ∉ named := by
    cases b <;> simp [named, Inquiry.candles?]
  have hlog : log ++ before.map (Inquiry.url settings) ++ named.map (Inquiry.url settings) =
      log ++ (before ++ named).map (Inquiry.url settings) := by
    rw [List.map_append, List.append_assoc]
  let pool := poolAt network settings (log ++ (before ++ named).map (Inquiry.url settings)) mint
  let candles : List Inquiry := if pool.isTruthy then [.candles mint pool.shown] else []
  have hcandles : candles.filterMap (Inquiry.candles? mint) =
      (if pool.isTruthy then [pool.shown] else []) ∧ .pools mint ∉ candles := by
    cases h : pool.isTruthy <;> simp [candles, h, Inquiry.candles?]
  refine ⟨before ++ named, candles ++ later, ?_, ?_, ?_, ?_⟩
  · rw [hsplit, tokenInquiries, hlog, ← List.append_assoc, List.append_assoc, List.cons_append]
  · simp [hnamed.2, hcandles.2, (hnone _ hbefore).2, (hnone _ hlater).2]
  · rw [List.filterMap_append, (hnone _ hbefore).1, hnamed.1, List.append_nil]
  · rw [List.filterMap_append, (hnone _ hlater).1, hcandles.1, List.append_nil]

/-! ### The requests of a report -/

/-- What a report asks about the tokens that it tracks. -/
def trackedInquiries (network : Network) (settings : Settings) (state : MonitorState Number)
    (log : List String) (positions : List (Position Int)) : List Inquiry :=
  tokensInquiries network settings state.metrics.contains
    (log ++ [(Inquiry.prices (mintNames positions)).url settings])
    (inRounds state.metrics.contains (trackedNames positions))

/-- What a report asks about positions and pools. -/
def otherInquiries (state : MonitorState Number) (positions : List (Position Int)) : List Inquiry :=
  (unknownNames state positions).map .deposits ++ (poolNames positions).map .fees

theorem inquiries_eq (network : Network) (settings : Settings) (state : MonitorState Number)
    (log : List String) (positions : List (Position Int)) :
    inquiries network settings state log positions =
      .prices (mintNames positions) :: (trackedInquiries network settings state log positions ++
        otherInquiries state positions) := by
  rw [inquiries, List.cons_append, List.cons_append, List.append_assoc]
  rfl

theorem token?_of_mem_trackedInquiries {q : Inquiry}
    (h : q ∈ trackedInquiries network settings state log positions) :
    ∃ mint ∈ trackedNames positions, q.token? = some mint := by
  obtain ⟨mint, hmint, hq⟩ := token?_of_mem_tokensInquiries h
  exact ⟨mint, (inRounds_perm _ _).mem_iff.mp hmint, hq⟩

/-- Deposits and fees are no tokens. -/
theorem token?_of_mem_otherInquiries {q : Inquiry} (h : q ∈ otherInquiries state positions) :
    q.token? = none ∧ ∀ mints, q ≠ .prices mints := by
  rcases List.mem_append.mp h with h | h
  · obtain ⟨id, -, rfl⟩ := List.mem_map.mp h
    exact ⟨rfl, fun mints h => nomatch h⟩
  · obtain ⟨pool, -, rfl⟩ := List.mem_map.mp h
    exact ⟨rfl, fun mints h => nomatch h⟩

theorem prices_not_mem (mints : List Text) : .prices mints ∉
    trackedInquiries network settings state log positions ++ otherInquiries state positions := by
  intro h
  rcases List.mem_append.mp h with h | h
  · obtain ⟨mint, -, hmint⟩ := token?_of_mem_trackedInquiries h
    cases hmint
  · exact (token?_of_mem_otherInquiries h).2 mints rfl

/-- Only tokens that are tracked are asked about. -/
theorem mem_trackedNames_of_token? {q : Inquiry} {mint : Text}
    (h : q ∈ inquiries network settings state log positions) (hmint : q.token? = some mint) :
    mint ∈ trackedNames positions := by
  rw [inquiries_eq] at h
  rcases List.mem_cons.mp h with rfl | h
  · cases hmint
  · rcases List.mem_append.mp h with h | h
    · obtain ⟨mint', hmint', heq⟩ := token?_of_mem_trackedInquiries h
      rwa [← Option.some.inj (heq.symm.trans hmint)]
    · cases (token?_of_mem_otherInquiries h).1.symm.trans hmint

/-- What is asked about anything but prices and tokens. -/
theorem filterMap_inquiries {α : Type} {f : Inquiry → Option α}
    (hprices : ∀ mints, f (.prices mints) = none)
    (htoken : ∀ q mint, q.token? = some mint → f q = none) :
    (inquiries network settings state log positions).filterMap f =
      (otherInquiries state positions).filterMap f := by
  have htracked : (trackedInquiries network settings state log positions).filterMap f = [] := by
    rw [List.filterMap_eq_nil_iff]
    intro q hq
    obtain ⟨mint, -, hmint⟩ := token?_of_mem_trackedInquiries hq
    exact htoken q mint hmint
  rw [inquiries_eq, List.filterMap_cons_none (hprices _), List.filterMap_append, htracked,
    List.nil_append]

/-- What is asked about a token stands apart from all that is asked about others. -/
theorem inquiries_split {mint : Text} (h : mint ∈ trackedNames positions) : ∃ before later,
    inquiries network settings state log positions =
      before ++ tokenInquiries network settings (state.metrics.contains mint)
        (log ++ before.map (Inquiry.url settings)) mint ++ later ∧
    ∀ q ∈ before ++ later, q.token? ≠ some mint := by
  have hrounds := inRounds_perm state.metrics.contains (trackedNames positions)
  obtain ⟨before, later, hsplit, hothers⟩ := tokensInquiries_split network settings
    state.metrics.contains (hrounds.nodup_iff.mpr (Text.nodup_sortedDistinct _))
    (hrounds.mem_iff.mpr h) (log ++ [(Inquiry.prices (mintNames positions)).url settings])
  refine ⟨.prices (mintNames positions) :: before, later ++ otherInquiries state positions, ?_, ?_⟩
  · rw [inquiries_eq, trackedInquiries, hsplit, List.map_cons]
    simp
  · intro q hq heq
    rw [List.cons_append, ← List.append_assoc] at hq
    rcases List.mem_cons.mp hq with rfl | hq
    · cases heq
    · rcases List.mem_append.mp hq with hq | hq
      · exact hothers q hq heq
      · cases (token?_of_mem_otherInquiries hq).1.symm.trans heq

theorem count_name_inquiries (mint : Text) :
    (inquiries network settings state log positions).count (.name mint) =
      if mint ∈ trackedNames positions ∧ state.metrics.contains mint = false then 1 else 0 := by
  by_cases hmint : mint ∈ trackedNames positions
  · obtain ⟨before, later, hsplit, hothers⟩ := inquiries_split hmint
    rw [hsplit, List.count_append, List.count_append, count_name_tokenInquiries,
      List.count_eq_zero.mpr fun hq => hothers _ (List.mem_append_left _ hq) rfl,
      List.count_eq_zero.mpr fun hq => hothers _ (List.mem_append_right _ hq) rfl]
    cases state.metrics.contains mint <;> simp [hmint]
  · rw [if_neg fun h => hmint h.1, List.count_eq_zero]
    exact fun hq => hmint (mem_trackedNames_of_token? hq rfl)

/-- A plan of requests. Prices are asked for in one request for all tokens, which comes first. For
each tracked token, and no other one, there is one request for its pools, and one for its name
unless that is known; candles are asked for once after the pools, if a pool is named in the answer
that the request for them got where it stands. Deposits are asked for in one request for every entry
whose deposit is not known, fees in one for every pool. -/
structure Plan (network : Network) (settings : Settings) (known : Text → Bool)
    (state : MonitorState Number) (log : List String) (positions : List (Position Int))
    (sent : List Inquiry) : Prop where
  prices : ∃ rest, sent = .prices (mintNames positions) :: rest ∧ ∀ mints, .prices mints ∉ rest
  names : ∀ mint, sent.count (.name mint) =
    if mint ∈ trackedNames positions ∧ known mint = false then 1 else 0
  pools : ∀ mint ∈ trackedNames positions, ∃ before later,
    sent = before ++ .pools mint :: later ∧ .pools mint ∉ before ++ later ∧
      before.filterMap (Inquiry.candles? mint) = [] ∧
      let pool := poolAt network settings (log ++ before.map (Inquiry.url settings)) mint
      later.filterMap (Inquiry.candles? mint) = if pool.isTruthy then [pool.shown] else []
  tracked : ∀ q ∈ sent, ∀ mint, q.token? = some mint → mint ∈ trackedNames positions
  deposits : sent.filterMap Inquiry.position? = unknownNames state positions
  fees : sent.filterMap Inquiry.pool? = poolNames positions

theorem plan_inquiries (network : Network) (settings : Settings) (state : MonitorState Number)
    (log : List String) (positions : List (Position Int)) :
    Plan network settings state.metrics.contains state log positions
      (inquiries network settings state log positions) where
  prices := ⟨_, inquiries_eq network settings state log positions, prices_not_mem⟩
  names := count_name_inquiries
  pools mint hmint := by
    obtain ⟨before, later, hsplit, hothers⟩ := inquiries_split hmint
    exact exists_pools_split hsplit hothers
  tracked q hq mint hmint := mem_trackedNames_of_token? hq hmint
  deposits := by
    rw [filterMap_inquiries (fun _ => rfl) fun q mint h => (Inquiry.of_token? h).1]
    simp [otherInquiries, Function.comp_def, Inquiry.position?]
  fees := by
    rw [filterMap_inquiries (fun _ => rfl) fun q mint h => (Inquiry.of_token? h).2]
    simp [otherInquiries, Function.comp_def, Inquiry.pool?]

end Report

end LiquidityWatch
