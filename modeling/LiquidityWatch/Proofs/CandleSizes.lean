import LiquidityWatch.Proofs.CheckedAddresses
import LiquidityWatch.Proofs.Numerals

/-! # Candle sizes

The size of the candles that an index is computed from is given with a command, or set outside, or
else the default. It goes two ways: into the address that the candles are asked for at, and into the
label that the index is shown under. Both always have the same number (`Command.candle_sizes`). An
option of a command is one of the sizes that are offered; what is set outside need not be. -/

namespace LiquidityWatch

/-! ## Sizes that are set -/

namespace Settings

variable {environment : Environment} {name text : String} {n m default : Int}

/-- The text spells an integer, with padding around it. -/
def Spells (text : String) (n : Int) : Prop :=
  ∃ count ≤ Fault.digitLimit, WholeNumeral (stripped text.toList) count n

theorem readWhole_strip : readWhole (strip text).toList = .ok n ↔ Spells text n := by
  rw [strip, String.toList_ofList]
  exact readWhole_eq_ok

theorem Spells.unique (hn : Spells text n) (hm : Spells text m) : n = m :=
  Except.ok.inj ((readWhole_strip.mpr hn).symm.trans (readWhole_strip.mpr hm))

/-- The value of a setting: the integer that its text spells, or the default where there is no text,
or one that spells none. -/
inductive Sets (environment : Environment) (name : String) (default : Int) : Int → Prop
  | spelled {text : String} {n : Int} (h : environment.lookup name = some text)
    (hn : Spells text n) : Sets environment name default n
  | default (h : ∀ text ∈ environment.lookup name, ∀ n, ¬ Spells text n) :
    Sets environment name default default

theorem sets_wholeSetting (environment : Environment) (name : String) (default : Int) :
    Sets environment name default (wholeSetting environment name default).1 := by
  cases htext : environment.lookup name with
  | none =>
    have hempty : strip "" = "" := rfl
    rw [wholeSetting, htext, Option.getD_none, if_pos hempty]
    exact .default fun text h => nomatch htext.symm.trans h
  | some text =>
    have hread : ∀ f, readWhole (strip text).toList = .error f →
        Sets environment name default default := by
      intro f hf
      refine .default fun text' h n hn => ?_
      obtain rfl := Option.some.inj (htext.symm.trans h)
      exact nomatch hf.symm.trans (readWhole_strip.mpr hn)
    rw [wholeSetting, htext, Option.getD_some]
    by_cases hblank : strip text = ""
    · rw [if_pos hblank]
      exact hread .malformed (by rw [hblank]; rfl)
    · rw [if_neg hblank]
      cases hvalue : readWhole (strip text).toList with
      | ok n => exact .spelled htext (readWhole_strip.mp hvalue)
      | error f => exact hread f hvalue

theorem Sets.eq_of_spells (h : Sets environment name default n)
    (htext : environment.lookup name = some text) (hm : Spells text m) : n = m := by
  cases h with
  | spelled htext' hn =>
    obtain rfl := Option.some.inj (htext.symm.trans htext')
    exact hn.unique hm
  | default hnone => exact absurd hm (hnone text htext m)

/-- The sizes that are offered for the candles of an index. -/
abbrev offered : List Int := offeredAggregates timeframe

/-- No size is set that is not offered. -/
def AllowsSize (environment : Environment) : Prop :=
  ∀ text ∈ environment.lookup aggregateName, ∀ n, Spells text n → n ∈ offered

theorem aggregate_ofEnvironment (environment : Environment) :
    (ofEnvironment environment).1.aggregate =
      (wholeSetting environment aggregateName defaultAggregate).1 := by
  rw [ofEnvironment]

/-- The size that an environment sets. -/
theorem sets_aggregate (environment : Environment) :
    Sets environment aggregateName defaultAggregate (ofEnvironment environment).1.aggregate := by
  rw [aggregate_ofEnvironment]
  exact sets_wholeSetting environment aggregateName defaultAggregate

theorem aggregate_mem_offered :
    (ofEnvironment environment).1.aggregate ∈ offered ↔ AllowsSize environment := by
  have hsets := sets_aggregate environment
  generalize (ofEnvironment environment).1.aggregate = size at hsets ⊢
  constructor
  · intro h text htext n hn
    rw [← hsets.eq_of_spells htext hn]
    exact h
  · intro h
    cases hsets with
    | spelled htext hn => exact h _ htext _ hn
    | default => decide

end Settings

/-! ## Addresses of candles -/

namespace Endpoint

/-- How addresses begin under the pools of a network, where their candles are. -/
def poolsStart (network : Text) : List Char :=
  marketBase.toList ++ ("/networks/".toList ++ (network.toString.toList ++ "/pools/".toList))

/-- If anything under the pools of the network is asked for, it is the candles of a pool, and they
have this size. -/
def CandlesOf (network : Text) (size : Int) (url : String) : Prop :=
  poolsStart network <+: url.toList →
    ∃ pool : Text, url = candles network pool Settings.timeframe (toString size)

variable {network : Text} {size : Int}

/-- Names and pools of tokens are found elsewhere. -/
theorem not_poolsStart_token (mint : Text) (more : List Char) :
    ¬ poolsStart network <+: (token network mint).toList ++ more := by
  show ¬ _ <+: (marketBase ++ "/networks/" ++ network.toString ++ "/tokens/" ++
    mint.toString).toList ++ more
  simp only [String.toList_append, List.append_assoc, poolsStart, List.prefix_append_right_inj]
  exact fun h => absurd (List.prefix_of_prefix_length_le h (List.prefix_append _ _) (by decide))
    (by decide)

theorem toList_prefix_append (s t : String) : s.toList <+: (s ++ t).toList := by
  rw [String.toList_append]
  exact List.prefix_append _ _

/-- What begins otherwise than the addresses of the service is none of them. -/
theorem candlesOf_of_apart {s url : String} (hs : s.toList <+: url.toList)
    (h : ¬ marketBase.toList <+: s.toList) (h' : ¬ s.toList <+: marketBase.toList) :
    CandlesOf network size url := by
  intro hpools
  rcases List.prefix_or_prefix_of_prefix ((List.prefix_append _ _).trans hpools) hs with hp | hp
  · exact absurd hp h
  · exact absurd hp h'

theorem candlesOf_prices (mints : List Text) : CandlesOf network size (prices mints) := by
  have hs : priceBase.toList <+: (prices mints).toList :=
    ((toList_prefix_append _ _).trans (toList_prefix_append _ _)).trans (toList_prefix_append _ _)
  exact candlesOf_of_apart hs (by decide +kernel) (by decide +kernel)

theorem candlesOf_deposits (position : Text) : CandlesOf network size (deposits position) := by
  have hs : positionBase.toList <+: (deposits position).toList :=
    ((toList_prefix_append _ _).trans (toList_prefix_append _ _)).trans (toList_prefix_append _ _)
  exact candlesOf_of_apart hs (by decide +kernel) (by decide +kernel)

theorem candlesOf_pair (pool : Text) : CandlesOf network size (pair pool) := by
  have hs : positionBase.toList <+: (pair pool).toList :=
    (toList_prefix_append _ _).trans (toList_prefix_append _ _)
  exact candlesOf_of_apart hs (by decide +kernel) (by decide +kernel)

theorem candlesOf_token (mint : Text) : CandlesOf network size (token network mint) := by
  intro h
  rw [← List.append_nil (token network mint).toList] at h
  exact absurd h (not_poolsStart_token mint [])

theorem candlesOf_tokenPools (mint : Text) : CandlesOf network size (tokenPools network mint) := by
  intro h
  rw [tokenPools, String.toList_append] at h
  exact absurd h (not_poolsStart_token mint _)

theorem candlesOf_candles (pool : Text) :
    CandlesOf network size (candles network pool Settings.timeframe (toString size)) :=
  fun _ => ⟨pool, rfl⟩

end Endpoint

/-! ## The size in effect -/

/-- The size of the candles of an index: the one that is given, or the one that is set. -/
def candleSize (settings : Settings) : Option Int → Int
  | none | some 0 => settings.aggregate
  | some given => given

/-- The label of candles of a size. -/
def sizeLabel (size : Int) : String := toString size ++ Settings.timeframeUnit Settings.timeframe

theorem candlesUrl_eq (network : Text) (pool : Value) (aggregate : Option Int)
    (settings : Settings) : Lookup.candlesUrl network pool none aggregate settings =
      Endpoint.candles network pool.shown Settings.timeframe
        (toString (candleSize settings aggregate)) := by
  match aggregate with
  | none | some 0 | some (.ofNat (_ + 1)) | some (.negSucc _) => rfl

theorem candleLabel_eq (settings : Settings) (aggregate : Option Int) :
    Command.candleLabel settings aggregate = sizeLabel (candleSize settings aggregate) := by
  match aggregate with
  | none | some 0 | some (.ofNat (_ + 1)) | some (.negSucc _) => rfl

theorem CommandLine.offered_of_aggregateOf? {value : Text} {size : Int}
    (h : aggregateOf? value = some size) : size ∈ Settings.offered := by
  rw [aggregateOf?] at h
  split at h
  · split at h
    · rename_i hcontains
      obtain rfl := Option.some.inj h
      exact List.contains_iff_mem.mp hcontains
    · cases h
  · cases h

/-- A size that a line gives is one that is offered. -/
theorem CommandLine.mem_offered_of_read {arguments : List Text} {mint : Text}
    {aggregate : Option Int} {network : Option Text}
    (h : read arguments = .command (.rsi mint aggregate network)) :
    ∀ size ∈ aggregate, size ∈ Settings.offered := by
  obtain ⟨name, rest, values, -, hmakes, -, -⟩ := read_eq_command h
  cases hmakes
  intro size hsize
  obtain ⟨value, -, hvalue⟩ := Option.bind_eq_some_iff.mp hsize
  exact offered_of_aggregateOf? hvalue

/-! ## What is asked and shown -/

/-- All that is sent between two worlds is no candles, or candles of this size. -/
def World.AsksCandlesOf (w after : World) (network : Text) (size : Int) : Prop :=
  ∃ urls, w.Sends after urls ∧ ∀ url ∈ urls, Endpoint.CandlesOf network size url

namespace Report

open Run

variable {w : World} {state : MonitorState Number}

/-- The kind of requests that reports send. -/
def Candled (settings : Settings) (url : String) : Prop :=
  Endpoint.CandlesOf (Endpoint.networkOr "" settings.network) settings.aggregate url

/-- The lookups of a report, once those of deposits can begin. -/
theorem lookUp_eq_prepare (network : Text) (state : MonitorState Number)
    (positions : List (Position Int)) : lookUp network state positions = (do
      let prepared ← prepare network state positions
      let (deposits, fees) ← Run.both (lookUpDeposits prepared.unknown) (lookUpFees prepared.pools)
      return ⟨prepared.prices, .ofList (prepared.metrics.map fun m => (m.mint, m)), deposits,
        fees⟩) := by
  simp only [lookUp, prepare, bind_assoc, pure_bind]

theorem asksBy_lookUp (settings : Settings) (state : MonitorState Number)
    (positions : List (Position Int)) :
    AsksBy (fun found url => found = settings → Candled found url)
      (lookUp (Endpoint.networkOr "" settings.network) state positions) := by
  rw [lookUp_eq_prepare]
  refine AsksBy.bind (asksBy_prepare state positions ?_ ?_ ?_ ?_) fun prepared =>
    (AsksBy.both ?_ (asksBy_lookUpFees prepared.pools ?_)).bind fun found => .pure _
  · exact fun _ names _ => Endpoint.candlesOf_prices names
  · rintro _ mint rfl
    exact Endpoint.candlesOf_token mint
  · rintro _ mint rfl
    exact Endpoint.candlesOf_tokenPools mint
  · rintro _ pool rfl
    rw [candlesUrl_eq]
    exact Endpoint.candlesOf_candles pool.shown
  · refine (AsksBy.gather fun id _ => ?_).bind fun found => .pure _
    exact (Lookup.asksOnce_initialDeposit id.toValue.shown).asksBy fun _ _ =>
      Endpoint.candlesOf_deposits id.toValue.shown
  · exact fun _ pool _ => Endpoint.candlesOf_pair pool

theorem asksBy_runPositions (state : MonitorState Number) (positions : List (Position Int)) :
    AsksBy Candled (runPositions state positions) := by
  refine (AsksBy.print _).bind fun _ => AsksBy.get fun w => ?_
  exact (asksBy_lookUp w.settings state positions).bind fun findings =>
    (AsksBy.lift _).bind fun _ => (AsksBy.printAll _).bind fun _ => .pure _

theorem asksBy_run (path : Text) (state : MonitorState Number) :
    AsksBy Candled (run path state) := by
  rw [run]
  refine AsksBy.get fun w => ?_
  rcases SnapshotFile.load w.files path with f | _ | ⟨p, rest⟩
  · show AsksBy _ (if f.isValueFault then _ else _)
    split
    · exact (AsksBy.print _).bind fun _ => .pure _
    · exact (Silent.throw f).asksBy
  · exact (AsksBy.print _).bind fun _ => AsksBy.get fun w' => (AsksBy.lift _).bind fun found =>
      .pure (some found)
  · exact (asksBy_runPositions state (p :: rest)).mono fun settings url h _ => h

/-- A report on positions ends before it shows anything of them, or it shows its lines, with this
label for the candles. -/
def ShowsUnder (w : World) (state : MonitorState Number) (positions : List (Position Int))
    (label : String) : Prop :=
  ∃ before ms, w.Proceeds before ms ∧
    ((∃ f, (runPositions state positions).result w = (.error f, before)) ∨
      ∃ (report : Report) (next : MonitorState Number),
        (runPositions state positions).result w = ((do
        printAll (report.lines label)
        return some (report.summary, next)) : Run _).result before)

theorem showsUnder (hw : w.Ready) (state : MonitorState Number) (positions : List (Position Int)) :
    ShowsUnder w state positions (sizeLabel w.settings.aggregate) := by
  have hfirst := w.proceeds_showing [header positions]
  have hrun : (runPositions state positions).result w = ((do
      let findings ← lookUp (Endpoint.networkOr "" w.settings.network) state positions
      let found ← ofFindings findings state w.now positions
      printAll (found.1.lines w.settings.label)
      return some (found.1.summary, found.2)) : Run _).result (w.showing [header positions]) := by
    rw [runPositions, result_bind_ok (result_print _ _), result_bind_ok (result_get _)]
    rfl
  obtain ⟨urls, ms, hproceeds, -, -⟩ := asksBy_lookUp w.settings state positions _ (hfirst.ready hw)
  rcases hfound : (lookUp (Endpoint.networkOr "" w.settings.network) state positions).result
    (w.showing [header positions]) with ⟨f | findings, before⟩
  · rw [hfound] at hproceeds
    exact ⟨before, _, hfirst.trans hproceeds, .inl ⟨f, hrun.trans (result_bind_error hfound _)⟩⟩
  · rw [hfound] at hproceeds
    rw [result_bind_ok hfound] at hrun
    refine ⟨before, _, hfirst.trans hproceeds, ?_⟩
    cases hreport : ofFindings findings state w.now positions with
    | error f =>
      rw [hreport] at hrun
      exact .inl ⟨f, hrun⟩
    | ok pair =>
      rw [hreport] at hrun
      exact .inr ⟨pair.1, pair.2, hrun⟩

/-- A report on a file asks for candles of one size at most, and shows the index under its label. -/
structure SizedBy (w : World) (path : Text) (state : MonitorState Number) (size : Int) : Prop where
  asks : w.AsksCandlesOf ((run path state).result w).2 (Endpoint.networkOr "" w.settings.network)
    size
  shows (positions : List (Position Int)) (hload : SnapshotFile.load w.files path = .ok positions)
    (hne : positions ≠ []) : (run path state).result w = (runPositions state positions).result w ∧
      ShowsUnder w state positions (sizeLabel size)

theorem sizedBy {w : World} (hw : w.Ready) (path : Text) (state : MonitorState Number) :
    SizedBy w path state w.settings.aggregate where
  asks := by
    obtain ⟨urls, ms, hproceeds, hurls, hall⟩ := asksBy_run path state w hw
    exact ⟨urls, ⟨⟨ms, hproceeds⟩, hurls⟩, hall⟩
  shows positions hload hne := by
    refine ⟨?_, showsUnder hw state positions⟩
    rw [result_run, hload]
    cases positions with
    | nil => exact absurd rfl hne
    | cons p rest => rfl

end Report

namespace Command

open Run

/-- The index of a token goes by candles of one size, and is shown under its label. -/
structure SizedBy (w : World) (mint : Text) (aggregate : Option Int) (network : Option Text)
    (size : Int) : Prop where
  asks : w.AsksCandlesOf ((showRsi mint aggregate network).result w).2 (w.networkOr network) size
  shows {name : Value} {reading : Rsi.Reading Number} {middle after : World}
    (hname : (Lookup.tokenName (w.networkOr network) mint).result w = (.ok name, middle))
    (hreading : (Lookup.tokenRsi (w.networkOr network) mint aggregate).result middle =
      (.ok reading, after)) (hdata : reading.hasData = true) :
    (showRsi mint aggregate network).result w = ((do
      printAll [indexLine (sizeLabel size) name reading, timeLine reading]
      return reading) : Run _).result after

theorem sizedBy {w : World} (hw : w.Ready) (mint : Text) (aggregate : Option Int)
    (network : Option Text) :
    SizedBy w mint aggregate network (candleSize w.settings aggregate) where
  asks := by
    obtain ⟨more, hsends, hmore⟩ := sends_showRsi hw mint aggregate network
    refine ⟨_, hsends, List.forall_mem_cons.mpr ⟨Endpoint.candlesOf_token mint,
      List.forall_mem_cons.mpr ⟨Endpoint.candlesOf_tokenPools mint, ?_⟩⟩⟩
    rcases hmore with rfl | ⟨pool, rfl⟩
    · exact fun _ h => absurd h List.not_mem_nil
    · rw [candlesUrl_eq, List.forall_mem_singleton]
      exact Endpoint.candlesOf_candles pool.shown
  shows hname hreading hdata := by
    rw [result_showRsi hname hreading hdata, candleLabel_eq]

variable {settings : Settings} {aggregate : Option Int}

/-- An offered size that is given is the one in effect. -/
theorem candleSize_mem_offered (h : ∀ size ∈ aggregate, size ∈ Settings.offered) :
    candleSize settings aggregate ∈ Settings.offered ↔
      aggregate.isSome ∨ settings.aggregate ∈ Settings.offered := by
  match aggregate with
  | none => exact (or_iff_right Bool.false_ne_true).symm
  | some 0 => exact absurd (h 0 rfl) (by decide)
  | some (.ofNat (n + 1)) => exact iff_of_true (h _ rfl) (.inl rfl)
  | some (.negSucc n) => exact iff_of_true (h _ rfl) (.inl rfl)

/-- **Candles are asked for in the size that the label names.** Under every environment there is one
size in effect: the one that the line of a command gives, or else the integer that the environment
spells, or else the default. Whatever the network answers, commands for an index and reports ask
for no other candles than of this size, and show the index under a label that names it. It is one
of the sizes that are offered exactly if the line gives it or the environment does not spell
another one. -/
theorem candle_sizes (environment : Environment) :
    let settings := (Settings.ofEnvironment environment).1
    Settings.Sets environment Settings.aggregateName Settings.defaultAggregate settings.aggregate ∧
    (∀ (arguments : List Text) (mint : Text) (aggregate : Option Int) (network : Option Text),
      CommandLine.read arguments = .command (.rsi mint aggregate network) →
      (candleSize settings aggregate ∈ Settings.offered ↔
        aggregate.isSome ∨ Settings.AllowsSize environment) ∧
      ∀ w : World, w.Ready → w.settings = settings →
        SizedBy w mint aggregate network (candleSize settings aggregate)) ∧
    (settings.aggregate ∈ Settings.offered ↔ Settings.AllowsSize environment) ∧
    ∀ (w : World) (path : Text) (state : MonitorState Number), w.Ready → w.settings = settings →
      Report.SizedBy w path state settings.aggregate := by
  intro settings
  have hoffered : settings.aggregate ∈ Settings.offered ↔ Settings.AllowsSize environment :=
    Settings.aggregate_mem_offered
  refine ⟨Settings.sets_aggregate environment, ?_, hoffered, ?_⟩
  · intro arguments mint aggregate network hread
    constructor
    · rw [candleSize_mem_offered (CommandLine.mem_offered_of_read hread), hoffered]
    · rintro w hw hsettings
      rw [← hsettings]
      exact sizedBy hw mint aggregate network
  · rintro w path state hw hsettings
    rw [← hsettings]
    exact Report.sizedBy hw path state

/-- A world in which the environment sets a size, and a token has a pool. -/
def sizedAt (size : String) : World :=
  .start (.constant fun url => .answered 200 (if url.endsWith "page=1" then
      "\x7b\"data\":[\x7b\"attributes\":\x7b\"address\":\"P\"\x7d\x7d]\x7d" else "").toUTF8.toList)
    (fun _ => none) (Settings.ofEnvironment [(Settings.aggregateName, size)]).1 (.real .zero)

/-- A line gives the size of one minute where the environment sets that of fifteen. -/
theorem candle_sizes_given : (sizedAt " +1_5").Ready ∧
    (sizedAt " +1_5").settings.aggregate = 15 ∧
    SizedBy (sizedAt " +1_5") CommandLine.sampleMint (some 1) none 1 ∧
    ∀ path state, Report.SizedBy (sizedAt " +1_5") path state 15 := by
  obtain ⟨-, hindex, -, hreport⟩ := candle_sizes [(Settings.aggregateName, " +1_5")]
  have hready : (sizedAt " +1_5").Ready := World.ready_start ..
  have hsize : (sizedAt " +1_5").settings.aggregate = 15 := by decide +kernel
  have hread : CommandLine.read ["rsi", "--agg=1", CommandLine.sampleMint] =
      .command (.rsi CommandLine.sampleMint (some 1) none) := rfl
  refine ⟨hready, hsize, (hindex _ _ _ _ hread).2 _ hready rfl, fun path state => ?_⟩
  have hsized := hreport _ path state hready rfl
  rw [← hsize]
  exact hsized

/-- A size that the environment sets is asked for although it is not offered. -/
theorem candle_sizes_not_offered :
    ((showRsi "M" none none).result (sizedAt "7")).2.requests =
      [Endpoint.token "solana" "M", Endpoint.tokenPools "solana" "M",
        Endpoint.candles "solana" "P" "minute" "7"] ∧
      7 ∉ Settings.offeredAggregates "minute" := by
  decide +kernel

end Command

end LiquidityWatch
