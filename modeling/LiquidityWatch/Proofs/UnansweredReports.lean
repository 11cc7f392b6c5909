import LiquidityWatch.Proofs.FileOrder
import LiquidityWatch.Proofs.NameSorts
import LiquidityWatch.Proofs.UnansweredLookups

/-! # Reports without an answer

What is left of a report where no request is answered: all prices are zero, and the positions are
valued and shown as they stand in the file. Whether the report gets there hangs on the names in the
file alone. A file is loaded with any names that count as something, but a report sorts them, joins
them and looks things up under them (`Report.completes_iff_usable`). -/

namespace LiquidityWatch

open Run

/-! ## Binary64 numbers -/

namespace Number

/-- The number is a binary64 number. -/
def IsReal (a : Number) : Prop := ∃ x, a = .real x

variable {E : Fault → Prop} {a b : Number}

theorem isReal_zero : (Scalar.zero : Number).IsReal := ⟨_, rfl⟩

theorem ends_lift (ha : a.IsReal) (hb : b.IsReal) (f : Int → Int → Int)
    (g : Binary64 → Binary64 → Binary64) : Ends IsReal E (Number.lift f g a b) := by
  obtain ⟨x, rfl⟩ := ha
  obtain ⟨y, rfl⟩ := hb
  exact ⟨_, rfl⟩

theorem ends_fixed (ha : a.IsReal) (format : FixedFormat) :
    Ends (fun _ => True) E (a.fixed format) := by
  obtain ⟨x, rfl⟩ := ha
  trivial

end Number

open Number

/-- What units are converted to is a binary64 number. -/
theorem Amount.ends_ofUnits (units : Int) (decimals : Nat) :
    Ends IsReal (fun _ => True) (ofUnits units decimals : Except Fault Number) := by
  have hwhole : (Scalar.ofWhole units : Except Fault Number) = do
      return .real (← Number.roundWhole units) := rfl
  rw [ofUnits]
  split
  · rw [hwhole]
    generalize Number.roundWhole units = rounded
    cases rounded with
    | error f => trivial
    | ok x => exact ⟨x, rfl⟩
  · cases decimalText units decimals with
    | error f => trivial
    | ok text =>
      rw [ok_bind]
      split
      · exact ⟨_, rfl⟩
      · trivial

theorem Amount.isReal_converted (raw : Value) (decimals : Int) :
    (converted raw decimals).IsReal := by
  rw [converted]
  cases hraw : (ofRaw raw decimals : Except Fault Number) with
  | error f => exact isReal_zero
  | ok amount =>
    rw [ofRaw] at hraw
    split at hraw
    · cases hraw
    · obtain ⟨units, -, hamount⟩ := bind_eq_ok.mp hraw
      have hends := ends_ofUnits units decimals.toNat
      rw [hamount] at hends
      exact hends

namespace Valuation

/-- The amounts and the prices are binary64 numbers. -/
structure IsReal (v : Valuation Number) : Prop where
  amounts : ∀ a ∈ v.amounts, a.IsReal
  priceX : v.x.price.IsReal
  priceY : v.y.price.IsReal

variable {v : Valuation Number} {E : Fault → Prop}

/-- A sum of two amounts at the prices of their tokens. -/
theorem IsReal.ends_worth (h : v.IsReal) {a b : Number} (ha : a ∈ v.amounts) (hb : b ∈ v.amounts) :
    Ends Number.IsReal E (do
      Scalar.add (← Scalar.mul a v.x.price) (← Scalar.mul b v.y.price)) :=
  (ends_lift (h.amounts a ha) h.priceX _ _).bind fun _ hx =>
    (ends_lift (h.amounts b hb) h.priceY _ _).bind fun _ hy => ends_lift hx hy _ _

theorem IsReal.ends_positionValue (h : v.IsReal) : Ends Number.IsReal E v.positionValue :=
  h.ends_worth (by simp [Valuation.amounts]) (by simp [Valuation.amounts])

theorem IsReal.ends_claimedValue (h : v.IsReal) : Ends Number.IsReal E v.claimedValue :=
  h.ends_worth (by simp [Valuation.amounts]) (by simp [Valuation.amounts])

theorem IsReal.ends_unclaimedValue (h : v.IsReal) : Ends Number.IsReal E v.unclaimedValue :=
  h.ends_worth (by simp [Valuation.amounts]) (by simp [Valuation.amounts])

theorem IsReal.ends_totalFees (h : v.IsReal) : Ends Number.IsReal E v.totalFees :=
  h.ends_claimedValue.bind fun _ hx => h.ends_unclaimedValue.bind fun _ hy => ends_lift hx hy _ _

theorem IsReal.ends_currentValue (h : v.IsReal) : Ends Number.IsReal E v.currentValue :=
  h.ends_positionValue.bind fun _ hx => h.ends_totalFees.bind fun _ hy => ends_lift hx hy _ _

end Valuation

/-- An entry is accepted only if what it is named by counts as something. -/
theorem Position.isTruthy_of_ofEntry {entry : Entry} {p : Position Int}
    (h : ofEntry entry = .ok p) : p.id.isTruthy ∧ p.pool.isTruthy := by
  obtain ⟨hnone, hread, -⟩ := ofEntry_eq_ok.mp h
  have hfield : ∀ name ∈ requiredFields, (fieldD entry name (.whole 0)).isTruthy := by
    intro name hname
    have htrue := List.filter_eq_nil_iff.mp hnone name hname
    rw [Bool.not_eq_true', Bool.not_eq_false, fieldD] at htrue
    rw [fieldD]
    cases hlookup : Value.lookup name entry with
    | none =>
      rw [hlookup] at htrue
      cases htrue
    | some v =>
      rw [hlookup] at htrue
      exact htrue
  obtain ⟨decimalsX, -, hread⟩ := bind_eq_ok.mp hread
  obtain ⟨decimalsY, -, hread⟩ := bind_eq_ok.mp hread
  obtain ⟨lowerBin, -, hread⟩ := bind_eq_ok.mp hread
  obtain ⟨upperBin, -, hread⟩ := bind_eq_ok.mp hread
  obtain ⟨activeBin, -, hread⟩ := bind_eq_ok.mp hread
  obtain rfl := pure_eq_ok.mp hread
  exact ⟨hfield "position_id" (by decide), hfield "pool_address" (by decide)⟩

/-- A position at prices that are binary64 numbers. -/
theorem Position.isReal_valueBy {priceX priceY : Number} (hx : priceX.IsReal) (hy : priceY.IsReal)
    (p : Position Int) : (p.valueBy Amount.converted priceX priceY).IsReal := by
  refine ⟨fun a ha => ?_, hx, hy⟩
  rw [amounts_valueBy] at ha
  obtain ⟨amount, -, rfl⟩ := List.mem_map.mp ha
  exact Amount.isReal_converted _ _

namespace Summary

/-- The totals are binary64 numbers, and no initial value is known. -/
structure Plain (s : Summary Number) : Prop where
  initialValue : s.initialValue = Scalar.zero
  positionValue : s.positionValue.IsReal
  claimedFees : s.claimedFees.IsReal
  unclaimedFees : s.unclaimedFees.IsReal

variable {E : Fault → Prop} {s : Summary Number}

theorem Plain.ends_addValuation (h : s.Plain) {v : Valuation Number} (hv : v.IsReal)
    {id : Identifier} (hid : v.positionId.identifier = .ok id) :
    Ends Plain E (addValuation ∅ s v) := by
  rw [addValuation]
  refine hv.ends_positionValue.bind fun _ hx =>
    (ends_lift h.positionValue hx _ _).bind fun _ hp => ?_
  refine hv.ends_claimedValue.bind fun _ hx =>
    (ends_lift h.claimedFees hx _ _).bind fun _ hc => ?_
  refine hv.ends_unclaimedValue.bind fun _ hx =>
    (ends_lift h.unclaimedFees hx _ _).bind fun _ hu => ?_
  have hknown : knownInitialValue (∅ : Ledger Identifier Number) v.positionId =
      .ok Scalar.zero := by
    rw [knownInitialValue, hid]
    rfl
  have hzero : Scalar.addTo s.initialValue Scalar.zero = .ok Scalar.zero := by
    rw [h.initialValue]
    decide
  rw [hknown, ok_bind, hzero]
  exact ⟨rfl, hp, hc, hu⟩

theorem ends_ofValuations {valuations : List (Valuation Number)}
    (hreal : ∀ v ∈ valuations, v.IsReal)
    (hids : ∀ v ∈ valuations, ∃ id, v.positionId.identifier = .ok id) :
    Ends Plain E (ofValuations ∅ valuations) := by
  refine .foldlM (fun s hs v hv => ?_) ⟨rfl, isReal_zero, isReal_zero, isReal_zero⟩
  obtain ⟨id, hid⟩ := hids v hv
  exact hs.ends_addValuation (hreal v hv) hid

theorem Plain.ends_currentValue (h : s.Plain) : Ends IsReal E s.currentValue :=
  (ends_lift h.positionValue h.claimedFees _ _).bind fun _ hx => ends_lift hx h.unclaimedFees _ _

/-- Without an initial value there is a profit, but no percentage of it. -/
theorem Plain.ends_profit (h : s.Plain) :
    Ends (fun p => p.difference.IsReal ∧ p.percent.IsReal) E s.profit := by
  have hnone : Comparable.lt (Scalar.ofInt 0) (Scalar.zero : Number) = .ok false := by
    decide +kernel
  refine h.ends_currentValue.bind fun current hcurrent => ?_
  rw [h.initialValue]
  refine (ends_lift hcurrent isReal_zero _ _).bind fun difference hdifference => ?_
  rw [hnone]
  exact ⟨hdifference, isReal_zero⟩

end Summary

/-! ## Lines without a fault -/

/-- A block of a position about which nothing was found. -/
structure ReportBlock.Plain (b : ReportBlock) : Prop where
  valuation : b.valuation.IsReal
  index : b.metrics.rsi.hasData = false
  fees : b.fees = none
  deposit : b.deposit = none
  initialValue : b.initialValue = none

namespace Report

variable {E : Fault → Prop}

theorem ends_dollarText {v : Except Fault Number} (h : Ends IsReal E v) :
    Ends (fun _ => True) E (dollarText v) :=
  h.bind fun _ ha => (ends_fixed ha _).bind fun _ _ => .pure trivial

theorem ends_profitText {p : Profit Number} (hdifference : p.difference.IsReal)
    (hpercent : p.percent.IsReal) : Ends (fun _ => True) E (profitText p) := by
  obtain ⟨difference, percent⟩ := p
  obtain ⟨x, rfl⟩ := hdifference
  obtain ⟨y, rfl⟩ := hpercent
  trivial

theorem ends_blockLines (label : String) {b : ReportBlock} (h : b.Plain) :
    ∀ line ∈ blockLines label b, Ends (fun _ => True) E line := by
  have hvalues : Ends (fun _ => True) E (valueLine b.valuation) :=
    (ends_dollarText h.valuation.ends_positionValue).bind fun _ _ =>
      (ends_dollarText h.valuation.ends_claimedValue).bind fun _ _ =>
        (ends_dollarText h.valuation.ends_unclaimedValue).bind fun _ _ =>
          (ends_dollarText h.valuation.ends_currentValue).bind fun _ _ => .pure trivial
  have hindex : Ends (fun _ => True) E (rsiLine label b.metrics) := by
    rw [rsiLine, h.index]
    trivial
  rw [blockLines, h.fees, h.deposit, h.initialValue]
  simp only [Option.map_none, Option.toList_none, List.append_nil, List.cons_append,
    List.nil_append, List.forall_mem_cons]
  exact ⟨trivial, trivial, trivial, hvalues,
    (ends_dollarText h.valuation.ends_totalFees).bind fun _ _ => .pure trivial, hindex,
    fun _ hline => absurd hline List.not_mem_nil⟩

theorem ends_summaryLines {s : Summary Number} (h : s.Plain) :
    ∀ line ∈ summaryLines s, Ends (fun _ => True) E line := by
  have htotal : ∀ (name : String) {v : Except Fault Number}, Ends IsReal E v →
      Ends (fun _ => True) E (do return "   " ++ name ++ ": " ++ (← dollarText v)) :=
    fun name _ hv => (ends_dollarText hv).bind fun _ _ => .pure trivial
  have hinitial : s.initialValue.IsReal := h.initialValue ▸ isReal_zero
  simp only [summaryLines, List.forall_mem_cons]
  exact ⟨trivial, trivial, htotal _ hinitial, htotal _ h.positionValue, htotal _ h.claimedFees,
    htotal _ h.unclaimedFees, htotal _ h.ends_currentValue,
    h.ends_profit.bind fun p hp => (ends_profitText hp.1 hp.2).bind fun _ _ => .pure trivial,
    fun _ hline => absurd hline List.not_mem_nil⟩

/-- Lines without a fault are shown as they are. -/
theorem exists_texts {lines : List (Except Fault String)}
    (h : ∀ line ∈ lines, Ends (fun _ => True) (fun _ => False) line) :
    ∃ texts : List String, lines = texts.map .ok := by
  induction lines with
  | nil => exact ⟨[], rfl⟩
  | cons line rest ih =>
    obtain ⟨hline, hrest⟩ := List.forall_mem_cons.mp h
    obtain ⟨texts, rfl⟩ := ih hrest
    obtain ⟨text, rfl, -⟩ := hline.exists_ok
    exact ⟨text :: texts, rfl⟩

/-! ## Names that a report can use -/

/-- A report can use the names of these positions: the tokens are named by text, every position has
a name that something can be looked up under, and the pools have names of one sort. -/
structure Usable (positions : List (Position Int)) : Prop where
  mints : ∀ p ∈ positions, p.x.mint.isText ∧ p.y.mint.isText
  ids : ∀ p ∈ positions, p.id.nameSort?.isSome
  pools : ∃ sort, ∀ p ∈ positions, p.pool.nameSort? = some sort

instance (positions : List (Position Int)) : Decidable (Usable positions) :=
  decidable_of_iff ((∀ p ∈ positions, p.x.mint.isText ∧ p.y.mint.isText) ∧
      (∀ p ∈ positions, p.id.nameSort?.isSome) ∧
      ∃ sort ∈ [NameSort.number, .text, .bytes], ∀ p ∈ positions, p.pool.nameSort? = some sort)
    ⟨fun ⟨mints, ids, sort, _, pools⟩ => ⟨mints, ids, sort, pools⟩,
      fun ⟨mints, ids, sort, pools⟩ => ⟨mints, ids, sort, by cases sort <;> decide, pools⟩⟩

/-- Nothing was found about positions: prices are zero, there is no index, no deposit and no fee. -/
structure Findings.Neutral (findings : Findings) : Prop where
  prices : ∀ mint, priceIn findings.prices mint = .real .zero
  metrics : ∀ mint m, findings.metrics.get? mint = some m → m.rsi.hasData = false
  deposits : ∀ e ∈ findings.deposits.entries, e.2 = none
  fees : ∀ pool, findings.fees.get? pool = none

/-- The valuation of a position where all prices are zero. -/
def unpricedValue (p : Position Int) : Valuation Number :=
  p.valueBy Amount.converted (.real .zero) (.real .zero)

theorem isReal_unpricedValue (p : Position Int) : (unpricedValue p).IsReal :=
  p.isReal_valueBy ⟨_, rfl⟩ ⟨_, rfl⟩

variable {findings : Findings} {positions : List (Position Int)} {now : Number}

theorem enter_none {entries : List (Identifier × Option (Deposit Number))}
    (h : ∀ e ∈ entries, e.2 = none) (known : MonitorState.Deposits Number) :
    entries.foldlM MonitorState.Deposits.enter known = .ok known := by
  induction entries with
  | nil => rfl
  | cons e rest ih =>
    obtain ⟨id, found⟩ := e
    obtain ⟨rfl, hrest⟩ := List.forall_mem_cons.mp h
    rw [List.foldlM_cons]
    exact ih hrest

/-- A cycle in which nothing was found. -/
theorem Findings.Neutral.run_initial (h : findings.Neutral)
    (hids : ∀ p ∈ positions, ∃ id, p.id.identifier = .ok id) (now : Number) :
    ∃ summary next, MonitorState.initial.run
        { valuations := positions.map unpricedValue, deposits := findings.deposits
          metrics := findings.metrics.entries.map Prod.snd, now } = .ok (summary, next) ∧
      summary.Plain ∧ summary.positions = positions.length ∧ next.cycle = 1 ∧
      next.deposits = ∅ ∧ next.initialValues = ∅ := by
  have hends : Ends Summary.Plain (fun _ => False)
      (Summary.ofValuations ∅ (positions.map unpricedValue)) := by
    apply Summary.ends_ofValuations
    · intro v hv
      obtain ⟨p, -, rfl⟩ := List.mem_map.mp hv
      exact isReal_unpricedValue p
    · intro v hv
      obtain ⟨p, hp, rfl⟩ := List.mem_map.mp hv
      exact hids p hp
  obtain ⟨summary, hsummary, hplain⟩ := hends.exists_ok
  obtain ⟨hcount, -⟩ := counts_of_ofValuations hsummary
  rw [List.length_map] at hcount
  rw [MonitorState.run, enter_none h.deposits, ok_bind]
  exact ⟨summary, _, bind_eq_ok.mpr ⟨summary, hsummary, rfl⟩, hplain, hcount, rfl, rfl, rfl⟩

/-- A report for which nothing was found completes, and all its lines are shown. -/
theorem Findings.Neutral.completes (h : findings.Neutral)
    (haccepted : ∀ p ∈ positions, ∃ entry, Position.ofEntry entry = .ok p)
    (hids : ∀ p ∈ positions, ∃ id, p.id.identifier = .ok id)
    (hpools : ∀ p ∈ positions, ∃ pool, p.pool.identifier = .ok pool) (now : Number) :
    ∃ report next, ofFindings findings .initial now positions = .ok (report, next) ∧
      report.summary.positions = positions.length ∧ next.cycle = 1 ∧
      ∀ label, ∃ texts : List String, report.lines label = texts.map .ok := by
  obtain ⟨summary, next, hrun, hplain, hcount, hcycle, hdeposits, hinitial⟩ :=
    h.run_initial hids now
  have hvalues : positions.mapM (fun p =>
      p.value (priceIn findings.prices p.x.mint) (priceIn findings.prices p.y.mint)) =
      .ok (positions.map unpricedValue) := by
    refine mapM_eq_map fun p hp => ?_
    obtain ⟨entry, hentry⟩ := haccepted p hp
    rw [h.prices, h.prices, Position.value_eq_converted hentry, unpricedValue]
  have hends : Ends (fun blocks => ∀ b ∈ blocks, ∀ b' ∈ b, ReportBlock.Plain b')
      (fun _ => False) ((positions.zip (positions.map unpricedValue)).mapM fun pv =>
        blockOf findings next pv.1 pv.2) := by
    apply Ends.mapM
    rintro ⟨p, v⟩ hpv
    obtain ⟨hp, hv⟩ := List.of_mem_zip hpv
    obtain ⟨q, -, rfl⟩ := List.mem_map.mp hv
    obtain ⟨id, hid⟩ := hids p hp
    obtain ⟨pool, hpool⟩ := hpools p hp
    simp only [blockOf, hid, hpool, ok_bind, hdeposits, hinitial, h.fees, Ledger.get?_empty]
    intro b hb
    obtain ⟨m, hm, rfl⟩ := Option.map_eq_some_iff.mp hb
    exact ⟨isReal_unpricedValue q, h.metrics _ m hm, rfl, rfl, rfl⟩
  obtain ⟨blocks, hmade, hblocks⟩ := hends.exists_ok
  refine ⟨⟨blocks.filterMap id, summary⟩, next, ?_, hcount, hcycle, fun label => ?_⟩
  · rw [ofFindings, hvalues, ok_bind, hrun]
    exact bind_eq_ok.mpr ⟨(summary, next), rfl, bind_eq_ok.mpr ⟨blocks, hmade, rfl⟩⟩
  · refine exists_texts (List.forall_mem_append.mpr ⟨fun line hline => ?_, ?_⟩)
    · obtain ⟨b, hb, hline⟩ := List.mem_flatMap.mp hline
      obtain ⟨block, hblock, hsome⟩ := List.mem_filterMap.mp hb
      exact ends_blockLines label (hblocks block hblock b hsome) line hline
    · exact ends_summaryLines hplain

/-! ## Looking things up -/

theorem priceIn_unpriced (mints : List Text) (mint : Value) :
    priceIn (Lookup.unpriced mints) mint = .real .zero := by
  rw [priceIn]
  cases hprice : (Lookup.unpriced mints).get? mint.shown with
  | none => rfl
  | some price => exact Lookup.eq_zero_of_unpriced hprice

theorem mints_isText_iff {positions : List (Position Int)} :
    (∀ v ∈ positions.map (·.x.mint) ++ positions.map (·.y.mint), v.isText) ↔
      ∀ p ∈ positions, p.x.mint.isText ∧ p.y.mint.isText := by
  rw [List.forall_mem_append, List.forall_mem_map, List.forall_mem_map]
  exact ⟨fun h p hp => ⟨h.1 p hp, h.2 p hp⟩, fun h => ⟨fun p hp => (h p hp).1,
    fun p hp => (h p hp).2⟩⟩

theorem trackedMint_isText {p : Position Int} (h : p.x.mint.isText ∧ p.y.mint.isText) :
    (trackedMint p).isText := by
  obtain ⟨hx, hy⟩ := h
  rw [trackedMint]
  split
  · split
    · exact hy
    · exact hx
  · exact hx

theorem ends_texts (index : Nat) (values : List Value) :
    Ends (fun _ => ∀ v ∈ values, v.isText) (fun f => f.category = .type)
      (Value.texts index values) := by
  induction values generalizing index with
  | nil => exact fun v hv => absurd hv List.not_mem_nil
  | cons v rest ih =>
    cases v with
    | text t =>
      exact (ih (index + 1)).bind fun _ hrest => List.forall_mem_cons.mpr ⟨rfl, hrest⟩
    | null | truth | number | bytes | list | object | candle => exact rfl

theorem exists_texts_of_isText {values : List Value} (h : ∀ v ∈ values, v.isText) :
    ∃ ts, Value.texts 0 values = .ok ts := by
  have hvalues := Value.map_eq_text h
  rw [List.map_id'] at hvalues
  rw [hvalues]
  exact ⟨_, texts_text 0 _⟩

theorem ends_unknownPositions (state : MonitorState Number) (positions : List (Position Int)) :
    Ends (fun _ => ∀ p ∈ positions, ∃ id, p.id.identifier = .ok id) (fun f => f.category = .type)
      (unknownPositions state positions) := by
  induction positions with
  | nil => exact fun p hp => absurd hp List.not_mem_nil
  | cons p rest ih =>
    rw [unknownPositions]
    have hends := p.id.ends_identifier
    cases hid : p.id.identifier with
    | error f =>
      rw [hid] at hends
      exact hends
    | ok id => exact ih.bind fun _ hrest => .pure (List.forall_mem_cons.mpr ⟨⟨id, hid⟩, hrest⟩)

theorem exists_unknownPositions (state : MonitorState Number) {positions : List (Position Int)}
    (h : ∀ p ∈ positions, ∃ id, p.id.identifier = .ok id) :
    ∃ ids, unknownPositions state positions = .ok ids := by
  induction positions with
  | nil => exact ⟨[], rfl⟩
  | cons p rest ih =>
    obtain ⟨⟨id, hid⟩, hrest⟩ := List.forall_mem_cons.mp h
    obtain ⟨ids, hids⟩ := ih hrest
    rw [unknownPositions, hid, ok_bind, hids]
    exact ⟨_, rfl⟩

theorem concludes_lookUpMetrics {E : Fault → Prop} (network : Text) (prices : Ledger Text Number)
    (mint : Text) : Concludes (fun m => m.rsi.hasData = false) E
      (lookUpMetrics network prices .initial mint) :=
  ((Lookup.concludes_tokenName network mint).both
    (Lookup.concludes_tokenRsi network mint none)).bind fun _ hfound => .pure hfound.2

theorem concludes_lookUpDeposits {E : Fault → Prop} (unknown : List Identifier) :
    Concludes (fun deposits => ∀ e ∈ deposits.entries, e.2 = none) E (lookUpDeposits unknown) := by
  refine (Concludes.gather fun id _ => Lookup.concludes_initialDeposit id.toValue.shown).bind
    fun found hfound => .pure fun e he => ?_
  obtain ⟨e', he', hsame⟩ := Ledger.exists_of_mem_ofList he
  rw [← hsame]
  exact hfound e'.2 (List.of_mem_zip he').2

theorem concludes_lookUpFees {E : Fault → Prop} {pools : List Value}
    (h : ∀ pool ∈ pools, ∃ id, pool.identifier = .ok id) :
    Concludes (fun fees => ∀ pool, fees.get? pool = none) E (lookUpFees pools) := by
  refine (Concludes.gather fun pool _ => Lookup.concludes_feeInfo pool.shown).bind
    fun found hfound => ?_
  have hnames : Ends (fun names => ∀ name ∈ names, True) E (pools.mapM Value.identifier) := by
    apply Ends.mapM
    intro pool hpool
    obtain ⟨id, hid⟩ := h pool hpool
    rw [hid]
    trivial
  refine (Concludes.lift hnames).bind fun names _ => .pure fun pool => ?_
  refine Option.eq_none_iff_forall_ne_some.mpr fun info hinfo => ?_
  obtain ⟨_, hmem, -⟩ := Ledger.exists_of_get?_ofList hinfo
  obtain ⟨⟨name, fees⟩, hzip, hfees⟩ := List.mem_filterMap.mp hmem
  obtain rfl := hfound fees (List.of_mem_zip hzip).2
  cases hfees

/-- Names that a report got through can be used. -/
theorem usable_of_names {positions : List (Position Int)} {pools : List Value}
    (haccepted : ∀ p ∈ positions, p.id.isTruthy ∧ p.pool.isTruthy)
    (hmints : ∀ p ∈ positions, p.x.mint.isText ∧ p.y.mint.isText)
    (hids : ∀ p ∈ positions, ∃ id, p.id.identifier = .ok id)
    (hpools : NamesOf (positions.map (·.pool)) pools) : Usable positions := by
  have hsorted : ∀ v : Value, v.isTruthy → (∃ id, v.identifier = .ok id) →
      ∃ sort, v.nameSort? = some sort := by
    rintro v htrue ⟨id, hid⟩
    refine Option.ne_none_iff_exists'.mp fun hnone => ?_
    obtain ⟨f, hf, -⟩ := v.identifier_eq_error htrue hnone
    cases hid.symm.trans hf
  refine ⟨hmints, fun p hp => ?_, ?_⟩
  · obtain ⟨sort, hsort⟩ := hsorted p.id (haccepted p hp).1 (hids p hp)
    rw [hsort]
    rfl
  · cases positions with
    | nil => exact ⟨.text, fun p hp => absurd hp List.not_mem_nil⟩
    | cons first rest =>
      have hmem : first.pool ∈ (first :: rest).map (·.pool) :=
        List.mem_map_of_mem List.mem_cons_self
      obtain ⟨sort, hsort⟩ := hsorted first.pool (haccepted first List.mem_cons_self).2
        (hpools.identifiers _ hmem)
      refine ⟨sort, fun p hp => ?_⟩
      rw [hpools.sameSort p.pool (List.mem_map_of_mem hp) first.pool hmem, hsort]

/-- Lookups without an answer find nothing, and end well exactly where the names can be used. -/
theorem concludes_lookUp {positions : List (Position Int)}
    (haccepted : ∀ p ∈ positions, p.id.isTruthy ∧ p.pool.isTruthy) (network : Text) :
    Concludes (fun findings => Usable positions ∧ Findings.Neutral findings)
      (fun f => f.category = .type ∧ ¬ Usable positions) (lookUp network .initial positions) := by
  rw [lookUp]
  refine (Concludes.lift ((ends_sortedDistinct _).rulesOut fun husable => ?_)).bind
    fun mints hmints => ?_
  · exact sortedDistinct_of_sort fun v hv =>
      Value.isText_iff.mp (mints_isText_iff.mpr husable.mints v hv)
  refine (Concludes.lift ((ends_texts 0 mints).rulesOut fun husable => ?_)).bind
    fun names htext => ?_
  · exact exists_texts_of_isText fun v hv =>
      mints_isText_iff.mpr husable.mints v (hmints.subset v hv)
  -- From here on the tokens are known to be named by text, whether the names can be used or not.
  have hmintText : ∀ p ∈ positions, p.x.mint.isText ∧ p.y.mint.isText := by
    refine mints_isText_iff.mp fun v hv => ?_
    obtain ⟨w, hw, hsame⟩ := hmints.guise v hv
    rw [Value.isText_iff, ← hsame, ← Value.isText_iff]
    exact htext w hw
  refine (Lookup.concludes_prices names).bind fun prices hprices => ?_
  refine (Concludes.lift ((ends_sortedDistinct _).rulesOut fun _ => ?_)).bind fun tracked _ => ?_
  · exact sortedDistinct_of_sort (List.forall_mem_map.mpr fun p hp =>
      Value.isText_iff.mp (trackedMint_isText (hmintText p hp)))
  refine (Concludes.gatherRounds fun mint _ =>
    concludes_lookUpMetrics network prices mint).bind fun metrics hmetrics => ?_
  refine (Concludes.lift ((ends_unknownPositions _ positions).rulesOut fun husable => ?_)).bind
    fun unknown hids => ?_
  · exact exists_unknownPositions _ fun p hp => Value.exists_identifier (husable.ids p hp)
  refine (Concludes.lift ((ends_sortedDistinct _).rulesOut fun husable => ?_)).bind
    fun pools hpools => ?_
  · obtain ⟨sort, hall⟩ := husable.pools
    exact sortedDistinct_of_sort (List.forall_mem_map.mpr hall)
  refine ((concludes_lookUpDeposits unknown).both (concludes_lookUpFees fun pool hpool =>
    hpools.identifiers pool (hpools.subset pool hpool))).bind fun found hfound => .pure ?_
  refine ⟨usable_of_names haccepted hmintText hids hpools, ?_, ?_, hfound.1, hfound.2⟩
  · intro mint
    rw [hprices]
    exact priceIn_unpriced names mint
  · intro mint m hm
    obtain ⟨_, hmem, -⟩ := Ledger.exists_of_get?_ofList hm
    obtain ⟨m', hm', heq⟩ := List.mem_map.mp hmem
    obtain ⟨-, rfl⟩ := Prod.mk.inj heq
    exact hmetrics m' hm'

/-- Without an answer, a report on accepted positions completes exactly where it can use their
names. -/
theorem concludes_runPositions {positions : List (Position Int)}
    (haccepted : ∀ p ∈ positions, ∃ entry, Position.ofEntry entry = .ok p) :
    Concludes (fun result => Usable positions ∧ ∃ summary next, result = some (summary, next) ∧
        summary.positions = positions.length ∧ next.cycle = 1)
      (fun f => f.category = .type ∧ ¬ Usable positions) (runPositions .initial positions) := by
  have htrue : ∀ p ∈ positions, p.id.isTruthy ∧ p.pool.isTruthy := by
    intro p hp
    obtain ⟨entry, hentry⟩ := haccepted p hp
    exact Position.isTruthy_of_ofEntry hentry
  refine (Concludes.print _).bind fun _ _ => Concludes.get.bind fun w _ => ?_
  refine (concludes_lookUp htrue _).bind fun findings hfindings => ?_
  obtain ⟨husable, hneutral⟩ := hfindings
  obtain ⟨sort, hsort⟩ := husable.pools
  obtain ⟨report, next, hreport, hcount, hcycle, hlines⟩ := hneutral.completes haccepted
    (fun p hp => Value.exists_identifier (husable.ids p hp))
    (fun p hp => Value.exists_identifier (by rw [hsort p hp]; rfl)) w.now
  obtain ⟨texts, htexts⟩ := hlines w.settings.label
  rw [hreport]
  show Concludes _ _ (do
    Run.printAll (report.lines w.settings.label)
    return some (report.summary, next))
  rw [htexts]
  exact (Concludes.printAll texts).bind fun _ _ => .pure ⟨husable, _, _, rfl, hcount, hcycle⟩

open SnapshotFile in
/-- **Which files can be reported.** A file that was loaded and has a position is reported even
where no request is answered, if its names can be used: the report counts every entry, and this
cycle as the first. That is no part of what is checked when the file is loaded. With names that
cannot be used, the report ends with a type fault. -/
theorem completes_iff_usable {w : World} {path : Text} {positions : List (Position Int)}
    (hw : w.Unanswered) (hload : load w.files path = .ok positions) (hne : positions ≠ []) :
    (Usable positions → ∃ summary next after,
      (run path .initial).result w = (.ok (some (summary, next)), after) ∧
        (∃ entries, entriesAt w.files path = .ok entries ∧ summary.positions = entries.length) ∧
        next.cycle = 1) ∧
    (¬ Usable positions → ∃ fault after,
      (run path .initial).result w = (.error fault, after) ∧ fault.category = .type) := by
  obtain ⟨entries, hentries, hholds⟩ := load_eq_ok.mp hload
  have hresult : (run path .initial).result w = (runPositions .initial positions).result w := by
    obtain ⟨p, rest, rfl⟩ := List.exists_cons_of_ne_nil hne
    rw [result_run, hload]
  obtain ⟨-, hends⟩ := concludes_runPositions (accepted_of_load hload) w hw
  rw [← hresult] at hends
  rcases hrun : (run path .initial).result w with ⟨fault | result, after⟩
  · rw [hrun] at hends
    obtain ⟨htype, hunusable⟩ := hends
    exact ⟨fun husable => absurd husable hunusable, fun _ => ⟨fault, after, rfl, htype⟩⟩
  · rw [hrun] at hends
    obtain ⟨husable, summary, next, rfl, hcount, hcycle⟩ := hends
    refine ⟨fun _ => ⟨summary, next, after, rfl, ⟨entries, hentries, ?_⟩, hcycle⟩,
      fun hunusable => absurd husable hunusable⟩
    rw [hcount, hholds.length_eq]

/-- A world with one file, in which the first request times out and all others fail. -/
def silentWorld (file : String) : World :=
  .start (fun log _ => if log.isEmpty then .timedOut else .answered 503 [])
    (fun _ => some file.toUTF8.toList) .standard (.real .zero)

theorem unanswered_silentWorld (file : String) : (silentWorld file).Unanswered := by
  refine ⟨World.ready_start _ _ _ _, fun log url => ?_⟩
  show Response.IsFailure (if log.isEmpty then .timedOut else .answered 503 [])
  split
  · trivial
  · show ¬ (200 ≤ 503 ∧ 503 < 300)
    omega

/-- A file in which positions are named by a text and by a number, and pools by a number and by a
truth value. -/
def oddNamesFile : String :=
  "[\x7b\"position_id\": \"A\", \"pool_address\": 5, \"token_x_mint\": \"C\", " ++
    "\"token_y_mint\": \"D\"\x7d, \x7b\"position_id\": 7, \"pool_address\": true, " ++
    "\"token_x_mint\": \"C\", \"token_y_mint\": \"C\"\x7d]"

theorem completes_iff_usable_odd_names : ∃ summary next after,
    (run "file" .initial).result (silentWorld oddNamesFile) =
      (.ok (some (summary, next)), after) ∧ summary.positions = 2 ∧ next.cycle = 1 := by
  have hends : Ends (fun positions => Usable positions ∧ positions ≠ []) (fun _ => False)
      (SnapshotFile.load (silentWorld oddNamesFile).files "file") := by decide +kernel
  have hcount : (SnapshotFile.entriesAt (silentWorld oddNamesFile).files "file").toOption.map
      List.length = some 2 := by decide +kernel
  obtain ⟨positions, hload, husable, hne⟩ := hends.exists_ok
  obtain ⟨hcompletes, -⟩ :=
    completes_iff_usable (unanswered_silentWorld oddNamesFile) hload hne
  obtain ⟨summary, next, after, hresult, ⟨entries, hentries, hlength⟩, hcycle⟩ :=
    hcompletes husable
  rw [hentries] at hcount
  exact ⟨summary, next, after, hresult, hlength.trans (Option.some.inj hcount), hcycle⟩

/-- A file in which a position is named by a list. -/
def listNameFile : String :=
  "[\x7b\"position_id\": [\"A\"], \"pool_address\": \"B\", \"token_x_mint\": \"C\", " ++
    "\"token_y_mint\": \"C\"\x7d]"

/-- The file is loaded, but the report on it ends with a fault: nothing can be looked up under a
list. -/
theorem report_list_name_fails :
    (SnapshotFile.load (silentWorld listNameFile).files "file").toOption.map List.length = some 1 ∧
      Ends (fun _ => False) (fun f => f = .notKey .list)
        ((run "file" .initial).result (silentWorld listNameFile)).1 := by
  decide +kernel

end Report

end LiquidityWatch
