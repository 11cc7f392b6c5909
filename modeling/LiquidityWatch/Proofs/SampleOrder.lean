import LiquidityWatch.Proofs.Readings
import LiquidityWatch.Proofs.StableOrder

/-! # Samples in any order

Samples are put into the order of time before the index is computed, and rows that are no candles
leave no trace. So the samples may come in any order, and with any such rows among them: as long as
no two of their candles have the same time, the reading is the same
(`Rsi.Reading.ofSamples_any_order`), and its time is the latest of all. -/

namespace LiquidityWatch

/-! ## Closes that count as numbers -/

namespace Value

/-- The number that a value counts as; zero in place of none. -/
def counted (v : Value) : Number := v.toNumber?.getD (.whole 0)

variable {v w : Value}

theorem toNumber?_eq_counted (h : v.toNumber?.isSome) : v.toNumber? = some v.counted := by
  obtain ⟨n, hn⟩ := Option.isSome_iff_exists.mp h
  rw [counted, hn, Option.getD_some]

theorem isFinite_counted (h : v.toNumber?.isSome) :
    Scalar.isFinite (number v.counted) = Scalar.isFinite v := by
  cases v with
  | truth | number => rfl
  | null | text | bytes | list | object | candle => cases h

theorem sub_counted (hv : v.toNumber?.isSome) (hw : w.toNumber?.isSome) :
    Scalar.sub (number v.counted) (number w.counted) = Scalar.sub v w := by
  have hsub : Scalar.sub v w = arithmetic "-" Number.sub v w := rfl
  rw [hsub, arithmetic, toNumber?_eq_counted hv, toNumber?_eq_counted hw]
  rfl

end Value

namespace Rsi

variable {closes : List Value}

theorem priceChanges_counted (h : ∀ v ∈ closes, v.toNumber?.isSome) :
    priceChanges (closes.map fun v => .number v.counted) = priceChanges closes := by
  induction closes with
  | nil => rfl
  | cons earlier rest ih =>
    cases rest with
    | nil => rfl
    | cons later rest =>
      obtain ⟨hearlier, hrest⟩ := List.forall_mem_cons.mp h
      have hchanges := ih hrest
      rw [List.map_cons] at hchanges
      rw [List.map_cons, List.map_cons, priceChanges, priceChanges, hchanges,
        Value.sub_counted (hrest later List.mem_cons_self) hearlier]

theorem smoothedAverages_counted (h : ∀ v ∈ closes, v.toNumber?.isSome) (period : Int) :
    smoothedAverages (closes.map fun v => .number v.counted) period =
      smoothedAverages closes period := by
  rw [smoothedAverages, smoothedAverages, priceChanges_counted h]

/-- An index goes by the numbers that the closes count as. -/
theorem ofCloses_counted (h : ∀ v ∈ closes, v.toNumber?.isSome) (period : Int) :
    ofCloses (closes.map fun v => .number v.counted) period = ofCloses closes period := by
  have hkept : Ends (fun kept => kept.Sublist closes) (fun _ => True)
      (closes.filterM Scalar.isFinite) := by
    refine Ends.filterM fun v _ => ?_
    cases Scalar.isFinite v <;> trivial
  rw [ofCloses, ofCloses, filterM_map fun v hv => Value.isFinite_counted (h v hv)]
  cases hfinite : closes.filterM Scalar.isFinite with
  | error f => rfl
  | ok finite =>
    rw [hfinite] at hkept
    have haverages := smoothedAverages_counted (fun v hv => h v (hkept.subset hv)) period
    rw [ok_bind, ok_bind]
    show (if (finite.map fun v => Value.number v.counted).length < 2 then _
      else smoothedAverages (finite.map fun v => Value.number v.counted) period >>= _) = _
    rw [List.length_map, haverages]

end Rsi

/-! ## The candles that are read -/

namespace Candle

/-- A candle with a place in time whose close counts as a number. -/
structure IsNumeric (c : Candle Value) : Prop where
  timestamp : c.timestamp.isPlaced
  closing : c.closing.toNumber?.isSome

theorem IsRegular.isNumeric {c : Candle Value} (h : c.IsRegular) : c.IsNumeric := by
  obtain ⟨r, hr, hc⟩ := h
  rw [Sample.ofReals_eq] at hc
  obtain rfl := Except.ok.inj hc
  exact ⟨Binary64.isSome_place? hr, rfl⟩

end Candle

namespace Sample

/-- A sample that is a candle already has a place in time, and its close counts as a number. -/
def IsNumeric (s : Sample Value) : Prop := ∀ c, s = .candle c → c.IsNumeric

/-- The candles among values that come in, in their order. -/
def accepted (items : List Value) : List (Candle Value) :=
  items.filterMap fun v => (ofElement v).candleOf

/-- The value is no candle, and nothing comes of it. -/
def IsDropped (v : Value) : Prop := (ofElement v).candle? = .ok none

variable {items others dropped : List Value}

theorem isNumeric_of_candleOf {s : Sample Value} (hs : s.IsNumeric) {c : Candle Value}
    (h : s.candleOf = some c) : c.IsNumeric := by
  cases s with
  | candle c' =>
    obtain rfl := Option.some.inj h
    exact hs c' rfl
  | row v =>
    have hrow : (row v : Sample Value).IsRegular := fun c' hc' => nomatch hc'
    exact (isRegular_of_candleOf hrow h).isNumeric

theorem forall_accepted {P : Candle Value → Prop}
    (h : ∀ v ∈ items, ∀ c, (ofElement v).candleOf = some c → P c) : ∀ c ∈ accepted items, P c := by
  intro c hc
  obtain ⟨v, hv, hcandle⟩ := List.mem_filterMap.mp hc
  exact h v hv c hcandle

theorem isNumeric_of_accepted (h : ∀ v ∈ items, (ofElement v).IsNumeric) :
    ∀ c ∈ accepted items, c.IsNumeric :=
  forall_accepted fun v hv _ => isNumeric_of_candleOf (h v hv)

theorem isRegular_of_accepted (h : ∀ v ∈ items, (ofElement v).IsRegular) :
    ∀ c ∈ accepted items, c.IsRegular :=
  forall_accepted fun v hv _ => isRegular_of_candleOf (h v hv)

/-- What is dropped leaves no trace among the candles. -/
theorem accepted_perm (hdropped : ∀ v ∈ dropped, IsDropped v)
    (hperm : others.Perm (dropped ++ items)) : (accepted others).Perm (accepted items) := by
  have hnone : accepted dropped = [] := by
    refine List.filterMap_eq_nil_iff.mpr fun v hv => ?_
    rw [candleOf, hdropped v hv]
    rfl
  have haccepted := hperm.filterMap fun v => (ofElement v).candleOf
  rw [List.filterMap_append] at haccepted
  rwa [accepted, accepted, ← List.nil_append (items.filterMap _), ← hnone]

/-- What is dropped holds no number out of range. -/
theorem IsDropped.not_overflows {v : Value} (h : IsDropped v) : ¬ (ofElement v).Overflows := by
  apply not_overflows_of_isSome
  rw [h]
  rfl

/-- Values without a number out of range make a series: their candles in the order of time. -/
theorem series_eq (h : ∀ v ∈ items, ¬ (ofElement v).Overflows) :
    series (items.map ofElement) = sortedBy Candle.timestamp (accepted items) := by
  rw [series, candles_eq_ok (List.forall_mem_map.mpr fun v hv => exists_candle? (h v hv)), ok_bind,
    List.filterMap_map]
  rfl

/-- The series of values is the stable sort, by time, of the candles among them. -/
theorem exists_series_stable (h : ∀ v ∈ items, ¬ (ofElement v).Overflows)
    (hplaced : ∀ c ∈ accepted items, c.timestamp.isPlaced) :
    ∃ sorted, series (items.map ofElement) = .ok sorted ∧
      StableSort Candle.timestamp (accepted items) sorted := by
  rw [series_eq h]
  exact stableSort_sortedBy hplaced

theorem series_eq_wholeTooLarge (h : ∃ v ∈ items, (ofElement v).Overflows) :
    series (items.map ofElement) = .error .wholeTooLarge := by
  obtain ⟨v, hv, hlarge⟩ := h
  exact series_eq_error ⟨_, List.mem_map_of_mem hv, hlarge⟩

/-- **Values in any order make the same series**, with anything among them that is dropped, if no
two of their candles have the same time. -/
theorem series_any_order (hnumeric : ∀ v ∈ items, (ofElement v).IsNumeric)
    (hdistinct : (accepted items).Pairwise fun c d => c.timestamp.equals d.timestamp = false)
    (hdropped : ∀ v ∈ dropped, IsDropped v) (hperm : others.Perm (dropped ++ items)) :
    series (others.map ofElement) = series (items.map ofElement) := by
  by_cases hlarge : ∃ v ∈ items, (ofElement v).Overflows
  · obtain ⟨v, hv, hv'⟩ := hlarge
    have hmem : v ∈ others := hperm.mem_iff.mpr (List.mem_append_right dropped hv)
    rw [series_eq_wholeTooLarge ⟨v, hv, hv'⟩, series_eq_wholeTooLarge ⟨v, hmem, hv'⟩]
  · have hitems : ∀ v ∈ items, ¬ (ofElement v).Overflows :=
      fun v hv hv' => hlarge ⟨v, hv, hv'⟩
    have hothers : ∀ v ∈ others, ¬ (ofElement v).Overflows := by
      intro v hv
      rcases List.mem_append.mp (hperm.mem_iff.mp hv) with hv | hv
      · exact (hdropped v hv).not_overflows
      · exact hitems v hv
    rw [series_eq hitems, series_eq hothers]
    exact sortedBy_perm (accepted_perm hdropped hperm).symm
      (fun c hc => (isNumeric_of_accepted hnumeric c hc).timestamp) hdistinct

/-- Somewhere on the way from values to a reading stands a whole number out of the range of
binary64: in a row, as a close, between two closes, or as the period. -/
inductive ConversionOverflows (items : List Value) (period : Int) : Prop where
  | row (v : Value) (hv : v ∈ items) (h : (ofElement v).Overflows)
  | close (c : Candle Value) (hc : c ∈ accepted items) (h : c.closing.counted.TooLarge)
  | change (earlier later : Candle Value) (hearlier : earlier ∈ accepted items)
      (hlater : later ∈ accepted items) (n : Number)
      (hn : later.closing.counted.sub earlier.closing.counted = .ok n) (h : n.TooLarge)
  | period (h : (Number.whole period).TooLarge)

end Sample

/-! ## Readings -/

namespace Rsi

open Sample

variable {period : Int} {items : List Value}

/-- The candles of a series have an index, unless a number is out of range. -/
theorem ends_ofCloses_candles (hpos : 0 < period) {series : List (Candle Value)}
    (hnumeric : ∀ c ∈ series, c.IsNumeric) (haccepted : ∀ c ∈ series, c ∈ accepted items) :
    Ends (fun _ => True) (OutOfRange (ConversionOverflows items period))
      (ofCloses (series.map Candle.closing) period) := by
  have hnumbers : ∀ v ∈ series.map Candle.closing, v.toNumber?.isSome :=
    List.forall_mem_map.mpr fun c hc => (hnumeric c hc).closing
  rw [← ofCloses_counted hnumbers, List.map_map]
  have hcloses : ∀ n ∈ series.map fun c => c.closing.counted,
      n.TooLarge → ConversionOverflows items period :=
    List.forall_mem_map.mpr fun c hc => .close c (haccepted c hc)
  have hchanges : ∀ earlier ∈ series.map fun c => c.closing.counted,
      ∀ later ∈ series.map fun c => c.closing.counted, ∀ n, later.sub earlier = .ok n →
        n.TooLarge → ConversionOverflows items period :=
    List.forall_mem_map.mpr fun earlier he => List.forall_mem_map.mpr fun later hl =>
      .change earlier later (haccepted earlier he) (haccepted later hl)
  have hends := ends_ofCloses (α := Value) hpos .period _ hcloses hchanges
  rw [List.map_map] at hends
  exact hends.mono (fun _ _ => trivial) fun _ => id

namespace Reading

/-- The reading of these candles has data just if there are two of them, and then its time is that
of a candle and the latest of all. -/
structure IsLatest (reading : Reading Value) (cs : List (Candle Value)) : Prop where
  hasData : reading.hasData = true ↔ 2 ≤ cs.length
  newest : reading.hasData = true → ∃ c ∈ cs, c.timestamp = reading.timestamp
  latest : reading.hasData = true → ∀ c ∈ cs,
    Comparable.atMost c.timestamp reading.timestamp = true

theorem isLatest_noData {cs : List (Candle Value)} (h : cs.length < 2) (now : Value) :
    (noData now).IsLatest cs where
  hasData := ⟨fun hdata => absurd hdata Bool.false_ne_true, fun htwo => by omega⟩
  newest hdata := absurd hdata Bool.false_ne_true
  latest hdata := absurd hdata Bool.false_ne_true

/-- What becomes of values: a reading at the latest time of their candles, or else the fault of a
number out of range. -/
theorem ends_ofSamples (hpos : 0 < period) (hnumeric : ∀ v ∈ items, (ofElement v).IsNumeric)
    (now : Value) :
    Ends (fun reading => reading.IsLatest (accepted items))
      (OutOfRange (ConversionOverflows items period))
      (ofSamples (items.map ofElement) period now) := by
  by_cases hlarge : ∃ v ∈ items, (ofElement v).Overflows
  · rw [ofSamples, series_eq_wholeTooLarge hlarge]
    obtain ⟨v, hv, hv'⟩ := hlarge
    exact ⟨rfl, .row v hv hv'⟩
  · have hcandles := isNumeric_of_accepted hnumeric
    have hplaced : ∀ c ∈ accepted items, c.timestamp.isPlaced :=
      fun c hc => (hcandles c hc).timestamp
    obtain ⟨sorted, hseries, hstable⟩ :=
      exists_series_stable (fun v hv hv' => hlarge ⟨v, hv, hv'⟩) hplaced
    have hmem : ∀ c ∈ sorted, c ∈ accepted items := fun c hc => hstable.perm.mem_iff.mp hc
    have hlength : sorted.length = (accepted items).length := hstable.perm.length_eq
    rw [ofSamples, hseries, ok_bind]
    cases hnewest : sorted.getLast? with
    | none =>
      rw [List.getLast?_eq_none_iff] at hnewest
      rw [hnewest, List.length_nil] at hlength
      exact isLatest_noData (by omega) now
    | some newest =>
      dsimp only
      by_cases hshort : sorted.length < 2
      · rw [if_pos hshort]
        exact isLatest_noData (by omega) now
      · rw [if_neg hshort]
        have hindex := ends_ofCloses_candles hpos (fun c hc => hcandles c (hmem c hc)) hmem
        have hdata : true = true ↔ 2 ≤ (accepted items).length :=
          ⟨fun _ => by omega, fun _ => rfl⟩
        refine hindex.bind fun _ _ => ⟨hdata, fun _ => ?_, fun _ c hc => ?_⟩
        · exact ⟨newest, hmem newest (List.mem_of_getLast? hnewest), rfl⟩
        · exact hstable.atMost_getLast hplaced hnewest hc

/-- **Samples may come in any order.** Take any values of which those that are candles already have
a place in time and a number for a close, and of which no two candles have the same time. Whatever
order they come in, and wherever values stand among them that are no candles, the outcome is the
same. It is a reading at the latest time of the candles, with data if there are two of them; and it
can only fail because of a number out of range. -/
theorem ofSamples_any_order (hpos : 0 < period) (hnumeric : ∀ v ∈ items, (ofElement v).IsNumeric)
    (hdistinct : (accepted items).Pairwise fun c d => c.timestamp.equals d.timestamp = false)
    (now : Value) :
    (∀ dropped others : List Value, (∀ v ∈ dropped, IsDropped v) →
      others.Perm (dropped ++ items) →
      ofSamples (others.map ofElement) period now = ofSamples (items.map ofElement) period now) ∧
    Ends (fun reading => reading.IsLatest (accepted items))
      (OutOfRange (ConversionOverflows items period))
      (ofSamples (items.map ofElement) period now) := by
  refine ⟨fun dropped others hdropped hperm => ?_, ends_ofSamples hpos hnumeric now⟩
  rw [ofSamples, series_any_order hnumeric hdistinct hdropped hperm, ← ofSamples]

/-- The values of `sampleElements` the other way round, and two more that are no candles. -/
def turnedElements : List Value :=
  sampleRow [1, 2] :: (sampleElements.reverse ++ [.text "candles"])

/-- Both orders have the same reading, with data and the time of the newest candle. -/
theorem ofSamples_any_order_turned : 0 < standardPeriod ∧
    (∀ v ∈ sampleElements, (ofElement v).IsNumeric) ∧
    ((accepted sampleElements).Pairwise fun c d => c.timestamp.equals d.timestamp = false) ∧
    ofSamples (turnedElements.map ofElement) standardPeriod (.whole 9) =
      ofSamples (sampleElements.map ofElement) standardPeriod (.whole 9) ∧
    ∃ reading, ofSamples (sampleElements.map ofElement) standardPeriod (.whole 9) = .ok reading ∧
      reading.IsLatest (accepted sampleElements) ∧ reading.hasData = true := by
  have hnumeric : ∀ v ∈ sampleElements, (ofElement v).IsNumeric :=
    fun v hv c hc => (isRegular_of_sampleElements v hv c hc).isNumeric
  have hdistinct : (accepted sampleElements).Pairwise
      fun c d => c.timestamp.equals d.timestamp = false := by decide +kernel
  have hdropped : ∀ v ∈ [sampleRow [1, 2], .text "candles"], IsDropped v :=
    List.forall_mem_cons.mpr ⟨rfl, List.forall_mem_singleton.mpr rfl⟩
  have hback : (sampleElements.reverse ++ [Value.text "candles"]).Perm
      (.text "candles" :: sampleElements) :=
    (List.perm_append_singleton _ _).trans ((List.reverse_perm _).cons _)
  obtain ⟨-, -, reading, hreading, -⟩ := exists_ofSamples isPeriod_standard
    (List.forall_mem_map.mpr isRegular_of_sampleElements)
    (List.forall_mem_map.mpr not_overflows_of_sampleElements) (.whole 9)
  have hlength : (accepted sampleElements).length = 3 := length_candles_sampleElements
  have hpos : 0 < standardPeriod := by decide
  have hall := ofSamples_any_order hpos hnumeric hdistinct (.whole 9)
  rw [hreading] at hall ⊢
  obtain ⟨hsame, hlatest⟩ := hall
  exact ⟨hpos, hnumeric, hdistinct, hsame _ turnedElements hdropped (hback.cons _), reading, rfl,
    hlatest, hlatest.hasData.mpr (by omega)⟩

end Reading

end Rsi

end LiquidityWatch
