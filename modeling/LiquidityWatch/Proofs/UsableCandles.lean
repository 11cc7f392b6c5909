import LiquidityWatch.Proofs.SampleOrder

/-! # Candles with and without a usable close

A row whose close is not finite is no candle, but a candle that has been read already may have such
a close. Its close is skipped when the index is computed, not before: the candle still counts as
one, and its time can be the time of the reading. So a reading is that of the candles with a finite
close just if fewer than two candles were read, or if two with a finite close are left and the
newest candle of all has the time of the newest of these (`Rsi.Reading.ofSamples_usable`). -/

namespace LiquidityWatch

/-! ## Finite closes -/

namespace Candle

/-- The close is a finite number. -/
def hasFiniteClose (c : Candle Value) : Bool :=
  match c.closing.place? with
  | some (.point _) => true
  | _ => false

variable {c : Candle Value}

/-- The index skips a close just if it is not finite. -/
theorem isFinite_closing (h : c.IsRegular) : Scalar.isFinite c.closing = .ok c.hasFiniteClose := by
  obtain ⟨r, -, hc⟩ := h
  rw [Sample.ofReals_eq] at hc
  obtain rfl := Except.ok.inj hc
  show Except.ok r.closing.isFinite = _
  cases hclose : r.closing with
  | nan => rfl
  | infinite negative => cases negative <;> rfl
  | finite => rfl

end Candle

/-- The candles among values that come in which have a finite close. -/
def Sample.usable (items : List Value) : List (Candle Value) :=
  (accepted items).filter Candle.hasFiniteClose

namespace Rsi

open Sample

variable {series : List (Candle Value)} {period : Int}

theorem filterM_isFinite_closing (h : ∀ c ∈ series, c.IsRegular) :
    (series.map Candle.closing).filterM Scalar.isFinite =
      .ok ((series.filter Candle.hasFiniteClose).map Candle.closing) :=
  filterM_map_eq_ok fun c hc => Candle.isFinite_closing (h c hc)

/-- The index of candles is that of the candles with a finite close. -/
theorem ofCloses_filter (h : ∀ c ∈ series, c.IsRegular) :
    ofCloses ((series.filter Candle.hasFiniteClose).map Candle.closing) period =
      ofCloses (series.map Candle.closing) period := by
  have hkept : ∀ c ∈ series.filter Candle.hasFiniteClose, c.IsRegular :=
    fun c hc => h c (List.mem_of_mem_filter hc)
  rw [ofCloses, ofCloses, filterM_isFinite_closing h, filterM_isFinite_closing hkept,
    List.filter_filter, List.filter_congr fun c _ => Bool.and_self _]

/-- The index of candles is zero if fewer than two have a finite close. -/
theorem ofCloses_short (h : ∀ c ∈ series, c.IsRegular)
    (hshort : (series.filter Candle.hasFiniteClose).length < 2) :
    ofCloses (series.map Candle.closing) period = .ok Scalar.zero := by
  rw [ofCloses, filterM_isFinite_closing h, ok_bind, if_pos (by rwa [List.length_map])]
  rfl

/-- Candles have an index if the period is in range, or is not needed. -/
theorem exists_index_of_usable (hpos : 0 < period)
    (hperiod : 2 ≤ (series.filter Candle.hasFiniteClose).length →
      ¬ (Number.whole period).TooLarge) (h : ∀ c ∈ series, c.IsRegular) :
    ∃ index, ofCloses (series.map Candle.closing) period = .ok index := by
  by_cases hshort : (series.filter Candle.hasFiniteClose).length < 2
  · exact ⟨_, ofCloses_short h hshort⟩
  · have hrange := Number.exists_roundWhole_of_not_tooLarge (hperiod (by omega))
    exact Reading.exists_index ⟨hpos, hrange⟩ h

namespace Reading

variable {reading : Reading Value} {now : Value}

/-- When a reading of a series is that of some of its candles, with the same index. -/
theorem GoesBy.filter_iff (h : reading.GoesBy series period now) (p : Candle Value → Bool)
    (hindex : ofCloses ((series.filter p).map Candle.closing) period =
      ofCloses (series.map Candle.closing) period) :
    reading.GoesBy (series.filter p) period now ↔ series.length < 2 ∨
      2 ≤ (series.filter p).length ∧ series.getLast?.map Candle.timestamp =
        (series.filter p).getLast?.map Candle.timestamp := by
  have hlength : (series.filter p).length ≤ series.length := List.length_filter_le _ _
  constructor
  · intro hfilter
    by_cases hshort : series.length < 2
    · exact .inl hshort
    · obtain ⟨-, htime, hdata⟩ := h.long (by omega)
      -- A reading with data is not that of fewer than two candles.
      have htwo : ¬ (series.filter p).length < 2 := by
        intro hfew
        rw [hfilter.short hfew] at hdata
        cases hdata
      have hlong := hfilter.long (by omega)
      exact .inr ⟨by omega, htime.trans hlong.2.1.symm⟩
  · rintro (hshort | ⟨htwo, htime⟩)
    · exact ⟨fun _ => h.short hshort, fun htwo => by omega⟩
    · obtain ⟨hvalue, hnewest, hdata⟩ := h.long (by omega)
      exact ⟨fun hfew => by omega, fun _ =>
        ⟨hindex.trans hvalue, htime.symm.trans hnewest, hdata⟩⟩

/-- Samples without a number out of range have a reading, which goes by all their candles. -/
theorem exists_reading (hpos : 0 < period) {items : List Value}
    (hregular : ∀ v ∈ items, (ofElement v).IsRegular)
    (hfits : ∀ v ∈ items, ¬ (ofElement v).Overflows)
    (hperiod : 2 ≤ (usable items).length → ¬ (Number.whole period).TooLarge) (now : Value) :
    ∃ all reading, StableSort Candle.timestamp (accepted items) all ∧ (∀ c ∈ all, c.IsRegular) ∧
      ofSamples (items.map ofElement) period now = .ok reading ∧
      reading.GoesBy all period now := by
  have hcandles := isRegular_of_accepted hregular
  obtain ⟨all, hall, hstable⟩ :=
    exists_series_stable hfits fun c hc => (hcandles c hc).isNumeric.timestamp
  have hregular' : ∀ c ∈ all, c.IsRegular := fun c hc => hcandles c (hstable.perm.mem_iff.mp hc)
  have hperiod' : 2 ≤ (all.filter Candle.hasFiniteClose).length →
      ¬ (Number.whole period).TooLarge := by
    intro htwo
    rw [(hstable.filter Candle.hasFiniteClose).perm.length_eq] at htwo
    exact hperiod htwo
  obtain ⟨reading, hreading, hgoes⟩ := ofSamples_of_index hall
    (exists_index_of_usable hpos hperiod' hregular') now
  exact ⟨all, reading, hstable, hregular', hreading, hgoes⟩

/-- **What a reading counts, and what it is computed from.** Take any values without a number out of
range, of which those that are candles already are regular; their closes may be anything in
binary64. In the order of time, equal times in the order they came, let `all` be the candles that
are read and `finite` those with a finite close. There is a reading. It has no data just if `all`
has fewer than two candles; otherwise its value is the index of `finite`, and its time is the last
of `all`. So it is the reading of `finite` just if `all` has fewer than two candles, or `finite` has
two and ends at the time at which `all` ends. -/
theorem ofSamples_usable (hpos : 0 < period) {items : List Value}
    (hregular : ∀ v ∈ items, (ofElement v).IsRegular)
    (hfits : ∀ v ∈ items, ¬ (ofElement v).Overflows)
    (hperiod : 2 ≤ (usable items).length → ¬ (Number.whole period).TooLarge) (now : Value) :
    ∃ all finite reading, StableSort Candle.timestamp (accepted items) all ∧
      StableSort Candle.timestamp (usable items) finite ∧
      ofSamples (items.map ofElement) period now = .ok reading ∧
      (all.length < 2 → reading = noData now) ∧
      (2 ≤ all.length → reading.hasData = true ∧
        ofCloses (finite.map Candle.closing) period = .ok reading.value ∧
        all.getLast?.map Candle.timestamp = some reading.timestamp) ∧
      (reading.GoesBy finite period now ↔ all.length < 2 ∨ 2 ≤ finite.length ∧
        all.getLast?.map Candle.timestamp = finite.getLast?.map Candle.timestamp) := by
  obtain ⟨all, reading, hstable, hall, hreading, hgoes⟩ :=
    exists_reading hpos hregular hfits hperiod now
  have hindex : ofCloses ((all.filter Candle.hasFiniteClose).map Candle.closing) period =
      ofCloses (all.map Candle.closing) period := ofCloses_filter hall
  refine ⟨all, all.filter Candle.hasFiniteClose, reading, hstable, hstable.filter _, hreading,
    hgoes.short, fun htwo => ?_, hgoes.filter_iff _ hindex⟩
  obtain ⟨hvalue, htime, hdata⟩ := hgoes.long htwo
  exact ⟨hdata, hindex.trans hvalue, htime⟩

/-- The candle and the two rows make a reading with data, computed from the rows alone. -/
theorem ofSamples_usable_sample : 0 < standardPeriod ∧
    (∀ v ∈ sampleElements, (ofElement v).IsRegular) ∧
    (∀ v ∈ sampleElements, ¬ (ofElement v).Overflows) ∧
    (2 ≤ (usable sampleElements).length → ¬ (Number.whole standardPeriod).TooLarge) ∧
    (accepted sampleElements).length = 3 ∧ ∃ finite reading,
      StableSort Candle.timestamp (usable sampleElements) finite ∧ finite.length = 2 ∧
      ofSamples (sampleElements.map ofElement) standardPeriod (.whole 9) = .ok reading ∧
      reading.hasData = true ∧
      ofCloses (finite.map Candle.closing) standardPeriod = .ok reading.value := by
  have hpos : 0 < standardPeriod := by decide
  have hrange : ¬ (Number.whole standardPeriod).TooLarge := by
    intro hlarge
    obtain ⟨x, hx⟩ := isPeriod_standard.inRange
    exact nomatch hx.symm.trans hlarge
  have htwo : (usable sampleElements).length = 2 := by decide +kernel
  obtain ⟨all, finite, reading, hall, hfinite, hreading, -, hlong, -⟩ :=
    ofSamples_usable hpos isRegular_of_sampleElements not_overflows_of_sampleElements
      (fun _ => hrange) (.whole 9)
  have hlength : all.length = 3 := hall.perm.length_eq.trans length_candles_sampleElements
  obtain ⟨hdata, hvalue, -⟩ := hlong (by omega)
  exact ⟨hpos, isRegular_of_sampleElements, not_overflows_of_sampleElements, fun _ => hrange,
    length_candles_sampleElements, finite, reading, hfinite, hfinite.perm.length_eq.trans htwo,
    hreading, hdata, hvalue⟩

/-- A candle without a close, as many seconds after the epoch. -/
def candleWithoutClose (seconds : Nat) : Value :=
  .candle (.real (.finite false (seconds * Binary64.unitsPerOne))) (.real .zero) (.real .zero)
    (.real .zero) (.real .nan) (.real .zero)

def elementsWithoutCloses : List Value := [candleWithoutClose 1, candleWithoutClose 2]

/-- Two candles without a close leave nothing to compute an index from. Their reading has data all
the same. -/
theorem ofSamples_without_closes :
    (∀ v ∈ elementsWithoutCloses, (ofElement v).IsRegular) ∧
    (∀ v ∈ elementsWithoutCloses, ¬ (ofElement v).Overflows) ∧
    usable elementsWithoutCloses = [] ∧ ∃ reading,
      ofSamples (elementsWithoutCloses.map ofElement) standardPeriod (.whole 0) = .ok reading ∧
      reading.hasData = true ∧ ¬ reading.GoesBy [] standardPeriod (.whole 0) := by
  have hform : ∀ v ∈ elementsWithoutCloses, ∃ seconds, v = candleWithoutClose seconds := by
    intro v hv
    rcases List.mem_pair.mp hv with rfl | rfl
    · exact ⟨1, rfl⟩
    · exact ⟨2, rfl⟩
  have hregular : ∀ v ∈ elementsWithoutCloses, (ofElement v).IsRegular := by
    intro v hv c hc
    obtain ⟨seconds, rfl⟩ := hform v hv
    obtain rfl := Sample.candle.inj hc
    exact ⟨⟨.finite false (seconds * Binary64.unitsPerOne), .zero, .zero, .zero, .nan, .zero⟩,
      rfl, rfl⟩
  have hfits : ∀ v ∈ elementsWithoutCloses, ¬ (ofElement v).Overflows := by
    rintro v hv ⟨w, hw, -⟩
    obtain ⟨seconds, rfl⟩ := hform v hv
    cases hw
  have hnone : usable elementsWithoutCloses = [] := rfl
  have hpos : 0 < standardPeriod := by decide
  have hperiod : 2 ≤ (usable elementsWithoutCloses).length →
      ¬ (Number.whole standardPeriod).TooLarge := by
    intro htwo
    rw [hnone] at htwo
    exact absurd htwo (by decide)
  obtain ⟨all, reading, hall, -, hreading, hgoes⟩ :=
    exists_reading hpos hregular hfits hperiod (.whole 0)
  have htwo : all.length = 2 := hall.perm.length_eq
  obtain ⟨-, -, hdata⟩ := hgoes.long (by omega)
  refine ⟨hregular, hfits, hnone, reading, hreading, hdata, fun hempty => ?_⟩
  rw [hempty.short (by decide)] at hdata
  cases hdata

end Reading

end Rsi

end LiquidityWatch
