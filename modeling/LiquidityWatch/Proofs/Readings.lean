import LiquidityWatch.Proofs.Index
import LiquidityWatch.Rsi.Reading

/-! # Readings of any samples

Rows come from outside and can hold anything. A row that is no candle is dropped, whatever it holds,
with one exception: a whole number out of the range of binary64 is a fault that is not caught
(`Candle.Overflows`). Samples without such a row always have a reading, and with one they never have
one (`Reading.ofSamples_elements`). -/

namespace LiquidityWatch

variable {α : Type} [Scalar α]

/-- Everything but the NaN lies somewhere. -/
theorem Binary64.isSome_place? {x : Binary64} (h : x.isNaN = false) : x.place?.isSome := by
  cases x with
  | nan => cases h
  | infinite negative => cases negative <;> rfl
  | finite => rfl

/-! ## Rows -/

namespace Candle

/-- Among the first six items of a row, after items that are numbers, stands a whole number that is
out of range. -/
def Overflows (v : Value) : Prop :=
  ∃ before large after, v = .list (before ++ large :: after) ∧
    5 ≤ (before ++ large :: after).length ∧ before.length < 6 ∧
    (∀ u ∈ before, ∃ x, u.toReal = .ok x) ∧ large.TooLarge

/-- A fault that does not drop a row is that of a number out of range. -/
theorem tooLarge_of_not_dropsRow {u : Value} {f : Fault} (h : u.toReal = .error f)
    (hf : ¬ dropsRow f = true) : u.TooLarge ∧ f = .wholeTooLarge := by
  rcases Value.toReal_eq_error h with hlarge | hkind | hkind
  · exact hlarge
  · exact absurd (by simp [dropsRow, hkind]) hf
  · exact absurd (by simp [dropsRow, Fault.isValueFault, hkind]) hf

theorem overflows_of_ofRow {v : Value} {f : Fault} (h : ofRow v = .error f) :
    Overflows v ∧ f = .wholeTooLarge := by
  cases v with
  | list items =>
    rw [ofRow] at h
    by_cases hshort : items.length < 5
    · rw [if_pos hshort] at h
      cases h
    · rw [if_neg hshort] at h
      cases hread : (items.take 6).mapM Value.toReal with
      | ok numbers =>
        rw [hread] at h
        cases h
      | error g =>
        rw [hread] at h
        dsimp only at h
        obtain ⟨before, large, after, hitems, hbefore, hlarge⟩ := mapM_eq_error.mp hread
        by_cases hdrops : dropsRow g
        · rw [if_pos hdrops] at h
          cases h
        · rw [if_neg hdrops] at h
          obtain rfl := Except.error.inj h
          obtain ⟨htoo, rfl⟩ := tooLarge_of_not_dropsRow hlarge hdrops
          have hsplit : items = before ++ large :: (after ++ items.drop 6) := by
            rw [← List.cons_append, ← List.append_assoc, ← hitems, List.take_append_drop]
          have hlength : before.length < (items.take 6).length := by simp [hitems]
          rw [List.length_take] at hlength
          refine ⟨⟨before, large, _, congrArg Value.list hsplit, ?_, by omega, hbefore, htoo⟩, rfl⟩
          rw [← hsplit]
          omega
  | null | truth | number | text | bytes | object | candle => cases h

/-- Only a whole number out of range keeps a row from being read or dropped. -/
theorem ofRow_eq_error {v : Value} {f : Fault} :
    ofRow v = .error f ↔ Overflows v ∧ f = .wholeTooLarge := by
  constructor
  · exact overflows_of_ofRow
  · rintro ⟨⟨before, large, after, rfl, hlong, hshort, hbefore, hlarge⟩, rfl⟩
    have htake : (before ++ large :: after).take 6 =
        before ++ large :: after.take (6 - (before.length + 1)) := by
      rw [List.take_append, List.take_of_length_le (by omega),
        show 6 - before.length = 6 - (before.length + 1) + 1 by omega, List.take_succ_cons]
    rw [ofRow, if_neg (by omega), htake,
      mapM_append_error hbefore (Value.toReal_of_tooLarge hlarge)]
    rfl

/-- A candle of binary64 numbers with a place in time: its timestamp may be infinite, but it is not
the NaN. -/
def IsRegular (c : Candle α) : Prop :=
  ∃ r : Candle Binary64, r.timestamp.isNaN = false ∧ ofReals r = .ok c

/-- A row that is read gives a candle with a finite timestamp and a finite close. -/
theorem isUsable_of_ofRow {v : Value} {r : Candle Binary64} (h : ofRow v = .ok (some r)) :
    r.isUsable := by
  cases v with
  | list items =>
    rw [ofRow] at h
    split at h
    · cases h
    · split at h
      · exact (Option.filter_eq_some_iff.mp (Except.ok.inj h)).2
      · split at h <;> cases h
  | null | truth | number | text | bytes | object | candle => cases h

end Candle

/-! ## Series -/

namespace Sample

/-- The candle that a sample stands for, if it stands for one. -/
def candleOf (s : Sample α) : Option (Candle α) := s.candle?.toOption.join

/-- A sample that is a candle already is a regular one. -/
def IsRegular (s : Sample α) : Prop := ∀ c, s = .candle c → c.IsRegular

/-- The row of a sample holds a number out of range. -/
def Overflows (s : Sample α) : Prop := ∃ v, s = .row v ∧ Candle.Overflows v

theorem isRegular_row (v : Value) : (row v : Sample α).IsRegular := by
  intro c hc
  cases hc

/-- Samples that are rows without a number out of range are regular, and none of them overflows. -/
theorem rows_fit {rows : List Value} (h : ∀ row ∈ rows, ¬ Candle.Overflows row) :
    (∀ s ∈ rows.map (row : Value → Sample α), s.IsRegular) ∧
      ∀ s ∈ rows.map (row : Value → Sample α), ¬ s.Overflows := by
  constructor
  · intro s hs
    obtain ⟨row, -, rfl⟩ := List.mem_map.mp hs
    exact isRegular_row row
  · intro s hs
    obtain ⟨row, hrow, rfl⟩ := List.mem_map.mp hs
    rintro ⟨v, hv, hlarge⟩
    obtain rfl := Sample.row.inj hv
    exact h row hrow hlarge

theorem candles_eq_mapM (samples : List (Sample α)) :
    candles samples = do return (← samples.mapM candle?).filterMap id := by
  induction samples with
  | nil => rfl
  | cons s rest ih =>
    rw [candles, List.mapM_cons, ih]
    cases s.candle? with
    | error f => rfl
    | ok found => cases found <;> cases rest.mapM candle? <;> rfl

/-- A series keeps the candles among its samples, and drops the rest. -/
theorem candles_eq_ok {samples : List (Sample α)}
    (h : ∀ s ∈ samples, ∃ found, s.candle? = .ok found) :
    candles samples = .ok (samples.filterMap candleOf) := by
  have hall : ∀ s ∈ samples, s.candle? = .ok s.candleOf := by
    intro s hs
    obtain ⟨found, hfound⟩ := h s hs
    rw [candleOf, hfound]
    rfl
  rw [candles_eq_mapM, mapM_eq_map hall, ok_bind, List.filterMap_map]
  rfl

variable [NumberScalar α]

open NumberScalar

theorem ofReals_eq (r : Candle Binary64) : (Candle.ofReals r : Except Fault (Candle α)) =
    .ok ⟨real r.timestamp, real r.opening, real r.high, real r.low, real r.closing,
      real r.volume⟩ := by
  simp only [Candle.ofReals, ofReal_eq, ok_bind]
  rfl

theorem candle?_eq_error {s : Sample α} {f : Fault} :
    s.candle? = .error f ↔ s.Overflows ∧ f = .wholeTooLarge := by
  cases s with
  | candle c =>
    constructor
    · intro h
      cases h
    · rintro ⟨⟨v, hv, -⟩, -⟩
      cases hv
  | row v =>
    have hrow : (row v : Sample α).Overflows ↔ Candle.Overflows v := by
      constructor
      · rintro ⟨w, hw, hlarge⟩
        obtain rfl := Sample.row.inj hw
        exact hlarge
      · exact fun hlarge => ⟨v, rfl, hlarge⟩
    rw [hrow, ← Candle.ofRow_eq_error, candle?]
    rcases Candle.ofRow v with g | _ | r
    · simp only [error_bind, Except.error.injEq]
    · exact ⟨fun h => (nomatch h), fun h => (nomatch h)⟩
    · simp only [ok_bind, ofReals_eq]
      exact ⟨fun h => (nomatch h), fun h => (nomatch h)⟩

/-- What is read, as a candle or as none, holds no number out of range. -/
theorem not_overflows_of_isSome {s : Sample α} (h : s.candle?.toOption.isSome) :
    ¬ s.Overflows := by
  intro hlarge
  rw [candle?_eq_error.mpr ⟨hlarge, rfl⟩] at h
  cases h

theorem exists_candle? {s : Sample α} (h : ¬ s.Overflows) : ∃ found, s.candle? = .ok found := by
  cases hs : s.candle? with
  | ok found => exact ⟨found, rfl⟩
  | error f => exact absurd (candle?_eq_error.mp hs).1 h

/-- A row that stands for a candle was read as one. -/
theorem exists_ofRow {v : Value} {c : Candle α} (h : (row v).candleOf = some c) :
    ∃ r, Candle.ofRow v = .ok (some r) ∧ Candle.ofReals r = .ok c := by
  rw [candleOf, candle?] at h
  rcases hrow : Candle.ofRow v with f | _ | r
  · rw [hrow] at h
    cases h
  · rw [hrow] at h
    cases h
  · rw [hrow, ok_bind] at h
    dsimp only at h
    rw [ofReals_eq] at h
    exact ⟨r, rfl, (ofReals_eq r).trans (congrArg _ (Option.some.inj h))⟩

/-- Candles that come from regular samples are regular. -/
theorem isRegular_of_candleOf {s : Sample α} (hs : s.IsRegular) {c : Candle α}
    (h : s.candleOf = some c) : c.IsRegular := by
  cases s with
  | candle c' =>
    obtain rfl := Option.some.inj h
    exact hs c' rfl
  | row v =>
    obtain ⟨r, hrow, hreals⟩ := exists_ofRow h
    have husable := Candle.isUsable_of_ofRow hrow
    refine ⟨r, ?_, hreals⟩
    cases htime : r.timestamp with
    | nan => simp [Candle.isUsable, htime, Binary64.isFinite] at husable
    | infinite | finite => rfl

theorem isRegular_of_perm {samples : List (Sample α)} (h : ∀ s ∈ samples, s.IsRegular)
    {series : List (Candle α)} (hperm : series.Perm (samples.filterMap candleOf)) :
    ∀ c ∈ series, c.IsRegular := by
  intro c hc
  obtain ⟨s, hs, hcandle⟩ := List.mem_filterMap.mp (hperm.mem_iff.mp hc)
  exact isRegular_of_candleOf (h s hs) hcandle

/-- Regular candles can be put into the order of time. -/
theorem sortedBy_timestamp {cs : List (Candle α)} (h : ∀ c ∈ cs, c.IsRegular) :
    ∃ series, sortedBy Candle.timestamp cs = .ok series ∧ series.Perm cs := by
  obtain ⟨times, htimes, hplaced⟩ : ∃ times : List Number,
      cs.map Candle.timestamp = times.map ofNumber ∧ ∀ t ∈ times, t.place?.isSome := by
    induction cs with
    | nil => exact ⟨[], rfl, fun t ht => absurd ht List.not_mem_nil⟩
    | cons c rest ih =>
      obtain ⟨⟨r, hr, hc⟩, hrest⟩ := List.forall_mem_cons.mp h
      obtain ⟨times, htimes, hplaced⟩ := ih hrest
      rw [ofReals_eq] at hc
      obtain rfl := Except.ok.inj hc
      refine ⟨.real r.timestamp :: times, ?_, List.forall_mem_cons.mpr ⟨?_, hplaced⟩⟩
      · rw [List.map_cons, List.map_cons, htimes]
        rfl
      · exact Binary64.isSome_place? hr
  have horder : Comparable.isOrder (cs.map Candle.timestamp) = true := by
    rw [htimes]
    exact isOrder_eq times hplaced
  rw [sortedBy, if_pos horder]
  exact ⟨_, rfl, List.mergeSort_perm _ _⟩

/-- Samples without a number out of range make a series: the candles among them. -/
theorem exists_series {samples : List (Sample α)} (hregular : ∀ s ∈ samples, s.IsRegular)
    (h : ∀ s ∈ samples, ¬ s.Overflows) :
    ∃ series, Sample.series samples = .ok series ∧ series.Perm (samples.filterMap candleOf) := by
  have hcandles := candles_eq_ok fun s hs => exists_candle? (h s hs)
  rw [Sample.series, hcandles, ok_bind]
  exact sortedBy_timestamp (isRegular_of_perm hregular (.refl _))

/-- A sample with a number out of range keeps all of them from being a series. -/
theorem series_eq_error {samples : List (Sample α)} (h : ∃ s ∈ samples, s.Overflows) :
    Sample.series samples = .error .wholeTooLarge := by
  have hmap : samples.mapM candle? = .error .wholeTooLarge := by
    cases hall : samples.mapM candle? with
    | error f =>
      obtain ⟨_, s, _, -, -, hs⟩ := mapM_eq_error.mp hall
      rw [(candle?_eq_error.mp hs).2]
    | ok found =>
      obtain ⟨s, hs, hlarge⟩ := h
      obtain ⟨_, hfound⟩ := exists_of_forall₂_left (mapM_eq_ok.mp hall) hs
      rw [candle?_eq_error.mpr ⟨hlarge, rfl⟩] at hfound
      cases hfound
  rw [Sample.series, candles_eq_mapM, hmap]
  rfl

end Sample

namespace Rsi.Reading

/-- A reading of candles, oldest first: without data if there are fewer than two, and otherwise
their index at the time of the newest. -/
structure GoesBy (reading : Reading α) (series : List (Candle α)) (period : Int) (now : α) :
    Prop where
  short : series.length < 2 → reading = noData now
  long : 2 ≤ series.length → ofCloses (series.map Candle.closing) period = .ok reading.value ∧
    series.getLast?.map Candle.timestamp = some reading.timestamp ∧ reading.hasData = true

variable {period : Int}

/-- A series has a reading if its closes have an index. -/
theorem ofSamples_of_index {samples : List (Sample α)} {series : List (Candle α)}
    (hseries : Sample.series samples = .ok series)
    (hindex : ∃ index, ofCloses (series.map Candle.closing) period = .ok index) (now : α) :
    ∃ reading, ofSamples samples period now = .ok reading ∧
      reading.GoesBy series period now := by
  rw [ofSamples, hseries, ok_bind]
  cases hnewest : series.getLast? with
  | none =>
    rw [List.getLast?_eq_none_iff] at hnewest
    subst hnewest
    exact ⟨noData now, rfl, fun _ => rfl, fun h => absurd h (Nat.not_succ_le_zero 1)⟩
  | some newest =>
    dsimp only
    by_cases hshort : series.length < 2
    · rw [if_pos hshort]
      exact ⟨noData now, rfl, fun _ => rfl, fun h => absurd h (by omega)⟩
    · obtain ⟨index, hindex⟩ := hindex
      rw [if_neg hshort, hindex]
      refine ⟨⟨index, newest.timestamp, true⟩, rfl, fun h => absurd h hshort, fun _ => ?_⟩
      exact ⟨hindex, congrArg _ hnewest, rfl⟩

variable [NumberScalar α]

open NumberScalar

/-- The closes of regular candles are binary64 numbers. -/
theorem exists_closes {series : List (Candle α)} (h : ∀ c ∈ series, c.IsRegular) :
    ∃ closes : List Binary64, series.map Candle.closing = closes.map real := by
  induction series with
  | nil => exact ⟨[], rfl⟩
  | cons c rest ih =>
    obtain ⟨⟨r, -, hc⟩, hrest⟩ := List.forall_mem_cons.mp h
    obtain ⟨closes, hcloses⟩ := ih hrest
    rw [Sample.ofReals_eq] at hc
    obtain rfl := Except.ok.inj hc
    refine ⟨r.closing :: closes, ?_⟩
    rw [List.map_cons, List.map_cons, hcloses]

/-- The closes of regular candles have an index. -/
theorem exists_index (hperiod : IsPeriod period) {series : List (Candle α)}
    (h : ∀ c ∈ series, c.IsRegular) :
    ∃ index, ofCloses (series.map Candle.closing) period = .ok index := by
  obtain ⟨closes, hcloses⟩ := exists_closes h
  obtain ⟨index, hindex⟩ := exists_ofCloses (α := α) hperiod closes
  rw [← hcloses] at hindex
  exact ⟨_, hindex⟩

/-- Regular samples have a reading, unless one of them holds a number out of range. -/
theorem exists_ofSamples (hperiod : IsPeriod period) {samples : List (Sample α)}
    (hregular : ∀ s ∈ samples, s.IsRegular) (h : ∀ s ∈ samples, ¬ s.Overflows) (now : α) :
    ∃ series : List (Candle α), series.Perm (samples.filterMap Sample.candleOf) ∧
      ∃ reading, ofSamples samples period now = .ok reading ∧ reading.GoesBy series period now := by
  obtain ⟨series, hseries, hperm⟩ := Sample.exists_series hregular h
  have hcandles := Sample.isRegular_of_perm hregular hperm
  exact ⟨series, hperm, ofSamples_of_index hseries (exists_index hperiod hcandles) now⟩

theorem ofSamples_eq_error {samples : List (Sample α)} (h : ∃ s ∈ samples, s.Overflows)
    (now : α) : ofSamples samples period now = .error .wholeTooLarge := by
  rw [ofSamples, Sample.series_eq_error h]
  rfl

omit [Scalar α] [NumberScalar α]

/-- **What the engine makes of any values.** Take any period in range, and any values of which those
that are candles already are regular. A value that does not hold a number out of range is read, as a
candle or as none. If there is no such number, there is a reading; it goes by all the candles that
were read, in some order. If there is such a number, its fault is all that comes of the values. -/
theorem ofSamples_elements (hperiod : IsPeriod period) {items : List Value}
    (hregular : ∀ v ∈ items, (Sample.ofElement v).IsRegular) (now : Value) :
    (∀ v ∈ items, ¬ (Sample.ofElement v).Overflows →
      ∃ found, (Sample.ofElement v).candle? = .ok found) ∧
    ((∀ v ∈ items, ¬ (Sample.ofElement v).Overflows) →
      ∃ series : List (Candle Value),
        series.Perm (items.filterMap fun v => (Sample.ofElement v).candleOf) ∧
        ∃ reading, ofSamples (items.map Sample.ofElement) period now = .ok reading ∧
          reading.GoesBy series period now) ∧
    ((∃ v ∈ items, (Sample.ofElement v).Overflows) →
      ofSamples (items.map Sample.ofElement) period now = .error .wholeTooLarge) := by
  refine ⟨fun v _ hv => Sample.exists_candle? hv, fun h => ?_, fun ⟨v, hv, hlarge⟩ => ?_⟩
  · have hall := exists_ofSamples hperiod (List.forall_mem_map.mpr hregular)
      (List.forall_mem_map.mpr h) now
    rw [List.filterMap_map] at hall
    exact hall
  · exact ofSamples_eq_error ⟨_, List.mem_map_of_mem hv, hlarge⟩ now

/-- A row of whole numbers. -/
def sampleRow (items : List Int) : Value := .list (items.map Value.whole)

/-- Values as they may come in: rows in any order, a candle, and values that are no rows. -/
def sampleElements : List Value :=
  [sampleRow [3, 1, 1, 1, 12], .null, .list [.text "soon", .null], .object [("open", .whole 1)],
    .candle (.real .zero) (.real .nan) (.real .nan) (.real .nan) (.real .nan) (.real .zero),
    .list [.text " 2 ", .truth true, .real (.infinite true), .text "nan", .text "1e1"]]

theorem isRegular_of_sampleElements : ∀ v ∈ sampleElements, (Sample.ofElement v).IsRegular := by
  intro v hv c hc
  simp only [sampleElements, List.mem_cons, List.not_mem_nil, or_false] at hv
  rcases hv with rfl | rfl | rfl | rfl | rfl | rfl
  case inr.inr.inr.inr.inl =>
    obtain rfl := Sample.candle.inj hc
    exact ⟨⟨.zero, .nan, .nan, .nan, .nan, .zero⟩, rfl, rfl⟩
  all_goals cases hc

theorem not_overflows_of_sampleElements :
    ∀ v ∈ sampleElements, ¬ (Sample.ofElement v).Overflows := by
  have hread : ∀ v ∈ sampleElements, (Sample.ofElement v).candle?.toOption.isSome := by
    decide +kernel
  exact fun v hv => Sample.not_overflows_of_isSome (hread v hv)

theorem length_candles_sampleElements :
    (sampleElements.filterMap fun v => (Sample.ofElement v).candleOf).length = 3 := by
  decide +kernel

theorem isPeriod_standard : IsPeriod standardPeriod :=
  ⟨by decide, exists_of_isSome_toOption (by decide +kernel)⟩

/-- The candle and two of the rows are read, and the rest is dropped. -/
theorem ofSamples_elements_sample : IsPeriod standardPeriod ∧
    (∀ v ∈ sampleElements, (Sample.ofElement v).IsRegular) ∧ ∃ reading,
      ofSamples (sampleElements.map Sample.ofElement) standardPeriod (.whole 9) = .ok reading ∧
        reading.hasData = true := by
  obtain ⟨-, hreading, -⟩ :=
    ofSamples_elements isPeriod_standard isRegular_of_sampleElements (.whole 9)
  obtain ⟨series, hperm, reading, heq, hgoes⟩ := hreading not_overflows_of_sampleElements
  have hlong : 2 ≤ series.length := by
    rw [hperm.length_eq, length_candles_sampleElements]
    decide
  exact ⟨isPeriod_standard, isRegular_of_sampleElements, reading, heq, (hgoes.long hlong).2.2⟩

/-- A row with a number out of range is not dropped: no reading comes of it. -/
theorem ofSamples_row_overflows : IsPeriod standardPeriod ∧
    (∀ v ∈ [sampleRow [10 ^ 400, 1, 1, 1, 1, 1]], (Sample.ofElement v).IsRegular) ∧
    ofSamples ([sampleRow [10 ^ 400, 1, 1, 1, 1, 1]].map Sample.ofElement) standardPeriod
      (.whole 0) = .error .wholeTooLarge := by
  have hlarge : Number.roundWhole (10 ^ 400) = .error .wholeTooLarge := by decide +kernel
  have hoverflows : (.row (sampleRow [10 ^ 400, 1, 1, 1, 1, 1]) : Sample Value).Overflows :=
    ⟨_, rfl, [], .whole (10 ^ 400), [1, 1, 1, 1, 1].map Value.whole, rfl, by decide, by decide,
      fun u hu => absurd hu List.not_mem_nil, 10 ^ 400, rfl, hlarge⟩
  refine ⟨isPeriod_standard, ?_, ofSamples_eq_error ⟨_, List.mem_singleton_self _, hoverflows⟩ _⟩
  intro v hv c hc
  obtain rfl := List.mem_singleton.mp hv
  cases hc

end Rsi.Reading

end LiquidityWatch
