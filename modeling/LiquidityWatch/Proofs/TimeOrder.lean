import LiquidityWatch.Proofs.SampleOrder

/-! # Candles in the order of time

A series holds the candles among the values that come in: those that are candles already, and those
that rows are read as (`Sample.Reads`). It is their stable sort by time: nothing is lost or doubled,
and candles of one time stay in the order in which they came. Candles in that order are their own
series (`Sample.series_toElement`), so putting a series into order again changes nothing
(`Sample.series_stableSort`). -/

namespace LiquidityWatch

namespace Candle

variable {v : Value} {c : Candle Value}

/-- A candle as one of the values that come in. -/
def toElement (c : Candle Value) : Value :=
  .candle c.timestamp c.opening c.high c.low c.closing c.volume

/-- A row is read as the candle. -/
def FromRow (v : Value) (c : Candle Value) : Prop :=
  ∃ r : Candle Binary64, ofRow v = .ok (some r) ∧ ofReals r = .ok c

/-- The time and the close are finite numbers. -/
structure IsFinite (c : Candle Value) : Prop where
  timestamp : Scalar.isFinite c.timestamp = .ok true
  closing : Scalar.isFinite c.closing = .ok true

theorem FromRow.isFinite (h : FromRow v c) : c.IsFinite := by
  obtain ⟨r, hrow, hreals⟩ := h
  obtain ⟨htime, hclose⟩ := Bool.and_eq_true_iff.mp (isUsable_of_ofRow hrow)
  rw [Sample.ofReals_eq] at hreals
  obtain rfl := Except.ok.inj hreals
  exact ⟨congrArg Except.ok htime, congrArg Except.ok hclose⟩

end Candle

namespace Sample

open Candle (FromRow)

variable {v : Value} {c : Candle Value} {items : List Value} {sorted : List (Candle Value)}

/-! ## Reading the values one by one -/

/-- The candles that values stand for, in the order in which they come: a candle stands for itself,
and a row for the candle that it is read as. A row that is read as none leaves nothing. -/
inductive Reads : List Value → List (Candle Value) → Prop
  | nil : Reads [] []
  | candle {rest read} (c : Candle Value) (h : Reads rest read) :
    Reads (c.toElement :: rest) (c :: read)
  | row {rest read v c} (hrow : FromRow v c) (h : Reads rest read) : Reads (v :: rest) (c :: read)
  | dropped {rest read v} (hv : ofElement v = .row v) (hrow : Candle.ofRow v = .ok none)
    (h : Reads rest read) : Reads (v :: rest) read

/-- A value is a candle, or else it is taken for a row. -/
theorem eq_toElement_or_row (v : Value) : (∃ c : Candle Value, v = c.toElement) ∨
    ofElement v = .row v := by
  cases v with
  | candle timestamp opening high low closing volume =>
    exact .inl ⟨⟨timestamp, opening, high, low, closing, volume⟩, rfl⟩
  | null | truth | number | text | bytes | list | object => exact .inr rfl

theorem accepted_row {rest : List Value} (hv : ofElement v = .row v) (hrow : FromRow v c) :
    accepted (v :: rest) = c :: accepted rest := by
  obtain ⟨r, hfound, hreals⟩ := hrow
  have hcandle : (ofElement v).candleOf = some c := by
    rw [hv, candleOf, candle?, hfound, ok_bind]
    dsimp only
    rw [hreals]
    rfl
  exact List.filterMap_cons_some hcandle

theorem accepted_dropped {rest : List Value} (hv : ofElement v = .row v)
    (hrow : Candle.ofRow v = .ok none) : accepted (v :: rest) = accepted rest := by
  have hnone : (ofElement v).candleOf = none := by
    rw [hv, candleOf, candle?, hrow]
    rfl
  exact List.filterMap_cons_none hnone

/-- Values without a number out of range are read to their end, and what is read are the candles
among them. -/
theorem reads_accepted (hfits : ∀ v ∈ items, ¬ (ofElement v).Overflows) :
    Reads items (accepted items) := by
  induction items with
  | nil => exact .nil
  | cons v rest ih =>
    obtain ⟨hv, hrest⟩ := List.forall_mem_cons.mp hfits
    have hread := ih hrest
    rcases eq_toElement_or_row v with ⟨c, rfl⟩ | hrow
    · exact hread.candle c
    · rcases hfound : Candle.ofRow v with f | _ | r
      · -- Only a number out of range keeps a row from being read or dropped.
        exact absurd ⟨v, hrow, (Candle.ofRow_eq_error.mp hfound).1⟩ hv
      · rw [accepted_dropped hrow hfound]
        exact hread.dropped hrow hfound
      · have hcandle : FromRow v _ := ⟨r, hfound, ofReals_eq r⟩
        rw [accepted_row hrow hcandle]
        exact hread.row hcandle

/-- Every candle has a place in time if those that came as candles have one. -/
theorem isPlaced_of_accepted
    (htimed : ∀ c : Candle Value, c.toElement ∈ items → c.timestamp.isPlaced) :
    ∀ c ∈ accepted items, c.timestamp.isPlaced := by
  refine forall_accepted fun v hv c hcandle => ?_
  rcases eq_toElement_or_row v with ⟨d, rfl⟩ | hrow
  · obtain rfl := Option.some.inj hcandle
    exact htimed d hv
  · rw [hrow] at hcandle
    exact (isRegular_of_candleOf (isRegular_row v) hcandle).isNumeric.timestamp

/-! ## The series -/

/-- Candles stand for themselves. -/
theorem accepted_toElement (cs : List (Candle Value)) :
    accepted (cs.map Candle.toElement) = cs := by
  rw [accepted, List.filterMap_map]
  exact List.filterMap_some

theorem not_overflows_toElement (c : Candle Value) : ¬ (ofElement c.toElement).Overflows := by
  rintro ⟨v, hv, -⟩
  cases hv

/-- The series of candles that are in the order of time is themselves. -/
theorem series_toElement {cs : List (Candle Value)} (hplaced : ∀ c ∈ cs, c.timestamp.isPlaced)
    (hascending : Ascending Candle.timestamp cs) :
    series ((cs.map Candle.toElement).map ofElement) = .ok cs := by
  have haccepted := accepted_toElement cs
  have hfits : ∀ v ∈ cs.map Candle.toElement, ¬ (ofElement v).Overflows :=
    List.forall_mem_map.mpr fun c _ => not_overflows_toElement c
  rw [series_eq hfits, haccepted]
  exact (sortedBy_eq_ok hplaced).mpr hascending.stableSort

/-- **A series is a stable sort of what is read.** Take any values without a number out of range, of
which those that are candles already have a place in time. They make a series: the candles that they
stand for, each as often as it comes, in the order of time, and those of one time in the order in
which they come. The series of these candles is the same again. A candle that a row is read as has a
finite time and a finite close. -/
theorem series_stableSort
    (htimed : ∀ c : Candle Value, c.toElement ∈ items → c.timestamp.isPlaced)
    (hfits : ∀ v ∈ items, ¬ (ofElement v).Overflows) :
    Reads items (accepted items) ∧ ∃ sorted, series (items.map ofElement) = .ok sorted ∧
      StableSort Candle.timestamp (accepted items) sorted ∧
      series ((sorted.map Candle.toElement).map ofElement) = .ok sorted ∧
      ∀ v ∈ items, ∀ c, FromRow v c → c.IsFinite := by
  have hplaced := isPlaced_of_accepted htimed
  obtain ⟨sorted, hseries, hstable⟩ := exists_series_stable hfits hplaced
  have hplaced' : ∀ c ∈ sorted, c.timestamp.isPlaced :=
    fun c hc => hplaced c (hstable.perm.mem_iff.mp hc)
  have hagain := series_toElement hplaced' hstable.ascending
  exact ⟨reads_accepted hfits, sorted, hseries, hstable, hagain, fun _ _ _ hrow => hrow.isFinite⟩

/-- Three candles of one time, two of them rows that are alike, with what is no candle between them
and an earlier candle at the end. -/
def tiedElements : List Value :=
  [Rsi.Reading.sampleRow [2, 1, 1, 1, 7], .text "candle",
    .candle (.whole 2) .null .null .null (.real .nan) .null, Rsi.Reading.sampleRow [2, 1],
    Rsi.Reading.sampleRow [2, 1, 1, 1, 7],
    .candle (.truth true) .null .null .null (.whole 5) .null]

/-- All four candles are kept. Those of one time stay as they came, with the closes seven, none and
seven. -/
theorem series_stableSort_tied :
    (∀ c : Candle Value, c.toElement ∈ tiedElements → c.timestamp.isPlaced) ∧
    (∀ v ∈ tiedElements, ¬ (ofElement v).Overflows) ∧ ∃ sorted,
      series (tiedElements.map ofElement) = .ok sorted ∧ sorted.length = 4 ∧
      (sorted.filter fun c => c.timestamp.equals (.whole 2)).map
        (fun c => c.closing.equals (.whole 7)) = [true, false, true] ∧
      series ((sorted.map Candle.toElement).map ofElement) = .ok sorted := by
  have htimed : ∀ c : Candle Value, c.toElement ∈ tiedElements → c.timestamp.isPlaced := by
    intro c hc
    simp only [tiedElements, List.mem_cons, List.not_mem_nil, or_false] at hc
    rcases hc with hc | hc | hc | hc | hc | hc
    case inr.inr.inl | inr.inr.inr.inr.inr =>
      rw [(Value.candle.inj hc).1]
      rfl
    all_goals cases hc
  have hsome : ∀ v ∈ tiedElements, (ofElement v).candle?.toOption.isSome := by decide +kernel
  have hfits : ∀ v ∈ tiedElements, ¬ (ofElement v).Overflows :=
    fun v hv => not_overflows_of_isSome (hsome v hv)
  have hlength : (accepted tiedElements).length = 4 := by decide +kernel
  have hties : ((accepted tiedElements).filter fun c => c.timestamp.equals (.whole 2)).map
      (fun c => c.closing.equals (.whole 7)) = [true, false, true] := by decide +kernel
  obtain ⟨-, sorted, hseries, hstable, hagain, -⟩ := series_stableSort htimed hfits
  refine ⟨htimed, hfits, sorted, hseries, hstable.perm.length_eq.trans hlength, ?_, hagain⟩
  rw [hstable.stable (.whole 2)]
  exact hties

end Sample

end LiquidityWatch
