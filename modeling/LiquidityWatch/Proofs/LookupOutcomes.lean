import LiquidityWatch.Proofs.LookupDocuments
import LiquidityWatch.Proofs.Readings

/-! # What comes of lookups

A lookup answers what it cannot use with a neutral value, whatever the network sends. Three things
are an exception, and end it with a fault: the document of a response is nested too deeply
(`Response.TooDeep`); what is read as a number in the document is a whole number out of the range of
binary64 (`Response.Breaks`); the candles of a pool are missing whose address is not text and cannot
be shortened (`Lookup.Unnamed`). `Lookup.Outcomes` says of every lookup what it returns, and exactly
when one of these ends it instead. -/

namespace LiquidityWatch

/-! ## Responses -/

namespace Response

/-- The response holds a document that is nested too deeply, which is the fault. -/
def TooDeep (response : Response) (f : Fault) : Prop :=
  ∃ container, f = .tooDeep container ∧ Run.readResponse response = .error f

/-- The response holds a document that is nested too deeply, or one on which reading fails because
there is a whole number out of range in it, which is the fault. -/
def Breaks (response : Response) (fails : Value → Prop) (f : Fault) : Prop :=
  response.TooDeep f ∨ ∃ document, Run.readResponse response = .ok document ∧ fails document ∧
    ¬ document.InRange ∧ f = .wholeTooLarge

end Response

namespace Lookup

open Value Run

variable {α : Type} {response : Response} {f : Fault}

/-- What is read as a number in the document is out of range. -/
def Overflows (read : Value → Except Fault α) (document : Value) : Prop :=
  read document = .error .wholeTooLarge

/-- What is read in the document of a response, if that goes well. -/
def usable (read : Value → Except Fault α) (response : Response) : Option α :=
  (do read (← readResponse response)).toOption

theorem usable_eq_some {read : Value → Except Fault α} {a : α} :
    usable read response = some a ↔
      ∃ document, readResponse response = .ok document ∧ read document = .ok a := by
  rw [usable]
  cases readResponse response with
  | error f =>
    constructor
    · intro h
      cases h
    · rintro ⟨document, h, -⟩
      cases h
  | ok document =>
    rw [ok_bind]
    constructor
    · intro h
      cases hread : read document with
      | error f => rw [hread] at h; cases h
      | ok b =>
        rw [hread] at h
        exact ⟨document, rfl, hread.trans (congrArg _ (Option.some.inj h))⟩
    · rintro ⟨document', h, hread⟩
      obtain rfl := Except.ok.inj h
      rw [hread]
      rfl

theorem usable_eq_none {read : Value → Except Fault α}
    (h : (do read (← readResponse response)) = .error f) : usable read response = none := by
  rw [usable, h]
  rfl

section Recovered

variable {read : Value → Except Fault α} {fallback : Fault → Except Fault α}

theorem read_of_breaks (h : response.Breaks (Overflows read) f) :
    (do read (← readResponse response)) = .error f ∧ f.isRecoverable = false := by
  rcases h with ⟨container, rfl, hdeep⟩ | ⟨document, hdocument, hread, -, rfl⟩
  · rw [hdeep]
    exact ⟨rfl, rfl⟩
  · rw [hdocument, ok_bind, hread]
    exact ⟨rfl, rfl⟩

/-- No lookup recovers from a response that breaks it. -/
theorem recovered_of_breaks (h : response.Breaks (Overflows read) f) :
    recovered fallback (do read (← readResponse response)) = .error f := by
  obtain ⟨hread, hf⟩ := read_of_breaks h
  rw [hread, recovered, hf, if_neg Bool.false_ne_true]

/-- A lookup ends with what is usable, or as its fallback does, unless the response breaks it. -/
theorem ends_recovered {P : α → Prop} {E : Fault → Prop}
    (hread : ∀ document : Value, document.Reads (fun _ => True) (read document))
    (hok : ∀ a, usable read response = some a → P a)
    (hfallback : ∀ f, (do read (← readResponse response)) = .error f → f.isRecoverable = true →
      Ends P E (fallback f))
    (hbreaks : ∀ f, response.Breaks (Overflows read) f → E f) :
    Ends P E (recovered fallback (do read (← readResponse response))) := by
  have hresponse := ends_readResponse response
  rw [usable] at hok
  cases hdocument : readResponse response with
  | error f =>
    rw [hdocument] at hresponse hfallback
    rw [error_bind, recovered]
    by_cases hf : f.isRecoverable
    · rw [if_pos hf]
      exact hfallback f rfl hf
    · rw [if_neg hf]
      obtain ⟨container, rfl⟩ := hresponse.resolve_left hf
      exact hbreaks _ (.inl ⟨container, rfl, hdocument⟩)
  | ok document =>
    have hblames := hread document
    rw [hdocument, ok_bind] at hok hfallback
    rw [ok_bind]
    cases hvalue : read document with
    | ok a =>
      rw [hvalue] at hok
      exact hok a rfl
    | error f =>
      rw [hvalue] at hblames
      rw [recovered]
      by_cases hf : f.isRecoverable
      · rw [if_pos hf]
        exact hfallback f hvalue hf
      · rw [if_neg hf]
        obtain ⟨rfl, hrange⟩ := hblames.resolve_left hf
        exact hbreaks _ (.inr ⟨document, hdocument, hvalue, hrange, rfl⟩)

end Recovered

/-- A lookup answers a neutral value to whatever it cannot use, unless the response breaks it. -/
theorem settles_recovered {read : Value → Except Fault α}
    (hread : ∀ document : Value, document.Reads (fun _ => True) (read document))
    (response : Response) (neutral : α) :
    Settles (fun a => a = (usable read response).getD neutral) (response.Breaks (Overflows read))
      (recovered (fun _ => .ok neutral) (do read (← readResponse response))) := by
  refine ⟨?_, fun f hf => recovered_of_breaks hf⟩
  apply ends_recovered hread
  · intro a ha
    rw [ha, Option.getD_some]
  · intro f hf _
    rw [usable_eq_none hf]
    rfl
  · exact fun f hf => hf

/-- Where no numbers are read, only documents that are nested too deeply break a lookup. -/
theorem breaks_iff_of_looks {P : Value → α → Prop} {read : Value → Except Fault α}
    (hread : ∀ document, Looks (P document) (read document)) (f : Fault) :
    response.Breaks (Overflows read) f ↔ response.TooDeep f := by
  constructor
  · rintro (hdeep | ⟨document, -, hfails, -, -⟩)
    · exact hdeep
    · have hlooks := hread document
      rw [hfails] at hlooks
      cases hlooks
  · exact .inl

theorem settles_recovered_looks {P : Value → α → Prop} {read : Value → Except Fault α}
    (hread : ∀ document, Looks (P document) (read document)) (response : Response) (neutral : α) :
    Settles (fun a => a = (usable read response).getD neutral) response.TooDeep
      (recovered (fun _ => .ok neutral) (do read (← readResponse response))) := by
  have hsettles := settles_recovered (fun document => (hread document).reads_any) response neutral
  exact hsettles.congr (fun _ h => h) (breaks_iff_of_looks hread)

/-- The rows of candles are missing, for another reason than time, and the pool cannot be named,
which is the fault. -/
def Unnamed (candles : Response) (pool : Value) (f : Fault) : Prop :=
  ∃ g, (do rowsIn (← readResponse candles)) = .error g ∧ g.isRecoverable = true ∧ g ≠ .timedOut ∧
    Address.shortenValue pool = .error f

theorem not_unnamed_text (candles : Response) (pool : Text) (f : Fault) :
    ¬ Unnamed candles (.text pool) f := by
  rintro ⟨g, -, -, -, hshorten⟩
  cases hshorten

/-- Rows that cannot be used are no rows, as long as the pool can be named. -/
theorem settles_rows (response : Response) (pool : Value) :
    Settles (fun rows => rows = (usable rowsIn response).getD [])
      (fun f => response.TooDeep f ∨ Unnamed response pool f)
      (recovered (noRows pool) (do rowsIn (← readResponse response))) := by
  constructor
  · apply ends_recovered fun document => (looks_rowsIn document).reads_any
    · intro rows hrows
      rw [hrows, Option.getD_some]
    · intro f hf hrecoverable
      rw [noRows, usable_eq_none hf]
      by_cases htime : f = .timedOut
      · rw [if_pos htime]
        rfl
      · rw [if_neg htime]
        cases hshorten : Address.shortenValue pool with
        | ok shortened => exact rfl
        | error g => exact .inr ⟨f, hf, hrecoverable, htime, hshorten⟩
    · exact fun f hf => .inl ((breaks_iff_of_looks looks_rowsIn f).mp hf)
  · rintro f (hdeep | ⟨g, hg, hrecoverable, htime, hshorten⟩)
    · exact recovered_of_breaks ((breaks_iff_of_looks looks_rowsIn f).mpr hdeep)
    · rw [hg, recovered, if_pos hrecoverable, noRows, if_neg htime, hshorten]
      rfl

/-! ## Prices in a response -/

/-- The price of a token in a document; `none` where it has none. -/
def priceField (mint : Text) (document : Value) : Except Fault (Option Number) := do
  priceOf ((← document.dataField).orElse .nothing) mint

/-- The price that a response gives a token: zero if it gives none, or none that can be read. -/
def priceIn (response : Response) (mint : Text) : Number :=
  ((usable (priceField mint) response).join).getD (.real .zero)

/-- Prices as a response gives them, except that they may be zero if one of them cannot be read. -/
def Priced (response : Response) (mints : List Text) (found : Ledger Text Number) : Prop :=
  ∀ mint ∈ mints, found.get? mint = some (priceIn response mint) ∨
    found.get? mint = some (.real .zero) ∧
      ∃ other ∈ mints, usable (priceField other) response = none

/-- The price of a token that is asked for is the one in its entry, or zero after a fault. -/
theorem priced_fillPrices {document entries : Value} (mints : List Text)
    (hdocument : readResponse response = .ok document)
    (hentries : document.dataField = .ok entries) :
    Priced response mints (fillPrices (entries.orElse .nothing) mints (unpriced mints)).1 := by
  have hfield : ∀ mint, priceField mint document = priceOf (entries.orElse .nothing) mint := by
    intro mint
    rw [priceField, hentries, ok_bind]
  have hread : ∀ mint found, priceOf (entries.orElse .nothing) mint = .ok found →
      priceIn response mint = found.getD (.real .zero) := by
    intro mint found hfound
    rw [priceIn, usable_eq_some.mpr ⟨document, hdocument, (hfield mint).trans hfound⟩]
    rfl
  intro mint hmint
  rcases get?_fillPrices (entries.orElse .nothing) mints (unpriced mints) mint with
    ⟨hget, hnone⟩ | ⟨price, hprice, hget⟩
  · rw [get?_unpriced hmint] at hget
    cases hfault : (fillPrices (entries.orElse .nothing) mints (unpriced mints)).2 with
    | none =>
      left
      rw [hget, hread mint none (hnone hfault hmint)]
      rfl
    | some f =>
      right
      obtain ⟨other, hother, herror⟩ := exists_of_fillPrices hfault
      refine ⟨hget, other, hother, ?_⟩
      rw [usable, hdocument, ok_bind, hfield, herror]
      rfl
  · left
    rw [hget, hread mint (some price) hprice]
    rfl

/-- Where nothing can be read, all prices are zero. -/
theorem priced_unpriced {mints : List Text}
    (h : ∀ mint, usable (priceField mint) response = none) :
    Priced response mints (unpriced mints) := by
  intro mint hmint
  left
  rw [get?_unpriced hmint, priceIn, h mint]
  rfl

/-- Reading the prices of tokens ends at a number out of range. -/
def PricesOverflow (mints : List Text) (document : Value) : Prop :=
  (readPrices document mints).2 = some .wholeTooLarge

theorem priced_pricesIn (response : Response) (mints : List Text) :
    Priced response mints (pricesIn mints (readResponse response)).1 := by
  cases hdocument : readResponse response with
  | error f =>
    apply priced_unpriced
    intro mint
    rw [usable, hdocument]
    rfl
  | ok document =>
    rw [pricesIn, readPrices]
    cases hentries : document.dataField with
    | error f =>
      apply priced_unpriced
      intro mint
      rw [usable, hdocument, ok_bind, priceField, hentries]
      rfl
    | ok entries => exact priced_fillPrices mints hdocument hentries

/-- Prices are found as the response gives them, unless it breaks reading them. -/
theorem settles_prices (response : Response) (mints : List Text) :
    Settles (Priced response mints) (response.Breaks (PricesOverflow mints))
      (pricesKept (pricesIn mints (readResponse response))) := by
  have hpriced := priced_pricesIn response mints
  have hresponse := ends_readResponse response
  constructor
  · cases hfault : (pricesIn mints (readResponse response)).2 with
    | none =>
      rw [pricesKept, hfault]
      exact hpriced
    | some f =>
      rw [pricesKept, hfault]
      by_cases hrecoverable : f.isRecoverable
      · simpa [hrecoverable] using hpriced
      · simp only [hrecoverable]
        cases hdocument : readResponse response with
        | error g =>
          rw [hdocument] at hfault hresponse
          obtain rfl := Option.some.inj hfault
          obtain ⟨container, rfl⟩ := hresponse.resolve_left hrecoverable
          exact .inl ⟨container, rfl, hdocument⟩
        | ok document =>
          rw [hdocument] at hfault
          obtain ⟨rfl, hrange⟩ := (blames_readPrices hfault).resolve_left hrecoverable
          exact .inr ⟨document, hdocument, hfault, hrange, rfl⟩
  · rintro f (⟨container, rfl, hdeep⟩ | ⟨document, hdocument, hfails, -, rfl⟩)
    · rw [hdeep]
      rfl
    · rw [hdocument]
      show pricesKept (readPrices document mints) = _
      rw [pricesKept, hfails]
      rfl

/-- The price that is found for a single token is the one that the response gives it. -/
theorem Priced.get?_singleton {mint : Text} {found : Ledger Text Number}
    (h : Priced response [mint] found) : found.get? mint = some (priceIn response mint) := by
  rcases h mint (List.mem_singleton_self mint) with hget | ⟨hget, other, hother, hnone⟩
  · exact hget
  · obtain rfl := List.mem_singleton.mp hother
    rw [hget, priceIn, hnone]
    rfl

/-! ## The index of a token -/

/-- The pool that a response names; null if it names none. -/
def poolFrom (pools : Response) : Value := (usable poolIn pools).getD .null

/-- Among the rows of a document is one with a number out of range. -/
def RowsOverflow (document : Value) : Prop :=
  ∃ rows, rowsIn document = .ok rows ∧ ∃ row ∈ rows, Candle.Overflows row

/-- The reading of a token by the responses about its pools and about the candles of one: that of
the rows in the latter, and none if there is no pool or no row can be used. -/
structure IsReading (pools candles : Response) (now : Number) (reading : Rsi.Reading Number) :
    Prop where
  noData : (poolFrom pools).isTruthy = false ∨ usable rowsIn candles = none →
    reading = .noData now
  rows : ∀ rows, (poolFrom pools).isTruthy = true → usable rowsIn candles = some rows →
    Rsi.Reading.ofSamples (rows.map .row) Rsi.standardPeriod now = .ok reading

/-- The faults that keep a token from having a reading: one of the responses breaks it, or rows of
candles are missing and the pool cannot be named. -/
def BreaksReading (pools candles : Response) (f : Fault) : Prop :=
  pools.Breaks (Overflows poolIn) f ∨ (poolFrom pools).isTruthy = true ∧
    (candles.Breaks RowsOverflow f ∨ Unnamed candles (poolFrom pools) f)

/-- What comes of the index of a token, given the responses about its pools and about the candles
of each of them. -/
def readingFrom (pools : Response) (candles : Value → Response) (now : Number) :
    Except Fault (Rsi.Reading Number) := do
  let pool ← recovered (fun _ => .ok .null) (do poolIn (← readResponse pools))
  if pool.isTruthy then
    let rows ← recovered (noRows pool) (do rowsIn (← readResponse (candles pool)))
    Rsi.Reading.ofSamples (rows.map .row) Rsi.standardPeriod now
  else return .noData now

/-- Without a whole number out of range, a row is not out of range either. -/
theorem not_overflows {row : Value} (h : row.InRange) : ¬ Candle.Overflows row := by
  rintro ⟨before, large, after, rfl, -, -, -, hlarge⟩
  exact h large (.item (.refl large) (List.mem_append_right _ List.mem_cons_self)) hlarge

/-- A row with a number out of range keeps rows from having a reading. -/
theorem ofSamples_of_overflows {rows : List Value} (h : ∃ row ∈ rows, Candle.Overflows row)
    (now : Number) : Rsi.Reading.ofSamples (rows.map .row) Rsi.standardPeriod now =
      .error .wholeTooLarge := by
  obtain ⟨row, hrow, hlarge⟩ := h
  exact Rsi.Reading.ofSamples_eq_error ⟨.row row, List.mem_map_of_mem hrow, row, rfl, hlarge⟩ now

/-- All other rows have one. -/
theorem exists_ofSamples_rows {rows : List Value} (h : ∀ row ∈ rows, ¬ Candle.Overflows row)
    (now : Number) : ∃ reading,
      Rsi.Reading.ofSamples (rows.map .row) Rsi.standardPeriod now = .ok reading := by
  obtain ⟨hregular, hfits⟩ := Sample.rows_fit (α := Number) h
  obtain ⟨-, -, reading, hreading, -⟩ :=
    Rsi.Reading.exists_ofSamples Rsi.Reading.isPeriod_standard hregular hfits now
  exact ⟨reading, hreading⟩

/-- No rows, no data. -/
theorem ofSamples_nil (period : Int) (now : Number) :
    Rsi.Reading.ofSamples [] period now = .ok (.noData now) := by
  rw [Rsi.Reading.ofSamples, Sample.series, Sample.candles, ok_bind, sortedBy, List.mergeSort_nil]
  rfl

/-- The rows that can be used have the reading, unless one of them is out of range. -/
theorem ends_reading {pools candles : Response} (hpool : (poolFrom pools).isTruthy = true)
    (now : Number) : Ends (IsReading pools candles now) (candles.Breaks RowsOverflow)
      (Rsi.Reading.ofSamples (((usable rowsIn candles).getD []).map .row) Rsi.standardPeriod
        now) := by
  cases husable : usable rowsIn candles with
  | none =>
    rw [Option.getD_none, List.map_nil, ofSamples_nil]
    exact ⟨fun _ => rfl, fun rows _ hrows => nomatch husable.symm.trans hrows⟩
  | some rows =>
    rw [Option.getD_some]
    by_cases hover : ∃ row ∈ rows, Candle.Overflows row
    · obtain ⟨document, hdocument, hrows⟩ := usable_eq_some.mp husable
      have hparts := looks_rowsIn document
      rw [hrows] at hparts
      rw [ofSamples_of_overflows hover]
      refine .inr ⟨document, hdocument, ⟨rows, hrows, hover⟩, fun hrange => ?_, rfl⟩
      obtain ⟨row, hrow, hlarge⟩ := hover
      exact not_overflows (hparts row hrow hrange) hlarge
    · obtain ⟨reading, hreading⟩ :=
        exists_ofSamples_rows (fun row hrow hlarge => hover ⟨row, hrow, hlarge⟩) now
      rw [hreading]
      refine ⟨fun hnone => ?_, fun rows' _ hrows => ?_⟩
      · rw [hpool, husable] at hnone
        rcases hnone with hnone | hnone <;> cases hnone
      · obtain rfl := Option.some.inj (husable.symm.trans hrows)
        exact hreading

/-- A response that names a pool did not break the lookup of it. -/
theorem recovered_poolIn {pools : Response} (hpool : (poolFrom pools).isTruthy = true) :
    recovered (fun _ => .ok .null) (do poolIn (← readResponse pools)) = .ok (poolFrom pools) := by
  have hends := (settles_recovered reads_poolIn pools .null).ends
  cases hread : recovered (fun _ => .ok .null) (do poolIn (← readResponse pools)) with
  | ok pool =>
    rw [hread] at hends
    exact congrArg _ hends
  | error f =>
    rw [hread] at hends
    rw [poolFrom, usable_eq_none (read_of_breaks hends).1] at hpool
    cases hpool

/-- A token has its reading, unless one of the responses breaks it, or the pool cannot be named. -/
theorem settles_readingFrom (pools : Response) (candles : Value → Response) (now : Number) :
    Settles (IsReading pools (candles (poolFrom pools)) now)
      (BreaksReading pools (candles (poolFrom pools))) (readingFrom pools candles now) := by
  have hpool := settles_recovered reads_poolIn pools .null
  constructor
  · apply (hpool.ends.mono (fun _ h => h) fun f hf => .inl hf).bind
    rintro pool (rfl : pool = poolFrom pools)
    by_cases htruthy : (poolFrom pools).isTruthy
    · rw [if_pos htruthy]
      have hrows := (settles_rows (candles (poolFrom pools)) (poolFrom pools)).ends
      refine (hrows.mono (fun _ h => h) fun f hf => ?_).bind fun rows hrows => ?_
      · exact .inr ⟨htruthy, hf.imp_left .inl⟩
      · rw [hrows]
        exact (ends_reading htruthy now).mono (fun _ h => h) fun f hf => .inr ⟨htruthy, .inl hf⟩
    · rw [if_neg htruthy]
      exact ⟨fun _ => rfl, fun rows htrue _ => absurd htrue htruthy⟩
  · rintro f (hbreaks | ⟨htruthy, hrest⟩)
    · rw [readingFrom, hpool.faults f hbreaks]
      rfl
    · rw [readingFrom, recovered_poolIn htruthy, ok_bind, if_pos htruthy]
      have hrows := settles_rows (candles (poolFrom pools)) (poolFrom pools)
      rcases hrest with (hdeep | ⟨document, hdocument, ⟨rows, hread, hover⟩, -, rfl⟩) | hunnamed
      · rw [hrows.faults f (.inl hdeep)]
        rfl
      · rw [hdocument, ok_bind, hread]
        exact ofSamples_of_overflows hover now
      · rw [hrows.faults f (.inr hunnamed)]
        rfl

end Lookup

/-- How the network answers the request that is sent next. -/
def World.reply (w : World) (url : String) : Response := w.network w.requests url

/-- In this world the action returns something with a property, except for certain faults, which end
it. -/
abbrev World.Returns {α : Type} (w : World) (action : Run α) (P : α → Prop) (E : Fault → Prop) :
    Prop :=
  Settles P E (action.result w).1

namespace Lookup

open Value Run

/-- How the network answers the request for candles that follows the one for the pools. -/
def candlesReply (w : World) (network mint : Text) (aggregate : Option Int) (pool : Value) :
    Response :=
  w.network (w.requests ++ [Endpoint.tokenPools network mint])
    (candlesUrl network pool none aggregate w.settings)

/-- The index of a token goes by the two responses alone. -/
theorem outcome_tokenRsi {w : World} (hw : w.Ready) (network mint : Text) (aggregate : Option Int) :
    ((tokenRsi network mint aggregate).result w).1 =
      readingFrom (w.reply (Endpoint.tokenPools network mint))
        (candlesReply w network mint aggregate) w.now := by
  obtain ⟨w', ms, hresult, hproceeds, hrequests⟩ := asksOnce_mostLiquidPool network mint w hw
  change _ = (recovered _ (do poolIn (← readResponse (w.reply _))), w') at hresult
  rw [tokenRsi, readingFrom]
  cases houtcome : recovered (fun _ => .ok .null)
      (do poolIn (← readResponse (w.reply (Endpoint.tokenPools network mint)))) with
  | error f =>
    rw [houtcome] at hresult
    rw [result_bind_error hresult]
    rfl
  | ok pool =>
    rw [houtcome] at hresult
    rw [result_bind_ok hresult, result_bind_ok (result_get w'), ok_bind]
    dsimp only
    by_cases htruthy : pool.isTruthy
    · rw [if_pos htruthy, if_pos htruthy, hproceeds.now]
      have honce := (asksOnce_candles network pool none aggregate).bind fun rows =>
        Silent.lift (Rsi.Reading.ofSamples (rows.map .row) Rsi.standardPeriod w.now)
      have houtcome := honce.outcome (hproceeds.ready hw)
      rw [hproceeds.network, hrequests, hproceeds.settings] at houtcome
      exact houtcome
    · rw [if_neg htruthy, if_neg htruthy, ← hproceeds.now]
      rfl

/-! ## All lookups -/

theorem usable_map {α β : Type} {response : Response} {read : Value → Except Fault α}
    (g : α → β) : usable (fun document => do return g (← read document)) response =
      (usable read response).map g := by
  rw [usable, usable]
  cases readResponse response with
  | error f => rfl
  | ok document =>
    rw [ok_bind, ok_bind]
    cases read document <;> rfl

theorem overflows_map {α β : Type} {read : Value → Except Fault α} (g : α → β) :
    Overflows (fun document => do return g (← read document)) = Overflows read := by
  funext document
  rw [Overflows, Overflows]
  cases read document with
  | error f =>
    rw [error_bind, Except.error.injEq, Except.error.injEq]
  | ok a =>
    rw [ok_bind]
    exact propext ⟨fun h => (nomatch h), fun h => (nomatch h)⟩

theorem settles_feeInfo (response : Response) :
    Settles (fun found => found = usable FeeInfo.ofAnswer response)
      (response.Breaks (Overflows FeeInfo.ofAnswer)) (recovered (fun _ => .ok none) (do
        return some (← FeeInfo.ofAnswer (← readResponse response)))) := by
  have hread : ∀ document : Value, document.Reads (fun _ => True)
      (do return some (← FeeInfo.ofAnswer document)) :=
    fun document => (reads_feeInfo document).bind fun _ _ => trivial
  have hsettles := settles_recovered hread response none
  rw [overflows_map some, usable_map some] at hsettles
  refine hsettles.congr (fun found h => ?_) fun f => Iff.rfl
  rw [h]
  cases usable FeeInfo.ofAnswer response <;> rfl

/-- What every lookup returns, and the faults that end it instead. -/
structure Outcomes (w : World) (network : Text) : Prop where
  prices (mints : List Text) (h : mints ≠ []) :
    let response := w.reply (Endpoint.prices mints)
    w.Returns (Lookup.prices mints) (Priced response mints)
      (response.Breaks (PricesOverflow mints))
  noPrices : w.Returns (Lookup.prices []) (fun found => found.keys = []) fun _ => False
  price (mint : Text) :
    let response := w.reply (Endpoint.prices [mint])
    w.Returns (Lookup.price mint) (fun found => found = priceIn response mint)
      (response.Breaks (PricesOverflow [mint]))
  tokenName (mint : Text) :
    let response := w.reply (Endpoint.token network mint)
    w.Returns (Lookup.tokenName network mint) (fun name =>
      name = ((usable nameIn response).getD .null).orElse (.text (Address.shorten mint)))
      response.TooDeep
  mostLiquidPool (mint : Text) :
    let response := w.reply (Endpoint.tokenPools network mint)
    w.Returns (Lookup.mostLiquidPool network mint) (fun pool => pool = poolFrom response)
      (response.Breaks (Overflows poolIn))
  candles (pool : Text) (timeframe : Option String) (aggregate : Option Int) :
    let response := w.reply (candlesUrl network (.text pool) timeframe aggregate w.settings)
    w.Returns (Lookup.candles network (.text pool) timeframe aggregate)
      (fun rows => rows = (usable rowsIn response).getD []) response.TooDeep
  tokenRsi (mint : Text) (aggregate : Option Int) :
    let pools := w.reply (Endpoint.tokenPools network mint)
    let candles := candlesReply w network mint aggregate (poolFrom pools)
    w.Returns (Lookup.tokenRsi network mint aggregate) (IsReading pools candles w.now)
      (BreaksReading pools candles)
  initialDeposit (position : Text) :
    let response := w.reply (Endpoint.deposits position)
    w.Returns (Lookup.initialDeposit position)
      (fun found => found = (usable firstDeposit response).getD none)
      (response.Breaks (Overflows firstDeposit))
  feeInfo (pool : Text) :
    let response := w.reply (Endpoint.pair pool)
    w.Returns (Lookup.feeInfo pool) (fun found => found = usable FeeInfo.ofAnswer response)
      (response.Breaks (Overflows FeeInfo.ofAnswer))
  currentFee (pool : Text) :
    let response := w.reply (Endpoint.pair pool)
    w.Returns (Lookup.currentFee pool .null)
      (fun fee => fee = ((usable FeeInfo.ofAnswer response).map fun info =>
        .number info.current).getD .null) (response.Breaks (Overflows FeeInfo.ofAnswer))
  knownFee (pool : Text) (info : FeeInfo) :
    w.Returns (Lookup.currentFee pool info.toValue) (fun fee => fee = .number info.current)
      fun _ => False

/-- **What comes of lookups.** In a world in which requests can take their turns, whatever the
network answers, every lookup returns what it can use of the response, and its neutral value if
there is nothing. The exceptions are the responses that break it, and, for an index, pools that
cannot be named; they always end the lookup with their fault. -/
theorem outcomes_of_ready {w : World} (hw : w.Ready) (network : Text) : Outcomes w network where
  prices mints h := by
    intro response
    rw [World.Returns, (asksOnce_prices h).outcome hw]
    exact settles_prices response mints
  noPrices := .ok rfl fun _ hf => hf
  price mint := by
    intro response
    rw [World.Returns, (asksOnce_price mint).outcome hw]
    refine (settles_prices response [mint]).map fun found hfound => ?_
    rw [hfound.get?_singleton, Option.getD_some]
  tokenName mint := by
    intro response
    rw [World.Returns, (asksOnce_tokenName network mint).outcome hw]
    refine (settles_recovered_looks looks_nameIn response .null).map fun name hname => ?_
    rw [hname]
  mostLiquidPool mint := by
    intro response
    rw [World.Returns, (asksOnce_mostLiquidPool network mint).outcome hw]
    exact settles_recovered reads_poolIn response .null
  candles pool timeframe aggregate := by
    intro response
    rw [World.Returns, (asksOnce_candles network (.text pool) timeframe aggregate).outcome hw]
    refine (settles_rows response (.text pool)).congr (fun _ h => h) fun f => ?_
    exact or_iff_left (not_unnamed_text response pool f)
  tokenRsi mint aggregate := by
    intro pools candles
    rw [World.Returns, outcome_tokenRsi hw]
    exact settles_readingFrom pools (candlesReply w network mint aggregate) w.now
  initialDeposit position := by
    intro response
    rw [World.Returns, (asksOnce_initialDeposit position).outcome hw]
    exact settles_recovered reads_firstDeposit response none
  feeInfo pool := by
    intro response
    rw [World.Returns, (asksOnce_feeInfo pool).outcome hw]
    exact settles_feeInfo response
  currentFee pool := by
    intro response
    rw [World.Returns, (asksOnce_currentFee pool).outcome hw]
    refine (settles_feeInfo response).map fun found hfound => ?_
    rw [hfound]
  knownFee pool info := .ok rfl fun _ hf => hf

/-- A world whose network answers everything with this body. -/
def answering (body : String) : World :=
  .start (.constant fun _ => .answered 200 body.toUTF8.toList) (fun _ => none) .standard
    (.real .zero)

/-- Where answers are no documents, there is no index of a token, and no fault either. -/
theorem outcomes_of_ready_sample : (answering "down").Ready ∧
    ((tokenRsi "N" "M" none).result (answering "down")).1 = .ok (.noData (.real .zero)) := by
  have hready : (answering "down").Ready := World.ready_start ..
  have hbody : Ends (fun _ => False) (fun f => f = .malformedBody)
      (readResponse (.answered 200 "down".toUTF8.toList)) := by decide +kernel
  have hpool : (poolFrom (.answered 200 "down".toUTF8.toList)).isTruthy = false := by
    decide +kernel
  have hends := ((outcomes_of_ready hready "N").tokenRsi "M" none).ends
  refine ⟨hready, ?_⟩
  cases hresult : ((tokenRsi "N" "M" none).result (answering "down")).1 with
  | ok reading =>
    rw [hresult] at hends
    exact congrArg _ (hends.noData (.inl hpool))
  | error f =>
    rw [hresult] at hends
    rcases hends with (⟨container, rfl, hdeep⟩ | ⟨document, hdocument, -⟩) | ⟨htrue, -⟩
    · change readResponse (.answered 200 _) = _ at hdeep
      rw [hdeep] at hbody
      cases hbody
    · change readResponse (.answered 200 _) = _ at hdocument
      rw [hdocument] at hbody
      exact hbody.elim
    · cases htrue.symm.trans hpool

/-- A price that is out of range is not answered with zero: no prices come of the lookup. -/
theorem prices_number_too_large :
    Ends (fun _ => False) (fun f => f = .wholeTooLarge) ((prices ["M"]).result
      (answering ("\x7b\"data\": \x7b\"M\": \x7b\"price\": 1" ++
        String.ofList (List.replicate 309 '0') ++ "\x7d\x7d\x7d"))).1 := by
  decide +kernel

end Lookup

end LiquidityWatch
