import LiquidityWatch.Proofs.DateRange
import LiquidityWatch.Proofs.SentRequests
import LiquidityWatch.Proofs.UnansweredReports

/-! # Findings that are shown

What a command finds it shows, and then returns. All that is in between are texts of binary64
numbers, which never fail, and the text of one timestamp, which the services send unchecked: a
deposit or a reading is shown exactly if its timestamp has a date (`Command.findings_shown`). -/

namespace LiquidityWatch

open Run Number

/-! ## What is found -/

/-- The numbers of a deposit are binary64 numbers. -/
structure Deposit.IsReal (d : Deposit Number) : Prop where
  usdX : d.usdX.IsReal
  usdY : d.usdY.IsReal
  timestamp : d.timestamp.IsReal
  price : d.price.IsReal

theorem Deposit.isReal_numberField {entry : Value} {name : String} {a : Number}
    (h : numberField entry name = .ok a) : a.IsReal := by
  obtain ⟨v, -, h⟩ := bind_eq_ok.mp h
  obtain ⟨x, -, h⟩ := bind_eq_ok.mp h
  exact ⟨x, (Except.ok.inj h).symm⟩

theorem Deposit.isReal_ofRecord {entry : Value} {d : Deposit Number}
    (h : ofRecord entry = .ok d) : d.IsReal := by
  obtain ⟨amountX, -, h⟩ := bind_eq_ok.mp h
  obtain ⟨amountY, -, h⟩ := bind_eq_ok.mp h
  obtain ⟨usdX, hx, h⟩ := bind_eq_ok.mp h
  obtain ⟨usdY, hy, h⟩ := bind_eq_ok.mp h
  obtain ⟨timestamp, htime, h⟩ := bind_eq_ok.mp h
  obtain ⟨price, hprice, h⟩ := bind_eq_ok.mp h
  obtain rfl := pure_eq_ok.mp h
  exact ⟨isReal_numberField hx, isReal_numberField hy, isReal_numberField htime,
    isReal_numberField hprice⟩

/-- The profit over a binary64 number, of any number that is in range. -/
theorem Profit.ends_over {E : Fault → Prop} {current initial : Number}
    (hcurrent : ¬ current.TooLarge) (hinitial : initial.IsReal) :
    Ends (fun p => p.difference.IsReal ∧ p.percent.IsReal) E (Profit.over current initial) := by
  obtain ⟨x, hx⟩ := exists_toReal hcurrent
  obtain ⟨y, rfl⟩ := hinitial
  have hdifference : Scalar.sub current (.real y) = .ok (.real (x.sub y)) :=
    lift_real hx rfl (.inr rfl) _ _
  rw [Profit.over, hdifference, ok_bind]
  show Ends _ _ (if Number.lt (.whole 0) (.real y) then _ else _ : Except Fault (Profit Number))
  split
  · rename_i hpos
    have hquotient : Scalar.div (.real (x.sub y)) (.real y) =
        .ok (Number.real ((x.sub y).div y)) := NumberScalar.div_real _ (isZero_of_pos hpos)
    obtain ⟨hundred, hread⟩ : ∃ hundred, roundWhole 100 = .ok hundred :=
      exists_of_isSome_toOption (by decide +kernel)
    have hpercent := NumberScalar.real_mul_whole (α := Number) ((x.sub y).div y) 100
    rw [hread, ok_bind] at hpercent
    rw [hquotient, ok_bind]
    change Scalar.mul (Number.real _) _ = _ at hpercent
    rw [hpercent]
    exact ⟨⟨_, rfl⟩, ⟨_, rfl⟩⟩
  · exact ⟨⟨_, rfl⟩, isReal_zero⟩

namespace Rsi.Reading

/-- The time of a reading is that of a candle, which was read from one of the rows. -/
theorem exists_newest {rows : List Value} {series : List (Candle Number)}
    (hperm : series.Perm ((rows.map Sample.row).filterMap Sample.candleOf))
    {reading : Reading Number} {period : Int} {now : Number}
    (hgoes : reading.GoesBy series period now) (hlong : 2 ≤ series.length) :
    ∃ row ∈ rows, ∃ c : Candle Number, (Sample.row row).candleOf = some c ∧
      c.timestamp = reading.timestamp := by
  obtain ⟨-, htime, -⟩ := hgoes.long hlong
  obtain ⟨newest, hnewest, hstamp⟩ := Option.map_eq_some_iff.mp htime
  obtain ⟨s, hs, hcandle⟩ :=
    List.mem_filterMap.mp (hperm.mem_iff.mp (List.mem_of_getLast? hnewest))
  obtain ⟨row, hrow, rfl⟩ := List.mem_map.mp hs
  exact ⟨row, hrow, newest, hcandle, hstamp⟩

/-- A reading of rows: its index is a binary64 number, and its time is finite, since rows without a
finite time are no candles. -/
theorem isReal_ofSamples {rows : List Value} {now : Number} {reading : Reading Number}
    (h : ofSamples (rows.map .row) standardPeriod now = .ok reading)
    (hdata : reading.hasData = true) :
    reading.value.IsReal ∧ ∃ x, reading.timestamp = .real x ∧ x.isFinite = true := by
  obtain ⟨hregular, hfits⟩ := Sample.rows_fit (α := Number) fun row hrow hlarge => by
    cases h.symm.trans (Lookup.ofSamples_of_overflows ⟨row, hrow, hlarge⟩ now)
  obtain ⟨series, hperm, found, hfound, hgoes⟩ :=
    exists_ofSamples isPeriod_standard hregular hfits now
  obtain rfl := Except.ok.inj (h.symm.trans hfound)
  have hlong : 2 ≤ series.length := by
    by_contra hshort
    rw [hgoes.short (by omega)] at hdata
    cases hdata
  constructor
  · obtain ⟨closes, hcloses⟩ := exists_closes (Sample.isRegular_of_perm hregular hperm)
    obtain ⟨index, hindex⟩ := exists_ofCloses (α := Number) isPeriod_standard closes
    obtain ⟨hvalue, -, -⟩ := hgoes.long hlong
    rw [hcloses, hindex] at hvalue
    exact ⟨index, (Except.ok.inj hvalue).symm⟩
  · obtain ⟨row, -, c, hcandle, hstamp⟩ := exists_newest hperm hgoes hlong
    obtain ⟨r, hr, hreals⟩ := Sample.exists_ofRow hcandle
    rw [Sample.ofReals_eq] at hreals
    obtain rfl := Except.ok.inj hreals
    have husable := Candle.isUsable_of_ofRow hr
    exact ⟨r.timestamp, hstamp.symm, (Bool.and_eq_true_iff.mp husable).1⟩

end Rsi.Reading

namespace Lookup

theorem isReal_of_firstDeposit {document : Value} {d : Deposit Number}
    (h : firstDeposit document = .ok (some d)) : d.IsReal := by
  unfold firstDeposit at h
  split at h
  · obtain ⟨record, hrecord, h⟩ := bind_eq_ok.mp h
    obtain rfl := Option.some.inj (pure_eq_ok.mp h)
    exact Deposit.isReal_ofRecord hrecord
  · cases h

/-- A deposit that is found was recorded by the service. -/
theorem isReal_of_initialDeposit {w after : World} (hw : w.Ready) {position : Text}
    {d : Deposit Number} (h : (initialDeposit position).result w = (.ok (some d), after)) :
    d.IsReal := by
  have houtcome := (asksOnce_initialDeposit position).outcome hw
  have hends := (settles_recovered reads_firstDeposit (w.reply (Endpoint.deposits position))
    none).ends
  change _ = recovered _ (do firstDeposit (← readResponse (w.reply _))) at houtcome
  rw [← houtcome, h] at hends
  cases husable : usable firstDeposit (w.reply (Endpoint.deposits position)) with
  | none =>
    rw [husable] at hends
    cases hends
  | some found =>
    rw [husable] at hends
    obtain rfl : some d = found := hends
    obtain ⟨document, -, hread⟩ := usable_eq_some.mp husable
    exact isReal_of_firstDeposit hread

/-- A reading with data is that of the rows of a pool. -/
theorem isReal_of_tokenRsi {w after : World} (hw : w.Ready) {network mint : Text}
    {aggregate : Option Int} {reading : Rsi.Reading Number}
    (h : (tokenRsi network mint aggregate).result w = (.ok reading, after))
    (hdata : reading.hasData = true) :
    reading.value.IsReal ∧ ∃ x, reading.timestamp = .real x ∧ x.isFinite = true := by
  have hends := (settles_readingFrom (w.reply (Endpoint.tokenPools network mint))
    (candlesReply w network mint aggregate) w.now).ends
  rw [← outcome_tokenRsi hw, h] at hends
  have hsome : ¬ reading = .noData w.now := by
    rintro rfl
    cases hdata
  have hnone := mt hends.noData hsome
  rw [not_or, Bool.not_eq_false] at hnone
  obtain ⟨rows, hrows⟩ := Option.ne_none_iff_exists'.mp hnone.2
  exact Rsi.Reading.isReal_ofSamples (hends.rows rows hnone.1 hrows) hdata

/-- A token has a reading with data if its pool is named and has two rows at least, all of which can
be read; its time is that of one of them. -/
theorem exists_tokenRsi {w : World} (hw : w.Ready) {network mint : Text} {aggregate : Option Int}
    (hpool : (poolFrom (w.reply (Endpoint.tokenPools network mint))).isTruthy = true)
    {rows : List Value} (hrows : usable rowsIn (candlesReply w network mint aggregate
      (poolFrom (w.reply (Endpoint.tokenPools network mint)))) = some rows)
    (hcandles : ∀ row ∈ rows, (Sample.row row : Sample Number).candleOf.isSome)
    (hlong : 2 ≤ rows.length) :
    ∃ reading after, (tokenRsi network mint aggregate).result w = (.ok reading, after) ∧
      reading.hasData = true ∧ ∃ row ∈ rows, ∃ c : Candle Number,
        (Sample.row row).candleOf = some c ∧ c.timestamp = reading.timestamp := by
  obtain ⟨document, hdocument, hread⟩ := usable_eq_some.mp hrows
  have hfits : ∀ row ∈ rows, ¬ Candle.Overflows row := by
    intro row hrow hlarge
    have hsome := hcandles row hrow
    rw [Sample.candleOf, Sample.candle?_eq_error.mpr ⟨⟨row, rfl, hlarge⟩, rfl⟩] at hsome
    cases hsome
  obtain ⟨hregular, hsamples⟩ := Sample.rows_fit (α := Number) hfits
  obtain ⟨series, hperm, reading, hreading, hgoes⟩ :=
    Rsi.Reading.exists_ofSamples Rsi.Reading.isPeriod_standard hregular hsamples w.now
  have houtcome := outcome_tokenRsi hw network mint aggregate
  rw [readingFrom, recovered_poolIn hpool, ok_bind, if_pos hpool, hdocument, ok_bind, hread,
    recovered, ok_bind, hreading] at houtcome
  have hlength : series.length = rows.length := by
    rw [hperm.length_eq, List.filterMap_map, List.filterMap_length_eq_length]
    exact hcandles
  have hseries : 2 ≤ series.length := hlength ▸ hlong
  exact ⟨reading, _, Prod.ext houtcome rfl, (hgoes.long hseries).2.2,
    Rsi.Reading.exists_newest hperm hgoes hseries⟩

/-- Only a document that is nested too deeply keeps a token from having a name. -/
theorem ends_tokenName {w : World} (hw : w.Ready) (network mint : Text) :
    Ends (fun _ => True) (w.reply (Endpoint.token network mint)).TooDeep
      ((tokenName network mint).result w).1 := by
  rw [(asksOnce_tokenName network mint).outcome hw]
  exact (settles_recovered_looks looks_nameIn _ .null).ends.bind fun _ _ => trivial

end Lookup

/-! ## What is shown -/

/-- The network that a client asks in this world: the one given, or the one that is set. -/
def World.networkOr (w : World) (given : Option Text) : Text :=
  Endpoint.networkOr (given.getD "") w.settings.network

theorem Lookup.result_clientNetwork (given : Option Text) (w : World) :
    (clientNetwork given).result w = (.ok (w.networkOr given), w) := rfl

/-- A number in range has a text. -/
theorem Report.ends_dollarText_number {E : Fault → Prop} {n : Number} (h : ¬ n.TooLarge) :
    Ends (fun _ => True) E (dollarText (.ok n)) := by
  obtain ⟨x, hx⟩ := exists_toReal h
  rw [dollarText, ok_bind, Number.fixed, hx]
  trivial

namespace Command

variable {E : Fault → Prop}

/-- The lines that show a deposit, and the profit of a current value over it if one is given. -/
def depositTexts (d : Deposit Number) (currentValue : Option Number) :
    Except Fault (List String) := do
  let time ← Calendar.text d.timestamp
  let block ← (depositLines d time).mapM id
  match currentValue with
  | none => return block
  | some current =>
    let profit ← Profit.over current (← d.initialValue)
    return block ++ (← (currentValueLines current profit).mapM id)

/-- The line with the index of a token. -/
def indexLine (label : String) (name : Value) (reading : Rsi.Reading Number) :
    Except Fault String := do
  let index ← reading.value.fixed Money.percent
  return s!"📊 {label} RSI ({name.shown}): {index}"

/-- The line with the time of a reading. -/
def timeLine (reading : Rsi.Reading Number) : Except Fault String := do
  let time ← Calendar.text reading.timestamp
  return s!"🕒 As of: {time}"

/-- The size of the candles that a reading goes by. -/
def candleLabel (settings : Settings) (aggregate : Option Int) : String :=
  match aggregate with
  | none | some 0 => settings.label
  | some size => s!"{size}min"

theorem ends_depositLines {d : Deposit Number} (h : d.IsReal) (time : String) :
    ∀ line ∈ depositLines d time, Ends (fun _ => True) E line := by
  simp only [depositLines, List.forall_mem_cons]
  exact ⟨trivial, trivial, (ends_fixed h.price _).bind fun _ _ => .pure trivial,
    (Report.ends_dollarText (ends_lift h.usdX h.usdY _ _)).bind fun _ _ => .pure trivial,
    fun _ hline => absurd hline List.not_mem_nil⟩

theorem ends_currentValueLines {current : Number} {profit : Profit Number}
    (hcurrent : ¬ current.TooLarge) (hdifference : profit.difference.IsReal)
    (hpercent : profit.percent.IsReal) :
    ∀ line ∈ currentValueLines current profit, Ends (fun _ => True) E line := by
  simp only [currentValueLines, List.forall_mem_cons]
  exact ⟨(Report.ends_dollarText_number hcurrent).bind fun _ _ => .pure trivial,
    (Report.ends_profitText hdifference hpercent).bind fun _ _ => .pure trivial,
    fun _ hline => absurd hline List.not_mem_nil⟩

theorem ends_indexLine (label : String) (name : Value) {reading : Rsi.Reading Number}
    (h : reading.value.IsReal) : Ends (fun _ => True) E (indexLine label name reading) :=
  (ends_fixed h _).bind fun _ _ => .pure trivial

variable {w after : World}

/-- A deposit that was found is shown, if its timestamp has a text. -/
theorem result_showDeposit {position : Text} {d : Deposit Number} (hd : d.IsReal)
    (hfound : (Lookup.initialDeposit position).result w = (.ok (some d), after))
    {currentValue : Option Number} (hcurrent : ∀ current ∈ currentValue, ¬ current.TooLarge)
    {time : String} (htime : Calendar.text d.timestamp = .ok time) :
    ∃ texts, depositTexts d currentValue = .ok texts ∧
      (showDeposit position currentValue).result w = (.ok (some d), after.showing texts) := by
  obtain ⟨block, hblock⟩ := Report.exists_texts (ends_depositLines hd time)
  rw [depositTexts, htime, ok_bind, mapM_id_eq_ok.mpr hblock, ok_bind, showDeposit,
    result_bind_ok hfound]
  dsimp only
  rw [htime, lift_ok_bind, hblock, result_bind_ok (result_printAll_ok block after)]
  cases currentValue with
  | none => exact ⟨block, rfl, rfl⟩
  | some current =>
    have hlarge := hcurrent current rfl
    obtain ⟨initial, hinitial, hreal⟩ :=
      (ends_lift hd.usdX hd.usdY (· + ·) Binary64.add).exists_ok
    obtain ⟨profit, hprofit, hdifference, hpercent⟩ := (Profit.ends_over hlarge hreal).exists_ok
    obtain ⟨more, hmore⟩ :=
      Report.exists_texts (ends_currentValueLines hlarge hdifference hpercent)
    change d.initialValue = _ at hinitial
    refine ⟨block ++ more, ?_, ?_⟩
    · dsimp only
      rw [hinitial, ok_bind, hprofit, ok_bind, mapM_id_eq_ok.mpr hmore]
      rfl
    · dsimp only
      rw [hinitial, lift_ok_bind, hprofit, lift_ok_bind, hmore,
        result_bind_ok (result_printAll_ok more _), World.showing_append]
      rfl

/-- A timestamp without a text ends the command before the deposit is shown. -/
theorem result_showDeposit_error {position : Text} {d : Deposit Number} {f : Fault}
    (hfound : (Lookup.initialDeposit position).result w = (.ok (some d), after))
    (htime : Calendar.text d.timestamp = .error f) (currentValue : Option Number) :
    (showDeposit position currentValue).result w = (.error f, after) := by
  rw [showDeposit, result_bind_ok hfound]
  dsimp only
  rw [htime]
  rfl

variable {middle : World} {mint : Text} {aggregate : Option Int} {network : Option Text}
  {name : Value} {reading : Rsi.Reading Number}

/-- A reading with data is shown by its two lines, under the name that was found before it. -/
theorem result_showRsi
    (hname : (Lookup.tokenName (w.networkOr network) mint).result w = (.ok name, middle))
    (hreading : (Lookup.tokenRsi (w.networkOr network) mint aggregate).result middle =
      (.ok reading, after)) (hdata : reading.hasData = true) :
    (showRsi mint aggregate network).result w = ((do
      printAll [indexLine (candleLabel w.settings aggregate) name reading, timeLine reading]
      return reading) : Run _).result after := by
  rw [showRsi, result_bind_ok (Lookup.result_clientNetwork network w),
    result_bind_ok (result_get w),
    result_bind_ok (result_both.mpr ⟨middle, hname, hreading⟩)]
  dsimp only
  rw [if_pos hdata, indexLine, timeLine]
  cases reading.value.fixed Money.percent with
  | error f => rfl
  | ok index => cases Calendar.text reading.timestamp <;> rfl

/-- Without a name the command ends with the fault of that lookup, once both have ended. -/
theorem result_showRsi_unnamed {f : Fault}
    (hname : ((Lookup.tokenName (w.networkOr network) mint).result w).1 = .error f) :
    (showRsi mint aggregate network).result w =
      (.error f, ((Lookup.tokenRsi (w.networkOr network) mint aggregate).result
        ((Lookup.tokenName (w.networkOr network) mint).result w).2).2) := by
  rw [showRsi, result_bind_ok (Lookup.result_clientNetwork network w),
    result_bind_ok (result_get w)]
  exact result_bind_error (result_both_error hname _) _

/-- What becomes of a deposit with this timestamp: it is shown and returned if the timestamp has a
date, and otherwise the command ends with the fault of the calendar and shows nothing of it. -/
structure ShowsDeposit (w after : World) (position : Text) (currentValue : Option Number)
    (d : Deposit Number) (x : Binary64) : Prop where
  dated : Calendar.IsDated x → ∃ texts, depositTexts d currentValue = .ok texts ∧
    (showDeposit position currentValue).result w = (.ok (some d), after.showing texts)
  undated : ¬ Calendar.IsDated x → ∃ f, Calendar.text (.real x) = .error f ∧
    (showDeposit position currentValue).result w = (.error f, after)

/-- What becomes of a reading with this timestamp: likewise, but its index is shown in any case. -/
structure ShowsReading (w after : World) (mint : Text) (aggregate : Option Int)
    (network : Option Text) (name : Value) (reading : Rsi.Reading Number) (x : Binary64) :
    Prop where
  dated : Calendar.IsDated x → ∃ index time,
    indexLine (candleLabel w.settings aggregate) name reading = .ok index ∧
    timeLine reading = .ok time ∧
    (showRsi mint aggregate network).result w = (.ok reading, after.showing [index, time])
  undated : ¬ Calendar.IsDated x → ∃ index f,
    indexLine (candleLabel w.settings aggregate) name reading = .ok index ∧
    Calendar.text (.real x) = .error f ∧
    (showRsi mint aggregate network).result w = (.error f, after.showing [index])

theorem showsDeposit {position : Text} {currentValue : Option Number} {d : Deposit Number}
    (hd : d.IsReal) (hfound : (Lookup.initialDeposit position).result w = (.ok (some d), after))
    (hcurrent : ∀ current ∈ currentValue, ¬ current.TooLarge) {x : Binary64}
    (hx : d.timestamp = .real x) : ShowsDeposit w after position currentValue d x where
  dated hdated := by
    obtain ⟨time, htime⟩ := Calendar.exists_text_iff.mpr hdated
    exact result_showDeposit hd hfound hcurrent (hx ▸ htime)
  undated hundated := by
    obtain ⟨f, hf⟩ := Calendar.exists_fault_iff.mpr hundated
    exact ⟨f, hf, result_showDeposit_error hfound (hx ▸ hf) currentValue⟩

theorem showsReading
    (hname : (Lookup.tokenName (w.networkOr network) mint).result w = (.ok name, middle))
    (hreading : (Lookup.tokenRsi (w.networkOr network) mint aggregate).result middle =
      (.ok reading, after)) (hdata : reading.hasData = true)
    (hvalue : reading.value.IsReal) {x : Binary64} (hx : reading.timestamp = .real x) :
    ShowsReading w after mint aggregate network name reading x := by
  have hshown := result_showRsi hname hreading hdata
  obtain ⟨index, hindex, -⟩ :=
    (ends_indexLine (candleLabel w.settings aggregate) name hvalue).exists_ok
  rw [hindex] at hshown
  constructor
  · intro hdated
    obtain ⟨text, htext⟩ := Calendar.exists_text_iff.mpr hdated
    have htime : timeLine reading = .ok s!"🕒 As of: {text}" := by
      rw [timeLine, hx, htext]
      rfl
    refine ⟨index, _, hindex, htime, hshown.trans ?_⟩
    rw [htime]
    exact result_bind_ok (result_printAll_ok [index, _] after) _
  · intro hundated
    obtain ⟨f, hf⟩ := Calendar.exists_fault_iff.mpr hundated
    refine ⟨index, f, hindex, hf, hshown.trans ?_⟩
    rw [timeLine, hx, hf]
    rfl

/-- **What is found is shown, if it has a date.** Take any answers of the network, and any current
value in range or none. A deposit that is found, and a reading with data, has a timestamp that is a
binary64 number, which decides about showing it; that of a reading is finite. A reading goes without
being shown too if the name of its token is in a document that is nested too deeply. -/
theorem findings_shown (hw : w.Ready) (position mint : Text) {currentValue : Option Number}
    (hcurrent : ∀ current ∈ currentValue, ¬ current.TooLarge) (aggregate : Option Int)
    (network : Option Text) :
    (∀ d after, (Lookup.initialDeposit position).result w = (.ok (some d), after) →
      ∃ x, d.timestamp = .real x ∧ ShowsDeposit w after position currentValue d x) ∧
    let named := (Lookup.tokenName (w.networkOr network) mint).result w
    ∀ reading after, (Lookup.tokenRsi (w.networkOr network) mint aggregate).result named.2 =
        (.ok reading, after) → reading.hasData = true →
      ∃ x, reading.timestamp = .real x ∧ x.isFinite = true ∧
        (∀ name, named.1 = .ok name →
          ShowsReading w after mint aggregate network name reading x) ∧
        ∀ f, named.1 = .error f → (w.reply (Endpoint.token (w.networkOr network) mint)).TooDeep f ∧
          (showRsi mint aggregate network).result w = (.error f, after) := by
  constructor
  · intro d after hfound
    have hd := Lookup.isReal_of_initialDeposit hw hfound
    obtain ⟨x, hx⟩ := hd.timestamp
    exact ⟨x, hx, showsDeposit hd hfound hcurrent hx⟩
  · intro named reading after hreading hdata
    obtain ⟨w', ms, hname, hproceeds, -⟩ :=
      Lookup.asksOnce_tokenName (w.networkOr network) mint w hw
    have hready : named.2.Ready := by
      rw [show named = _ from hname]
      exact hproceeds.ready hw
    obtain ⟨hvalue, x, hx, hfinite⟩ := Lookup.isReal_of_tokenRsi hready hreading hdata
    refine ⟨x, hx, hfinite, fun name hfound => ?_, fun f hf => ?_⟩
    · exact showsReading (Prod.ext hfound rfl) hreading hdata hvalue hx
    · have hends := Lookup.ends_tokenName hw (w.networkOr network) mint
      rw [hf] at hends
      refine ⟨hends, ?_⟩
      rw [result_showRsi_unnamed hf]
      exact congrArg (fun after => (Except.error f, after)) (congrArg Prod.snd hreading)

/-- A world with one deposit and one pool, whose candles are all of the same time. -/
def findingsAt (time : String) : World :=
  let deposit := "[\x7b\"onchain_timestamp\": " ++ time ++ "\x7d]"
  let pool := "\x7b\"data\": [\x7b\"attributes\": \x7b\"address\": \"A\"\x7d\x7d]\x7d"
  let candle := "[" ++ time ++ ", 1, 1, 1, 1]"
  let candles := "\x7b\"data\": \x7b\"attributes\": \x7b\"ohlcv_list\": [" ++ candle ++ ", " ++
    candle ++ "]\x7d\x7d\x7d"
  let answer (url : String) : String :=
    if url = Endpoint.deposits "P" then deposit
    else if url = Endpoint.tokenPools "N" "M" then pool
    else candles
  .start (.constant fun url => .answered 200 (answer url).toUTF8.toList) (fun _ => none) .standard
    (.real .zero)

/-- The time of the candle that a row stands for, if it stands for one. -/
def rowTime (row : Value) : Option Number :=
  (Sample.row row : Sample Number).candleOf.map Candle.timestamp

/-- The name of the token is looked up first. -/
def namedAt (time : String) : World := ((Lookup.tokenName "N" "M").result (findingsAt time)).2

/-- A timestamp in November 2023. -/
def sampleTime : Binary64 := .ofInt 1700000000

theorem isDated_sampleTime : Calendar.IsDated sampleTime :=
  Calendar.exists_text_iff.mp (exists_of_isSome_toOption (by decide +kernel))

theorem ready_findingsAt (time : String) : (findingsAt time).Ready := World.ready_start ..

theorem ready_namedAt (time : String) : (namedAt time).Ready := by
  obtain ⟨w', ms, hname, hproceeds, -⟩ :=
    Lookup.asksOnce_tokenName "N" "M" (findingsAt time) (ready_findingsAt time)
  rw [namedAt, hname]
  exact hproceeds.ready (ready_findingsAt time)

/-- The token has a reading of that time, once its name was looked up. -/
theorem exists_sampleReading : ∃ reading after,
    (Lookup.tokenRsi "N" "M" none).result (namedAt "1700000000") = (.ok reading, after) ∧
      reading.hasData = true ∧ reading.timestamp = .real sampleTime := by
  have hpool : (Lookup.poolFrom ((namedAt "1700000000").reply
      (Endpoint.tokenPools "N" "M"))).isTruthy = true := by decide +kernel
  have hread : (Lookup.usable Lookup.rowsIn (Lookup.candlesReply (namedAt "1700000000") "N" "M"
      none (Lookup.poolFrom ((namedAt "1700000000").reply
        (Endpoint.tokenPools "N" "M"))))).map (List.map rowTime) =
      some [some (.real sampleTime), some (.real sampleTime)] := by decide +kernel
  obtain ⟨rows, hrows, htimes⟩ := Option.map_eq_some_iff.mp hread
  have htime : ∀ row ∈ rows, rowTime row = some (.real sampleTime) := by
    intro row hrow
    have hmem := List.mem_map_of_mem (f := rowTime) hrow
    rw [htimes] at hmem
    simpa using hmem
  have hcandles : ∀ row ∈ rows, (Sample.row row : Sample Number).candleOf.isSome := by
    intro row hrow
    obtain ⟨c, hc, -⟩ := Option.map_eq_some_iff.mp (htime row hrow)
    rw [hc]
    rfl
  have hlong : rows.length = 2 := (List.length_map rowTime).symm.trans (congrArg _ htimes)
  obtain ⟨reading, after, hfound, hdata, row, hrow, c, hcandle, hstamp⟩ :=
    Lookup.exists_tokenRsi (ready_namedAt _) hpool hrows hcandles hlong.ge
  have hc := htime row hrow
  rw [rowTime, hcandle] at hc
  exact ⟨reading, after, hfound, hdata, hstamp.symm.trans (Option.some.inj hc)⟩

/-- Where all is of that time, a deposit and a reading are found and shown. -/
theorem findings_shown_sample : (findingsAt "1700000000").Ready ∧
    (∃ d texts, ∃ after : World, depositTexts d (some (.whole 6)) = .ok texts ∧
      (showDeposit "P" (some (.whole 6))).result (findingsAt "1700000000") =
        (.ok (some d), after.showing texts)) ∧
    ∃ reading index time, ∃ after : World, reading.hasData = true ∧
      (showRsi "M" none (some "N")).result (findingsAt "1700000000") =
        (.ok reading, after.showing [index, time]) := by
  have hready := ready_findingsAt "1700000000"
  have hcurrent : ∀ current ∈ some (Number.whole 6), ¬ current.TooLarge := by
    rintro _ ⟨⟩ hlarge
    obtain ⟨x, hx⟩ : ∃ x, (Number.whole 6).toReal = .ok x :=
      exists_of_isSome_toOption (by decide +kernel)
    cases hx.symm.trans hlarge
  obtain ⟨hdeposit, hreading⟩ := findings_shown hready "P" "M" hcurrent none (some "N")
  refine ⟨hready, ?_, ?_⟩
  · have hstamp : ((Lookup.initialDeposit "P").result (findingsAt "1700000000")).1.toOption.join.map
        Deposit.timestamp = some (.real sampleTime) := by decide +kernel
    rcases hresult : (Lookup.initialDeposit "P").result (findingsAt "1700000000") with
      ⟨_ | _ | d, after⟩
    all_goals rw [hresult] at hstamp
    · cases hstamp
    · cases hstamp
    · have hd : d.timestamp = .real sampleTime := Option.some.inj hstamp
      obtain ⟨x, hx, hshows⟩ := hdeposit d after hresult
      rw [hd, Number.real.injEq] at hx
      obtain ⟨texts, htexts, hshown⟩ := hshows.dated (hx ▸ isDated_sampleTime)
      exact ⟨d, texts, after, htexts, hshown⟩
  · obtain ⟨reading, after, hfound, hdata, hstamp⟩ := exists_sampleReading
    obtain ⟨name, hname, -⟩ : ∃ name,
        ((Lookup.tokenName "N" "M").result (findingsAt "1700000000")).1 = .ok name ∧ True :=
      Ends.exists_ok (by decide +kernel)
    obtain ⟨x, hx, -, hshows, -⟩ := hreading reading after hfound hdata
    rw [hstamp, Number.real.injEq] at hx
    obtain ⟨index, time, -, -, hshown⟩ := (hshows name hname).dated (hx ▸ isDated_sampleTime)
    exact ⟨reading, index, time, after, hdata, hshown⟩

/-- A deposit at a time in milliseconds is found, but not shown. -/
theorem findings_shown_milliseconds :
    Ends (fun found => found.isSome) (fun _ => False)
      ((Lookup.initialDeposit "P").result (findingsAt "1700000000000")).1 ∧
    Ends (fun _ => False) (fun f => f = .yearOutOfRange 55840)
      ((showDeposit "P" none).result (findingsAt "1700000000000")).1 := by
  decide +kernel

end Command

end LiquidityWatch
