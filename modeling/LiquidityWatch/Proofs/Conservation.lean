import LiquidityWatch.Proofs.AcceptedPositions
import LiquidityWatch.Proofs.AmountText
import LiquidityWatch.Summary
import Mathlib.Algebra.Order.Floor.Ring
import Mathlib.Data.List.Induction
import Mathlib.Data.Rat.Floor
import Mathlib.Tactic.FieldSimp
import Mathlib.Tactic.Linarith

/-! # From raw amounts to the totals of a wallet

In exact arithmetic no money is lost or counted twice between the raw amounts of the positions and
the totals of the wallet. A position that was accepted can be valued at any prices, and what it is
worth is written down here from its raw amounts alone (`Position.worth`): the amounts held, claimed
and to be claimed of each token, in smallest units without fractions, times the price of the token,
over its power of ten. The totals are the sums of these, position by position; `Tally` says what a
summary has counted so far, and is kept by every position that is added. -/

namespace LiquidityWatch

/-! ## Raw amounts in exact arithmetic -/

/-- A number without its fraction. -/
def wholePart (q : Rat) : Int := if q < 0 then ⌈q⌉ else ⌊q⌋

namespace Amount

/-- The smallest units in a raw amount: of a number its whole part, of text what it spells before
its point, and nothing of what is absent. -/
def wholeUnits : Value → Int
  | .number (.whole n) => n
  | .number (.real x) => wholePart (x.toRat?.getD 0)
  | .text t => (readWhole (wholeText t)).toOption.getD 0
  | _ => 0

/-- A raw amount in whole tokens. -/
def exact (raw : Value) (decimals : Int) : Rat := wholeUnits raw / 10 ^ decimals

theorem wholePart_signedUnits (negative : Bool) (units one : Nat) :
    wholePart (mkRat (Binary64.signedUnits negative units) one) =
      Binary64.signedUnits negative (units / one) := by
  have hfloor : ⌊(units : Rat) / one⌋ = ((units / one : Nat) : Int) :=
    Rat.floor_natCast_div_natCast units one
  have hnonneg : 0 ≤ (units : Rat) / one := by positivity
  rw [wholePart, Rat.mkRat_eq_div]
  cases negative with
  | false =>
    rw [Binary64.signedUnits, if_neg Bool.false_ne_true, Int.cast_natCast, if_neg hnonneg.not_gt]
    exact hfloor
  | true =>
    rw [Binary64.signedUnits, if_pos rfl, Int.cast_neg, Int.cast_natCast, neg_div, Int.ceil_neg,
      hfloor]
    split
    · rfl
    · rename_i hzero
      have hzero : (units : Rat) / one = 0 := by linarith
      rw [hzero, Int.floor_zero] at hfloor
      rw [hzero, neg_zero, Int.floor_zero, Binary64.signedUnits, if_pos rfl, ← hfloor, neg_zero]

/-- The units of a raw amount are its whole part. -/
theorem eq_wholeUnits {raw : Value} {n : Int} (h : units raw = .ok n) : n = wholeUnits raw := by
  cases raw with
  | number number =>
    cases number with
    | whole m => exact (Except.ok.inj h).symm
    | real x =>
      cases x with
      | finite negative units =>
        rw [wholeUnits, Binary64.toRat?, Option.getD_some, wholePart_signedUnits]
        exact (Except.ok.inj h).symm
      | nan | infinite => cases h
  | text t =>
    rw [units] at h
    rw [wholeUnits]
    split at h
    · rename_i m hm
      rw [hm]
      exact (Except.ok.inj h).symm
    · cases h
  | null => exact (Except.ok.inj h).symm
  | truth | bytes | list | object | candle => cases h

/-- What is converted at all is converted exactly. -/
theorem ofRaw_rat {raw : Value} {decimals : Int} {amount : Number}
    (h : ofRaw raw decimals = .ok amount) : ofRaw raw decimals = .ok (exact raw decimals) := by
  rw [ofRaw] at h ⊢
  split at h
  · cases h
  · rename_i hdecimals
    obtain ⟨n, hn, h⟩ := bind_eq_ok.mp h
    obtain ⟨d, rfl⟩ := Int.eq_ofNat_of_zero_le (not_lt.mp hdecimals)
    rw [if_neg hdecimals, hn, ok_bind, exact, ← eq_wholeUnits hn, zpow_natCast]
    exact ofUnits_rat h

end Amount

/-! ## What a position is worth -/

/-- What the amounts of a token are worth at a price, fees included. -/
def TokenRecord.worth (t : TokenRecord Int) (price : Rat) : Rat :=
  (Amount.wholeUnits t.total + Amount.wholeUnits t.claimed + Amount.wholeUnits t.claimable : Int) *
    price / 10 ^ t.decimals

/-- What a position is worth at the prices of its tokens, fees included. -/
def Position.worth (price : Value → Rat) (p : Position Int) : Rat :=
  p.x.worth (price p.x.mint) + p.y.worth (price p.y.mint)

/-- The amounts of a token, each a number of units over its power of ten. -/
def TokenRecord.holding (t : TokenRecord Int) (price : Rat) : Holding Rat where
  amount := Amount.exact t.total t.decimals
  claimed := Amount.exact t.claimed t.decimals
  claimable := Amount.exact t.claimable t.decimals
  price := price

/-- A sum over the two tokens of a position, each amount at its price. -/
def Valuation.sum (v : Valuation Rat) (part : Holding Rat → Rat) : Rat :=
  part v.x * v.x.price + part v.y * v.y.price

namespace Position

/-- The valuation of a position in exact arithmetic. -/
def valuation (price : Value → Rat) (p : Position Int) : Valuation Rat where
  positionId := p.id
  pool := p.pool
  inRange := decide p.IsInRange
  x := p.x.holding (price p.x.mint)
  y := p.y.holding (price p.y.mint)

/-- A position that is accepted can be valued at any prices. -/
theorem value_of_ofEntry {entry : Entry} {p : Position Int} (h : ofEntry entry = .ok p)
    (price : Value → Rat) :
    p.value (price p.x.mint) (price p.y.mint) = .ok (p.valuation price) := by
  refine value_eq_ok ?_ _ _
  intro a ha
  obtain ⟨amount, hamount⟩ := ofRaw_of_ofEntry h a ha
  exact Amount.ofRaw_rat hamount

/-- What a position is worth, by what its amounts are there for. -/
theorem worth_eq (price : Value → Rat) (p : Position Int) :
    p.worth price = (p.valuation price).sum Holding.amount +
      ((p.valuation price).sum Holding.claimed + (p.valuation price).sum Holding.claimable) := by
  simp only [Valuation.sum, valuation, TokenRecord.holding, worth, TokenRecord.worth, Amount.exact,
    Int.cast_add]
  ring

/-- The current value of a position is what it is worth. -/
theorem currentValue_valuation (price : Value → Rat) (p : Position Int) :
    (p.valuation price).currentValue = .ok (p.worth price) := by
  rw [worth_eq]
  rfl

/-- The initial value that is known of a position. -/
def initialIn (known : Ledger Identifier Rat) (p : Position Int) : Option Rat :=
  p.id.identifier.toOption.bind known.get?

end Position

/-! ## Totals -/

namespace Summary

variable (known : Ledger Identifier Rat) (price : Value → Rat)

/-- The totals over positions, each of them a count or a sum. -/
def tally (ps : List (Position Int)) : Summary Rat where
  positions := ps.length
  inRange := ps.countP (·.IsInRange)
  initialValue := (ps.map fun p => (p.initialIn known).getD 0).sum
  positionValue := (ps.map fun p => (p.valuation price).sum Holding.amount).sum
  claimedFees := (ps.map fun p => (p.valuation price).sum Holding.claimed).sum
  unclaimedFees := (ps.map fun p => (p.valuation price).sum Holding.claimable).sum

theorem zero_rat : (Scalar.zero : Rat) = 0 := by decide +kernel

theorem knownInitialValue_rat {p : Position Int} (htext : ∃ id, p.id = .text id) :
    knownInitialValue known p.id = .ok ((p.initialIn known).getD 0) := by
  obtain ⟨id, hid⟩ := htext
  rw [knownInitialValue, Position.initialIn, hid, zero_rat]
  rfl

/-- A position that is added keeps the totals what they are. -/
theorem addValuation_tally {ps : List (Position Int)} {p : Position Int}
    (htext : ∃ id, p.id = .text id) :
    addValuation known (tally known price ps) (p.valuation price) =
      .ok (tally known price (ps ++ [p])) := by
  have hinitial : knownInitialValue known (p.valuation price).positionId =
      .ok ((p.initialIn known).getD 0) := knownInitialValue_rat known htext
  rw [addValuation, hinitial]
  refine congrArg Except.ok ?_
  simp only [tally, List.map_append, List.sum_append, List.map_singleton, List.sum_singleton,
    List.length_append, List.length_singleton, List.countP_append, List.countP_singleton]
  congr 1
  by_cases h : p.IsInRange <;> simp [Position.valuation, h]

theorem ofValuations_eq_tally {ps : List (Position Int)}
    (htext : ∀ p ∈ ps, ∃ id, p.id = .text id) :
    ofValuations known (ps.map (Position.valuation price)) = .ok (tally known price ps) := by
  induction ps using List.reverseRecOn with
  | nil =>
    rw [List.map_nil, ofValuations, List.foldlM_nil, empty, zero_rat]
    rfl
  | append_singleton ps p ih =>
    have hbefore := ih fun q hq => htext q (List.mem_append_left _ hq)
    rw [ofValuations] at hbefore ⊢
    rw [List.map_append, List.foldlM_append, hbefore, ok_bind, List.map_singleton,
      List.foldlM_cons, addValuation_tally known price (htext p (by simp)), ok_bind,
      List.foldlM_nil]
    rfl

/-- The current value of a wallet is the sum of what its positions are worth. -/
theorem currentValue_tally (ps : List (Position Int)) :
    (tally known price ps).currentValue = .ok (ps.map (·.worth price)).sum := by
  refine congrArg Except.ok ?_
  induction ps with
  | nil => simp [tally]
  | cons p ps ih =>
    rw [List.map_cons, List.sum_cons, ← ih, p.worth_eq]
    simp only [tally, List.map_cons, List.sum_cons]
    ring

/-- The profit of a wallet is that of the positions with a known initial value, and all that the
other positions are worth. -/
theorem profit_tally (ps : List (Position Int)) :
    (ps.map (·.worth price)).sum - (tally known price ps).initialValue =
      (ps.filterMap fun p => (p.initialIn known).map (p.worth price - ·)).sum +
        ((ps.filter fun p => (p.initialIn known).isNone).map (·.worth price)).sum := by
  simp only [tally]
  induction ps with
  | nil => simp
  | cons p ps ih =>
    cases h : p.initialIn known with
    | none =>
      simp only [List.map_cons, List.sum_cons, List.filterMap_cons, List.filter_cons, h,
        Option.map_none, Option.getD_none, Option.isNone_none, if_true]
      linarith
    | some initial =>
      simp only [List.map_cons, List.sum_cons, List.filterMap_cons, List.filter_cons, h,
        Option.map_some, Option.getD_some, Option.isNone_some, Bool.false_eq_true, if_false]
      linarith

/-- Profits in exact arithmetic. -/
theorem over_rat (current initial : Rat) :
    Profit.over current initial = .ok ⟨current - initial,
      if 0 < initial then (current - initial) / initial * 100 else 0⟩ := by
  have hlt : (Comparable.lt (Scalar.ofInt 0) initial : Except Fault Bool) =
      .ok (decide (0 < initial)) := rfl
  rw [Profit.over, show Scalar.sub current initial = .ok (current - initial) from rfl, ok_bind,
    hlt, ok_bind]
  by_cases h : 0 < initial
  · rw [if_pos (decide_eq_true h), if_pos h,
      show Scalar.div (current - initial) initial = .ok ((current - initial) / initial) from
        if_neg h.ne']
    rfl
  · rw [if_neg (mt of_decide_eq_true h), if_neg h, zero_rat]
    rfl

/-- **Conservation of money.** Positions that were accepted, with names that are text, can be valued
at any prices and summed up over any known initial values. The current value of the wallet is the
sum of the raw amounts of its positions, without fractions, each at the price of its token over its
power of ten, and it is the sum of the current values of the positions. Every position is counted as
in range or as out of range, the former exactly if the active bin is one of its own. The profit is
that of the positions with a known initial value and all that the others are worth; in percent it is
taken of the initial value if that is above zero, and is zero otherwise. -/
theorem ofValuations_conserves {entries : List Position.Entry} {positions : List (Position Int)}
    (haccepted : entries.mapM Position.ofEntry = .ok positions)
    (htext : ∀ p ∈ positions, ∃ id, p.id = .text id) :
    ∃ valuations values summary current profit,
      positions.mapM (fun p => p.value (price p.x.mint) (price p.y.mint)) = .ok valuations ∧
      valuations.mapM Valuation.currentValue = .ok values ∧
      ofValuations known valuations = .ok summary ∧
      summary.currentValue = .ok current ∧
      summary.profit = .ok profit ∧
      current = (positions.map (·.worth price)).sum ∧
      current = values.sum ∧
      summary.inRange + summary.outOfRange = positions.length ∧
      summary.inRange = positions.countP (·.IsInRange) ∧
      profit.difference =
        (positions.filterMap fun p => (p.initialIn known).map (p.worth price - ·)).sum +
          ((positions.filter fun p => (p.initialIn known).isNone).map (·.worth price)).sum ∧
      (0 < summary.initialValue →
        profit.percent * summary.initialValue / 100 = profit.difference) ∧
      (summary.initialValue ≤ 0 → profit.percent = 0) := by
  have hvalues : positions.mapM (fun p => p.value (price p.x.mint) (price p.y.mint)) =
      .ok (positions.map (Position.valuation price)) := by
    refine mapM_eq_map fun p hp => ?_
    obtain ⟨entry, -, hentry⟩ := exists_of_mem_mapM haccepted hp
    exact Position.value_of_ofEntry hentry price
  have hcurrent : (positions.map (Position.valuation price)).mapM Valuation.currentValue =
      .ok (positions.map (·.worth price)) := by
    rw [mapM_eq_ok, List.forall₂_map_left_iff, List.forall₂_map_right_iff, List.forall₂_same]
    exact fun p _ => p.currentValue_valuation price
  -- The profit is taken over the totals, which the tally has by now.
  have hprofit : (tally known price positions).profit = .ok _ :=
    bind_eq_ok.mpr ⟨_, currentValue_tally known price positions, over_rat _ _⟩
  refine ⟨_, _, _, _, _, hvalues, hcurrent, ofValuations_eq_tally known price htext,
    currentValue_tally known price positions, hprofit, rfl, rfl, ?_, rfl,
    profit_tally known price positions, ?_, ?_⟩
  · exact Nat.add_sub_cancel' List.countP_le_length
  · intro hpositive
    rw [if_pos hpositive]
    field_simp
  · intro hnone
    exact if_neg (not_lt.mpr hnone)

/-- An entry of a position `id` that holds one and a half tokens and some units of another. -/
def sampleEntry (id : String) (active units : Int) : Position.Entry :=
  [("position_id", .text id), ("pool_address", .text "P"), ("token_x_mint", .text "X"),
    ("token_y_mint", .text "Y"), ("token_y_decimals", .whole 6), ("lower_bin_id", .whole 1),
    ("upper_bin_id", .whole 9), ("active_bin_id", .whole active), ("total_x", .text "1500000000.9"),
    ("total_y", .whole units), ("fee_y", .null)]

/-- The position of that entry. -/
def samplePosition (id : String) (active units : Int) : Position Int where
  id := .text id
  pool := .text "P"
  x := ⟨.text "X", 9, .text "1500000000.9", .whole 0, .whole 0⟩
  y := ⟨.text "Y", 6, .whole units, .whole 0, .null⟩
  lowerBin := 1
  upperBin := 9
  activeBin := active

/-- Two entries of one position, and between them one of another that is out of range. -/
def sampleEntries : List Position.Entry :=
  [sampleEntry "a" 5 2000000, sampleEntry "b" 10 4000000, sampleEntry "a" 1 0]

/-- One token costs two, every other one. -/
def samplePrice : Value → Rat
  | .text mint => if mint = "X" then 2 else 1
  | _ => 1

/-- The initial value of one position is known, and counts for each of its entries. -/
def sampleKnown : Ledger Identifier Rat := .ofList [(.text "a", 2)]

theorem mapM_sampleEntries : sampleEntries.mapM Position.ofEntry =
    .ok [samplePosition "a" 5 2000000, samplePosition "b" 10 4000000, samplePosition "a" 1 0] := rfl

theorem worth_samplePosition (id : String) (active units : Int) :
    (samplePosition id active units).worth samplePrice = 3 + units / 10 ^ 6 := by
  have hunits : Amount.wholeUnits (.text "1500000000.9") = 1500000000 := rfl
  have hprices : samplePrice (.text "X") = 2 ∧ samplePrice (.text "Y") = 1 := ⟨rfl, rfl⟩
  simp only [Position.worth, TokenRecord.worth, samplePosition, hunits, hprices]
  norm_num [Amount.wholeUnits, Value.whole]

/-- What the three entries add up to. -/
theorem ofValuations_conserves_sample : ∃ positions valuations summary current profit,
    sampleEntries.mapM Position.ofEntry = .ok positions ∧
      positions.mapM (fun p => p.value (samplePrice p.x.mint) (samplePrice p.y.mint)) =
        .ok valuations ∧
      ofValuations sampleKnown valuations = .ok summary ∧
      summary.currentValue = .ok current ∧ summary.profit = .ok profit ∧
      current = 15 ∧ summary.inRange = 2 ∧ summary.outOfRange = 1 ∧ profit.difference = 11 := by
  obtain ⟨valuations, values, summary, current, profit, hvalues, -, hsummary, hcurrent, hprofit,
    htotal, -, hcount, hrange, hdifference, -, -⟩ := ofValuations_conserves sampleKnown samplePrice
      mapM_sampleEntries (by simp [samplePosition])
  have hrange : summary.inRange = 2 := hrange.trans (by decide)
  have hcount : summary.inRange + summary.outOfRange = 3 := hcount
  have hb : (samplePosition "b" 10 4000000).initialIn sampleKnown = none := rfl
  have ha : ∀ active units, (samplePosition "a" active units).initialIn sampleKnown = some 2 :=
    fun _ _ => rfl
  refine ⟨_, valuations, summary, current, profit, mapM_sampleEntries, hvalues, hsummary, hcurrent,
    hprofit, ?_, hrange, by omega, ?_⟩
  · rw [htotal]
    norm_num [worth_samplePosition]
  · rw [hdifference]
    norm_num [List.filterMap_cons, List.filter_cons, ha, hb, worth_samplePosition]

end Summary

end LiquidityWatch
