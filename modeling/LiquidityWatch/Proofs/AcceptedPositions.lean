import LiquidityWatch.Proofs.Outcome
import LiquidityWatch.Valuation

/-! # Positions that were accepted

An entry is checked when it is loaded, and what is accepted can be valued later. Two passes go over
the same six amounts: the check takes the decimals of an amount by the ending of its name, and the
valuation goes token by token, with zero in place of a fee that counts as nothing. They agree
(`Position.value_of_accepted`), whatever the entry holds. -/

namespace LiquidityWatch

/-! ## Amounts that count as nothing -/

namespace Amount

/-- A raw amount that counts as nothing is zero units, so taking zero for it changes nothing. -/
theorem units_orElse {raw : Value} {n : Int} (h : units raw = .ok n) :
    units (raw.orElse (.whole 0)) = .ok n := by
  rw [Value.orElse]
  split
  · exact h
  · rename_i hfalse
    cases raw with
    | number number =>
      cases number with
      | whole m =>
        have hm : m = 0 := by simpa [Value.isTruthy, Number.isZero] using hfalse
        rwa [hm] at h
      | real x =>
        cases x with
        | finite negative magnitude =>
          have hm : magnitude = 0 := by
            simpa [Value.isTruthy, Number.isZero, Binary64.isZero] using hfalse
          have hn : Binary64.signedUnits negative (magnitude / Binary64.unitsPerOne) = n :=
            Except.ok.inj h
          rw [hm, Nat.zero_div] at hn
          rw [← hn]
          cases negative <;> rfl
        | nan | infinite => cases h
    | text t =>
      obtain ⟨codes⟩ := t
      have hcodes : codes = [] := by simpa [Value.isTruthy, Text.isEmpty] using hfalse
      subst hcodes
      exact h
    | null => exact h
    | truth | bytes | list | object | candle => cases h

theorem ofRaw_orElse {α : Type} [Scalar α] {raw : Value} {decimals : Int} {amount : α}
    (h : ofRaw raw decimals = .ok amount) :
    ofRaw (raw.orElse (.whole 0)) decimals = .ok amount := by
  rw [ofRaw] at h ⊢
  split at h
  · cases h
  · rename_i hdecimals
    obtain ⟨n, hn, h⟩ := bind_eq_ok.mp h
    rw [if_neg hdecimals, units_orElse hn, ok_bind, h]

/-- What a raw amount is converted to, if it can be. -/
def converted (raw : Value) (decimals : Int) : Number :=
  (ofRaw raw decimals : Except Fault Number).toOption.getD Scalar.zero

theorem ofRaw_eq_converted {raw : Value} {decimals : Int} {amount : Number}
    (h : ofRaw raw decimals = .ok amount) : ofRaw raw decimals = .ok (converted raw decimals) := by
  rw [converted, h]
  rfl

end Amount

/-! ## Valuing a position -/

/-- The amounts of a token, each converted in some way. -/
def TokenRecord.held {α : Type} (convert : Value → Int → α) (price : α) (t : TokenRecord Int) :
    Holding α where
  amount := convert t.total t.decimals
  claimed := convert t.claimed t.decimals
  claimable := convert t.claimable t.decimals
  price := price

namespace Position

/-- The active bin is one of the position's. -/
def IsInRange (p : Position Int) : Prop := p.lowerBin ≤ p.activeBin ∧ p.activeBin ≤ p.upperBin

instance (p : Position Int) : Decidable p.IsInRange := inferInstanceAs (Decidable (_ ∧ _))

theorem inRange_eq (p : Position Int) : p.inRange = .ok (decide p.IsInRange) := by
  show (if decide (p.lowerBin ≤ p.activeBin) then _ else _) = Except.ok (decide (_ ∧ _))
  by_cases h : p.lowerBin ≤ p.activeBin
  · rw [decide_eq_true h, if_pos rfl]
    simp only [h, true_and]
    rfl
  · rw [decide_eq_false h, if_neg Bool.false_ne_true]
    simp only [h, false_and]
    rfl

/-- The valuation of a position with its amounts converted in some way. -/
def valueBy {α : Type} (convert : Value → Int → α) (priceX priceY : α) (p : Position Int) :
    Valuation α where
  positionId := p.id
  pool := p.pool
  inRange := decide p.IsInRange
  x := p.x.held convert priceX
  y := p.y.held convert priceY

/-- A position whose amounts can be converted can be valued. -/
theorem value_eq_ok {α : Type} [Scalar α] {p : Position Int} {convert : Value → Int → α}
    (h : ∀ a ∈ p.amounts, Amount.ofRaw a.2.1 a.2.2 = .ok (convert a.2.1 a.2.2))
    (priceX priceY : α) : p.value priceX priceY = .ok (p.valueBy convert priceX priceY) := by
  simp only [amounts, List.forall_mem_cons] at h
  obtain ⟨htotalX, htotalY, hclaimedX, hclaimedY, hclaimableX, hclaimableY, -⟩ := h
  simp only [Position.value, inRange_eq, ok_bind, Decimals.ofRaw, htotalX, htotalY, hclaimedX,
    hclaimedY, Amount.ofRaw_orElse hclaimableX, Amount.ofRaw_orElse hclaimableY]
  rfl

variable {entry : Entry} {p : Position Int}

/-- What is accepted is what was read, with amounts that can be converted. -/
theorem ofEntry_eq_ok : ofEntry entry = .ok p ↔ missingFields entry = [] ∧
    readEntry entry = .ok p ∧ ∀ a ∈ p.amounts, checkAmount a = .ok () := by
  rw [ofEntry]
  constructor
  · intro h
    split at h
    · rename_i hnone
      obtain ⟨q, hread, h⟩ := bind_eq_ok.mp h
      obtain ⟨⟨⟩, hcheck, h⟩ := bind_eq_ok.mp h
      obtain rfl := pure_eq_ok.mp h
      exact ⟨hnone, hread, forM_eq_ok.mp hcheck⟩
    · cases h
  · rintro ⟨hnone, hread, hcheck⟩
    rw [hnone]
    exact bind_eq_ok.mpr ⟨p, hread, bind_eq_ok.mpr ⟨(), forM_eq_ok.mpr hcheck, rfl⟩⟩

/-- The amounts of a position that is accepted can be converted. -/
theorem ofRaw_of_ofEntry (h : ofEntry entry = .ok p) :
    ∀ a ∈ p.amounts, ∃ amount : Number, Amount.ofRaw a.2.1 a.2.2 = .ok amount := by
  obtain ⟨-, -, hcheck⟩ := ofEntry_eq_ok.mp h
  intro a ha
  have hamount := hcheck a ha
  rw [checkAmount] at hamount
  split at hamount
  · exact ⟨_, ‹_›⟩
  · cases hamount

/-- A position that is accepted can be valued at any prices. -/
theorem value_eq_converted (h : ofEntry entry = .ok p) (priceX priceY : Number) :
    p.value priceX priceY = .ok (p.valueBy Amount.converted priceX priceY) := by
  refine value_eq_ok ?_ priceX priceY
  intro a ha
  obtain ⟨amount, hamount⟩ := ofRaw_of_ofEntry h a ha
  exact Amount.ofRaw_eq_converted hamount

/-! ## Amounts of an entry -/

/-- The fields that hold raw amounts, in the order of their checks. -/
def amountFields : List String :=
  ["total_x", "total_y", "claimed_fee_x", "claimed_fee_y", "fee_x", "fee_y"]

/-- The fields that hold fees to be claimed. -/
def claimableFields : List String := ["fee_x", "fee_y"]

/-- The field with the decimals of an amount: the ending of its name tells the token. -/
def decimalsField (name : String) : String :=
  if name.endsWith "_x" then "token_x_decimals" else "token_y_decimals"

/-- The raw amount that an entry gives under a name; what is left out is zero. -/
def rawField (entry : Entry) (name : String) : Value := fieldD entry name (.whole 0)

/-- The decimals that an entry gives for the amount of a name. -/
def decimalsOf (entry : Entry) (name : String) : Except Fault Int :=
  wholeD entry (decimalsField name) defaultDecimals

/-- The amounts of a position are those of its entry, each with the decimals of its token. -/
theorem amounts_of_readEntry (h : readEntry entry = .ok p) :
    List.Forall₂ (fun name (a : String × Value × Int) =>
      a.1 = name ∧ a.2.1 = rawField entry name ∧ decimalsOf entry name = .ok a.2.2)
      amountFields p.amounts := by
  obtain ⟨decimalsX, hx, h⟩ := bind_eq_ok.mp h
  obtain ⟨decimalsY, hy, h⟩ := bind_eq_ok.mp h
  obtain ⟨lowerBin, -, h⟩ := bind_eq_ok.mp h
  obtain ⟨upperBin, -, h⟩ := bind_eq_ok.mp h
  obtain ⟨activeBin, -, h⟩ := bind_eq_ok.mp h
  obtain rfl := pure_eq_ok.mp h
  have hdecimalsX : ∀ name, decimalsField name = "token_x_decimals" →
      decimalsOf entry name = .ok decimalsX := by
    intro name hname
    rw [decimalsOf, hname, hx]
  have hdecimalsY : ∀ name, decimalsField name = "token_y_decimals" →
      decimalsOf entry name = .ok decimalsY := by
    intro name hname
    rw [decimalsOf, hname, hy]
  refine .cons ⟨rfl, rfl, hdecimalsX _ ?_⟩ (.cons ⟨rfl, rfl, hdecimalsY _ ?_⟩
    (.cons ⟨rfl, rfl, hdecimalsX _ ?_⟩ (.cons ⟨rfl, rfl, hdecimalsY _ ?_⟩
    (.cons ⟨rfl, rfl, hdecimalsX _ ?_⟩ (.cons ⟨rfl, rfl, hdecimalsY _ ?_⟩ .nil)))))
  all_goals decide +kernel

end Position

/-- The amounts of a valuation, in the order of their checks. -/
def Valuation.amounts {α : Type} (v : Valuation α) : List α :=
  [v.x.amount, v.y.amount, v.x.claimed, v.y.claimed, v.x.claimable, v.y.claimable]

namespace Position

variable {entry : Entry} {p : Position Int}

/-- A valuation converts the amounts of the position, in their order. -/
theorem amounts_valueBy {α : Type} (convert : Value → Int → α) (priceX priceY : α) :
    (p.valueBy convert priceX priceY).amounts = p.amounts.map fun a => convert a.2.1 a.2.2 := rfl

/-- The amounts that an accepted entry gives can be converted, each with its own decimals. -/
theorem converted_of_ofEntry (h : ofEntry entry = .ok p) :
    List.Forall₂ (fun name (a : String × Value × Int) => decimalsOf entry name = .ok a.2.2 ∧
      Amount.ofRaw (rawField entry name) a.2.2 = .ok (Amount.converted a.2.1 a.2.2))
      amountFields p.amounts := by
  obtain ⟨-, hread, -⟩ := ofEntry_eq_ok.mp h
  have hconverts := ofRaw_of_ofEntry h
  have hfields := amounts_of_readEntry hread
  rw [List.forall₂_iff_get] at hfields ⊢
  obtain ⟨hlength, hfields⟩ := hfields
  refine ⟨hlength, fun i hi hi' => ?_⟩
  obtain ⟨-, hraw, hdecimals⟩ := hfields i hi hi'
  obtain ⟨amount, hamount⟩ := hconverts _ (List.get_mem p.amounts ⟨i, hi'⟩)
  rw [← hraw]
  exact ⟨hdecimals, Amount.ofRaw_eq_converted hamount⟩

/-- **Validation covers valuation.** The position of an entry that is accepted can be valued at any
prices. Its amounts are the conversions of the raw amounts in the entry, each with the decimals that
the ending of its name tells, and a fee to be claimed could as well be converted when it counts as
nothing: taking zero for it makes no difference. -/
theorem value_of_accepted (h : ofEntry entry = .ok p) (priceX priceY : Number) :
    (∃ v, p.value priceX priceY = .ok v ∧ v.x.price = priceX ∧ v.y.price = priceY ∧
      List.Forall₂ (fun name amount => ∃ decimals, decimalsOf entry name = .ok decimals ∧
        Amount.ofRaw (rawField entry name) decimals = .ok amount) amountFields v.amounts) ∧
    ∀ name ∈ claimableFields, ∀ decimals, decimalsOf entry name = .ok decimals →
      (Amount.ofRaw ((rawField entry name).orElse (.whole 0)) decimals : Except Fault Number) =
        Amount.ofRaw (rawField entry name) decimals := by
  have hamounts := converted_of_ofEntry h
  constructor
  · refine ⟨_, value_eq_converted h priceX priceY, rfl, rfl, ?_⟩
    rw [amounts_valueBy, List.forall₂_map_right_iff]
    exact hamounts.imp fun name a ha => ⟨a.2.2, ha⟩
  · intro name hname decimals hdecimals
    have hmem : name ∈ amountFields := List.drop_subset 4 amountFields hname
    obtain ⟨a, hsame, hamount⟩ := exists_of_forall₂_left hamounts hmem
    obtain rfl := Except.ok.inj (hdecimals.symm.trans hsame)
    rw [hamount, Amount.ofRaw_orElse hamount]

/-- An entry with fees that count as nothing: text without characters, and a zero with a sign. The
tokens have different decimals. -/
def emptyFeesEntry : Entry :=
  [("position_id", .text "P"), ("pool_address", .text "A"), ("token_x_mint", .text "X"),
    ("token_y_mint", .text "Y"), ("token_y_decimals", .text "6"), ("total_x", .text "1500000000.9"),
    ("total_y", .whole 2500000), ("claimed_fee_y", .null), ("fee_x", .text ""),
    ("fee_y", .real (.finite true 0))]

/-- The amounts of that entry. -/
theorem value_of_accepted_empty_fees : ∃ p v, ofEntry emptyFeesEntry = .ok p ∧
    p.value (.whole 3) (.whole 2) = .ok v ∧
      v.amounts.map Number.shown = ["1.5", "2.5", "0.0", "0.0", "0.0", "0.0"] := by
  obtain ⟨p, hp⟩ : ∃ p, ofEntry emptyFeesEntry = .ok p :=
    exists_of_isSome_toOption (by decide +kernel)
  obtain ⟨⟨v, hv, -⟩, -⟩ := value_of_accepted hp (.whole 3) (.whole 2)
  have hshown : ((do (← ofEntry emptyFeesEntry).value (Number.whole 3) (.whole 2)).toOption.map
      fun v : Valuation Number => v.amounts.map Number.shown) =
        some ["1.5", "2.5", "0.0", "0.0", "0.0", "0.0"] := by decide +kernel
  rw [hp, ok_bind, hv] at hshown
  exact ⟨p, v, hp, hv, Option.some.inj hshown⟩

end Position

end LiquidityWatch
