import LiquidityWatch.Proofs.AmountNumerals
import LiquidityWatch.Proofs.SnapshotLoading

/-! # Bins and decimals of an entry

The bins and the decimals of a position are whole numbers, and an entry should give them as such: as
numbers or as numerals (`Value.IsWhole`). They are read more generously. A truth value counts as one
or zero, and a number that is not whole loses its fraction (`Value.Coerces`), so that an entry can
be accepted with bins that it does not give. What cannot be read is not always refused with a fault
of value either: the fault of what is missing or nested is one of type, that of an infinity one of
range (`Value.refusal`). -/

namespace LiquidityWatch

/-! ## Values as whole numbers -/

namespace Value

/-- The value is a whole number, or a text that spells one with no more digits than the limit. -/
inductive IsWhole : Value → Int → Prop
  | number (n : Int) : IsWhole (.whole n) n
  | numeral {t : Text} {count : Nat} {n : Int} (hlimit : count ≤ Fault.digitLimit)
      (h : WholeNumeral t.toChars count n) : IsWhole (.text t) n

/-- The value is made into a whole number that it is not. -/
inductive Coerces : Value → Int → Prop
  | truth (b : Bool) : Coerces (.truth b) (if b then 1 else 0)
  | real {x : Binary64} {q : Rat} (hx : x.toRat? = some q) : Coerces (.real x) (wholePart q)
  | bytes {bs : List UInt8} {count : Nat} {n : Int} (hlimit : count ≤ Fault.digitLimit)
      (h : WholeNumeral (asciiChars bs) count n) : Coerces (.bytes bs) n

/-- The sort of fault that a value is refused with as a whole number. -/
def refusal : Value → Fault.Category
  | number (.real (.infinite _)) => .range
  | null | list _ | object _ | candle .. => .type
  | _ => .value

theorem wholeOfChars_eq_ok {cs : List Char} {shown : String} {n : Int} :
    wholeOfChars cs shown = .ok n ↔ ∃ count ≤ Fault.digitLimit, WholeNumeral cs count n := by
  rw [← readWhole_eq_ok, wholeOfChars]
  cases hread : readWhole cs with
  | ok m => simp
  | error flaw => cases flaw <;> simp

theorem category_wholeOfChars {cs : List Char} {shown : String} {f : Fault}
    (h : wholeOfChars cs shown = .error f) : f.category = .value := by
  rw [wholeOfChars] at h
  split at h
  · cases h
  · obtain rfl := Except.error.inj h
    rfl
  · obtain rfl := Except.error.inj h
    rfl

theorem truncate_eq_ok {x : Binary64} {n : Int} :
    truncate x = .ok n ↔ ∃ q, x.toRat? = some q ∧ n = wholePart q := by
  cases x with
  | nan | infinite => simp [truncate, Binary64.truncate?, Binary64.toRat?]
  | finite negative units =>
    have hpart := Amount.wholePart_signedUnits negative units Binary64.unitsPerOne
    constructor
    · intro h
      obtain rfl := Except.ok.inj h
      exact ⟨_, rfl, hpart.symm⟩
    · rintro ⟨q, hq, rfl⟩
      obtain rfl := Option.some.inj hq
      rw [hpart]
      rfl

/-- What a value is read as. -/
theorem toWhole_eq_ok {v : Value} {n : Int} :
    v.toWhole = .ok n ↔ IsWhole v n ∨ Coerces v n := by
  constructor
  · intro h
    cases v with
    | truth b =>
      obtain rfl := Except.ok.inj h
      exact .inr (.truth b)
    | number m =>
      cases m with
      | whole m =>
        obtain rfl := Except.ok.inj h
        exact .inl (.number m)
      | real x =>
        obtain ⟨q, hq, rfl⟩ := truncate_eq_ok.mp h
        exact .inr (.real hq)
    | text t =>
      obtain ⟨count, hlimit, h⟩ := wholeOfChars_eq_ok.mp h
      exact .inl (.numeral hlimit h)
    | bytes bs =>
      obtain ⟨count, hlimit, h⟩ := wholeOfChars_eq_ok.mp h
      exact .inr (.bytes hlimit h)
    | null | list | object | candle => cases h
  · rintro (h | h)
    · cases h with
      | number => rfl
      | numeral hlimit h => exact wholeOfChars_eq_ok.mpr ⟨_, hlimit, h⟩
    · cases h with
      | truth => rfl
      | real hx => exact truncate_eq_ok.mpr ⟨_, hx, rfl⟩
      | bytes hlimit h => exact wholeOfChars_eq_ok.mpr ⟨_, hlimit, h⟩

/-- What a value is refused with. -/
theorem category_of_toWhole {v : Value} {f : Fault} (h : v.toWhole = .error f) :
    f.category = v.refusal := by
  cases v with
  | truth b => cases h
  | number m =>
    cases m with
    | whole m => cases h
    | real x =>
      cases x with
      | finite => cases h
      | nan | infinite =>
        obtain rfl := Except.error.inj h
        rfl
  | text t => exact category_wholeOfChars h
  | bytes bs => exact category_wholeOfChars h
  | null | list | object | candle =>
    obtain rfl := Except.error.inj h
    rfl

/-- A number or text is refused with a fault of value. -/
theorem refusal_of_kind {v : Value} (h : v.kind = .whole ∨ v.kind = .text) :
    v.refusal = .value := by
  cases v with
  | number m => cases m <;> simp [kind, Number.kind, refusal] at h ⊢
  | text => rfl
  | truth | null | bytes | list | object | candle => simp [kind] at h

/-- What is read of a whole number or a text is not made up. -/
theorem isWhole_of_kind {v : Value} {n : Int} (h : v.toWhole = .ok n)
    (hkind : v.kind = .whole ∨ v.kind = .text) : IsWhole v n := by
  rcases toWhole_eq_ok.mp h with h | h
  · exact h
  · cases h <;> simp [kind, Number.kind, real] at hkind

end Value

/-! ## Raw amounts that are refused -/

namespace Amount

open Binary64

/-- A raw amount is refused with a fault of its value, unless there are no decimals and it is too
large for a number. -/
theorem ofRaw_eq_error {raw : Value} {decimals : Int} {f : Fault}
    (h : ofRaw (α := Number) raw decimals = .error f) : f.isValueFault = true ∨
      (f.isValueFault = false ∧ decimals = 0 ∧ IsTooLarge (exact raw 0)) := by
  have hvalue : f.category = .value → f.isValueFault = true := by
    intro hf
    rw [Fault.isValueFault, hf]
    rfl
  rw [ofRaw] at h
  split at h
  · obtain rfl := Except.error.inj h
    refine .inl (hvalue ?_)
    rw [negativeFault]
    split <;> rfl
  · rename_i hdecimals
    obtain ⟨places, rfl⟩ := Int.eq_ofNat_of_zero_le (not_lt.mp hdecimals)
    cases hunits : units raw with
    | error g =>
      have hends := ends_units raw
      rw [hunits] at h hends
      obtain rfl := Except.error.inj h
      exact .inl (hvalue hends)
    | ok n =>
      rw [hunits, ok_bind, Int.toNat_natCast] at h
      by_cases hrange : places = 0 ∧ IsTooLarge n
      · obtain ⟨rfl, hlarge⟩ := hrange
        rw [ofUnits_tooLarge hlarge] at h
        obtain rfl := Except.error.inj h
        refine .inr ⟨rfl, rfl, ?_⟩
        rwa [exact, ← eq_wholeUnits hunits, zpow_zero, div_one]
      · rw [ofUnits] at h
        split at h
        · rename_i hzero
          subst hzero
          obtain ⟨amount, hamount⟩ := exists_ofUnits_iff.mpr
            ⟨fun _ hlarge => hrange ⟨rfl, hlarge⟩, fun hne => absurd rfl hne⟩
          have hsame : ofUnits n 0 = Except.ok amount := hamount
          rw [ofUnits, if_pos rfl, h] at hsame
          cases hsame
        · rename_i hplaces
          have hends := ends_decimalText n places
          cases htext : decimalText n places with
          | error g =>
            rw [htext] at h hends
            obtain rfl := Except.error.inj h
            exact .inl (hvalue hends)
          | ok text =>
            rw [htext, ok_bind, readReal_decimalText (Nat.pos_of_ne_zero hplaces) htext] at h
            cases h

end Amount

/-! ## The fields -/

namespace Position

open Binary64

/-- A field of an entry that is read as a whole number: its name, what it is when it is left out,
and where it goes. -/
structure WholeField where
  name : String
  default : Int
  value : Position Int → Int

/-- The decimals of the two tokens. -/
def decimalsFields : List WholeField :=
  [⟨"token_x_decimals", defaultDecimals, (·.x.decimals)⟩,
    ⟨"token_y_decimals", defaultDecimals, (·.y.decimals)⟩]

/-- The decimals and the bins, in the order in which they are read. -/
def wholeFields : List WholeField :=
  decimalsFields ++ [⟨"lower_bin_id", 0, lowerBin⟩, ⟨"upper_bin_id", 0, upperBin⟩,
    ⟨"active_bin_id", 0, activeBin⟩]

/-- The number that an entry gives under a name is read. -/
def WholeField.read (field : WholeField) (entry : Entry) : Except Fault Int :=
  wholeD entry field.name field.default

variable {entry : Entry} {field : WholeField} {n : Int} {p : Position Int} {f : Fault}

/-- The entry gives the field as a whole number, or leaves it out. -/
inductive WholeField.Gives (field : WholeField) (entry : Entry) (n : Int) : Prop where
  | absent (h : Value.lookup field.name entry = none) (hn : n = field.default)
  | whole (v : Value) (h : Value.lookup field.name entry = some v) (hv : v.IsWhole n)

/-- The entry gives the field as something that is made into the number. -/
inductive WholeField.Coerces (field : WholeField) (entry : Entry) (n : Int) : Prop where
  | coerced (v : Value) (h : Value.lookup field.name entry = some v) (hv : v.Coerces n)

theorem WholeField.read_eq_ok :
    field.read entry = .ok n ↔ field.Gives entry n ∨ field.Coerces entry n := by
  rw [WholeField.read, wholeD]
  constructor
  · intro h
    split at h
    · rename_i hnone
      exact .inl (.absent hnone (Except.ok.inj h).symm)
    · rename_i v hv
      rcases Value.toWhole_eq_ok.mp h with h | h
      · exact .inl (.whole v hv h)
      · exact .inr (.coerced v hv h)
  · rintro ((⟨h, rfl⟩ | ⟨v, h, hv⟩) | ⟨v, h, hv⟩)
    · rw [h]
    · rw [h]
      exact Value.toWhole_eq_ok.mpr (.inl hv)
    · rw [h]
      exact Value.toWhole_eq_ok.mpr (.inr hv)

/-- Only a field that is there can be refused. -/
theorem WholeField.read_eq_error : field.read entry = .error f ↔
    ∃ v, Value.lookup field.name entry = some v ∧ v.toWhole = .error f := by
  rw [WholeField.read, wholeD]
  cases hv : Value.lookup field.name entry with
  | none => simp
  | some v => simp

/-- What is read of an entry holds its fields. -/
theorem read_of_readEntry (h : readEntry entry = .ok p) :
    ∀ field ∈ wholeFields, field.read entry = .ok (field.value p) := by
  obtain ⟨decimalsX, hx, h⟩ := bind_eq_ok.mp h
  obtain ⟨decimalsY, hy, h⟩ := bind_eq_ok.mp h
  obtain ⟨lowerBin, hlower, h⟩ := bind_eq_ok.mp h
  obtain ⟨upperBin, hupper, h⟩ := bind_eq_ok.mp h
  obtain ⟨activeBin, hactive, h⟩ := bind_eq_ok.mp h
  obtain rfl := pure_eq_ok.mp h
  simp only [wholeFields, decimalsFields, List.cons_append, List.nil_append, List.forall_mem_cons]
  exact ⟨hx, hy, hlower, hupper, hactive, fun field h => absurd h List.not_mem_nil⟩

/-- An entry cannot be read just if a field cannot, and the first one counts. -/
theorem readEntry_eq_error : readEntry entry = .error f ↔
    wholeFields.mapM (fun field => field.read entry) = .error f := by
  simp only [wholeFields, decimalsFields, List.cons_append, List.nil_append, List.mapM_cons,
    List.mapM_nil, bind_assoc]
  exact bind_error_congr fun decimalsX => bind_error_congr fun decimalsY =>
    bind_error_congr fun lowerBin => bind_error_congr fun upperBin =>
    bind_error_congr fun activeBin => iff_of_false nofun nofun

/-! ## Why an entry is refused -/

/-- What an entry with all required fields is refused with: the fault of the first bin or decimals
that cannot be read, or that of the first amount that cannot be converted, with its name if it is a
fault of value. -/
inductive FailsWith (entry : Entry) : Fault → Prop
  | field (before : List WholeField) (field : WholeField) (after : List WholeField) {v : Value}
    {f : Fault} (h : wholeFields = before ++ field :: after)
    (hbefore : ∀ g ∈ before, ∃ n, g.read entry = .ok n)
    (hv : Value.lookup field.name entry = some v) (hf : v.toWhole = .error f) : FailsWith entry f
  | amount {p : Position Int} (hread : readEntry entry = .ok p)
    (before : List (String × Value × Int)) (name : String) (raw : Value) (decimals : Int)
    (after : List (String × Value × Int)) {f : Fault}
    (h : p.amounts = before ++ (name, raw, decimals) :: after)
    (hbefore : ∀ a ∈ before, Amount.IsConvertible a.2.1 a.2.2)
    (hf : Amount.ofRaw (α := Number) raw decimals = .error f) :
    FailsWith entry (if f.isValueFault then .inField name f else f)

theorem checkAmount_eq_error {name : String} {raw : Value} {decimals : Int} :
    checkAmount (name, raw, decimals) = .error f ↔ ∃ g,
      Amount.ofRaw (α := Number) raw decimals = .error g ∧
      f = if g.isValueFault then .inField name g else g := by
  rw [checkAmount]
  cases Amount.ofRaw (α := Number) raw decimals with
  | ok amount => simp
  | error g =>
    constructor
    · intro h
      exact ⟨g, rfl, (Except.error.inj h).symm⟩
    · rintro ⟨g', hg, rfl⟩
      obtain rfl := Except.error.inj hg
      rfl

theorem ofEntry_eq_error (hpresent : missingFields entry = []) :
    ofEntry entry = .error f ↔ FailsWith entry f := by
  have hentry : ofEntry entry = readEntry entry >>= fun p =>
      p.amounts.forM checkAmount >>= fun _ => .ok p := by
    rw [ofEntry, hpresent]
    rfl
  rw [hentry]
  constructor
  · intro h
    cases hread : readEntry entry with
    | error g =>
      rw [hread, error_bind] at h
      obtain rfl := Except.error.inj h
      obtain ⟨before, field, after, hfields, hbefore, hfield⟩ :=
        mapM_eq_error.mp (readEntry_eq_error.mp hread)
      obtain ⟨v, hv, hf⟩ := WholeField.read_eq_error.mp hfield
      exact .field before field after hfields hbefore hv hf
    | ok p =>
      rw [hread, ok_bind, bind_ok_eq_error] at h
      obtain ⟨before, ⟨name, raw, decimals⟩, after, hamounts, hbefore, hcheck⟩ :=
        forM_eq_error.mp h
      obtain ⟨g, hg, rfl⟩ := checkAmount_eq_error.mp hcheck
      exact .amount hread before name raw decimals after hamounts
        (fun a ha => checkAmount_eq_ok.mp (hbefore a ha)) hg
  · rintro (⟨before, field, after, h, hbefore, hv, hf⟩ |
      ⟨hread, before, name, raw, decimals, after, h, hbefore, hf⟩)
    · have hread := readEntry_eq_error.mpr (mapM_eq_error.mpr
        ⟨before, field, after, h, hbefore, WholeField.read_eq_error.mpr ⟨_, hv, hf⟩⟩)
      rw [hread, error_bind]
    · rw [hread, ok_bind, bind_ok_eq_error]
      exact forM_eq_error.mpr ⟨before, (name, raw, decimals), after, h,
        fun a ha => checkAmount_eq_ok.mpr (hbefore a ha), checkAmount_eq_error.mpr ⟨_, hf, rfl⟩⟩

/-! ## Entries that give numbers and numerals -/

/-- The bins and decimals that the entry gives are whole numbers or text. -/
def GivesNumerals (entry : Entry) : Prop :=
  ∀ field ∈ wholeFields, ∀ v, Value.lookup field.name entry = some v →
    v.kind = .whole ∨ v.kind = .text

/-- No amount of a token without decimals is too large for a number. -/
def FitsRange (entry : Entry) : Prop :=
  ∀ name ∈ amountFields, decimalsOf entry name = .ok 0 →
    ¬ IsTooLarge (Amount.exact (rawField entry name) 0)

/-- What is wrong with an entry: a bin or decimals that are no whole number, decimals below zero,
or an amount with a fault of value. -/
inductive Violates (entry : Entry) : Prop where
  | field (field : WholeField) (hfield : field ∈ wholeFields) (v : Value)
      (h : Value.lookup field.name entry = some v) (hv : ∀ n, ¬ v.IsWhole n)
  | negative (field : WholeField) (hfield : field ∈ decimalsFields) (n : Int)
      (h : field.Gives entry n) (hn : n < 0)
  | amount (name : String) (hname : name ∈ amountFields) (decimals : Int) (f : Fault)
      (hdecimals : decimalsOf entry name = .ok decimals)
      (h : Amount.ofRaw (α := Number) (rawField entry name) decimals = .error f)
      (hf : f.isValueFault = true)

/-- The decimals of an accepted position are not negative. -/
theorem decimals_nonneg (h : ofEntry entry = .ok p) :
    ∀ field ∈ decimalsFields, 0 ≤ field.value p := by
  obtain ⟨-, -, hamounts⟩ := ofEntry_iff.mp h
  simp only [amounts, List.forall_mem_cons] at hamounts
  obtain ⟨hx, hy, -⟩ := hamounts
  simp only [decimalsFields, List.forall_mem_cons]
  exact ⟨hx.nonneg, hy.nonneg, fun field h => absurd h List.not_mem_nil⟩

theorem gives_of_ofEntry (hnumerals : GivesNumerals entry) (h : ofEntry entry = .ok p) :
    ∀ field ∈ wholeFields, field.Gives entry (field.value p) := by
  intro field hfield
  obtain ⟨-, hread, -⟩ := ofEntry_iff.mp h
  rcases WholeField.read_eq_ok.mp (read_of_readEntry hread field hfield) with h | ⟨v, hv, hcoerced⟩
  · exact h
  · exact .whole v hv (Value.isWhole_of_kind (Value.toWhole_eq_ok.mpr (.inr hcoerced))
      (hnumerals field hfield v hv))

/-- Of an accepted entry with numbers and numerals nothing is wrong. -/
theorem not_violates_of_ofEntry (hnumerals : GivesNumerals entry) (h : ofEntry entry = .ok p) :
    ¬ Violates entry := by
  have hgives := gives_of_ofEntry hnumerals h
  rintro (⟨field, hfield, v, hv, hnot⟩ | ⟨field, hfield, n, hn, hneg⟩ |
    ⟨name, hname, decimals, f, hdecimals, hf, -⟩)
  · rcases hgives field hfield with ⟨hnone, -⟩ | ⟨w, hw, hwhole⟩
    · rw [hnone] at hv
      cases hv
    · obtain rfl := Option.some.inj (hw.symm.trans hv)
      exact hnot _ hwhole
  · have hvalue := decimals_nonneg h field hfield
    have hsame := WholeField.read_eq_ok.mpr (.inl (hgives field (List.mem_append_left _ hfield)))
    rw [WholeField.read_eq_ok.mpr (.inl hn)] at hsame
    obtain rfl := Except.ok.inj hsame
    omega
  · obtain ⟨a, hdecimals', hamount⟩ := exists_of_forall₂_left (converted_of_ofEntry h) hname
    obtain rfl := Except.ok.inj (hdecimals.symm.trans hdecimals')
    rw [hf] at hamount
    cases hamount

/-- An entry with numbers and numerals in range is refused with a fault of value, if at all. -/
theorem isValueFault_of_failsWith (hnumerals : GivesNumerals entry) (hrange : FitsRange entry)
    (h : FailsWith entry f) : f.isValueFault = true := by
  rcases h with ⟨before, field, after, hfields, -, hv, hf⟩ |
    ⟨hread, before, name, raw, decimals, after, hamounts, -, hf⟩
  · have hmem : field ∈ wholeFields := hfields ▸ List.mem_append_right _ List.mem_cons_self
    have hcategory := Value.category_of_toWhole hf
    rw [Value.refusal_of_kind (hnumerals field hmem _ hv)] at hcategory
    rw [Fault.isValueFault, hcategory]
    rfl
  · rcases Amount.ofRaw_eq_error hf with hvalue | ⟨-, rfl, hlarge⟩
    · rw [if_pos hvalue]
      rfl
    · obtain ⟨other, hother, hname, hraw, hdecimals⟩ :=
        exists_of_forall₂_right (amounts_of_readEntry hread)
          (hamounts ▸ List.mem_append_right _ List.mem_cons_self)
      have hsame : raw = rawField entry other := hraw
      rw [hsame] at hlarge
      exact absurd hlarge (hrange other hother hdecimals)

/-- **Bins and decimals of accepted entries.** Take any entry with all required fields. If it is
accepted, each of its bins and decimals is left out and has the default, or is the whole number that
the entry gives, or was made of what it gives; decimals are not negative, and the position is in
range just if the active bin lies between the others. If it is refused, the first field that cannot
be read or converted tells why. Entries that give bins and decimals as whole numbers or text are
accepted with exactly these numbers; and unless an amount without decimals is too large, whatever is
wrong with such an entry has it refused, with a fault of value. -/
theorem ofEntry_wholeFields (entry : Entry) (hpresent : missingFields entry = []) :
    (∀ p, ofEntry entry = .ok p →
      (∀ field ∈ wholeFields,
        field.Gives entry (field.value p) ∨ field.Coerces entry (field.value p)) ∧
      (∀ field ∈ decimalsFields, 0 ≤ field.value p) ∧
      p.inRange = .ok (decide (p.lowerBin ≤ p.activeBin ∧ p.activeBin ≤ p.upperBin))) ∧
    (∀ f, ofEntry entry = .error f ↔ FailsWith entry f) ∧
    (GivesNumerals entry →
      (∀ p, ofEntry entry = .ok p → ∀ field ∈ wholeFields, field.Gives entry (field.value p)) ∧
      (FitsRange entry → (∀ f, ofEntry entry = .error f → f.isValueFault = true) ∧
        (Violates entry → ∃ f, ofEntry entry = .error f ∧ f.isValueFault = true))) := by
  refine ⟨fun p h => ⟨fun field hfield => ?_, decimals_nonneg h, p.inRange_eq⟩,
    fun f => ofEntry_eq_error hpresent, fun hnumerals =>
    ⟨fun p h => gives_of_ofEntry hnumerals h, fun hrange => ?_⟩⟩
  · obtain ⟨-, hread, -⟩ := ofEntry_iff.mp h
    exact WholeField.read_eq_ok.mp (read_of_readEntry hread field hfield)
  · have hvalue : ∀ f, ofEntry entry = .error f → f.isValueFault = true := fun f h =>
      isValueFault_of_failsWith hnumerals hrange ((ofEntry_eq_error hpresent).mp h)
    refine ⟨hvalue, fun hviolates => ?_⟩
    cases h : ofEntry entry with
    | ok p => exact absurd hviolates (not_violates_of_ofEntry hnumerals h)
    | error f => exact ⟨f, rfl, hvalue f h⟩

/-- An entry with these bins, and only what is required beside them. -/
def binsEntry (lower upper active : Value) : Entry :=
  [("position_id", .text "P"), ("pool_address", .text "A"), ("token_x_mint", .text "X"),
    ("token_y_mint", .text "Y"), ("lower_bin_id", lower), ("upper_bin_id", upper),
    ("active_bin_id", active)]

theorem missingFields_binsEntry (lower upper active : Value) :
    missingFields (binsEntry lower upper active) = [] := rfl

theorem fitsRange_binsEntry (lower upper active : Value) :
    FitsRange (binsEntry lower upper active) := by
  intro name hname hdecimals
  have hnine : decimalsOf (binsEntry lower upper active) name = .ok 9 := by
    simp only [amountFields, List.mem_cons, List.not_mem_nil, or_false] at hname
    have hx : decimalsField name = "token_x_decimals" ∨
        decimalsField name = "token_y_decimals" := by
      rw [decimalsField]
      split
      · exact .inl rfl
      · exact .inr rfl
    rw [decimalsOf]
    rcases hx with hx | hx <;> rw [hx] <;> rfl
  rw [hnine] at hdecimals
  cases hdecimals

theorem givesNumerals_binsEntry {lower upper active : Value}
    (h : ∀ v ∈ [lower, upper, active], v.kind = .whole ∨ v.kind = .text) :
    GivesNumerals (binsEntry lower upper active) := by
  simp only [List.forall_mem_cons] at h
  obtain ⟨hlower, hupper, hactive, -⟩ := h
  simp only [GivesNumerals, wholeFields, decimalsFields, List.cons_append, List.nil_append,
    List.forall_mem_cons]
  refine ⟨?_, ?_, ?_, ?_, ?_, nofun⟩
  all_goals
    rintro v hv
    cases hv
    try assumption

/-- Bins that are given as text, and a bin that is none. -/
theorem ofEntry_wholeFields_sample :
    (∃ p, ofEntry (binsEntry (.text "-5") (.text "5") (.whole 0)) = .ok p ∧
      (∀ field ∈ wholeFields, field.Gives (binsEntry (.text "-5") (.text "5") (.whole 0))
        (field.value p)) ∧ p.inRange = .ok true) ∧
    ∃ f, ofEntry (binsEntry (.text "low") (.text "5") (.whole 0)) = .error f ∧
      f.isValueFault = true := by
  have hkinds : ∀ low : Text, GivesNumerals (binsEntry (.text low) (.text "5") (.whole 0)) :=
    fun low => givesNumerals_binsEntry (by simp [Value.kind, Number.kind, Value.whole])
  obtain ⟨haccepted, -, hgives⟩ := ofEntry_wholeFields _
    (missingFields_binsEntry (.text "-5") (.text "5") (.whole 0))
  obtain ⟨-, -, hrefused⟩ := ofEntry_wholeFields _
    (missingFields_binsEntry (.text "low") (.text "5") (.whole 0))
  obtain ⟨p, hp⟩ : ∃ p, ofEntry (binsEntry (.text "-5") (.text "5") (.whole 0)) = .ok p :=
    exists_of_isSome_toOption (by decide +kernel)
  refine ⟨⟨p, hp, (hgives (hkinds _)).1 p hp, ?_⟩, ?_⟩
  · have hrange : (do (← ofEntry (binsEntry (.text "-5") (.text "5") (.whole 0))).inRange).toOption
        = some true := by decide +kernel
    rw [hp, ok_bind, (haccepted p hp).2.2] at hrange
    rw [(haccepted p hp).2.2]
    exact congrArg Except.ok (Option.some.inj hrange)
  · refine ((hrefused (hkinds _)).2 (fitsRange_binsEntry _ _ _)).2
      (.field ⟨"lower_bin_id", 0, lowerBin⟩ (by simp [wholeFields]) (.text "low") rfl ?_)
    intro n hn
    have hread := Value.toWhole_eq_ok.mpr (.inl hn)
    have hnone : (Value.toWhole (.text "low")).toOption = none := by decide +kernel
    rw [hread] at hnone
    cases hnone

/-- One half. -/
def half : Binary64 := Binary64.ofRatio false 1 2

/-- A bin of one half is taken for zero, and then the position is in range, though the active bin
lies below it. Nothing at all and an infinity are refused, but not with a fault of value. -/
theorem ofEntry_half_bin : half.toRat? = some (1 / 2) ∧
    (∃ p, ofEntry (binsEntry (.real half) (.whole 0) (.whole 0)) = .ok p ∧ p.lowerBin = 0 ∧
      p.inRange = .ok true) ∧
    (ofEntry (binsEntry .null (.whole 0) (.whole 0)) = .error (.notReadableAsWhole .null) ∧
      (Fault.notReadableAsWhole .null).isValueFault = false) ∧
    ofEntry (binsEntry (.real (.infinite false)) (.whole 0) (.whole 0)) = .error .infinityAsWhole ∧
    Fault.infinityAsWhole.isValueFault = false := by
  have hbins : (ofEntry (binsEntry (.real half) (.whole 0) (.whole 0))).toOption.map
      (fun p => (p.lowerBin, p.inRange.toOption)) = some (0, some true) := by decide +kernel
  obtain ⟨p, hp⟩ : ∃ p, ofEntry (binsEntry (.real half) (.whole 0) (.whole 0)) = .ok p :=
    exists_of_isSome_toOption (by decide +kernel)
  rw [hp] at hbins
  obtain ⟨hlower, hrange⟩ := Prod.mk.inj (Option.some.inj hbins)
  rw [p.inRange_eq] at hrange
  refine ⟨by decide +kernel, ⟨p, hp, hlower, ?_⟩, ⟨rfl, rfl⟩, rfl, rfl⟩
  rw [p.inRange_eq]
  exact congrArg Except.ok (Option.some.inj hrange)

end Position

end LiquidityWatch
