import LiquidityWatch.Proofs.LookupOutcomes

/-! # Prices by entry

Each token should have the price of its own entry, whatever the other entries hold. Reading an
answer goes from token to token and ends at the first entry that is malformed
(`Lookup.Malformed`): the tokens before it have their own prices, and all others are left at zero.
So the prices are those of the entries as long as no entry that is asked for is malformed
(`Lookup.prices_of_entries`); the keys are the tokens that were asked for in any case. -/

namespace LiquidityWatch

namespace Lookup

open Value Run

/-! ## Entries -/

/-- The price that an object gives; null is none. -/
def givenPrice (fields : List (Text × Value)) : Option Value :=
  match lookup "price" fields with
  | some .null => none
  | found => found

/-- The entry of a token cannot be read: it counts as true but is no object, or it gives a price
that is no number. -/
inductive Malformed : Option Value → Fault → Prop
  | notObject {entry : Value} (htrue : entry.isTruthy = true)
    (h : ∀ fields, entry ≠ .object fields) : Malformed (some entry) (.withoutFields entry.kind)
  | price {fields : List (Text × Value)} {v : Value} {f : Fault} (h : givenPrice fields = some v)
    (hf : v.toReal = .error f) : Malformed (some (.object fields)) f

/-- The price of a token by its entry: the one that it gives, if it is an object and the price is a
number, and zero otherwise. -/
def listedPrice : Option Value → Number
  | some (.object fields) => match (givenPrice fields).map toReal with
    | some (.ok x) => .real x
    | _ => .real .zero
  | _ => .real .zero

/-- What is read of the price in an entry. -/
def entryPrice (entry : Option Value) : Except Fault (Option Number) := do
  match ← ((entry.getD .null).orElse .nothing).field? "price" with
  | none | some .null => return none
  | some price => return some (.real (← price.toReal))

theorem priceOf_object (entries : List (Text × Value)) (mint : Text) :
    priceOf (.object entries) mint = entryPrice (lookup mint entries) := rfl

/-- What comes of an entry that is an object. -/
theorem entryPrice_object (fields : List (Text × Value)) :
    entryPrice (some (.object fields)) = match givenPrice fields with
      | none => .ok none
      | some price => do return some (.real (← price.toReal)) := by
  have hobject : entryPrice (some (.object fields)) = match lookup "price" fields with
      | none | some .null => .ok none
      | some price => do return some (.real (← price.toReal)) := by
    cases fields <;> rfl
  rw [hobject, givenPrice]
  cases lookup "price" fields with
  | none => rfl
  | some v => cases v <;> rfl

/-- What comes of an entry that is no object. -/
theorem entryPrice_notObject {entry : Value} (h : ∀ fields, entry ≠ .object fields) :
    entryPrice (some entry) =
      if entry.isTruthy then .error (.withoutFields entry.kind) else .ok none := by
  rw [entryPrice, Option.getD_some, orElse]
  by_cases htrue : entry.isTruthy
  · rw [if_pos htrue, if_pos htrue]
    cases entry with
    | object fields => exact absurd rfl (h fields)
    | _ => rfl
  · rw [if_neg htrue, if_neg htrue]
    rfl

theorem listedPrice_notObject {entry : Value} (h : ∀ fields, entry ≠ .object fields) :
    listedPrice (some entry) = .real .zero := by
  cases entry with
  | object fields => exact absurd rfl (h fields)
  | _ => rfl

/-- An entry gives its listed price, unless it is malformed. -/
theorem ends_entryPrice (entry : Option Value) :
    Ends (fun found => found.getD (.real .zero) = listedPrice entry ∧ ∀ f, ¬ Malformed entry f)
      (Malformed entry) (entryPrice entry) := by
  cases entry with
  | none => exact ⟨rfl, nofun⟩
  | some entry =>
    by_cases hobject : ∃ fields, entry = .object fields
    · obtain ⟨fields, rfl⟩ := hobject
      rw [entryPrice_object, listedPrice]
      cases hprice : givenPrice fields with
      | none =>
        refine ⟨rfl, fun f hf => ?_⟩
        cases hf with
        | notObject _ hne => exact hne fields rfl
        | price h _ => cases hprice.symm.trans h
      | some v =>
        rw [Option.map_some]
        dsimp only
        cases hv : v.toReal with
        | error f => exact Malformed.price hprice hv
        | ok x =>
          refine ⟨rfl, fun f hf => ?_⟩
          cases hf with
          | notObject _ hne => exact hne fields rfl
          | price h hf =>
            obtain rfl := Option.some.inj (hprice.symm.trans h)
            cases hv.symm.trans hf
    · have hne : ∀ fields, entry ≠ .object fields := fun fields h => hobject ⟨fields, h⟩
      rw [entryPrice_notObject hne, listedPrice_notObject hne]
      by_cases htrue : entry.isTruthy
      · rw [if_pos htrue]
        exact .notObject htrue hne
      · rw [if_neg htrue]
        refine ⟨rfl, fun f hf => ?_⟩
        cases hf with
        | notObject h => exact htrue h
        | price => exact hne _ rfl

/-- Only one fault can be met in an entry. -/
theorem Malformed.unique {entry : Option Value} {f g : Fault} (hf : Malformed entry f)
    (hg : Malformed entry g) : f = g := by
  cases hf with
  | notObject htrue hne =>
    cases hg with
    | notObject => rfl
    | price => exact absurd rfl (hne _)
  | price h hv =>
    cases hg with
    | notObject _ hne => exact absurd rfl (hne _)
    | price h' hv' =>
      obtain rfl := Option.some.inj (h.symm.trans h')
      exact Except.error.inj (hv.symm.trans hv')

theorem entryPrice_eq_error {entry : Option Value} {f : Fault} :
    entryPrice entry = .error f ↔ Malformed entry f := by
  have hends := ends_entryPrice entry
  cases hprice : entryPrice entry with
  | ok found =>
    rw [hprice] at hends
    exact ⟨nofun, fun hf => absurd hf (hends.2 f)⟩
  | error g =>
    rw [hprice] at hends
    constructor
    · intro h
      obtain rfl := Except.error.inj h
      exact hends
    · intro hf
      rw [hf.unique hends]

/-- What is read of an entry that is not malformed. -/
theorem exists_entryPrice {entry : Option Value} (h : ∀ f, ¬ Malformed entry f) :
    ∃ found, entryPrice entry = .ok found ∧ found.getD (.real .zero) = listedPrice entry := by
  have hends := (ends_entryPrice entry).mono (fun found hfound => hfound.1) h
  exact hends.exists_ok

/-! ## Walking through the tokens -/

section Filling

variable {entries : List (Text × Value)} {known : Ledger Text Number}

/-- No entry of these tokens is malformed. -/
def WellFormed (entries : List (Text × Value)) (mints : List Text) : Prop :=
  ∀ mint ∈ mints, ∀ f, ¬ Malformed (lookup mint entries) f

/-- Reading goes on behind tokens without a fault. -/
theorem fillPrices_append {before : List Text} (h : WellFormed entries before)
    (rest : List Text) (known : Ledger Text Number) :
    fillPrices (.object entries) (before ++ rest) known =
      fillPrices (.object entries) rest (fillPrices (.object entries) before known).1 := by
  induction before generalizing known with
  | nil => rfl
  | cons mint before ih =>
    obtain ⟨hmint, hbefore⟩ := List.forall_mem_cons.mp h
    obtain ⟨found, hfound, -⟩ := exists_entryPrice hmint
    rw [List.cons_append, fillPrices, fillPrices, priceOf_object, hfound]
    cases found with
    | none => exact ih hbefore known
    | some price => exact ih hbefore _

/-- Reading ends well where no entry is malformed. -/
theorem fillPrices_wellFormed {mints : List Text} (h : WellFormed entries mints) :
    (fillPrices (.object entries) mints known).2 = none := by
  have hall := fillPrices_append h [] known
  rw [List.append_nil] at hall
  rw [hall]
  rfl

/-- Tokens that are not read keep their prices. -/
theorem get?_fillPrices_of_not_mem {mints : List Text} {mint : Text} (h : mint ∉ mints) :
    (fillPrices (.object entries) mints known).1.get? mint = known.get? mint := by
  induction mints generalizing known with
  | nil => rfl
  | cons first rest ih =>
    obtain ⟨hfirst, hrest⟩ := not_or.mp (mt List.mem_cons.mpr h)
    rw [fillPrices]
    split
    · rfl
    · exact ih hrest
    · rw [ih hrest, Ledger.get?_insert, if_neg (by simpa using Ne.symm hfirst)]

/-- Reading enters no new tokens. -/
theorem keys_fillPrices {mints : List Text} (h : ∀ mint ∈ mints, mint ∈ known.keys) :
    (fillPrices (.object entries) mints known).1.keys = known.keys := by
  induction mints generalizing known with
  | nil => rfl
  | cons first rest ih =>
    obtain ⟨hfirst, hrest⟩ := List.forall_mem_cons.mp h
    rw [fillPrices]
    split
    · rfl
    · exact ih hrest
    · rename_i price _
      have hkeys := Ledger.keys_insert_of_mem hfirst price
      rw [ih (by rw [hkeys]; exact hrest), hkeys]

/-- Where no entry is malformed, every token that is read has its own price. -/
theorem get?_fillPrices_wellFormed {mints : List Text} (h : WellFormed entries mints) {mint : Text}
    (hmint : mint ∈ mints) (hknown : known.get? mint = some (.real .zero)) :
    (fillPrices (.object entries) mints known).1.get? mint =
      some (listedPrice (lookup mint entries)) := by
  obtain ⟨found, hfound, hlisted⟩ := exists_entryPrice (h mint hmint)
  rcases get?_fillPrices (.object entries) mints known mint with
    ⟨hget, hnone⟩ | ⟨price, hprice, hget⟩
  · have hprice := hnone (fillPrices_wellFormed h) hmint
    rw [priceOf_object, hfound] at hprice
    rw [hget, hknown, ← hlisted, Except.ok.inj hprice]
    rfl
  · rw [priceOf_object, hfound] at hprice
    rw [hget, ← hlisted, Except.ok.inj hprice]
    rfl

end Filling

/-! ## Answers -/

theorem keys_unpriced (mints : List Text) : (unpriced mints).keys = mints.eraseDups := by
  rw [unpriced, Ledger.keys_ofList, List.map_map]
  exact congrArg List.eraseDups (List.map_id mints)

/-- What is wrong with an entry is recovered from, unless it is a number out of range. -/
theorem Malformed.isRecoverable {entry : Option Value} {f : Fault} (h : Malformed entry f)
    (hrange : f ≠ .wholeTooLarge) : f.isRecoverable = true := by
  cases h with
  | notObject => rfl
  | price _ hf =>
    rcases toReal_eq_error hf with ⟨-, hlarge⟩ | htype | hvalue
    · exact absurd hlarge hrange
    · simp [Fault.isRecoverable, htype]
    · simp [Fault.isRecoverable, Fault.isValueFault, hvalue]

variable {entries : List (Text × Value)} {mints : List Text}

/-- The entries in a response whose document is an object with an object as its data. -/
def entriesIn (response : Response) : Option (List (Text × Value)) :=
  match readResponse response with
  | .ok (.object fields) => match lookup "data" fields with
    | some (.object entries) => some entries
    | _ => none
  | _ => none

theorem readPrices_object {fields : List (Text × Value)}
    (h : lookup "data" fields = some (.object entries)) :
    readPrices (.object fields) mints = fillPrices (.object entries) mints (unpriced mints) := by
  have hdata : dataField (.object fields) = .ok (.object entries) := by
    cases fields with
    | nil => cases h
    | cons first rest =>
      show Except.ok ((lookup "data" (first :: rest)).getD .null) = _
      rw [h]
      rfl
  have hentries : orElse (.object entries) .nothing = .object entries := by
    cases entries <;> rfl
  rw [readPrices, hdata]
  dsimp only
  rw [hentries]

/-- Prices are read among the entries in a response. -/
theorem pricesIn_of_entriesIn {response : Response} (h : entriesIn response = some entries) :
    pricesIn mints (readResponse response) =
      fillPrices (.object entries) mints (unpriced mints) := by
  rw [entriesIn] at h
  split at h
  · rename_i fields hdocument
    split at h
    · rename_i found hfound
      obtain rfl := Option.some.inj h
      rw [hdocument, pricesIn, readPrices_object hfound]
    · cases h
  · cases h

/-- Tokens at the price zero have a price before anything is read. -/
theorem mem_keys_unpriced : ∀ mint ∈ mints, mint ∈ (unpriced mints).keys := by
  intro mint h
  rw [keys_unpriced]
  exact List.mem_eraseDups.mpr h

/-- The prices that are read among entries: the keys are the tokens. Each token has the price of its
own entry, up to the first entry that is malformed; the others have none. -/
structure PricesAmong (entries : List (Text × Value)) (mints : List Text)
    (found : Ledger Text Number) : Prop where
  keys : found.keys = mints.eraseDups
  own : WellFormed entries mints → ∀ mint ∈ mints,
    found.get? mint = some (listedPrice (lookup mint entries))
  before : ∀ before bad after f, mints = before ++ bad :: after → WellFormed entries before →
    Malformed (lookup bad entries) f → ∀ mint ∈ mints, found.get? mint =
      some (if mint ∈ before then listedPrice (lookup mint entries) else .real .zero)

theorem pricesAmong_fillPrices :
    PricesAmong entries mints (fillPrices (.object entries) mints (unpriced mints)).1 where
  keys := (keys_fillPrices mem_keys_unpriced).trans (keys_unpriced mints)
  own h mint hmint := get?_fillPrices_wellFormed h hmint (get?_unpriced hmint)
  before := by
    rintro before bad after f rfl hbefore hbad mint hmint
    have hknown := get?_unpriced hmint
    generalize unpriced (before ++ bad :: after) = known at hknown
    have hstops : (fillPrices (.object entries) (before ++ bad :: after) known).1 =
        (fillPrices (.object entries) before known).1 := by
      rw [fillPrices_append hbefore, fillPrices, priceOf_object, entryPrice_eq_error.mpr hbad]
    rw [hstops]
    by_cases hmem : mint ∈ before
    · rw [if_pos hmem]
      exact get?_fillPrices_wellFormed hbefore hmem hknown
    · rw [if_neg hmem, get?_fillPrices_of_not_mem hmem, hknown]

/-- **Prices by entry.** Where requests can be sent and the response is an object with an object of
entries, in which no price that is asked for is out of range, prices are found for exactly the
tokens that were asked for, each once and in the order of the request. If no entry of these tokens
is malformed, each has the price of its own entry, whatever the others hold and whatever the order
is. In any case the tokens before the first malformed entry do, and all others are at zero. -/
theorem prices_of_entries {w : World} (hw : w.Ready)
    (hentries : entriesIn (w.reply (Endpoint.prices mints)) = some entries)
    (hrange : ∀ mint ∈ mints, ¬ Malformed (lookup mint entries) .wholeTooLarge) :
    ∃ found, ((prices mints).result w).1 = .ok found ∧ PricesAmong entries mints found := by
  refine ⟨_, ?_, pricesAmong_fillPrices⟩
  by_cases hmints : mints = []
  · subst hmints
    rfl
  · rw [(asksOnce_prices hmints).outcome hw]
    show pricesKept (pricesIn mints (readResponse (w.reply (Endpoint.prices mints)))) = _
    rw [pricesIn_of_entriesIn hentries, pricesKept]
    cases hfault : (fillPrices (.object entries) mints (unpriced mints)).2 with
    | none => rfl
    | some f =>
      obtain ⟨mint, hmint, hprice⟩ := exists_of_fillPrices hfault
      have hbad := entryPrice_eq_error.mp hprice
      have hf : f ≠ .wholeTooLarge := by
        rintro rfl
        exact hrange mint hmint hbad
      dsimp only
      rw [if_pos (hbad.isRecoverable hf)]

/-- A world that knows two tokens: what is given as the price of one, and that of the other. -/
def twoPrices (first : String) : World :=
  answering ("\x7b\"data\": \x7b\"A\": \x7b\"price\": " ++ first ++
    "\x7d, \"B\": \x7b\"price\": \"2\"\x7d\x7d\x7d")

/-- A price that is a whole number. -/
def wholePrice (n : Nat) : Number := .real (Binary64.ofRatio false n 1)

/-- Where both prices are numbers, both are found. -/
theorem prices_of_entries_two : (twoPrices "1").Ready ∧ ∃ found,
    ((prices ["B", "A", "B"]).result (twoPrices "1")).1 = .ok found ∧ found.keys = ["B", "A"] ∧
      found.get? "A" = some (wholePrice 1) ∧ found.get? "B" = some (wholePrice 2) := by
  have hready : (twoPrices "1").Ready := World.ready_start ..
  obtain ⟨entries, hentries⟩ : ∃ entries,
      entriesIn ((twoPrices "1").reply (Endpoint.prices ["B", "A", "B"])) = some entries :=
    Option.isSome_iff_exists.mp (by decide +kernel)
  have hread : (entriesIn ((twoPrices "1").reply (Endpoint.prices ["B", "A", "B"]))).map
      (fun entries => (["A", "B"] : List Text).map fun mint =>
        (entryPrice (lookup mint entries)).toOption) =
      some [some (some (wholePrice 1)), some (some (wholePrice 2))] := by decide +kernel
  rw [hentries] at hread
  obtain ⟨hA, hrest⟩ := List.cons.inj (Option.some.inj hread)
  obtain ⟨hB, -⟩ := List.cons.inj hrest
  have hwell : ∀ {mint : Text} {found : Option Number},
      (entryPrice (lookup mint entries)).toOption = some found →
      (∀ f, ¬ Malformed (lookup mint entries) f) ∧
        found.getD (.real .zero) = listedPrice (lookup mint entries) := by
    intro mint found h
    have hends := ends_entryPrice (lookup mint entries)
    cases hprice : entryPrice (lookup mint entries) with
    | error f => rw [hprice] at h; cases h
    | ok price =>
      rw [hprice] at h hends
      obtain rfl := Option.some.inj h
      exact ⟨hends.2, hends.1⟩
  have hwells : WellFormed entries ["B", "A", "B"] := by
    intro mint hmint
    simp only [List.mem_cons, List.not_mem_nil, or_false] at hmint
    rcases hmint with rfl | rfl | rfl
    · exact (hwell hB).1
    · exact (hwell hA).1
    · exact (hwell hB).1
  obtain ⟨found, hfound, hamong⟩ :=
    prices_of_entries hready hentries fun mint hmint => hwells mint hmint _
  refine ⟨hready, found, hfound, hamong.keys.trans (by decide), ?_, ?_⟩
  · rw [hamong.own hwells "A" (by decide), ← (hwell hA).2]
    rfl
  · rw [hamong.own hwells "B" (by decide), ← (hwell hB).2]
    rfl

/-- A price that is no number takes the other token's price with it, unless that is read before. -/
theorem prices_first_malformed :
    (entriesIn ((twoPrices "\"x\"").reply (Endpoint.prices ["A", "B"]))).map
        (fun entries => listedPrice (lookup "B" entries)) = some (wholePrice 2) ∧
      Ends (fun found => found.get? "B" = some (.real .zero)) (fun _ => False)
        ((prices ["A", "B"]).result (twoPrices "\"x\"")).1 ∧
      Ends (fun found => found.get? "B" = some (wholePrice 2)) (fun _ => False)
        ((prices ["B", "A"]).result (twoPrices "\"x\"")).1 := by
  decide +kernel

end Lookup

end LiquidityWatch
