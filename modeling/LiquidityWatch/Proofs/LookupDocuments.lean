import LiquidityWatch.Proofs.Documents
import LiquidityWatch.Proofs.Ledger
import LiquidityWatch.Proofs.Requests

/-! # Reading the documents of lookups

What every lookup reads in the document of a response, and what can go wrong there. Names and rows
of candles are only looked up; whatever is read as a number can be out of range. Prices are read one
after the other, up to the first fault. -/

namespace LiquidityWatch.Lookup

open Value Run

variable {document : Value}

/-! ## Documents -/

theorem looks_dataField (document : Value) : Looks document.PartOf document.dataField :=
  looks_fieldD ((PartOf.refl document).orElse inRange_nothing) "data" inRange_null

theorem looks_attributesOf (document : Value) : Looks document.PartOf (attributesOf document) :=
  (looks_dataField document).bind fun _ hdata =>
    looks_fieldD (hdata.orElse inRange_nothing) "attributes" inRange_nothing

theorem looks_nameIn (document : Value) : Looks document.PartOf (nameIn document) :=
  (looks_attributesOf document).bind fun _ h => looks_fieldD h "name" inRange_null

theorem looks_rowsIn (document : Value) :
    Looks (fun rows => ∀ row ∈ rows, document.PartOf row) (rowsIn document) := by
  refine (looks_attributesOf document).bind fun attributes h => ?_
  refine (looks_fieldD h "ohlcv_list" inRange_null).bind fun rows hrows => ?_
  exact looks_elements (hrows.orElse inRange_nil)

theorem reads_reserveOf {pool : Value} (h : document.PartOf pool) :
    document.Reads (fun _ => True) (reserveOf pool) := by
  refine (looks_fieldD h "attributes" inRange_null).reads.bind fun attributes hattributes => ?_
  have hfields := hattributes.orElse inRange_nothing
  refine (looks_fieldD hfields "reserve_in_usd" inRange_null).reads.bind fun reserve hreserve => ?_
  exact reads_toReal (hreserve.orElse inRange_zero)

/-- The greatest of the candidates is one of them. -/
theorem greatest_mem {α : Type} (best : α × Binary64) (candidates : List (α × Binary64)) :
    greatest best candidates ∈ (best :: candidates).map Prod.fst := by
  induction candidates generalizing best with
  | nil => exact List.mem_cons_self
  | cons next rest ih =>
    rw [greatest]
    split
    · exact List.mem_cons_of_mem _ (ih next)
    · rcases List.mem_cons.mp (ih best) with h | h
      · rw [h]
        exact List.mem_cons_self
      · exact List.mem_cons_of_mem _ (List.mem_cons_of_mem _ h)

theorem reads_mostLiquid {pools : List Value} (h : ∀ pool ∈ pools, document.PartOf pool) :
    document.Reads (fun _ => True) (mostLiquid pools) := by
  have hmeasured : document.Reads
      (fun measured : List (Value × Binary64) => ∀ m ∈ measured, document.PartOf m.1)
      (pools.mapM fun pool => do return (pool, ← reserveOf pool)) :=
    Ends.mapM fun pool hpool => (reads_reserveOf (h pool hpool)).bind fun _ _ => h pool hpool
  refine hmeasured.bind fun measured hmeasured => ?_
  cases measured with
  | nil => trivial
  | cons first rest =>
    have hgreatest : document.PartOf (greatest first rest) := by
      obtain ⟨m, hm, heq⟩ := List.mem_map.mp (greatest_mem first rest)
      rw [← heq]
      exact hmeasured m hm
    refine (looks_item hgreatest "attributes").reads.bind fun attributes hattributes => ?_
    exact (looks_item hattributes "address").reads_any

theorem reads_poolIn (document : Value) : document.Reads (fun _ => True) (poolIn document) := by
  refine (looks_dataField document).reads.bind fun data hdata => ?_
  exact (looks_elements (hdata.orElse inRange_nil)).reads.bind fun _ h => reads_mostLiquid h

theorem reads_numberField {entry : Value} (h : document.PartOf entry) (name : String) :
    document.Reads (fun _ => True) (Deposit.numberField entry name : Except Fault Number) :=
  (looks_fieldD h name inRange_zero).reads.bind fun _ hv =>
    (reads_toReal (hv.orElse inRange_zero)).bind fun _ _ => trivial

theorem reads_ofRecord {entry : Value} (h : document.PartOf entry) :
    document.Reads (fun _ => True) (Deposit.ofRecord entry : Except Fault (Deposit Number)) :=
  (reads_numberField h _).bind fun _ _ => (reads_numberField h _).bind fun _ _ =>
    (reads_numberField h _).bind fun _ _ => (reads_numberField h _).bind fun _ _ =>
    (reads_numberField h _).bind fun _ _ => (reads_numberField h _).bind fun _ _ => trivial

theorem reads_firstDeposit (document : Value) :
    document.Reads (fun _ => True) (firstDeposit document) := by
  rw [firstDeposit.eq_def]
  split
  · rename_i first rest
    have hfirst : (Value.list (first :: rest)).PartOf first :=
      (PartOf.refl _).of_item List.mem_cons_self
    exact (reads_ofRecord hfirst).bind fun _ _ => trivial
  · trivial

theorem reads_feeInfo (document : Value) :
    document.Reads (fun _ => True) (FeeInfo.ofAnswer document) := by
  have hdocument := PartOf.refl document
  refine (looks_item hdocument FeeInfo.baseField).reads.bind fun base hbase => ?_
  refine (reads_toReal hbase).bind fun _ _ => ?_
  refine (looks_fieldD hdocument FeeInfo.maxField inRange_null).reads.bind fun max hmax => ?_
  refine (reads_toReal (hmax.orElse inRange_zero)).bind fun _ _ => ?_
  exact (looks_fieldD hdocument FeeInfo.nameField (inRange_text "")).reads.bind fun _ _ => trivial

theorem reads_priceOf {entries : Value} (h : document.PartOf entries) (mint : Text) :
    document.Reads (fun _ => True) (priceOf entries mint) := by
  refine (looks_fieldD h mint inRange_null).reads.bind fun entry hentry => ?_
  refine (looks_field? (hentry.orElse inRange_nothing) "price").reads.bind fun found hfound => ?_
  split
  · trivial
  · trivial
  · exact (reads_toReal (hfound _ rfl)).bind fun _ _ => trivial

/-! ## Prices -/

theorem eq_zero_of_unpriced {mints : List Text} {mint : Text} {price : Number}
    (h : (unpriced mints).get? mint = some price) : price = .real .zero := by
  obtain ⟨_, hmem, -⟩ := Ledger.exists_of_get?_ofList h
  obtain ⟨_, -, heq⟩ := List.mem_map.mp hmem
  exact (Prod.mk.inj heq).2.symm

theorem get?_unpriced {mints : List Text} {mint : Text} (h : mint ∈ mints) :
    (unpriced mints).get? mint = some (.real .zero) := by
  have hcontains : (unpriced mints).contains mint := (Ledger.contains_ofList _ _).mpr
    ⟨(mint, .real .zero), List.mem_map_of_mem h, beq_self_eq_true mint⟩
  obtain ⟨price, hprice⟩ := Option.isSome_iff_exists.mp hcontains
  rw [hprice, eq_zero_of_unpriced hprice]

/-- What becomes of the price of a token while prices are read: it is the one in its entry, or it
stays. Where reading is not ended by a fault, it stays only if the entry has none. -/
theorem get?_fillPrices (entries : Value) (mints : List Text) (known : Ledger Text Number)
    (mint : Text) :
    ((fillPrices entries mints known).1.get? mint = known.get? mint ∧
        ((fillPrices entries mints known).2 = none → mint ∈ mints →
          priceOf entries mint = .ok none)) ∨
      ∃ price, priceOf entries mint = .ok (some price) ∧
        (fillPrices entries mints known).1.get? mint = some price := by
  induction mints generalizing known with
  | nil => exact .inl ⟨rfl, fun _ h => absurd h List.not_mem_nil⟩
  | cons first rest ih =>
    rw [fillPrices]
    cases hprice : priceOf entries first with
    | error f => exact .inl ⟨rfl, fun h => (nomatch h)⟩
    | ok found =>
      cases found with
      | none =>
        refine (ih known).imp_left fun ⟨hget, hread⟩ => ⟨hget, fun hnone hmem => ?_⟩
        rcases List.mem_cons.mp hmem with rfl | hmem
        · exact hprice
        · exact hread hnone hmem
      | some price =>
        rcases ih (known.insert first price) with ⟨hget, hread⟩ | hright
        · rw [Ledger.get?_insert] at hget
          by_cases heq : first = mint
          · subst heq
            rw [if_pos (beq_self_eq_true first)] at hget
            exact .inr ⟨price, hprice, hget⟩
          · rw [if_neg (by simpa using heq)] at hget
            refine .inl ⟨hget, fun hnone hmem => hread hnone ?_⟩
            exact (List.mem_cons.mp hmem).resolve_left (Ne.symm heq)
        · exact .inr hright

/-- The fault that ends reading prices is that of one of them. -/
theorem exists_of_fillPrices {entries : Value} {mints : List Text} {known : Ledger Text Number}
    {f : Fault} (h : (fillPrices entries mints known).2 = some f) :
    ∃ mint ∈ mints, priceOf entries mint = .error f := by
  induction mints generalizing known with
  | nil => cases h
  | cons mint rest ih =>
    rw [fillPrices] at h
    split at h
    · rename_i g hg
      obtain rfl := Option.some.inj h
      exact ⟨mint, List.mem_cons_self, hg⟩
    · obtain ⟨other, hmem, hother⟩ := ih h
      exact ⟨other, List.mem_cons_of_mem _ hmem, hother⟩
    · obtain ⟨other, hmem, hother⟩ := ih h
      exact ⟨other, List.mem_cons_of_mem _ hmem, hother⟩

/-- A document is to blame for the fault that ends reading prices. -/
theorem blames_readPrices {mints : List Text} {f : Fault}
    (h : (readPrices document mints).2 = some f) : document.Blames f := by
  have hdata := looks_dataField document
  rw [readPrices] at h
  cases hentries : document.dataField with
  | error g =>
    rw [hentries] at h hdata
    obtain rfl := Option.some.inj h
    exact .inl hdata
  | ok entries =>
    rw [hentries] at h hdata
    obtain ⟨mint, -, hmint⟩ := exists_of_fillPrices h
    have hprice := reads_priceOf (PartOf.orElse hdata inRange_nothing) mint
    rw [hmint] at hprice
    exact hprice

end LiquidityWatch.Lookup
