import LiquidityWatch.Lookup.Position
import LiquidityWatch.Lookup.Token
import LiquidityWatch.Proofs.Rounding

/-! # Reading documents

What can go wrong between the bytes of a response and what is wanted from it. Bytes and text that
are no document are faults of value, except that lists and objects may be nested too deeply. Looking
into a document meets faults that lookups recover from, whatever it holds; reading a number in it
also meets whole numbers out of the range of binary64 (`Value.InRange`). -/

namespace LiquidityWatch

/-! ## Documents -/

theorem ends_utf8From (surrogates : Bool) (position : Nat) (begun : Option Begun)
    (bytes : List UInt8) :
    Ends (fun _ => True) (fun f => f.category = .encoding)
      (utf8From surrogates position begun bytes) := by
  induction bytes generalizing position begun with
  | nil =>
    cases begun with
    | none => trivial
    | some begun => rfl
  | cons b rest ih =>
    cases begun with
    | none =>
      rw [utf8From]
      split
      · exact (ih _ _).bind fun _ _ => trivial
      · split
        · rfl
        · exact ih _ _
    | some begun =>
      rw [utf8From]
      split
      · rfl
      · split
        · exact (ih _ _).bind fun _ _ => trivial
        · exact ih _ _

/-- A body that cannot be decoded is a fault of value. -/
theorem ends_decodeBody (bytes : List UInt8) :
    Ends (fun _ => True) (fun f => f.isValueFault = true) (decodeBody bytes) := by
  rw [decodeBody]
  split
  · refine (ends_utf8From _ _ _ _).mono (fun _ h => h) fun f hf => ?_
    simp [Fault.isValueFault, hf]
  · split
    · trivial
    · rfl
  · split
    · trivial
    · rfl

/-- A text that cannot be read is a fault of value, or nested too deeply. -/
theorem fault_of_flaw (flaw : Json.Flaw) (onMalformed : List Code → Fault)
    (h : ∀ rest, (onMalformed rest).isValueFault = true) :
    (flaw.fault onMalformed).isValueFault = true ∨
      ∃ container, flaw.fault onMalformed = .tooDeep container := by
  cases flaw with
  | malformed rest => exact .inl (h rest)
  | tooManyDigits digits => exact .inl rfl
  | tooDeep container => exact .inr ⟨container, rfl⟩

theorem isRecoverable_of_isValueFault {f : Fault} (h : f.isValueFault = true) :
    f.isRecoverable = true := by
  simp [Fault.isRecoverable, h]

/-- Lookups recover from a response that holds no document, unless it is nested too deeply. -/
theorem ends_readResponse (response : Response) :
    Ends (fun _ => True) (fun f => f.isRecoverable = true ∨ ∃ container, f = .tooDeep container)
      (Run.readResponse response) := by
  cases response with
  | timedOut => exact .inl rfl
  | failed => exact .inl rfl
  | answered status body =>
    rw [Run.readResponse]
    split
    · refine Ends.bind ((ends_decodeBody body).mono (fun _ h => h) fun f hf => ?_) fun cs _ => ?_
      · exact .inl (isRecoverable_of_isValueFault hf)
      · cases Json.read cs with
        | ok v => trivial
        | error flaw =>
          rcases fault_of_flaw flaw (fun _ => .malformedBody) (fun _ => rfl) with hf | hf
          · exact .inl (isRecoverable_of_isValueFault hf)
          · exact .inr hf
    · exact .inl rfl

/-! ## Numbers in a document -/

namespace Value

/-- The value is the other one, or stands in it. -/
inductive Within : Value → Value → Prop
  | refl (v : Value) : Within v v
  | item {u v : Value} {items : List Value} (h : Within u v) (hv : v ∈ items) :
    Within u (.list items)
  | field {u v : Value} {name : Text} {fields : List (Text × Value)} (h : Within u v)
    (hv : (name, v) ∈ fields) : Within u (.object fields)

/-- No whole number in the value is out of range. -/
def InRange (v : Value) : Prop := ∀ u : Value, u.Within v → ¬ u.TooLarge

/-- The value is in range if the document is. -/
def PartOf (document v : Value) : Prop := document.InRange → v.InRange

/-- A fault that lookups recover from, or that of a number in the document that is out of range. -/
def Blames (document : Value) (f : Fault) : Prop :=
  f.isRecoverable = true ∨ f = .wholeTooLarge ∧ ¬ document.InRange

/-- What is looked up has a property, and only faults are met that lookups recover from. -/
abbrev Looks {α : Type} (P : α → Prop) (x : Except Fault α) : Prop :=
  Ends P (fun f => f.isRecoverable = true) x

/-- What is read from a document has a property, and it is to blame for all faults that are met. -/
abbrev Reads {α : Type} (document : Value) (P : α → Prop) (x : Except Fault α) : Prop :=
  Ends P document.Blames x

variable {document v default : Value}

theorem Looks.reads {α : Type} {P : α → Prop} {x : Except Fault α} (h : Looks P x) :
    document.Reads P x :=
  h.mono (fun _ ha => ha) fun _ hf => .inl hf

theorem Looks.reads_any {α : Type} {P : α → Prop} {x : Except Fault α} (h : Looks P x) :
    document.Reads (fun _ => True) x :=
  h.mono (fun _ _ => trivial) fun _ hf => .inl hf

theorem inRange_of_atom (hparts : ∀ u, u.Within v → u = v) (h : ¬ v.TooLarge) : v.InRange := by
  intro u hu
  rw [hparts u hu]
  exact h

theorem inRange_null : null.InRange :=
  inRange_of_atom (fun u hu => by cases hu; rfl) fun ⟨n, hn, _⟩ => nomatch hn

theorem inRange_text (t : Text) : (text t).InRange :=
  inRange_of_atom (fun u hu => by cases hu; rfl) fun ⟨n, hn, _⟩ => nomatch hn

theorem inRange_nothing : nothing.InRange := by
  refine inRange_of_atom (fun u hu => ?_) fun ⟨n, hn, _⟩ => nomatch hn
  cases hu with
  | refl => rfl
  | field h hv => exact absurd hv List.not_mem_nil

theorem inRange_nil : (list []).InRange := by
  refine inRange_of_atom (fun u hu => ?_) fun ⟨n, hn, _⟩ => nomatch hn
  cases hu with
  | refl => rfl
  | item h hv => exact absurd hv List.not_mem_nil

theorem inRange_whole {n : Int} (h : ∃ x, Number.roundWhole n = .ok x) : (whole n).InRange := by
  refine inRange_of_atom (fun u hu => by cases hu; rfl) ?_
  rintro ⟨m, hm, hlarge⟩
  obtain ⟨x, hx⟩ := h
  obtain rfl := Number.whole.inj (number.inj hm)
  rw [hx] at hlarge
  cases hlarge

theorem inRange_zero : (whole 0).InRange :=
  inRange_whole (Number.exists_roundWhole_of_le (by decide) ⟨_, Number.roundWhole_one⟩)

theorem PartOf.refl (document : Value) : document.PartOf document := id

theorem InRange.partOf (h : v.InRange) : document.PartOf v := fun _ => h

theorem PartOf.orElse (hv : document.PartOf v) (hdefault : default.InRange) :
    document.PartOf (v.orElse default) := by
  rw [Value.orElse]
  split
  · exact hv
  · exact hdefault.partOf

theorem PartOf.of_item {items : List Value} (h : document.PartOf (list items)) {u : Value}
    (hu : u ∈ items) : document.PartOf u :=
  fun hrange w hw => h hrange w (.item hw hu)

theorem PartOf.of_field {fields : List (Text × Value)} (h : document.PartOf (object fields))
    {name : Text} {u : Value} (hu : (name, u) ∈ fields) : document.PartOf u :=
  fun hrange w hw => h hrange w (.field hw hu)

theorem mem_of_lookup {fields : List (Text × Value)} {name : Text} {u : Value}
    (h : lookup name fields = some u) : (name, u) ∈ fields := by
  obtain ⟨field, hfield, rfl⟩ := Option.map_eq_some_iff.mp h
  have hname : field.1 = name := by simpa using List.find?_some hfield
  subst hname
  exact List.mem_of_find?_eq_some hfield

/-! ## Looking into a document -/

theorem looks_field? (hv : document.PartOf v) (name : Text) :
    Looks (fun found => ∀ u, found = some u → document.PartOf u) (v.field? name) := by
  cases v with
  | object fields =>
    intro u hu
    exact hv.of_field (mem_of_lookup hu)
  | null | truth | number | text | bytes | list | candle => exact rfl

theorem looks_fieldD (hv : document.PartOf v) (name : Text) (hdefault : default.InRange) :
    Looks document.PartOf (v.fieldD name default) := by
  refine (looks_field? hv name).bind fun found hfound => ?_
  cases found with
  | none => exact hdefault.partOf
  | some u => exact hfound u rfl

theorem looks_item (hv : document.PartOf v) (name : Text) :
    Looks document.PartOf (v.item name) := by
  cases v with
  | object fields =>
    rw [Value.item]
    split
    · rename_i u hu
      exact hv.of_field (mem_of_lookup hu)
    · exact rfl
  | null | truth | number | text | bytes | list | candle => exact rfl

theorem looks_elements (hv : document.PartOf v) :
    Looks (fun us => ∀ u ∈ us, document.PartOf u) v.elements := by
  cases v with
  | list items => exact fun u hu => hv.of_item hu
  | text t =>
    intro u hu
    obtain ⟨c, -, rfl⟩ := List.mem_map.mp hu
    exact (inRange_text _).partOf
  | bytes bs =>
    intro u hu
    obtain ⟨b, -, rfl⟩ := List.mem_map.mp hu
    have hsmall : (b.toNat : Int).natAbs ≤ (255 : Int).natAbs := by
      have hb := b.toNat_lt
      omega
    refine (inRange_whole (Number.exists_roundWhole_of_le hsmall ?_)).partOf
    exact exists_of_isSome_toOption (by decide +kernel)
  | object fields =>
    intro u hu
    obtain ⟨field, -, rfl⟩ := List.mem_map.mp hu
    exact (inRange_text _).partOf
  | null | truth | number | candle => exact rfl

theorem reads_toReal (hv : document.PartOf v) :
    document.Reads (fun _ => True) v.toReal := by
  cases hread : v.toReal with
  | ok x => trivial
  | error f =>
    rcases toReal_eq_error hread with ⟨hlarge, rfl⟩ | hkind | hkind
    · exact .inr ⟨rfl, fun hrange => hv hrange v (.refl v) hlarge⟩
    · exact .inl (by simp [Fault.isRecoverable, hkind])
    · exact .inl (by simp [Fault.isRecoverable, Fault.isValueFault, hkind])

end Value

end LiquidityWatch
