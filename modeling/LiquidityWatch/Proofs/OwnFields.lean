import LiquidityWatch.Proofs.AcceptedPositions
import LiquidityWatch.Proofs.Documents

/-! # The fields of a position

A position is made of the fields that it has parameters for (`Position.signature`). What else an
entry holds, and the order that its fields stand in, make no difference, neither to the position nor
to the fault of an entry that is refused. And a position can be written down (`Position.toEntry`):
read again, its fields make the same position (`Position.ofEntry_ownFields`), although bins and
decimals were converted, fields that were left out have defaults now, and raw amounts stand as they
came. -/

namespace LiquidityWatch

namespace Value

variable {fields fields' : List (Text × Value)} {name : Text} {v : Value}

/-- Where all names are different, each of them finds its own field. -/
theorem lookup_of_mem (h : (fields.map Prod.fst).Nodup) (hmem : (name, v) ∈ fields) :
    lookup name fields = some v := by
  induction fields with
  | nil => cases hmem
  | cons field fields ih =>
    obtain ⟨hfresh, hrest⟩ := List.nodup_cons.mp h
    rw [lookup, List.find?_cons]
    rcases List.mem_cons.mp hmem with rfl | hmem
    · rw [beq_self_eq_true]
      rfl
    · have hne : (field.1 == name) = false :=
        beq_false_of_ne fun heq => hfresh (heq ▸ List.mem_map_of_mem hmem)
      rw [hne]
      exact ih hrest hmem

/-- Different names find the same fields in whatever order these stand. -/
theorem lookup_perm (h : (fields.map Prod.fst).Nodup) (hperm : fields.Perm fields') :
    lookup name fields = lookup name fields' := by
  have h' : (fields'.map Prod.fst).Nodup := (hperm.map Prod.fst).nodup_iff.mp h
  ext v
  constructor
  · exact fun hv => lookup_of_mem h' (hperm.subset (mem_of_lookup hv))
  · exact fun hv => lookup_of_mem h (hperm.symm.subset (mem_of_lookup hv))

/-- The field of another name is not found. -/
theorem lookup_cons_of_ne {other : Text} (h : other ≠ name) :
    lookup name ((other, v) :: fields) = lookup name fields := by
  rw [lookup, List.find?_cons_of_neg (by simpa using h), lookup]

end Value

namespace Position

open Value

variable {entry entry' : Entry} {p : Position Int} {name : String}

/-! ## What is read of an entry -/

/-- The entries have the same fields of those that make a position. -/
def SameFields (entry entry' : Entry) : Prop :=
  ∀ name ∈ signature.parameters, lookup name entry = lookup name entry'

namespace SameFields

theorem of_perm (h : (entry.map Prod.fst).Nodup) (hperm : entry.Perm entry') :
    SameFields entry entry' := fun _ _ => lookup_perm h hperm

/-- A field that no position has makes no difference. -/
theorem cons {other : Text} {v : Value} (h : SameFields entry entry')
    (hother : other ∉ signature.parameters.map Text.ofString) :
    SameFields entry ((other, v) :: entry') := by
  intro name hname
  have hne : other ≠ name := by
    rintro rfl
    exact hother (List.mem_map_of_mem hname)
  rw [lookup_cons_of_ne hne]
  exact h name hname

theorem missingFields_eq (h : SameFields entry entry') :
    missingFields entry = missingFields entry' := by
  refine List.filter_congr fun name hname => ?_
  rw [fieldD, h name (List.mem_append_left _ hname), fieldD]

theorem readEntry_eq (h : SameFields entry entry') : readEntry entry = readEntry entry' := by
  simp only [SameFields, Signature.parameters, signature, requiredFields, List.map_cons,
    List.map_nil, List.cons_append, List.nil_append, List.forall_mem_cons] at h
  simp only [readEntry, wholeD, fieldD, h]

theorem ofEntry_eq (h : SameFields entry entry') : ofEntry entry = ofEntry entry' := by
  rw [ofEntry, h.missingFields_eq, h.readEntry_eq, ofEntry]

end SameFields

/-! ## Writing a position down -/

/-- The fields of a position, under the names of its parameters and in their order. -/
def toEntry (p : Position Int) : Entry :=
  [("position_id", p.id), ("pool_address", p.pool), ("token_x_mint", p.x.mint),
    ("token_y_mint", p.y.mint), ("token_x_decimals", .whole p.x.decimals),
    ("token_y_decimals", .whole p.y.decimals), ("lower_bin_id", .whole p.lowerBin),
    ("upper_bin_id", .whole p.upperBin), ("active_bin_id", .whole p.activeBin),
    ("total_x", p.x.total), ("total_y", p.y.total), ("claimed_fee_x", p.x.claimed),
    ("claimed_fee_y", p.y.claimed), ("fee_x", p.x.claimable), ("fee_y", p.y.claimable)]

theorem names_toEntry (p : Position Int) :
    p.toEntry.map Prod.fst = signature.parameters.map Text.ofString := rfl

theorem nodup_parameters : (signature.parameters.map Text.ofString).Nodup := by decide +kernel

/-- What is written down of a position is all found again. -/
theorem lookup_toEntry (p : Position Int) :
    ∀ field ∈ p.toEntry, lookup field.1 p.toEntry = some field.2 :=
  fun _ hfield => lookup_of_mem (names_toEntry p ▸ nodup_parameters) hfield

theorem readEntry_toEntry (p : Position Int) : readEntry p.toEntry = .ok p := by
  have h := lookup_toEntry p
  simp only [toEntry, List.forall_mem_cons] at h
  simp only [readEntry, wholeD, fieldD, toEntry, h]
  rfl

/-- A required field has the value that was read. -/
theorem lookup_required (h : readEntry entry = .ok p) :
    ∀ name ∈ requiredFields, lookup name p.toEntry = some (fieldD entry name (.whole 0)) := by
  obtain ⟨decimalsX, -, h⟩ := bind_eq_ok.mp h
  obtain ⟨decimalsY, -, h⟩ := bind_eq_ok.mp h
  obtain ⟨lowerBin, -, h⟩ := bind_eq_ok.mp h
  obtain ⟨upperBin, -, h⟩ := bind_eq_ok.mp h
  obtain ⟨activeBin, -, h⟩ := bind_eq_ok.mp h
  obtain rfl := pure_eq_ok.mp h
  simp only [requiredFields, List.forall_mem_cons]
  exact ⟨rfl, rfl, rfl, rfl, fun _ h => absurd h List.not_mem_nil⟩

/-- A field that is not empty is there, so its default does not matter. -/
theorem fieldD_of_isTruthy {name : Text} (h : (fieldD entry name .null).isTruthy = true)
    (default : Value) : fieldD entry name default = fieldD entry name .null := by
  rw [fieldD, fieldD]
  cases hfound : lookup name entry with
  | none =>
    rw [fieldD, hfound] at h
    cases h
  | some v => rfl

theorem missingFields_eq_nil :
    missingFields entry = [] ↔
      ∀ name ∈ requiredFields, (fieldD entry name .null).isTruthy = true := by
  rw [missingFields, List.filter_eq_nil_iff]
  simp only [Bool.not_eq_true', Bool.not_eq_false]

theorem missingFields_toEntry (hpresent : missingFields entry = []) (h : readEntry entry = .ok p) :
    missingFields p.toEntry = [] := by
  rw [missingFields_eq_nil] at hpresent ⊢
  intro name hname
  rw [fieldD, lookup_required h name hname, Option.getD_some,
    fieldD_of_isTruthy (hpresent name hname)]
  exact hpresent name hname

/-- The fields of an accepted position make that position. -/
theorem ofEntry_toEntry (h : ofEntry entry = .ok p) : ofEntry p.toEntry = .ok p := by
  obtain ⟨hpresent, hread, hcheck⟩ := ofEntry_eq_ok.mp h
  exact ofEntry_eq_ok.mpr ⟨missingFields_toEntry hpresent hread, readEntry_toEntry p, hcheck⟩

/-- **A position is made of its own fields, and they make it again.** Entries that have the same
fields of those that a position has have the same outcome: the same position, or the same fault. And
the fields of a position that was accepted are accepted as that position, in whatever order they
stand and whatever stands among them. -/
theorem ofEntry_ownFields :
    (∀ entry entry' : Entry, SameFields entry entry' → ofEntry entry = ofEntry entry') ∧
    ∀ (entry : Entry) (p : Position Int), ofEntry entry = .ok p →
      p.toEntry.map Prod.fst = signature.parameters.map Text.ofString ∧
      ofEntry p.toEntry = .ok p ∧
      ∀ entry' : Entry, SameFields p.toEntry entry' → ofEntry entry' = .ok p := by
  refine ⟨fun entry entry' h => h.ofEntry_eq, fun entry p h => ?_⟩
  have hagain := ofEntry_toEntry h
  exact ⟨names_toEntry p, hagain, fun entry' hsame => hsame.ofEntry_eq.symm.trans hagain⟩

/-- An entry that leaves fields out makes a position in another order too, with a note added, and
its fields make the position again. -/
theorem ofEntry_ownFields_note : ∃ p, ofEntry emptyFeesEntry = .ok p ∧
    ofEntry (("note", .null) :: emptyFeesEntry.reverse) = .ok p ∧ ofEntry p.toEntry = .ok p ∧
      p.y.decimals = 6 := by
  obtain ⟨hsame, hagain⟩ := ofEntry_ownFields
  have hdecimals : (ofEntry emptyFeesEntry).toOption.map (fun p => p.y.decimals) = some 6 := by
    decide +kernel
  obtain ⟨p, hp⟩ : ∃ p, ofEntry emptyFeesEntry = .ok p :=
    exists_of_isSome_toOption (by decide +kernel)
  have hreversed : SameFields emptyFeesEntry (("note", .null) :: emptyFeesEntry.reverse) :=
    (SameFields.of_perm (by decide +kernel) (List.reverse_perm _).symm).cons (by decide +kernel)
  rw [hp] at hdecimals
  exact ⟨p, hp, (hsame _ _ hreversed).symm.trans hp, (hagain _ p hp).2.1,
    Option.some.inj hdecimals⟩

end Position

end LiquidityWatch
