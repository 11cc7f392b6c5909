import LiquidityWatch.CommandLine
import LiquidityWatch.Proofs.Documents
import LiquidityWatch.Proofs.Session

/-! # Loading snapshot files

A snapshot file is loaded as a whole or not at all. Loading gives one position for each entry of the
file, in order, or it ends with a fault of value, whatever the file holds; an exception are only
documents that are nested too deeply. An entry that is no position is reported with its index, and
the first one counts (`positionsFrom_eq_error`). A report on a file that cannot be loaded prints the
fault and does nothing else. -/

namespace LiquidityWatch

/-! ## What can be wrong with an entry -/

namespace SnapshotFile

/-- What is read of an entry ends well, or with a fault that is reported with the index. -/
abbrev ReadsEntry {α : Type} (x : Except Fault α) : Prop :=
  Ends (fun _ => True) (fun f => namesEntry f = true) x

theorem namesEntry_of_value {f : Fault} (h : f.category = .value) : namesEntry f = true := by
  simp [namesEntry, Fault.isValueFault, h]

theorem readsEntry_of_value {α : Type} {x : Except Fault α}
    (h : Ends (fun _ => True) (fun f => f.category = .value) x) : ReadsEntry x :=
  h.mono (fun _ ha => ha) fun _ => namesEntry_of_value

end SnapshotFile

open SnapshotFile

theorem Value.readsEntry_toWhole (v : Value) : ReadsEntry v.toWhole := by
  have hnumeral : ∀ (cs : List Char) (shown : String), ReadsEntry (wholeOfChars cs shown) := by
    intro cs shown
    rw [wholeOfChars]
    split
    · trivial
    · exact rfl
    · exact rfl
  cases v with
  | truth b => trivial
  | number n =>
    cases n with
    | whole n => trivial
    | real x =>
      rw [toWhole, truncate]
      cases x.truncate? with
      | some n => trivial
      | none =>
        by_cases hx : x.isNaN
        · simp [hx, namesEntry, Fault.isValueFault, Fault.category]
        · simp [hx, namesEntry, Fault.category]
  | text t => exact hnumeral _ _
  | bytes bs => exact hnumeral _ _
  | null | list | object | candle => exact rfl

namespace Amount

theorem ends_units (raw : Value) :
    Ends (fun _ => True) (fun f => f.category = .value) (units raw) := by
  cases raw with
  | text t =>
    rw [units]
    split
    · trivial
    · rfl
  | number n =>
    cases n with
    | whole n => trivial
    | real x =>
      rw [units]
      split
      · trivial
      · rfl
  | null => trivial
  | truth | bytes | list | object | candle => rfl

theorem ends_writtenDigits (n : Nat) :
    Ends (fun _ => True) (fun f => f.category = .value) (writtenDigits n) := by
  rw [writtenDigits]
  by_cases h : Fault.digitLimit < (digitsOf n).length
  · simp [h, Fault.category]
  · simp [h]

theorem ends_decimalText (units : Int) (decimals : Nat) :
    Ends (fun _ => True) (fun f => f.category = .value) (decimalText units decimals) := by
  apply (ends_writtenDigits _).bind
  intro whole _
  apply (ends_writtenDigits _).bind
  intro fraction _
  trivial

/-- A number of units without decimals can be out of range; all else is a fault of value. -/
theorem readsEntry_ofUnits (units : Int) (decimals : Nat) :
    ReadsEntry (ofUnits units decimals : Except Fault Number) := by
  rw [ofUnits]
  by_cases h : decimals = 0
  · rw [if_pos h]
    show ReadsEntry (do return Number.real (← Number.roundWhole units))
    cases hround : Number.roundWhole units with
    | ok x => trivial
    | error f =>
      rw [Number.roundWhole_eq_error hround]
      rfl
  · rw [if_neg h]
    apply (readsEntry_of_value (ends_decimalText units decimals)).bind
    intro text _
    split
    · trivial
    · rfl

theorem readsEntry_ofRaw (raw : Value) (decimals : Int) :
    ReadsEntry (ofRaw raw decimals : Except Fault Number) := by
  rw [ofRaw]
  by_cases h : decimals < 0
  · rw [if_pos h, negativeFault]
    by_cases hlong : Fault.digitLimit < (digitsOf decimals.natAbs).length
    · rw [if_pos hlong]
      rfl
    · rw [if_neg hlong]
      rfl
  · rw [if_neg h]
    exact (readsEntry_of_value (ends_units raw)).bind fun units _ => readsEntry_ofUnits units _

end Amount

namespace Position

theorem readsEntry_wholeD (entry : Entry) (name : Text) (default : Int) :
    ReadsEntry (wholeD entry name default) := by
  rw [wholeD]
  split
  · trivial
  · exact Value.readsEntry_toWhole _

theorem readsEntry_readEntry (entry : Entry) : ReadsEntry (readEntry entry) :=
  (readsEntry_wholeD ..).bind fun _ _ => (readsEntry_wholeD ..).bind fun _ _ =>
    (readsEntry_wholeD ..).bind fun _ _ => (readsEntry_wholeD ..).bind fun _ _ =>
    (readsEntry_wholeD ..).bind fun _ _ => trivial

theorem readsEntry_checkAmount (amount : String × Value × Int) :
    ReadsEntry (checkAmount amount) := by
  obtain ⟨name, raw, decimals⟩ := amount
  have hraw := Amount.readsEntry_ofRaw raw decimals
  rw [checkAmount]
  cases hread : (Amount.ofRaw raw decimals : Except Fault Number) with
  | ok x => trivial
  | error f =>
    rw [hread] at hraw
    show ReadsEntry (.error (if f.isValueFault then .inField name f else f))
    by_cases hf : f.isValueFault
    · rw [if_pos hf]
      rfl
    · rw [if_neg hf]
      exact hraw

/-- Whatever is wrong with an entry is reported with its index. -/
theorem readsEntry_ofEntry (entry : Entry) : ReadsEntry (ofEntry entry) := by
  rw [ofEntry]
  split
  · apply (readsEntry_readEntry entry).bind
    intro position _
    apply (Ends.forM fun amount _ => readsEntry_checkAmount amount).bind
    intro _ _
    trivial
  · rfl

end Position

/-! ## Entries -/

namespace SnapshotFile

/-- The entry is an object that is this position. -/
def Holds (entry : Value) (p : Position Int) : Prop :=
  ∃ fields, entry = .object fields ∧ Position.ofEntry fields = .ok p

/-- The entry at an index is no position: it is no object, or its fault is reported with the
index. -/
inductive Rejects (index : Nat) : Value → Fault → Prop
  | notObject {entry : Value} (h : ∀ fields, entry ≠ .object fields) :
    Rejects index entry (.positionNotObject index)
  | invalid {fields : Position.Entry} {cause : Fault} (h : Position.ofEntry fields = .error cause) :
    Rejects index (.object fields) (.inPosition index cause)

variable {index : Nat} {entry : Value} {entries : List Value} {f : Fault}

theorem Rejects.not_holds (h : Rejects index entry f) (p : Position Int) : ¬ Holds entry p := by
  rintro ⟨fields, rfl, hp⟩
  cases h with
  | notObject hne => exact hne fields rfl
  | invalid hcause =>
    rw [hp] at hcause
    cases hcause

/-- The fault of an entry names its index. -/
theorem Rejects.message (h : Rejects index entry f) :
    ∃ rest, f.message = s!"Position #{index}" ++ rest := by
  cases h with
  | notObject => exact ⟨" is not an object", rfl⟩
  | @invalid _ cause => exact ⟨": " ++ cause.message, String.append_assoc ..⟩

theorem Rejects.isValueFault (h : Rejects index entry f) : f.isValueFault = true := by
  cases h <;> rfl

theorem namesEntry_of_ofEntry {fields : Position.Entry} {cause : Fault}
    (h : Position.ofEntry fields = .error cause) : namesEntry cause = true := by
  have hends := Position.readsEntry_ofEntry fields
  rw [h] at hends
  exact hends

theorem positionOf_eq_ok {p : Position Int} :
    positionOf index entry = .ok p ↔ Holds entry p := by
  constructor
  · intro h
    cases entry with
    | object fields =>
      rw [positionOf] at h
      cases hfields : Position.ofEntry fields with
      | ok q =>
        rw [hfields] at h
        exact ⟨fields, rfl, hfields.trans h⟩
      | error cause =>
        rw [hfields] at h
        cases h
    | null | truth | number | text | bytes | list | candle => cases h
  · rintro ⟨fields, rfl, hp⟩
    rw [positionOf, hp]

theorem positionOf_eq_error : positionOf index entry = .error f ↔ Rejects index entry f := by
  constructor
  · intro h
    cases entry with
    | object fields =>
      rw [positionOf] at h
      cases hfields : Position.ofEntry fields with
      | ok p =>
        rw [hfields] at h
        cases h
      | error cause =>
        rw [hfields] at h
        dsimp only at h
        rw [if_pos (namesEntry_of_ofEntry hfields)] at h
        obtain rfl := Except.error.inj h
        exact .invalid hfields
    | null | truth | number | text | bytes | list | candle =>
      obtain rfl := Except.error.inj h
      exact .notObject fun fields hentry => nomatch hentry
  · intro h
    cases h with
    | notObject hne =>
      cases entry with
      | object fields => exact absurd rfl (hne fields)
      | null | truth | number | text | bytes | list | candle => rfl
    | @invalid fields cause hcause =>
      rw [positionOf, hcause]
      dsimp only
      rw [if_pos (namesEntry_of_ofEntry hcause)]

/-- All entries have to be positions. -/
theorem positionsFrom_eq_ok {positions : List (Position Int)} :
    positionsFrom index entries = .ok positions ↔ List.Forall₂ Holds entries positions := by
  induction entries generalizing index positions with
  | nil =>
    rw [positionsFrom, List.forall₂_nil_left_iff, Except.ok.injEq, eq_comm]
  | cons entry rest ih =>
    rw [positionsFrom]
    constructor
    · intro h
      obtain ⟨p, hp, h⟩ := bind_eq_ok.mp h
      obtain ⟨ps, hps, h⟩ := bind_eq_ok.mp h
      obtain rfl := Except.ok.inj h
      exact .cons (positionOf_eq_ok.mp hp) (ih.mp hps)
    · intro h
      cases h with
      | cons hp hps =>
        rw [positionOf_eq_ok.mpr hp, ok_bind, ih.mpr hps]
        rfl

/-- A fault is that of the first entry, or the first entry is a position and it comes from the
rest. -/
theorem positionsFrom_cons_eq_error {rest : List Value} :
    positionsFrom index (entry :: rest) = .error f ↔ Rejects index entry f ∨
      (∃ p, Holds entry p) ∧ positionsFrom (index + 1) rest = .error f := by
  rw [positionsFrom]
  cases hentry : positionOf index entry with
  | error g =>
    have hrejects := positionOf_eq_error.mp hentry
    rw [error_bind, Except.error.injEq, ← positionOf_eq_error, hentry, Except.error.injEq]
    constructor
    · exact .inl
    · rintro (h | ⟨⟨p, hp⟩, -⟩)
      · exact h
      · exact absurd hp (hrejects.not_holds p)
  | ok p =>
    have hholds := positionOf_eq_ok.mp hentry
    rw [ok_bind, ← positionOf_eq_error, hentry]
    constructor
    · intro h
      cases hrest : positionsFrom (index + 1) rest with
      | ok ps =>
        rw [hrest] at h
        cases h
      | error g =>
        rw [hrest] at h
        exact .inr ⟨⟨p, hholds⟩, h⟩
    · rintro (h | ⟨-, h⟩)
      · cases h
      · rw [h]
        rfl

/-- The first entry that is no position counts, whatever comes after it. -/
theorem positionsFrom_eq_error : positionsFrom index entries = .error f ↔
    ∃ before entry after, entries = before ++ entry :: after ∧
      (∀ e ∈ before, ∃ p, Holds e p) ∧ Rejects (index + before.length) entry f := by
  induction entries generalizing index with
  | nil =>
    constructor
    · intro h
      cases h
    · rintro ⟨before, entry, after, h, -⟩
      simp at h
  | cons first rest ih =>
    rw [positionsFrom_cons_eq_error, ih]
    constructor
    · rintro (hfirst | ⟨hfirst, before, entry, after, rfl, hbefore, hentry⟩)
      · exact ⟨[], first, rest, rfl, by simp, hfirst⟩
      · refine ⟨first :: before, entry, after, rfl, ?_, ?_⟩
        · exact List.forall_mem_cons.mpr ⟨hfirst, hbefore⟩
        · rwa [List.length_cons, Nat.add_comm before.length, ← Nat.add_assoc]
    · rintro ⟨before, entry, after, hsplit, hbefore, hentry⟩
      cases before with
      | nil =>
        obtain ⟨rfl, rfl⟩ := List.cons.inj hsplit
        exact .inl hentry
      | cons e before =>
        obtain ⟨rfl, rfl⟩ := List.cons.inj hsplit
        obtain ⟨hfirst, hbefore⟩ := List.forall_mem_cons.mp hbefore
        rw [List.length_cons, Nat.add_comm before.length, ← Nat.add_assoc] at hentry
        exact .inr ⟨hfirst, before, entry, after, rfl, hbefore, hentry⟩

theorem positionsFrom_isValueFault (h : positionsFrom index entries = .error f) :
    f.isValueFault = true := by
  obtain ⟨before, entry, after, -, -, hentry⟩ := positionsFrom_eq_error.mp h
  exact hentry.isValueFault

/-! ## Files -/

/-- The document in the file at a path. -/
def documentAt (files : Text → Option (List UInt8)) (path : Text) : Except Fault Value :=
  if path.toChars.contains '\x00' then .error .nullInPath
  else match files path with
    | none => .error (.unreadableFile path)
    | some content => document path content

/-- The entries in the file at a path. -/
def entriesAt (files : Text → Option (List UInt8)) (path : Text) :
    Except Fault (List Value) := do
  entriesOf (← documentAt files path)

variable {files : Text → Option (List UInt8)} {path : Text}

/-- Entries count from zero. -/
theorem load_eq : load files path = (do positionsFrom 0 (← entriesAt files path)) := by
  rw [load, entriesAt, documentAt]
  by_cases hnull : path.toChars.contains '\x00'
  · rw [if_pos hnull, if_pos hnull]
    rfl
  · rw [if_neg hnull, if_neg hnull]
    cases files path with
    | none => rfl
    | some content =>
      dsimp only
      rw [parse]
      cases document path content <;> rfl

/-- A file that is no document is a fault of value, unless the document is nested too deeply. -/
theorem ends_document (path : Text) (content : List UInt8) :
    Ends (fun _ => True) (fun f => f.isValueFault = true ∨ ∃ container, f = .tooDeep container)
      (document path content) := by
  have htext := (ends_utf8From false 0 none content).mono (fun _ h => h)
    (fun f hf => show f.isValueFault = true ∨ ∃ container, f = .tooDeep container from
      .inl (by simp [Fault.isValueFault, hf]))
  apply htext.bind
  intro cs _
  dsimp only
  split
  · trivial
  · rename_i flaw _
    exact fault_of_flaw flaw (fun rest => .malformedFile path (Json.lineOf (unifyLineEnds cs) rest))
      fun _ => rfl

theorem ends_documentAt (files : Text → Option (List UInt8)) (path : Text) :
    Ends (fun _ => True) (fun f => f.isValueFault = true ∨ ∃ container, f = .tooDeep container)
      (documentAt files path) := by
  rw [documentAt]
  split
  · exact .inl rfl
  · split
    · exact .inl rfl
    · exact ends_document ..

theorem ends_entriesOf (document : Value) :
    Ends (fun _ => True) (fun f => f.isValueFault = true) (entriesOf document) := by
  cases document with
  | object fields =>
    rw [entriesOf]
    split
    · trivial
    · exact rfl
  | list entries => trivial
  | null | truth | number | text | bytes | candle => exact rfl

/-- Loading ends well or with a fault of value. -/
theorem ends_load (hdeep : ∀ container, documentAt files path ≠ .error (.tooDeep container)) :
    Ends (fun _ => True) (fun f => f.isValueFault = true) (load files path) := by
  have hdocument := ends_documentAt files path
  rw [load_eq, entriesAt]
  cases hread : documentAt files path with
  | error f =>
    rw [hread] at hdocument
    rcases hdocument with hf | ⟨container, rfl⟩
    · exact hf
    · exact absurd hread (hdeep container)
  | ok document =>
    rw [ok_bind]
    apply (ends_entriesOf document).bind
    intro entries _
    cases hpositions : positionsFrom 0 entries with
    | ok positions => trivial
    | error f => exact positionsFrom_isValueFault hpositions

/-- A file is loaded exactly if all its entries are positions. -/
theorem load_eq_ok {positions : List (Position Int)} : load files path = .ok positions ↔
    ∃ entries, entriesAt files path = .ok entries ∧ List.Forall₂ Holds entries positions := by
  rw [load_eq]
  constructor
  · intro h
    obtain ⟨entries, hentries, hpositions⟩ := bind_eq_ok.mp h
    exact ⟨entries, hentries, positionsFrom_eq_ok.mp hpositions⟩
  · rintro ⟨entries, hentries, hpositions⟩
    rw [hentries, ok_bind, positionsFrom_eq_ok.mpr hpositions]

/-- Positions that were loaded are those of entries. -/
theorem accepted_of_load {positions : List (Position Int)} (h : load files path = .ok positions) :
    ∀ p ∈ positions, ∃ fields, Position.ofEntry fields = .ok p := by
  intro p hp
  obtain ⟨entries, -, hholds⟩ := load_eq_ok.mp h
  obtain ⟨_, -, fields, -, hentry⟩ := exists_of_forall₂_right hholds hp
  exact ⟨fields, hentry⟩

/-- A file with entries is rejected exactly with the fault of the first one that is no position. -/
theorem load_eq_error {entries : List Value} (hentries : entriesAt files path = .ok entries)
    {f : Fault} : load files path = .error f ↔
      ∃ before entry after, entries = before ++ entry :: after ∧
        (∀ e ∈ before, ∃ p, Holds e p) ∧ Rejects before.length entry f := by
  rw [load_eq, hentries, ok_bind, positionsFrom_eq_error]
  simp only [Nat.zero_add]

/-- A file with an entry that is no position is not loaded. -/
theorem exists_load_eq_error {entries : List Value} (hentries : entriesAt files path = .ok entries)
    (hbad : ∃ entry ∈ entries, ∀ p, ¬ Holds entry p) : ∃ f, load files path = .error f := by
  obtain ⟨entry, hmem, hentry⟩ := hbad
  cases hload : load files path with
  | error f => exact ⟨f, rfl⟩
  | ok positions =>
    obtain ⟨entries', hentries', hpositions⟩ := load_eq_ok.mp hload
    obtain rfl := Except.ok.inj (hentries.symm.trans hentries')
    obtain ⟨p, hp⟩ := exists_of_forall₂_left hpositions hmem
    exact absurd hp (hentry p)

/-- Entries in an object are loaded like a list of them. -/
theorem load_object {other : String} {entries : List Value} {fields : List (Text × Value)}
    (hlist : documentAt files path = .ok (.list entries))
    (hobject : documentAt files other = .ok (.object fields))
    (hfield : Value.lookup positionsField fields = some (.list entries)) :
    load files other = load files path := by
  have hentries : entriesOf (.object fields) = .ok entries := by
    rw [entriesOf, hfield]
    rfl
  rw [load_eq, load_eq, entriesAt, entriesAt, hlist, hobject, ok_bind, hentries]
  rfl

/-! ## Reports -/

/-- A report on a file that cannot be loaded prints the fault, and that is all. -/
theorem report_of_load_eq_error {w : World} {f : Fault} (h : load w.files path = .error f)
    (hf : f.isValueFault = true) (state : MonitorState Number) :
    (Report.run path state).result w = (.ok none, w.showing [s!"❌ {f.message}"]) := by
  rw [Report.result_run, h]
  dsimp only
  rw [if_pos hf]

theorem request_of_load_eq_error {w : World} {f : Fault} (h : load w.files path = .error f)
    (hf : f.isValueFault = true) : (CommandLine.Request.command (.report path)).run.result w =
      (.ok 1, w.showing [s!"❌ {f.message}"]) := by
  show (Report.run path .initial >>= fun found =>
    Pure.pure (Command.exitCode found.isSome)).result w = _
  rw [Run.result_bind_ok (report_of_load_eq_error h hf _)]
  rfl

/-- What loading a file comes to, and what comes of a file that cannot be loaded. -/
structure AllOrNothing (w : World) (path : Text) : Prop where
  /-- Loading ends with positions, or with a fault of value. -/
  ends : Ends (fun _ => True) (fun f => f.isValueFault = true) (load w.files path)
  /-- There is one position for each entry, in order. -/
  positions (ps : List (Position Int)) : load w.files path = .ok ps ↔
    ∃ entries, entriesAt w.files path = .ok entries ∧ List.Forall₂ Holds entries ps
  /-- If there is an entry that is no position, the first such entry is reported. -/
  first (entries : List Value) (hentries : entriesAt w.files path = .ok entries)
    (hbad : ∃ entry ∈ entries, ∀ p, ¬ Holds entry p) :
    ∃ before entry after f, entries = before ++ entry :: after ∧
      (∀ e ∈ before, ∃ p, Holds e p) ∧ Rejects before.length entry f ∧
      load w.files path = .error f ∧
      ∃ rest, f.message = s!"Position #{before.length}" ++ rest
  /-- What comes after the first entry that is no position does not matter. -/
  rest (before after : List Value) (entry : Value) (f : Fault)
    (hentries : entriesAt w.files path = .ok (before ++ entry :: after))
    (hbefore : ∀ e ∈ before, ∃ p, Holds e p) (hentry : Rejects before.length entry f) :
    load w.files path = .error f
  /-- A list of entries can stand in an object instead, with anything beside it. -/
  object (other : String) (entries : List Value) (fields : List (Text × Value))
    (hlist : documentAt w.files path = .ok (.list entries))
    (hobject : documentAt w.files other = .ok (.object fields))
    (hfield : Value.lookup positionsField fields = some (.list entries)) :
    load w.files other = load w.files path
  /-- A report on a file that cannot be loaded prints the fault and returns nothing. -/
  report (f : Fault) (h : load w.files path = .error f) (state : MonitorState Number) :
    (Report.run path state).result w = (.ok none, w.showing [s!"❌ {f.message}"])
  /-- The program then fails. -/
  request (f : Fault) (h : load w.files path = .error f) :
    (CommandLine.Request.command (.report path)).run.result w =
      (.ok 1, w.showing [s!"❌ {f.message}"])

/-- **Loading a file is all or nothing.** Whatever a file holds, as long as it is not nested too
deeply: loading it gives one position for each entry, in order, or ends with a fault of value; the
fault is that of the first entry that is no position, where there is one; and a report on the file
prints the fault, asks nothing and changes nothing. -/
theorem load_all_or_nothing (w : World) (path : Text)
    (hdeep : ∀ container, documentAt w.files path ≠ .error (.tooDeep container)) :
    AllOrNothing w path := by
  have hends := ends_load hdeep
  have hvalue : ∀ f, load w.files path = .error f → f.isValueFault = true := by
    intro f hf
    rw [hf] at hends
    exact hends
  refine ⟨hends, fun ps => load_eq_ok, ?_, ?_, fun other entries fields => load_object,
    fun f h => report_of_load_eq_error h (hvalue f h),
    fun f h => request_of_load_eq_error h (hvalue f h)⟩
  · intro entries hentries hbad
    obtain ⟨f, hf⟩ := exists_load_eq_error hentries hbad
    obtain ⟨before, entry, after, hsplit, hbefore, hentry⟩ := (load_eq_error hentries).mp hf
    exact ⟨before, entry, after, f, hsplit, hbefore, hentry, hf, hentry.message⟩
  · intro before after entry f hentries hbefore hentry
    exact (load_eq_error hentries).mpr ⟨before, entry, after, rfl, hbefore, hentry⟩

/-- A file of three entries, the first of which is a position. -/
def sampleFile : String :=
  "[\x7b\"position_id\": \"A\", \"pool_address\": \"B\", \"token_x_mint\": \"C\", " ++
    "\"token_y_mint\": \"C\"\x7d, \x7b\"position_id\": \"A\"\x7d, null]"

/-- The second entry is reported, though the third is no position either. -/
theorem load_all_or_nothing_sample :
    let w := World.start (.constant fun _ => .failed) (fun _ => some sampleFile.toUTF8.toList)
      .standard (.real .zero)
    (∀ container, documentAt w.files "file" ≠ .error (.tooDeep container)) ∧
      ∃ (f : Fault) (rest : String), f.message = "Position #1" ++ rest ∧
        (CommandLine.Request.command (.report "file")).run.result w =
          (.ok 1, w.showing [s!"❌ {f.message}"]) := by
  intro w
  have hsome : (documentAt w.files "file").toOption.isSome := by decide +kernel
  have hdeep : ∀ container, documentAt w.files "file" ≠ .error (.tooDeep container) := by
    intro container h
    rw [h] at hsome
    cases hsome
  have hfault : Ends (fun _ => False) (fun f => f = .inPosition 1 (.missingFields
      ["pool_address", "token_x_mint", "token_y_mint"])) (load w.files "file") := by decide +kernel
  cases hload : load w.files "file" with
  | ok positions =>
    rw [hload] at hfault
    exact hfault.elim
  | error f =>
    rw [hload] at hfault
    obtain rfl : f = _ := hfault
    have hloading := load_all_or_nothing w "file" hdeep
    exact ⟨hdeep, _, _, String.append_assoc, hloading.request _ hload⟩

end SnapshotFile

end LiquidityWatch
