import LiquidityWatch.Proofs.Arrangement
import LiquidityWatch.Proofs.SortedNames

/-! # Sorts of names

Names that are numbers, text or bytes have an order among their own sort, and none across sorts.
Sorting the names of a report therefore ends well exactly where all of them are of one sort,
whatever the order in which they come (`Report.sortedDistinct_of_sort`,
`Report.ends_sortedDistinct`). -/

namespace LiquidityWatch

open Sorting

/-- The sorts of values that have an order; a truth value counts as a number. -/
inductive NameSort where
  | number
  | text
  | bytes
deriving DecidableEq

namespace Value

/-- The sort of a value, if it has an order at all. -/
def nameSort? : Value → Option NameSort
  | truth _ | number _ => some .number
  | text _ => some .text
  | bytes _ => some .bytes
  | null | list _ | object _ | candle .. => none

variable {v w : Value} {sort : NameSort}

theorem isText_iff : v.isText ↔ v.nameSort? = some .text := by
  cases v <;> simp [isText, nameSort?]

theorem exists_identifier (h : v.nameSort?.isSome) : ∃ id, v.identifier = .ok id := by
  cases v <;> first | exact ⟨_, rfl⟩ | cases h

/-- A value that counts as true and has no sort cannot name anything. -/
theorem identifier_eq_error (htrue : v.isTruthy) (h : v.nameSort? = none) :
    ∃ f, v.identifier = .error f ∧ f.category = .type := by
  cases v with
  | null => cases htrue
  | truth | number | text | bytes => cases h
  | list | object | candle => exact ⟨_, rfl, rfl⟩

theorem toValue_of_identifier {id : Identifier} (h : v.identifier = .ok id) : id.toValue = v := by
  cases v with
  | list | object | candle => cases h
  | null | truth | number | text | bytes =>
    obtain rfl := Except.ok.inj h
    rfl

theorem ends_identifier (v : Value) :
    Ends (fun id => Identifier.toValue id = v) (fun f => f.category = .type) v.identifier := by
  cases v <;> exact rfl

/-! ## Comparing names -/

/-- Names that can be compared are of one sort. -/
theorem ends_compared (a b : Identifier) :
    Ends (fun _ => a.toValue.nameSort? = b.toValue.nameSort?) (fun f => f.category = .type)
      (compared true a.toValue b.toValue) := by
  cases a <;> cases b <;> simp [Identifier.toValue, compared, toNumber?, nameSort?, Fault.category]

/-- Names of one sort can be compared. -/
theorem exists_compared (hv : v.nameSort? = some sort) (hw : w.nameSort? = some sort) :
    ∃ less, compared true v w = .ok less := by
  cases v <;> cases hv <;> cases w <;> first | exact ⟨_, rfl⟩ | cases hw

/-- Where there is an order among values, they are of one sort. -/
theorem nameSort?_of_isOrder {values : List Value} (h : Comparable.isOrder values = true) :
    ∃ sort, ∀ v ∈ values, v.nameSort? = some sort := by
  have hcases : (values.all isPlaced || values.all isText) = true := h
  rcases Bool.or_eq_true_iff.mp hcases with hall | hall
  · refine ⟨.number, fun v hv => ?_⟩
    have hplaced := List.all_eq_true.mp hall v hv
    cases v with
    | truth | number => rfl
    | null | text | bytes | list | object | candle => cases hplaced
  · exact ⟨.text, fun v hv => isText_iff.mp (List.all_eq_true.mp hall v hv)⟩

/-- Values of one sort can be sorted. -/
theorem exists_sortedBy {values : List Value} (h : ∀ v ∈ values, v.nameSort? = some sort) :
    ∃ sorted, sortedBy id values = .ok sorted := by
  rw [sortedBy]
  split
  · exact ⟨_, rfl⟩
  · have hrelates : Relates (fun v w => Comparable.lt (id v) (id w))
        (fun v : Value => v.nameSort? = some sort) (fun _ _ => True) (fun _ => False) := by
      refine ⟨⟨fun _ => trivial, fun _ => trivial, fun _ _ => trivial⟩, fun v w hv hw => ?_⟩
      obtain ⟨less, hless⟩ := exists_compared hv hw
      rw [show Comparable.lt (id v) (id w) = compared true v w from rfl, hless]
      trivial
    obtain ⟨sorted, hsorted, -⟩ := (ends_adaptiveSort hrelates h).exists_ok
    exact ⟨sorted, hsorted⟩

/-- Sorting names keeps them, and ends well only where they are of one sort. -/
theorem ends_sortedBy {values : List Value} (h : ∀ v ∈ values, ∃ a, v = Identifier.toValue a) :
    Ends (fun sorted => sorted.Perm values ∧
        ∀ v ∈ values, ∀ w ∈ values, v.nameSort? = w.nameSort?)
      (fun f => f.category = .type) (sortedBy id values) := by
  rw [sortedBy]
  split
  · rename_i horder
    rw [List.map_id] at horder
    obtain ⟨sort, hsort⟩ := nameSort?_of_isOrder horder
    exact ⟨List.mergeSort_perm _ _, fun v hv w hw => (hsort v hv).trans (hsort w hw).symm⟩
  · have hrelates : Relates (fun v w => Comparable.lt (id v) (id w))
        (fun v => ∃ a, v = Identifier.toValue a) (fun v w => v.nameSort? = w.nameSort?)
        (fun f => f.category = .type) := by
      refine ⟨⟨fun _ => rfl, Eq.symm, Eq.trans⟩, ?_⟩
      rintro _ _ ⟨a, rfl⟩ ⟨b, rfl⟩
      exact ends_compared a b
    refine (ends_adaptiveSort hrelates h).mono (fun sorted hsorted => ?_) fun _ => id
    obtain ⟨hperm, hlinked⟩ := hsorted
    refine ⟨hperm, fun v hv w hw => ?_⟩
    exact hlinked.related v (hperm.symm.subset hv) w (hperm.symm.subset hw)

end Value

/-! ## Distinct names -/

namespace Identifier

/-- Names that are not told apart are of one sort. -/
theorem nameSort?_congr {a b : Identifier} (h : a == b) :
    a.toValue.nameSort? = b.toValue.nameSort? := by
  have hkey : a.key = b.key := beq_iff.mp h
  cases a <;> cases b <;> first | rfl | cases hkey

theorem mem_of_mem_eraseDups {id : Identifier} {ids : List Identifier} (h : id ∈ ids.eraseDups) :
    id ∈ ids := by
  match ids with
  | [] => exact h
  | first :: rest =>
    rw [List.eraseDups_cons] at h
    rcases List.mem_cons.mp h with rfl | h
    · exact List.mem_cons_self
    · have hrest : id ∈ rest.filter fun other => !other == first := mem_of_mem_eraseDups h
      exact List.mem_cons_of_mem _ (List.mem_filter.mp hrest).1
termination_by ids.length
decreasing_by exact Nat.lt_succ_of_le (List.length_filter_le _ _)

/-- Each name is among the distinct ones, perhaps in another guise. -/
theorem exists_mem_eraseDups {id : Identifier} {ids : List Identifier} (h : id ∈ ids) :
    ∃ id' ∈ ids.eraseDups, id' == id := by
  match ids with
  | [] => cases h
  | first :: rest =>
    rw [List.eraseDups_cons]
    by_cases hsame : first == id
    · exact ⟨first, List.mem_cons_self, hsame⟩
    · have hmem : id ∈ rest := by
        refine (List.mem_cons.mp h).resolve_left ?_
        rintro rfl
        exact hsame BEq.rfl
      have hkept : id ∈ rest.filter fun other => !other == first := by
        rw [List.mem_filter, BEq.comm, Bool.not_eq_true']
        exact ⟨hmem, Bool.not_eq_true _ ▸ hsame⟩
      obtain ⟨id', hid', hbeq⟩ := exists_mem_eraseDups hkept
      exact ⟨id', List.mem_cons_of_mem _ hid', hbeq⟩
termination_by ids.length
decreasing_by exact Nat.lt_succ_of_le (List.length_filter_le _ _)

end Identifier

namespace Report

variable {values : List Value} {sort : NameSort}

/-- Distinct names are some of the values that were read as names. -/
theorem mem_of_mem_distinct {ids : List Identifier} (hids : values.mapM Value.identifier = .ok ids)
    {v : Value} (h : v ∈ ids.eraseDups.map Identifier.toValue) : v ∈ values := by
  obtain ⟨id, hid, rfl⟩ := List.mem_map.mp h
  obtain ⟨v, hv, hread⟩ := exists_of_mem_mapM hids (Identifier.mem_of_mem_eraseDups hid)
  rwa [Value.toValue_of_identifier hread]

/-- What distinct names say about the values that they were read from. -/
structure NamesOf (values names : List Value) : Prop where
  identifiers : ∀ v ∈ values, ∃ id, v.identifier = .ok id
  sameSort : ∀ v ∈ values, ∀ w ∈ values, v.nameSort? = w.nameSort?
  guise : ∀ v ∈ values, ∃ w ∈ names, w.nameSort? = v.nameSort?
  subset : ∀ w ∈ names, w ∈ values

/-- Names of one sort can be sorted, in whatever order they come. -/
theorem sortedDistinct_of_sort (h : ∀ v ∈ values, v.nameSort? = some sort) :
    ∃ names, sortedDistinct values = .ok names := by
  have hnames : ∀ v ∈ values, ∃ id, v.identifier = .ok id := by
    intro v hv
    apply Value.exists_identifier
    rw [h v hv]
    rfl
  have : Nonempty Identifier := ⟨.null⟩
  choose! name hname using hnames
  have hids := mapM_eq_map hname
  have hdistinct : ∀ v ∈ (values.map name).eraseDups.map Identifier.toValue,
      v.nameSort? = some sort := fun v hv => h v (mem_of_mem_distinct hids hv)
  rw [sortedDistinct, hids, ok_bind]
  exact Value.exists_sortedBy hdistinct

/-- Values that end up as sorted names are names of one sort. -/
theorem ends_sortedDistinct (values : List Value) :
    Ends (NamesOf values) (fun f => f.category = .type) (sortedDistinct values) := by
  rw [sortedDistinct]
  cases hids : values.mapM Value.identifier with
  | error f =>
    obtain ⟨_, v, _, -, -, hv⟩ := mapM_eq_error.mp hids
    have hends := v.ends_identifier
    rw [hv] at hends
    exact hends
  | ok ids =>
    have hall := mapM_eq_ok.mp hids
    rw [ok_bind]
    have hvalues : ∀ v ∈ ids.eraseDups.map Identifier.toValue, ∃ a, v = Identifier.toValue a := by
      intro v hv
      obtain ⟨a, -, rfl⟩ := List.mem_map.mp hv
      exact ⟨a, rfl⟩
    -- Every value has a name like it among the distinct ones.
    have hguise : ∀ v ∈ values, ∃ w ∈ ids.eraseDups.map Identifier.toValue,
        w.nameSort? = v.nameSort? := by
      intro v hv
      obtain ⟨id, hmem, hread⟩ := exists_of_forall₂_right hall.flip hv
      obtain ⟨id', hmem', hbeq⟩ := Identifier.exists_mem_eraseDups hmem
      refine ⟨id'.toValue, List.mem_map_of_mem hmem', ?_⟩
      rw [Identifier.nameSort?_congr hbeq, Value.toValue_of_identifier hread]
    refine (Value.ends_sortedBy hvalues).mono (fun names hnames => ?_) fun _ => id
    obtain ⟨hperm, hsame⟩ := hnames
    constructor
    · exact fun v hv => exists_of_forall₂_left hall hv
    · intro v hv w hw
      obtain ⟨v', hv', hsort⟩ := hguise v hv
      obtain ⟨w', hw', hsort'⟩ := hguise w hw
      rw [← hsort, ← hsort', hsame v' hv' w' hw']
    · intro v hv
      obtain ⟨w, hw, hsort⟩ := hguise v hv
      exact ⟨w, hperm.symm.subset hw, hsort⟩
    · exact fun w hw => mem_of_mem_distinct hids (hperm.subset hw)

end Report

end LiquidityWatch
