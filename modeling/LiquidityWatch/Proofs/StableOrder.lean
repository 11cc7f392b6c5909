import LiquidityWatch.Proofs.Outcome
import LiquidityWatch.Sorting
import LiquidityWatch.Value.Order
import Mathlib.Data.List.Sort

/-! # Sorting by numbers

Values that count as numbers lie somewhere on the number line, and sorting by such keys goes by
where they lie. It is a stable sort (`StableSort`): nothing is lost, keys ascend, and elements whose
keys are equal stay in the order in which they came. There is only one such arrangement
(`StableSort.unique`), so what a list is sorted into depends on nothing else; where no two keys are
equal it does not even depend on the order of the list (`sortedBy_perm`). -/

namespace LiquidityWatch

/-! ## Places -/

namespace Place

theorem le_refl (p : Place) : p.le p = true := by
  rw [le, beq_self_eq_true, Bool.or_true]

theorem le_total (p q : Place) : (p.le q || q.le p) = true := by
  cases p <;> cases q <;> simp [le, lt]
  omega

theorem le_trans {p q r : Place} (h : p.le q = true) (h' : q.le r = true) : p.le r = true := by
  cases p <;> cases q <;> cases r <;> simp [le, lt] at h h' ⊢
  omega

theorem le_antisymm {p q : Place} (h : p.le q = true) (h' : q.le p = true) : p = q := by
  cases p <;> cases q <;> simp [le, lt] at h h' ⊢
  omega

/-- Places from the left to the right. -/
instance : LinearOrder Place where
  le p q := p.le q = true
  lt p q := p.lt q = true
  le_refl := le_refl
  le_trans _ _ _ := le_trans
  le_antisymm _ _ := le_antisymm
  le_total p q := by simpa using le_total p q
  lt_iff_le_not_ge p q := by
    cases p <;> cases q <;> simp [le, lt]
    omega
  toDecidableLE p q := inferInstanceAs (Decidable (p.le q = true))
  toDecidableEq := inferInstance
  toDecidableLT p q := inferInstanceAs (Decidable (p.lt q = true))

end Place

/-! ## Values on the number line -/

namespace Value

variable {v w : Value} {p q : Place}

/-- Where the number lies that a value counts as. -/
def place? (v : Value) : Option Place := v.toNumber?.bind Number.place?

theorem exists_toNumber? (h : v.place? = some p) :
    ∃ n, v.toNumber? = some n ∧ n.place? = some p := Option.bind_eq_some_iff.mp h

/-- Values on the number line are compared by their places. -/
theorem atMost_eq (hv : v.place? = some p) (hw : w.place? = some q) :
    Comparable.atMost v w = p.le q := by
  obtain ⟨m, hm, hp⟩ := exists_toNumber? hv
  obtain ⟨n, hn, hq⟩ := exists_toNumber? hw
  have hcompared : compared false v w = .ok (m.le n) := by
    cases v <;> cases hm <;> cases w <;> cases hn <;> rfl
  have hle : Comparable.le v w = .ok (m.le n) := hcompared
  rw [Comparable.atMost, hle, Number.le, Number.related, hp, hq]

/-- A value is equal to one on the number line if it lies in the same place. -/
theorem equals_iff (hv : v.place? = some p) : v.equals w = true ↔ w.place? = some p := by
  obtain ⟨m, hm, hp⟩ := exists_toNumber? hv
  have hequals : v.equals w = match w.toNumber? with
      | some n => m.equals n
      | none => false := by
    cases v <;> cases hm <;> cases w <;> rfl
  rw [hequals, place?]
  cases w.toNumber? with
  | none => simp
  | some n =>
    show Number.equals m n = true ↔ n.place? = some p
    rw [Number.equals, Number.related, hp]
    cases n.place? with
    | none => simp
    | some q =>
      show (p == q) = true ↔ some q = some p
      rw [beq_iff_eq, Option.some_inj, eq_comm]

/-- The place of a value; one that lies nowhere is put below all others. -/
def rank (v : Value) : Place := v.place?.getD .bottom

theorem place?_of_isPlaced (h : v.isPlaced) : v.place? = some v.rank := by
  obtain ⟨p, hp⟩ := Option.isSome_iff_exists.mp h
  have hplace : v.place? = some p := hp
  rw [rank, hplace, Option.getD_some]

theorem atMost_eq_rank (hv : v.isPlaced) (hw : w.isPlaced) :
    Comparable.atMost v w = v.rank.le w.rank :=
  atMost_eq (place?_of_isPlaced hv) (place?_of_isPlaced hw)

theorem atMost_self (hv : v.isPlaced) : Comparable.atMost v v = true :=
  (atMost_eq_rank hv hv).trans (Place.le_refl _)

theorem equals_iff_rank (hv : v.isPlaced) : v.equals w = true ↔ w.place? = some v.rank :=
  equals_iff (place?_of_isPlaced hv)

theorem equals_self (hv : v.isPlaced) : v.equals v = true :=
  (equals_iff_rank hv).mpr (place?_of_isPlaced hv)

/-- Values that are both at most the other are equal. -/
theorem equals_of_atMost (hv : v.isPlaced) (hw : w.isPlaced) (h : Comparable.atMost v w = true)
    (h' : Comparable.atMost w v = true) : v.equals w = true := by
  rw [atMost_eq_rank hv hw] at h
  rw [atMost_eq_rank hw hv] at h'
  rw [equals_iff_rank hv, Place.le_antisymm h h']
  exact place?_of_isPlaced hw

/-- Values that are equal to a third one have the same place. -/
theorem rank_eq_of_equals {u : Value} (hv : v.isPlaced) (hw : w.isPlaced)
    (h : v.equals u = true) (h' : w.equals u = true) : v.rank = w.rank := by
  rw [equals_iff_rank hv] at h
  rw [equals_iff_rank hw, h] at h'
  exact Option.some.inj h'

end Value

/-! ## Stable sorts -/

variable {α : Type} {key : α → Value} {xs ys zs : List α}

/-- The keys of a list ascend. -/
def Ascending (key : α → Value) (xs : List α) : Prop :=
  xs.Pairwise fun x y => Comparable.atMost (key x) (key y) = true

/-- Two lists have the same elements under every key, in the same order. -/
def SameByKey (key : α → Value) (xs ys : List α) : Prop :=
  ∀ v : Value, xs.filter (fun x => (key x).equals v) = ys.filter fun x => (key x).equals v

/-- A list in the order of the keys of its elements; those with equal keys stay in their order. -/
structure StableSort (key : α → Value) (xs sorted : List α) : Prop where
  perm : sorted.Perm xs
  ascending : Ascending key sorted
  stable : SameByKey key sorted xs

/-- Sorting by keys on the number line is a stable sort. -/
theorem stableSort_sortedBy (h : ∀ x ∈ xs, (key x).isPlaced) :
    ∃ sorted, sortedBy key xs = .ok sorted ∧ StableSort key xs sorted := by
  have horder : Comparable.isOrder (xs.map key) = true := by
    have hplaced : (xs.map key).all Value.isPlaced = true := by
      rw [List.all_map]
      exact List.all_eq_true.mpr h
    show ((xs.map key).all Value.isPlaced || _) = true
    rw [hplaced, Bool.true_or]
  -- On these elements the order is that of the ranks, which is total and transitive everywhere.
  have hrank : xs.mergeSort (fun x y => Comparable.atMost (key x) (key y)) =
      xs.mergeSort fun x y => (key x).rank.le (key y).rank := by
    have hmap := List.map_mergeSort (s := fun x y => (key x).rank.le (key y).rank) (f := id)
      fun x hx y hy => Value.atMost_eq_rank (h x hx) (h y hy)
    rwa [List.map_id, List.map_id] at hmap
  have hperm := List.mergeSort_perm xs fun x y => (key x).rank.le (key y).rank
  have htrans : ∀ x y z : α, (key x).rank.le (key y).rank → (key y).rank.le (key z).rank →
      (key x).rank.le (key z).rank := fun _ _ _ => Place.le_trans
  have htotal : ∀ x y : α, (key x).rank.le (key y).rank || (key y).rank.le (key x).rank :=
    fun _ _ => Place.le_total _ _
  rw [sortedBy, if_pos horder, hrank]
  refine ⟨_, rfl, hperm, ?_, fun v => ?_⟩
  · refine (List.pairwise_mergeSort htrans htotal xs).imp_of_mem fun hx hy hle => ?_
    rw [Value.atMost_eq_rank (h _ (hperm.mem_iff.mp hx)) (h _ (hperm.mem_iff.mp hy))]
    exact hle
  · -- The elements under one key are in order already, so they stay as they are.
    have hequal : (xs.filter fun x => (key x).equals v).Pairwise
        fun x y => (key x).rank.le (key y).rank = true := by
      refine List.pairwise_of_forall_mem_list fun x hx y hy => ?_
      obtain ⟨hx, hxv⟩ := List.mem_filter.mp hx
      obtain ⟨hy, hyv⟩ := List.mem_filter.mp hy
      rw [Value.rank_eq_of_equals (h x hx) (h y hy) hxv hyv]
      exact Place.le_refl _
    have hsublist := (List.sublist_mergeSort htrans htotal hequal List.filter_sublist).filter
      fun x => (key x).equals v
    rw [List.filter_filter, List.filter_congr fun x _ => Bool.and_self _] at hsublist
    exact (hsublist.eq_of_length (hperm.filter _).length_eq.symm).symm

/-! ## The only arrangement -/

namespace SameByKey

variable {x y : α}

theorem symm (h : SameByKey key xs ys) : SameByKey key ys xs := fun v => (h v).symm

theorem trans (h : SameByKey key xs ys) (h' : SameByKey key ys zs) : SameByKey key xs zs :=
  fun v => (h v).trans (h' v)

theorem mem (h : SameByKey key xs ys) (hx : x ∈ xs) (hplaced : (key x).isPlaced) : x ∈ ys := by
  have hfiltered : x ∈ xs.filter fun y => (key y).equals (key x) :=
    List.mem_filter.mpr ⟨hx, Value.equals_self hplaced⟩
  rw [h (key x)] at hfiltered
  exact (List.mem_filter.mp hfiltered).1

theorem tail (h : SameByKey key (x :: xs) (x :: ys)) : SameByKey key xs ys := by
  intro v
  have hfilters := h v
  rw [List.filter_cons, List.filter_cons] at hfilters
  split at hfilters
  · exact (List.cons.inj hfilters).2
  · exact hfilters

end SameByKey

/-- The first element of an ascending list is at most every element of it. -/
theorem Ascending.head_atMost {x y : α} (h : Ascending key (x :: xs)) (hx : (key x).isPlaced)
    (hy : y ∈ x :: xs) : Comparable.atMost (key x) (key y) = true := by
  rcases List.mem_cons.mp hy with rfl | hy
  · exact Value.atMost_self hx
  · exact List.rel_of_pairwise_cons h hy

/-- Ascending lists with the same elements under every key have the same head. -/
theorem Ascending.head_eq {x y : α} (hxs : Ascending key (x :: xs)) (hys : Ascending key (y :: ys))
    (hx : (key x).isPlaced) (hy : (key y).isPlaced) (h : SameByKey key (x :: xs) (y :: ys)) :
    x = y := by
  have hle := hxs.head_atMost hx (h.symm.mem List.mem_cons_self hy)
  have hge := hys.head_atMost hy (h.mem List.mem_cons_self hx)
  -- The heads have equal keys, so both are at the front of the elements with that key.
  have hheads := h (key x)
  rw [List.filter_cons, List.filter_cons, if_pos (Value.equals_self hx),
    if_pos (Value.equals_of_atMost hy hx hge hle)] at hheads
  exact (List.cons.inj hheads).1

theorem Ascending.eq_of_sameByKey (hxs : Ascending key xs) (hys : Ascending key ys)
    (hx : ∀ x ∈ xs, (key x).isPlaced) (hy : ∀ y ∈ ys, (key y).isPlaced)
    (h : SameByKey key xs ys) : xs = ys := by
  induction xs generalizing ys with
  | nil =>
    refine (List.eq_nil_iff_forall_not_mem.mpr fun y hmem => ?_).symm
    exact List.not_mem_nil (h.symm.mem hmem (hy y hmem))
  | cons x xs ih =>
    obtain ⟨hxplaced, hxrest⟩ := List.forall_mem_cons.mp hx
    obtain ⟨y, ys, rfl⟩ :=
      List.exists_cons_of_ne_nil (List.ne_nil_of_mem (h.mem List.mem_cons_self hxplaced))
    obtain ⟨hyplaced, hyrest⟩ := List.forall_mem_cons.mp hy
    obtain rfl := hxs.head_eq hys hxplaced hyplaced h
    exact congrArg (x :: ·) (ih hxs.of_cons hys.of_cons hxrest hyrest h.tail)

/-- A list whose keys ascend is its own stable sort. -/
theorem Ascending.stableSort (h : Ascending key xs) : StableSort key xs xs where
  perm := .refl xs
  ascending := h
  stable _ := rfl

namespace StableSort

/-- A list has only one stable sort. -/
theorem unique (h : StableSort key xs ys) (h' : StableSort key xs zs)
    (hplaced : ∀ x ∈ xs, (key x).isPlaced) : ys = zs :=
  h.ascending.eq_of_sameByKey h'.ascending (fun y hy => hplaced y (h.perm.mem_iff.mp hy))
    (fun z hz => hplaced z (h'.perm.mem_iff.mp hz)) (h.stable.trans h'.stable.symm)

/-- What is left of a stable sort is the stable sort of what is left. -/
theorem filter (h : StableSort key xs ys) (p : α → Bool) :
    StableSort key (xs.filter p) (ys.filter p) where
  perm := h.perm.filter p
  ascending := List.Pairwise.filter p h.ascending
  stable v := by
    rw [List.filter_comm, h.stable v, List.filter_comm]

/-- Nothing in a list is above the last element of its stable sort. -/
theorem atMost_getLast (h : StableSort key xs ys) (hplaced : ∀ x ∈ xs, (key x).isPlaced)
    {last x : α} (hlast : ys.getLast? = some last) (hx : x ∈ xs) :
    Comparable.atMost (key x) (key last) = true := by
  obtain ⟨front, rfl⟩ := List.getLast?_eq_some_iff.mp hlast
  have hascending := List.pairwise_append.mp h.ascending
  rcases List.mem_append.mp (h.perm.mem_iff.mpr hx) with hfront | hx'
  · exact hascending.2.2 x hfront last (List.mem_singleton_self last)
  · rw [← List.mem_singleton.mp hx']
    exact Value.atMost_self (hplaced x hx)

/-- Where no two keys are equal, the elements in any order have the same stable sort. -/
theorem of_perm (h : StableSort key xs zs) (hperm : xs.Perm ys)
    (hplaced : ∀ x ∈ xs, (key x).isPlaced)
    (hdistinct : xs.Pairwise fun x y => (key x).equals (key y) = false) :
    StableSort key ys zs where
  perm := h.perm.trans hperm
  ascending := h.ascending
  stable v := by
    rw [h.stable v]
    have hfilters := hperm.filter fun x => (key x).equals v
    have hapart := hdistinct.filter fun x => (key x).equals v
    have hkeys : ∀ x ∈ xs.filter fun x => (key x).equals v,
        (key x).isPlaced ∧ (key x).equals v = true := by
      intro x hx
      obtain ⟨hx, hkey⟩ := List.mem_filter.mp hx
      exact ⟨hplaced x hx, hkey⟩
    generalize xs.filter (fun x => (key x).equals v) = found at hfilters hapart hkeys ⊢
    match found with
    | [] => exact hfilters.nil_eq
    | [x] => exact (List.perm_singleton.mp hfilters.symm).symm
    | x :: y :: rest =>
      -- Two elements under one key have equal keys.
      obtain ⟨hx, hxv⟩ := hkeys x List.mem_cons_self
      obtain ⟨hy, hyv⟩ := hkeys y (List.mem_cons_of_mem _ List.mem_cons_self)
      have hequal : (key x).equals (key y) = true := by
        rw [Value.equals_iff_rank hx, Value.rank_eq_of_equals hx hy hxv hyv]
        exact Value.place?_of_isPlaced hy
      rw [List.rel_of_pairwise_cons hapart List.mem_cons_self] at hequal
      cases hequal

end StableSort

/-- What a list is sorted into is its stable sort, and nothing else is. -/
theorem sortedBy_eq_ok (hplaced : ∀ x ∈ xs, (key x).isPlaced) :
    sortedBy key xs = .ok ys ↔ StableSort key xs ys := by
  obtain ⟨sorted, hsorted, hstable⟩ := stableSort_sortedBy hplaced
  rw [hsorted]
  constructor
  · intro h
    rwa [← Except.ok.inj h]
  · intro h
    rw [hstable.unique h hplaced]

/-- Sorting by keys of which no two are equal does not depend on the order of the list. -/
theorem sortedBy_perm (hperm : xs.Perm ys) (hplaced : ∀ x ∈ xs, (key x).isPlaced)
    (hdistinct : xs.Pairwise fun x y => (key x).equals (key y) = false) :
    sortedBy key ys = sortedBy key xs := by
  have hplaced' : ∀ y ∈ ys, (key y).isPlaced := fun y hy => hplaced y (hperm.mem_iff.mpr hy)
  obtain ⟨sorted, hsorted, hstable⟩ := stableSort_sortedBy hplaced
  rw [hsorted]
  exact (sortedBy_eq_ok hplaced').mpr (hstable.of_perm hperm hplaced hdistinct)

end LiquidityWatch
