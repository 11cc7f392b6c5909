import LiquidityWatch.Proofs.Outcome
import LiquidityWatch.Sorting.Adaptive

/-! # What sorting by runs arrives at

Where comparisons can fail, or contradict each other, sorting by runs still does two things. It
keeps the elements, and it compares enough of them to connect them all: if comparing relates two
elements, then after a sort that ended well all of them are related. The fault of a sort is that of
one of its comparisons (`Sorting.ends_adaptiveSort`). -/

namespace LiquidityWatch.Sorting

variable {α : Type} {lt : α → α → Except Fault Bool} {P : α → Prop} {R : α → α → Prop}
  {E : Fault → Prop} {xs ys : List α}

/-- Comparing two elements that satisfy `P` shows that they are related, or ends with a fault of a
kind. -/
structure Relates (lt : α → α → Except Fault Bool) (P : α → Prop) (R : α → α → Prop)
    (E : Fault → Prop) : Prop where
  equivalence : Equivalence R
  ends : ∀ x y, P x → P y → Ends (fun _ => R x y) E (lt x y)

/-- Elements that satisfy `P` and are all related. -/
structure Linked (P : α → Prop) (R : α → α → Prop) (xs : List α) : Prop where
  members : ∀ x ∈ xs, P x
  related : ∀ x ∈ xs, ∀ y ∈ xs, R x y

namespace Linked

theorem nil : Linked P R [] :=
  ⟨fun _ hx => absurd hx List.not_mem_nil, fun _ hx => absurd hx List.not_mem_nil⟩

theorem singleton (hR : Equivalence R) {x : α} (hx : P x) : Linked P R [x] where
  members := List.forall_mem_singleton.mpr hx
  related := List.forall_mem_singleton.mpr (List.forall_mem_singleton.mpr (hR.refl x))

theorem perm (h : Linked P R xs) (hperm : ys.Perm xs) : Linked P R ys where
  members x hx := h.members x (hperm.subset hx)
  related x hx y hy := h.related x (hperm.subset hx) y (hperm.subset hy)

/-- One relation between two linked lists links them. -/
theorem append (hR : Equivalence R) (h : Linked P R xs) (h' : Linked P R ys)
    (hlink : xs ≠ [] → ys ≠ [] → ∃ x ∈ xs, ∃ y ∈ ys, R x y) : Linked P R (xs ++ ys) where
  members := List.forall_mem_append.mpr ⟨h.members, h'.members⟩
  related := by
    have hacross : ∀ a ∈ xs, ∀ b ∈ ys, R a b := by
      intro a ha b hb
      obtain ⟨x, hx, y, hy, hxy⟩ := hlink (List.ne_nil_of_mem ha) (List.ne_nil_of_mem hb)
      exact hR.trans (hR.trans (h.related a ha x hx) hxy) (h'.related y hy b hb)
    intro a ha b hb
    rcases List.mem_append.mp ha with ha | ha
    · rcases List.mem_append.mp hb with hb | hb
      · exact h.related a ha b hb
      · exact hacross a ha b hb
    · rcases List.mem_append.mp hb with hb | hb
      · exact hR.symm (hacross b hb a ha)
      · exact h'.related a ha b hb

end Linked

/-! ## Runs -/

/-- A list is cut into a run of elements that are related to the last one before them, and the
rest. -/
def GoesOn (R : α → α → Prop) (last : α) (xs : List α) (r : List α × List α) : Prop :=
  r.1 ++ r.2 = xs ∧ ∀ x ∈ r.1, R last x

theorem GoesOn.stop (R : α → α → Prop) (last : α) (xs : List α) : GoesOn R last xs ([], xs) :=
  ⟨rfl, fun _ hx => absurd hx List.not_mem_nil⟩

/-- A run that goes on from an element also goes on from one before that. -/
theorem ends_goesOn (hR : Equivalence R) {last x : α} {walk : Except Fault (List α × List α)}
    (hwalk : Ends (GoesOn R x xs) E walk) (hlast : R last x) :
    Ends (GoesOn R last (x :: xs)) E (do
      let (run, after) ← walk
      return (x :: run, after)) := by
  refine hwalk.bind fun r hr => ?_
  obtain ⟨hsplit, hrun⟩ := hr
  exact ⟨congrArg (x :: ·) hsplit,
    List.forall_mem_cons.mpr ⟨hlast, fun y hy => hR.trans hlast (hrun y hy)⟩⟩

theorem ends_ascendingRun (h : Relates lt P R E) {last : α} (hlast : P last)
    (hxs : ∀ x ∈ xs, P x) : Ends (GoesOn R last xs) E (ascendingRun lt last xs) := by
  induction xs generalizing last with
  | nil => exact .stop R last []
  | cons x rest ih =>
    obtain ⟨hx, hrest⟩ := List.forall_mem_cons.mp hxs
    refine (h.ends x last hx hlast).bind fun less hrelated => ?_
    cases less with
    | true => exact .stop R last (x :: rest)
    | false => exact ends_goesOn h.equivalence (ih hx hrest) (h.equivalence.symm hrelated)

theorem ends_descendingRun (h : Relates lt P R E) {last : α} (hlast : P last)
    (hxs : ∀ x ∈ xs, P x) : Ends (GoesOn R last xs) E (descendingRun lt last xs) := by
  induction xs generalizing last with
  | nil => exact .stop R last []
  | cons x rest ih =>
    obtain ⟨hx, hrest⟩ := List.forall_mem_cons.mp hxs
    refine (h.ends x last hx hlast).bind fun less hrelated => ?_
    cases less with
    | true => exact ends_goesOn h.equivalence (ih hx hrest) (h.equivalence.symm hrelated)
    | false => exact .stop R last (x :: rest)

/-- Elements that are all related to one of them. -/
theorem Linked.of_first (hR : Equivalence R) {x : α} (hmembers : ∀ y ∈ x :: xs, P y)
    (hrelated : ∀ y ∈ xs, R x y) : Linked P R (x :: xs) := by
  have hall : ∀ y ∈ x :: xs, R x y := List.forall_mem_cons.mpr ⟨hR.refl x, hrelated⟩
  exact ⟨hmembers, fun y hy z hz => hR.trans (hR.symm (hall y hy)) (hall z hz)⟩

/-- What a list was cut into: a run whose elements are all related, and the rest. The run is not
empty unless the list is. -/
structure Cuts (P : α → Prop) (R : α → α → Prop) (xs : List α) (r : List α × List α) : Prop where
  perm : (r.1 ++ r.2).Perm xs
  linked : Linked P R r.1
  nonempty : xs ≠ [] → r.1 ≠ []

theorem ends_leadingRun (h : Relates lt P R E) (hxs : ∀ x ∈ xs, P x) :
    Ends (Cuts P R xs) E (leadingRun lt xs) := by
  match xs with
  | [] => exact ⟨.refl _, .nil, id⟩
  | [x] =>
    have hx : P x := hxs x List.mem_cons_self
    exact ⟨.refl _, .singleton h.equivalence hx, fun _ => List.cons_ne_nil _ _⟩
  | x :: y :: rest =>
    obtain ⟨hx, hyrest⟩ := List.forall_mem_cons.mp hxs
    obtain ⟨hy, hrest⟩ := List.forall_mem_cons.mp hyrest
    -- A front of the list that is related to `y` is linked, because `x` was compared with `y`.
    have hfront : ∀ r : List α × List α, R y x → GoesOn R y rest r →
        Linked P R (x :: y :: r.1) := by
      rintro r hyx ⟨rfl, hrun⟩
      apply Linked.of_first h.equivalence
      · intro z hz
        exact hxs z (List.mem_append_left r.2 hz)
      · have hxy := h.equivalence.symm hyx
        refine List.forall_mem_cons.mpr ⟨hxy, fun z hz => h.equivalence.trans hxy (hrun z hz)⟩
    rw [leadingRun]
    refine (h.ends y x hy hx).bind fun less hyx => ?_
    cases less with
    | true =>
      refine (ends_descendingRun h hy hrest).bind fun r hr => ?_
      have hlinked := hfront r hyx hr
      obtain ⟨rfl, -⟩ := hr
      refine ⟨(List.reverse_perm _).append_right r.2, hlinked.perm (List.reverse_perm _), ?_⟩
      intro _ hnil
      exact List.cons_ne_nil _ _ (List.reverse_eq_nil_iff.mp hnil)
    | false =>
      refine (ends_ascendingRun h hy hrest).bind fun r hr => ?_
      have hlinked := hfront r hyx hr
      obtain ⟨rfl, -⟩ := hr
      exact ⟨.refl _, hlinked, fun _ => List.cons_ne_nil _ _⟩

/-- An element that is placed into a list has been compared with one of it. -/
theorem ends_place (h : Relates lt P R E) {x : α} (hx : P x) (hxs : ∀ y ∈ xs, P y) :
    Ends (fun ys => ys.Perm (x :: xs) ∧ (xs ≠ [] → ∃ y ∈ xs, R x y)) E (place lt x xs) := by
  induction hn : xs.length using Nat.strongRecOn generalizing xs with
  | ind n ih =>
    rw [place]
    have hparts : xs.take (xs.length / 2) ++ xs.drop (xs.length / 2) = xs :=
      List.take_append_drop ..
    split
    · rename_i hnone
      have hempty : xs = [] := by
        have hlength := congrArg List.length hnone
        rw [List.length_drop, List.length_nil] at hlength
        exact List.length_eq_zero_iff.mp (by omega)
      subst hempty
      exact ⟨.refl _, fun hne => absurd rfl hne⟩
    · rename_i middle upper hsplit
      generalize hlower : xs.take (xs.length / 2) = lower at hparts ⊢
      rw [hsplit] at hparts
      have hlength : lower.length + (upper.length + 1) = n := by
        rw [← hn, ← hparts, List.length_append, List.length_cons]
      subst hparts
      obtain ⟨hbefore, hafter⟩ := List.forall_mem_append.mp hxs
      obtain ⟨hmiddle, hupper⟩ := List.forall_mem_cons.mp hafter
      refine (h.ends x middle hx hmiddle).bind fun less hrelated => ?_
      have hmet : lower ++ middle :: upper ≠ [] → ∃ y ∈ lower ++ middle :: upper, R x y :=
        fun _ => ⟨middle, List.mem_append_right _ List.mem_cons_self, hrelated⟩
      cases less with
      | true =>
        refine (ih lower.length (by omega) hbefore rfl).bind fun placed hplaced => ?_
        exact ⟨hplaced.1.append_right _, hmet⟩
      | false =>
        refine (ih upper.length (by omega) hupper rfl).bind fun placed hplaced => ?_
        have hplacedupper : (middle :: placed).Perm (x :: middle :: upper) :=
          (hplaced.1.cons middle).trans (.swap x middle upper)
        exact ⟨(hplacedupper.append_left lower).trans List.perm_middle, hmet⟩

/-- Placing further elements into a run keeps it linked. -/
theorem ends_placeAll (h : Relates lt P R E) {run : List α} (hrun : Linked P R run)
    (hne : run ≠ []) (hxs : ∀ x ∈ xs, P x) :
    Ends (fun ys => ys.Perm (run ++ xs) ∧ Linked P R ys) E
      (xs.foldlM (fun sorted x => place lt x sorted) run) := by
  induction xs generalizing run with
  | nil =>
    rw [List.foldlM_nil, List.append_nil]
    exact ⟨.refl _, hrun⟩
  | cons x rest ih =>
    obtain ⟨hx, hrest⟩ := List.forall_mem_cons.mp hxs
    rw [List.foldlM_cons]
    refine (ends_place h hx hrun.members).bind fun placed hplaced => ?_
    obtain ⟨hperm, hmet⟩ := hplaced
    obtain ⟨y, hy, hxy⟩ := hmet hne
    have hlinked : Linked P R ([x] ++ run) :=
      (Linked.singleton h.equivalence hx).append h.equivalence hrun fun _ _ =>
        ⟨x, List.mem_singleton_self x, y, hy, hxy⟩
    have hplacedne : placed ≠ [] := by
      rintro rfl
      exact List.cons_ne_nil _ _ hperm.nil_eq.symm
    refine (ih (hlinked.perm hperm) hplacedne hrest).mono (fun ys hys => ⟨?_, hys.2⟩) fun _ => id
    exact hys.1.trans ((hperm.append_right rest).trans List.perm_middle.symm)

theorem ends_frontRun (h : Relates lt P R E) (hxs : ∀ x ∈ xs, P x) (least : Nat) :
    Ends (Cuts P R xs) E (frontRun lt least xs) := by
  rw [frontRun]
  refine (ends_leadingRun h hxs).bind fun r hr => ?_
  obtain ⟨run, rest⟩ := r
  by_cases hne : xs = []
  · subst hne
    obtain ⟨rfl, rfl⟩ := List.append_eq_nil_iff.mp hr.perm.eq_nil
    simp only [List.take_nil, List.drop_nil, List.foldlM_nil, pure_bind]
    exact ⟨.refl _, .nil, id⟩
  · have hrest : ∀ x ∈ rest.take (least - run.length), P x := fun x hx =>
      hxs x (hr.perm.subset (List.mem_append_right run (List.mem_of_mem_take hx)))
    refine (ends_placeAll h hr.linked (hr.nonempty hne) hrest).bind fun filled hfilled => ?_
    obtain ⟨hperm, hlinked⟩ := hfilled
    refine ⟨?_, hlinked, fun _ hnil => ?_⟩
    · refine (hperm.append_right _).trans ?_
      rw [List.append_assoc, List.take_append_drop]
      exact hr.perm
    · rw [show filled = [] from hnil] at hperm
      exact hr.nonempty hne (List.append_eq_nil_iff.mp hperm.nil_eq.symm).1

/-! ## Galloping -/

section Galloping

variable {taken : Nat → Except Fault Bool}

theorem ends_leap (h : ∀ i, Ends (fun _ => True) E (taken i)) (length last next : Nat) :
    Ends (fun _ => True) E (leap taken length last next) := by
  fun_induction leap taken length last next with
  | case1 last next hnext ih =>
    refine (h next).bind fun wins _ => ?_
    cases wins with
    | true => exact ih
    | false => trivial
  | case2 => trivial

theorem ends_halve (h : ∀ i, Ends (fun _ => True) E (taken i)) (side : Side) (low high : Nat) :
    Ends (fun _ => True) E (halve side taken low high) := by
  fun_induction halve side taken low high with
  | case1 low high hlow middle ihlow ihhigh =>
    refine (h middle).bind fun wins _ => ?_
    cases wins with
    | true => exact ihlow
    | false => exact ihhigh
  | case2 => trivial

/-- A question about the element at a place, which has the answer no where there is none. -/
theorem ends_askAt {ask : α → Except Fault Bool} (h : ∀ x ∈ xs, Ends (fun _ => True) E (ask x))
    (i : Nat) : Ends (fun _ => True) E
      (match xs[i]? with | some x => ask x | none => .ok false) := by
  cases hi : xs[i]? with
  | none => trivial
  | some x => exact h x (List.mem_of_getElem? hi)

/-- Galloping through a run looks at its head first. -/
theorem ends_gallop {taken : α → Except Fault Bool} {Q : α → Prop} {run : List α}
    (h : ∀ x ∈ run, Ends (fun _ => Q x) E (taken x)) (side : Side) :
    Ends (fun _ => ∀ x ∈ run.head?, Q x) E (gallop side taken run) := by
  have hany := ends_askAt fun x hx => (h x hx).mono (fun _ _ => trivial) fun _ => id
  rw [gallop]
  cases run with
  | nil => exact fun x hx => nomatch hx
  | cons x rest =>
    refine (h x List.mem_cons_self).bind fun wins hQ => ?_
    have hhead : ∀ y ∈ (x :: rest).head?, Q y := by
      rintro y ⟨⟩
      exact hQ
    cases wins with
    | false => exact hhead
    | true =>
      refine (ends_leap hany _ 0 1).bind fun found _ => ?_
      exact (ends_halve hany side _ _).mono (fun _ _ => hhead) fun _ => id

end Galloping

/-! ## Merging -/

theorem ends_takesFirst (h : Relates lt P R E) (side : Side) {x y : α} (hx : P x) (hy : P y) :
    Ends (fun _ => R x y) E (takesFirst lt side x y) :=
  (h.ends y x hy hx).bind fun _ hrelated => .pure (h.equivalence.symm hrelated)

theorem ends_gallopFirst (h : Relates lt P R E) (side : Side) {y : α} (hy : P y)
    (hxs : ∀ x ∈ xs, P x) : Ends (fun _ => ∀ x ∈ xs.head?, R x y) E
      (gallop side (fun x => takesFirst lt side x y) xs) :=
  ends_gallop (fun x hx => ends_takesFirst h side (hxs x hx) hy) side

theorem ends_gallopSecond (h : Relates lt P R E) (side : Side) {x : α} (hx : P x)
    (hys : ∀ y ∈ ys, P y) : Ends (fun _ => ∀ y ∈ ys.head?, R x y) E
      (gallop side (fun y => do return !(← takesFirst lt side x y)) ys) :=
  ends_gallop (fun y hy => (ends_takesFirst h side hx (hys y hy)).bind fun _ hxy => .pure hxy) side

namespace Merging

/-- All elements of a merge, merged or not. -/
def elements (m : Merging α) : List α := m.first ++ m.second ++ m.merged

theorem elements_takeFirst (m : Merging α) (n : Nat) :
    (m.takeFirst n).elements.Perm m.elements := by
  have hmoved : (m.first.drop n ++ m.second ++ (m.first.take n).reverse).Perm
      (m.first.take n ++ (m.first.drop n ++ m.second)) :=
    List.perm_append_comm.trans ((List.reverse_perm _).append_right _)
  rw [← List.append_assoc (m.first.take n), List.take_append_drop] at hmoved
  rw [elements, elements, takeFirst, ← List.append_assoc]
  exact hmoved.append_right m.merged

theorem elements_takeSecond (m : Merging α) (n : Nat) :
    (m.takeSecond n).elements.Perm m.elements := by
  have hmoved : (m.second.drop n ++ (m.second.take n).reverse).Perm
      (m.second.take n ++ m.second.drop n) :=
    List.perm_append_comm.trans ((List.reverse_perm _).append_right _)
  rw [List.take_append_drop] at hmoved
  rw [elements, elements, takeSecond, ← List.append_assoc, List.append_assoc m.first]
  exact (hmoved.append_left m.first).append_right m.merged

theorem result_perm (side : Side) (m : Merging α) : (m.result side).Perm m.elements := by
  cases side with
  | front =>
    have hleft : (m.second ++ m.first).Perm (m.first ++ m.second) := List.perm_append_comm
    exact ((List.reverse_perm _).append hleft).trans List.perm_append_comm
  | back => exact (List.reverse_perm _).append_right m.merged

/-- A number that is asked of the head of a run, and how it goes on from there. -/
theorem ends_head {β : Type} {Q : β → Prop} {run : List α} {ask : α → Except Fault Nat}
    {goOn : Nat → Except Fault β} : (∀ x ∈ run, Ends (fun _ => True) E (ask x)) →
    (∀ n, Ends Q E (goOn n)) →
    Ends Q E (match run with | x :: _ => ask x >>= goOn | [] => Except.ok 0 >>= goOn) := by
  intro hask hgo
  cases run with
  | nil => exact hgo 0
  | cons x rest => exact (hask x List.mem_cons_self).bind fun n _ => hgo n

/-- A round of galloping keeps the elements. -/
theorem ends_gallopRound (h : Relates lt P R E) (side : Side) {m : Merging α}
    (hm : ∀ x ∈ m.elements, P x) :
    Ends (fun r => r.1.elements.Perm m.elements) E (m.gallopRound lt side) := by
  have hfirst : ∀ {m' : Merging α}, m'.elements.Perm m.elements → ∀ x ∈ m'.first, P x :=
    fun hperm x hx =>
      hm x (hperm.subset (List.mem_append_left _ (List.mem_append_left _ hx)))
  have hsecond : ∀ {m' : Merging α}, m'.elements.Perm m.elements → ∀ y ∈ m'.second, P y :=
    fun hperm y hy =>
      hm y (hperm.subset (List.mem_append_left _ (List.mem_append_right _ hy)))
  rw [gallopRound]
  refine ends_head (fun y hy => ?_) fun fromFirst => ?_
  · have hends := ends_gallopFirst h side (hsecond (.refl _) y hy) (hfirst (.refl _))
    exact hends.mono (fun _ _ => trivial) fun _ => id
  have htaken := m.elements_takeFirst fromFirst
  have hstopped := ((m.takeFirst fromFirst).elements_takeSecond 1).trans htaken
  dsimp only
  split
  · exact htaken
  split
  · exact hstopped
  refine ends_head (fun x hx => ?_) fun fromSecond => ?_
  · have hends := ends_gallopSecond h side (hfirst hstopped x hx) (hsecond hstopped)
    exact hends.mono (fun _ _ => trivial) fun _ => id
  have htaken' := (Merging.elements_takeSecond _ fromSecond).trans hstopped
  split
  · exact htaken'
  · exact (Merging.elements_takeFirst _ 1).trans htaken'

end Merging

/-- A merge that is carried on keeps the elements. -/
theorem ends_mergeOn (h : Relates lt P R E) (side : Side) (fuel patience : Nat) (pace : Pace)
    {m : Merging α} (hm : ∀ x ∈ m.elements, P x) :
    Ends (fun r => r.1.Perm m.elements) E (mergeOn lt side fuel patience pace m) := by
  induction fuel generalizing patience pace m with
  | zero => exact m.result_perm side
  | succ fuel ih =>
    have hresult := m.result_perm side
    -- A part of the merge keeps the elements if it goes on with the same ones.
    have hgo : ∀ patience pace {m' : Merging α}, m'.elements.Perm m.elements →
        Ends (fun r => r.1.Perm m.elements) E (mergeOn lt side fuel patience pace m') := by
      intro patience pace m' hperm
      have hends := ih patience pace (fun x hx => hm x (hperm.subset hx))
      exact hends.mono (fun r hr => hr.trans hperm) fun _ => id
    rw [mergeOn.eq_def]
    dsimp only
    split
    · exact hresult
    · split
      · rename_i x xs y ys hfirst hsecond
        have hx : P x := hm x (by simp [Merging.elements, hfirst])
        have hy : P y := hm y (by simp [Merging.elements, hsecond])
        refine (ends_takesFirst h side hx hy).bind fun taken _ => ?_
        cases taken with
        | true => exact hgo _ _ (m.elements_takeFirst 1)
        | false => exact hgo _ _ (m.elements_takeSecond 1)
      · refine (Merging.ends_gallopRound h side hm).bind fun r hr => ?_
        obtain ⟨m', taken⟩ := r
        dsimp only
        split
        · exact (m'.result_perm side).trans hr
        · split
          · exact hgo _ _ hr
          · exact hgo _ _ hr

theorem ends_mergeFrom (h : Relates lt P R E) (side : Side) (patience : Nat)
    (hxs : ∀ x ∈ xs, P x) (hys : ∀ y ∈ ys, P y) :
    Ends (fun r => r.1.Perm (xs ++ ys)) E (mergeFrom lt side patience xs ys) := by
  have hall := List.forall_mem_append.mpr ⟨hxs, hys⟩
  have hgo : ∀ {m : Merging α}, m.elements.Perm (xs ++ ys) → Ends (fun r => r.1.Perm (xs ++ ys)) E
      (mergeOn lt side (xs.length + ys.length) patience (.stepping 0 0) m) := by
    intro m hm
    have hends := ends_mergeOn h side (xs.length + ys.length) patience (.stepping 0 0)
      (fun x hx => hall x (hm.subset hx))
    exact hends.mono (fun r hr => hr.trans hm) fun _ => id
  cases side with
  | front =>
    refine hgo ((Merging.elements_takeSecond _ 1).trans ?_)
    rw [Merging.elements, List.append_nil]
  | back =>
    refine hgo ((Merging.elements_takeFirst _ 1).trans ?_)
    rw [Merging.elements, List.append_nil]
    exact (List.reverse_perm xs).append (List.reverse_perm ys)

/-- Runs that are merged keep their elements, and are linked: the head of the first run was compared
with that of the second. -/
theorem ends_mergeRuns (h : Relates lt P R E) (patience : Nat) (hxs : Linked P R xs)
    (hys : Linked P R ys) : Ends (fun r => r.1.Perm (xs ++ ys) ∧ Linked P R r.1) E
      (mergeRuns lt patience xs ys) := by
  have hunmerged : (xs ≠ [] → ys ≠ [] → ∃ x ∈ xs, ∃ y ∈ ys, R x y) →
      (xs ++ ys).Perm (xs ++ ys) ∧ Linked P R (xs ++ ys) :=
    fun hlink => ⟨.refl _, hxs.append h.equivalence hys hlink⟩
  rw [mergeRuns.eq_def]
  split
  · rename_i y rest last hlast
    have hy : P y := hys.members y List.mem_cons_self
    have hlastmem : P last := hxs.members last (List.mem_of_getLast? hlast)
    refine (ends_gallopFirst h .front hy hxs.members).bind fun settled hhead => ?_
    have hboth := hunmerged fun hne _ =>
      ⟨xs.head hne, List.head_mem hne, y, List.mem_cons_self, hhead _ (List.head?_eq_some_head hne)⟩
    split
    · exact hboth
    have hback : ∀ z ∈ (y :: rest).reverse, P z := fun z hz =>
      hys.members z (List.mem_reverse.mp hz)
    refine (ends_gallopSecond h .back hlastmem hback).bind fun behind _ => ?_
    split
    · exact hboth
    generalize y :: rest = ys at *
    have hleft : ∀ x ∈ xs.drop settled, P x := fun x hx =>
      hxs.members x (List.mem_of_mem_drop hx)
    have hright : ∀ y ∈ ys.take (ys.length - behind), P y := fun y hy =>
      hys.members y (List.mem_of_mem_take hy)
    refine (ends_mergeFrom h _ patience hleft hright).bind fun r hr => ?_
    have hperm : (xs.take settled ++ r.1 ++ ys.drop (ys.length - behind)).Perm (xs ++ ys) := by
      have hmiddle := (hr.append_left (xs.take settled)).append_right (ys.drop (ys.length - behind))
      rwa [← List.append_assoc, List.take_append_drop, List.append_assoc xs,
        List.take_append_drop] at hmiddle
    exact ⟨hperm, hboth.2.perm hperm⟩
  · rename_i hnone
    refine hunmerged fun hne hne' => ?_
    obtain ⟨y, rest, rfl⟩ := List.exists_cons_of_ne_nil hne'
    exact absurd (List.getLast?_eq_some_getLast hne) (hnone y rest _ rfl)

/-! ## Runs that wait -/

/-- The elements of runs that wait. -/
def Stack.elements (stack : Stack α) : List α := stack.flatMap Pending.run

/-- Runs that wait and hold these elements: each of them is linked, and none is empty. -/
structure Stack.Holds (P : α → Prop) (R : α → α → Prop) (xs : List α) (stack : Stack α) : Prop where
  perm : stack.elements.Perm xs
  runs : ∀ p ∈ stack, Linked P R p.run ∧ p.run ≠ []

/-- Two runs that follow each other are replaced by what they are merged to. -/
theorem Stack.Holds.ends_merge (h : Relates lt P R E) (patience : Nat) {above rest : Stack α}
    {p q : Pending α} (hstack : Stack.Holds P R xs (above ++ q :: p :: rest)) :
    Ends (fun r => Stack.Holds P R xs (above ++ { p with run := r.1 } :: rest)) E
      (mergeRuns lt patience p.run q.run) := by
  obtain ⟨hp, hne⟩ := hstack.runs p (by simp)
  obtain ⟨hq, -⟩ := hstack.runs q (by simp)
  refine (ends_mergeRuns h patience hp hq).mono (fun r hr => ?_) fun _ => id
  obtain ⟨hperm, hlinked⟩ := hr
  have hrun : r.1 ≠ [] := by
    intro hnil
    rw [hnil] at hperm
    exact hne (List.append_eq_nil_iff.mp hperm.nil_eq.symm).1
  constructor
  · refine List.Perm.trans ?_ hstack.perm
    simp only [elements, List.flatMap_append, List.flatMap_cons]
    rw [← List.append_assoc q.run]
    exact ((hperm.trans List.perm_append_comm).append_right _).append_left _
  · intro r' hr'
    rcases List.mem_append.mp hr' with hr' | hr'
    · exact hstack.runs r' (List.mem_append_left _ hr')
    · rcases List.mem_cons.mp hr' with rfl | hr'
      · exact ⟨hlinked, hrun⟩
      · exact hstack.runs r' (by simp [hr'])

theorem ends_collapse (h : Relates lt P R E) (power patience : Nat) {stack : Stack α}
    (hstack : stack.Holds P R xs) : Ends (fun r => r.1.Holds P R xs) E
      (collapse lt power patience stack) := by
  fun_induction collapse lt power patience stack with
  | case1 patience last before rest hpower ih =>
    have hmerge : Ends _ E (mergeRuns lt patience before.run last.run) :=
      @Stack.Holds.ends_merge α lt P R E xs h patience [] rest before last hstack
    exact hmerge.bind fun r hr => ih _ _ hr
  | case2 => exact hstack
  | case3 => exact hstack

theorem ends_collapseAll (h : Relates lt P R E) (patience : Nat) {stack : Stack α}
    (hstack : stack.Holds P R xs) : Ends (fun ys => ys.Perm xs ∧ Linked P R ys) E
      (collapseAll lt patience stack) := by
  have hsingle : ∀ {p : Pending α}, Stack.Holds P R xs [p] → p.run.Perm xs ∧ Linked P R p.run := by
    intro p hp
    have hperm := hp.perm
    rw [Stack.elements, List.flatMap_singleton] at hperm
    exact ⟨hperm, (hp.runs p (List.mem_singleton_self p)).1⟩
  fun_induction collapseAll lt patience stack with
  | case1 => exact ⟨hstack.perm, .nil⟩
  | case2 patience only => exact hsingle hstack
  | case3 patience last middle before rest hshort ih =>
    have hmerge : Ends _ E (mergeRuns lt patience before.run middle.run) :=
      @Stack.Holds.ends_merge α lt P R E xs h patience [last] rest before middle hstack
    exact hmerge.bind fun r hr => ih _ _ hr
  | case4 patience last middle before rest hshort ih =>
    have hmerge : Ends _ E (mergeRuns lt patience middle.run last.run) :=
      @Stack.Holds.ends_merge α lt P R E xs h patience [] (before :: rest) middle last hstack
    exact hmerge.bind fun r hr => ih _ _ hr
  | case5 patience last before =>
    have hmerge : Ends _ E (mergeRuns lt patience before.run last.run) :=
      @Stack.Holds.ends_merge α lt P R E xs h patience [] [] before last hstack
    exact hmerge.bind fun r hr => hsingle hr

/-- One more run waits. -/
theorem Stack.Holds.cons {stack : Stack α} (h : stack.Holds P R xs) {p : Pending α}
    (hlinked : Linked P R p.run) (hne : p.run ≠ []) : Stack.Holds P R (xs ++ p.run) (p :: stack) :=
  ⟨List.perm_append_comm.trans (h.perm.append_right p.run),
    List.forall_mem_cons.mpr ⟨⟨hlinked, hne⟩, h.runs⟩⟩

theorem ends_push (h : Relates lt P R E) (n patience : Nat) {stack : Stack α}
    (hstack : stack.Holds P R xs) {run : List α} (hrun : Linked P R run) (hne : run ≠ []) :
    Ends (fun r => r.1.Holds P R (xs ++ run)) E (push lt n patience stack run) := by
  rw [push.eq_def]
  split
  · exact hstack.cons (p := ⟨run, 0, 0⟩) hrun hne
  · rename_i last rest
    refine (ends_collapse h _ patience hstack).bind fun r hr => ?_
    obtain ⟨_ | ⟨p, others⟩, patience⟩ := r
    · exact hr.cons (p := ⟨run, _, 0⟩) hrun hne
    · have hmarked : Stack.Holds P R xs
          ({ p with power := last.boundaryPower n run.length } :: others) :=
        ⟨hr.perm, List.forall_mem_cons.mpr (List.forall_mem_cons.mp hr.runs)⟩
      exact hmarked.cons (p := ⟨run, _, 0⟩) hrun hne

/-- Cutting a list into runs and merging them goes through all of its elements. -/
theorem ends_sortRuns (h : Relates lt P R E) (n least fuel patience : Nat) {stack : Stack α}
    (hstack : stack.Holds P R xs) (hys : ∀ y ∈ ys, P y) (hfuel : ys.length ≤ fuel) :
    Ends (fun zs => zs.Perm (xs ++ ys) ∧ Linked P R zs) E
      (sortRuns lt n least fuel patience stack ys) := by
  induction fuel generalizing xs ys stack patience with
  | zero =>
    obtain rfl := List.length_eq_zero_iff.mp (Nat.le_zero.mp hfuel)
    rw [List.append_nil]
    exact ends_collapseAll h patience hstack
  | succ fuel ih =>
    cases ys with
    | nil =>
      rw [List.append_nil]
      exact ends_collapseAll h patience hstack
    | cons y rest =>
      refine (ends_frontRun h hys least).bind fun r hr => ?_
      obtain ⟨run, after⟩ := r
      have hne : run ≠ [] := hr.nonempty (List.cons_ne_nil _ _)
      refine (ends_push h n patience hstack hr.linked hne).bind fun r' hr' => ?_
      have hafter : ∀ z ∈ after, P z := fun z hz =>
        hys z (hr.perm.subset (List.mem_append_right run hz))
      have hlength : after.length ≤ fuel := by
        have hsum : run.length + after.length = rest.length + 1 := by
          rw [← List.length_append]
          exact hr.perm.length_eq
        have hpos : 0 < run.length := List.length_pos_iff.mpr hne
        rw [List.length_cons] at hfuel
        omega
      refine (ih r'.2 hr' hafter hlength).mono (fun zs hzs => ⟨hzs.1.trans ?_, hzs.2⟩) fun _ => id
      rw [List.append_assoc]
      exact hr.perm.append_left xs

/-- **Sorting connects what it arranges.** Whatever the order says, a sort by runs that ends well
keeps the elements and has related all of them to each other; otherwise it ends with the fault of a
comparison. -/
theorem ends_adaptiveSort (h : Relates lt P R E) (hxs : ∀ x ∈ xs, P x) :
    Ends (fun ys => ys.Perm xs ∧ Linked P R ys) E (adaptiveSort lt xs) := by
  have hempty : Stack.Holds P R ([] : List α) [] :=
    ⟨.refl _, fun p hp => absurd hp List.not_mem_nil⟩
  exact ends_sortRuns h xs.length _ xs.length standardPatience hempty hxs (Nat.le_refl _)

end LiquidityWatch.Sorting
