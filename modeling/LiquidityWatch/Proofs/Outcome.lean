import LiquidityWatch.Fault
import Mathlib.Data.List.Forall2

/-! # Outcomes of computations that may fail

What a computation that ended well says about the computations it was put together from. A chain
ended well only if each of its links did, and a walk through a list only if every element was
accepted: the results then stand opposite to the elements (`List.Forall₂`). -/

namespace LiquidityWatch

variable {ε α β γ : Type}

/-- A chain ends well exactly if its first link does and the rest does from there. -/
theorem bind_eq_ok {x : Except ε α} {f : α → Except ε β} {b : β} :
    x >>= f = .ok b ↔ ∃ a, x = .ok a ∧ f a = .ok b := by
  cases x with
  | error e => simp [bind, Except.bind]
  | ok a => simp [bind, Except.bind]

@[simp] theorem pure_eq_ok {a b : α} : (pure a : Except ε α) = .ok b ↔ a = b :=
  ⟨fun h => Except.ok.inj h, fun h => h ▸ rfl⟩

@[simp] theorem ok_bind (a : α) (f : α → Except ε β) : (Except.ok a >>= f) = f a := rfl

@[simp] theorem error_bind (e : ε) (f : α → Except ε β) : (Except.error e >>= f) = .error e := rfl

theorem bind_ok_eq_error {x : Except ε α} {f : α → β} {e : ε} :
    (x >>= fun a => .ok (f a)) = .error e ↔ x = .error e := by
  cases x with
  | error e' => simp
  | ok a => simp

/-- Chains with the same first link end with the same fault if their rests do. -/
theorem bind_error_congr {x : Except ε α} {f : α → Except ε β} {g : α → Except ε γ} {e : ε}
    (h : ∀ a, f a = .error e ↔ g a = .error e) :
    x >>= f = .error e ↔ x >>= g = .error e := by
  cases x with
  | error e' => simp
  | ok a => exact h a

theorem exists_of_isSome_toOption {x : Except ε α} (h : x.toOption.isSome) : ∃ a, x = .ok a := by
  cases x with
  | ok a => exact ⟨a, rfl⟩
  | error e => cases h

/-- A walk through a list ends well exactly if every element is accepted. -/
theorem mapM_eq_ok {f : α → Except ε β} {xs : List α} {ys : List β} :
    xs.mapM f = .ok ys ↔ List.Forall₂ (fun x y => f x = .ok y) xs ys := by
  induction xs generalizing ys with
  | nil => rw [List.mapM_nil, pure_eq_ok, List.forall₂_nil_left_iff, eq_comm]
  | cons x xs ih =>
    rw [List.mapM_cons]
    constructor
    · intro h
      obtain ⟨y, hy, h⟩ := bind_eq_ok.mp h
      obtain ⟨rest, hrest, h⟩ := bind_eq_ok.mp h
      obtain rfl := pure_eq_ok.mp h
      exact .cons hy (ih.mp hrest)
    · rintro (_ | ⟨hy, hrest⟩)
      exact bind_eq_ok.mpr ⟨_, hy, bind_eq_ok.mpr ⟨_, ih.mpr hrest, rfl⟩⟩

theorem exists_of_forall₂_right {R : α → β → Prop} {xs : List α} {ys : List β}
    (h : List.Forall₂ R xs ys) {y : β} (hy : y ∈ ys) : ∃ x ∈ xs, R x y := by
  induction h with
  | nil => cases hy
  | cons hxy hrest ih =>
    rcases List.mem_cons.mp hy with rfl | hy
    · exact ⟨_, List.mem_cons_self, hxy⟩
    · obtain ⟨x, hx, hR⟩ := ih hy
      exact ⟨x, List.mem_cons_of_mem _ hx, hR⟩

theorem exists_of_forall₂_left {R : α → β → Prop} {xs : List α} {ys : List β}
    (h : List.Forall₂ R xs ys) {x : α} (hx : x ∈ xs) : ∃ y, R x y := by
  induction h with
  | nil => cases hx
  | cons hxy hrest ih =>
    rcases List.mem_cons.mp hx with rfl | hx
    · exact ⟨_, hxy⟩
    · exact ih hx

theorem map_eq_of_forall₂ {R : α → β → Prop} {f : β → α} {xs : List α} {ys : List β}
    (h : List.Forall₂ R xs ys) (hR : ∀ x y, R x y → f y = x) : ys.map f = xs := by
  rw [← List.forall₂_eq_eq_eq, List.forall₂_map_left_iff]
  exact h.flip.imp fun y x => hR x y

/-- What a walk that ended well accepted came from one of the elements. -/
theorem exists_of_mem_mapM {f : α → Except ε β} {xs : List α} {ys : List β}
    (h : xs.mapM f = .ok ys) {y : β} (hy : y ∈ ys) : ∃ x ∈ xs, f x = .ok y :=
  exists_of_forall₂_right (mapM_eq_ok.mp h) hy

/-- A walk through elements that are all accepted. -/
theorem mapM_eq_map {f : α → Except ε β} {g : α → β} {xs : List α}
    (h : ∀ x ∈ xs, f x = .ok (g x)) : xs.mapM f = .ok (xs.map g) := by
  rw [mapM_eq_ok, List.forall₂_map_right_iff, List.forall₂_same]
  exact h

/-- Walks through the same elements in another order have the same results in another order. -/
theorem mapM_perm {f : α → Except ε β} {xs xs' : List α} {ys ys' : List β} (h : xs.Perm xs')
    (hys : xs.mapM f = .ok ys) (hys' : xs'.mapM f = .ok ys') : ys.Perm ys' := by
  have hresults : ∀ {xs : List α} {ys : List β}, xs.mapM f = .ok ys →
      ys = xs.filterMap fun x => (f x).toOption := by
    intro xs ys hys
    rw [mapM_eq_ok] at hys
    induction hys with
    | nil => rfl
    | cons hxy _ ih => rw [List.filterMap_cons, hxy, ← ih]; rfl
  rw [hresults hys, hresults hys']
  exact h.filterMap _

/-- A second walk along the results of a first one is one walk. -/
theorem mapM_zip_eq_ok {f : α → Except ε β} {g : α → β → Except ε γ} {xs : List α} {ys : List β}
    {zs : List γ} (hf : xs.mapM f = .ok ys) (hg : (xs.zip ys).mapM (fun (x, y) => g x y) = .ok zs) :
    xs.mapM (fun x => do g x (← f x)) = .ok zs := by
  rw [mapM_eq_ok] at hf
  induction hf generalizing zs with
  | nil => exact hg
  | cons hxy _ ih =>
    rw [List.zip_cons_cons, List.mapM_cons] at hg
    obtain ⟨z, hz, hg⟩ := bind_eq_ok.mp hg
    obtain ⟨rest, hrest, hg⟩ := bind_eq_ok.mp hg
    rw [List.mapM_cons, hxy, ok_bind, ih hrest]
    exact bind_eq_ok.mpr ⟨z, hz, hg⟩

/-- A list of outcomes ends well exactly if all of them do. -/
theorem mapM_id_eq_ok {xs : List (Except ε α)} {ys : List α} :
    xs.mapM id = .ok ys ↔ xs = ys.map .ok := by
  rw [mapM_eq_ok, ← List.forall₂_eq_eq_eq, List.forall₂_map_right_iff]
  rfl

/-- A walk through a list ends with the first fault that it meets. -/
theorem mapM_append_error {f : α → Except ε β} {before : List α} {x : α} {e : ε}
    (hbefore : ∀ y ∈ before, ∃ z, f y = .ok z) (hx : f x = .error e) (after : List α) :
    (before ++ x :: after).mapM f = .error e := by
  induction before with
  | nil => rw [List.nil_append, List.mapM_cons, hx, error_bind]
  | cons y before ih =>
    obtain ⟨⟨z, hz⟩, hrest⟩ := List.forall_mem_cons.mp hbefore
    rw [List.cons_append, List.mapM_cons, hz, ok_bind, ih hrest, error_bind]

/-- The fault of a walk is that of an element, and all elements before it are accepted. -/
theorem mapM_eq_error {f : α → Except ε β} {xs : List α} {e : ε} : xs.mapM f = .error e ↔
    ∃ before x after, xs = before ++ x :: after ∧ (∀ y ∈ before, ∃ z, f y = .ok z) ∧
      f x = .error e := by
  constructor
  · intro h
    induction xs with
    | nil => cases h
    | cons x xs ih =>
      rw [List.mapM_cons] at h
      cases hx : f x with
      | error fault =>
        rw [hx, error_bind] at h
        obtain rfl := Except.error.inj h
        exact ⟨[], x, xs, rfl, fun y hy => absurd hy List.not_mem_nil, hx⟩
      | ok z =>
        rw [hx, ok_bind] at h
        cases hrest : xs.mapM f with
        | ok zs => rw [hrest] at h; cases h
        | error fault =>
          rw [hrest, error_bind] at h
          obtain ⟨before, y, after, rfl, hbefore, hy⟩ := ih (hrest.trans h)
          exact ⟨x :: before, y, after, rfl, List.forall_mem_cons.mpr ⟨⟨z, hx⟩, hbefore⟩, hy⟩
  · rintro ⟨before, x, after, rfl, hbefore, hx⟩
    exact mapM_append_error hbefore hx after

theorem mapM_congr {f g : α → Except ε β} {xs : List α} (h : ∀ x ∈ xs, f x = g x) :
    xs.mapM f = xs.mapM g := by
  induction xs with
  | nil => rfl
  | cons x xs ih =>
    rw [List.mapM_cons, List.mapM_cons, h x List.mem_cons_self,
      ih fun y hy => h y (List.mem_cons_of_mem _ hy)]

theorem foldlM_congr {f g : β → α → Except ε β} {xs : List α} (h : ∀ b, ∀ x ∈ xs, f b x = g b x)
    (b : β) : xs.foldlM f b = xs.foldlM g b := by
  induction xs generalizing b with
  | nil => rfl
  | cons x xs ih =>
    rw [List.foldlM_cons, List.foldlM_cons, h b x List.mem_cons_self]
    exact congrArg _ (funext fun b' => ih (fun c y hy => h c y (List.mem_cons_of_mem _ hy)) b')

/-- A check of every element ends well exactly if each of them passes. -/
theorem forM_eq_ok {f : α → Except ε Unit} {xs : List α} :
    xs.forM f = .ok () ↔ ∀ x ∈ xs, f x = .ok () := by
  induction xs with
  | nil => exact ⟨fun _ x hx => absurd hx List.not_mem_nil, fun _ => rfl⟩
  | cons x xs ih =>
    rw [List.forall_mem_cons, ← ih]
    constructor
    · intro h
      obtain ⟨_, hx, hrest⟩ := bind_eq_ok.mp h
      exact ⟨hx, hrest⟩
    · rintro ⟨hx, hrest⟩
      exact bind_eq_ok.mpr ⟨_, hx, hrest⟩

theorem forM_eq_mapM (f : α → Except ε Unit) (xs : List α) :
    xs.forM f = xs.mapM f >>= fun _ => .ok () := by
  induction xs with
  | nil => rfl
  | cons x xs ih =>
    rw [List.mapM_cons]
    show (f x >>= fun _ => xs.forM f) = _
    rw [ih]
    cases f x with
    | error e => rfl
    | ok u =>
      rw [ok_bind, ok_bind]
      cases xs.mapM f <;> rfl

/-- The fault of a check is that of the first element that does not pass. -/
theorem forM_eq_error {f : α → Except ε Unit} {xs : List α} {e : ε} : xs.forM f = .error e ↔
    ∃ before x after, xs = before ++ x :: after ∧ (∀ y ∈ before, f y = .ok ()) ∧
      f x = .error e := by
  rw [forM_eq_mapM, bind_ok_eq_error, mapM_eq_error]
  simp only [Unique.exists_iff, PUnit.default_eq_unit]

theorem filterAuxM_ok (q : α → Bool) (xs found : List α) :
    xs.filterAuxM (fun x => (.ok (q x) : Except ε Bool)) found =
      .ok ((xs.filter q).reverse ++ found) := by
  induction xs generalizing found with
  | nil => rfl
  | cons x xs ih =>
    rw [List.filterAuxM, ok_bind, ih]
    cases hq : q x <;> simp [hq]

theorem filterAuxM_map {p : α → Except ε Bool} {f : β → α} {q : β → Except ε Bool} {xs : List β}
    (h : ∀ x ∈ xs, p (f x) = q x) (found : List β) :
    (xs.map f).filterAuxM p (found.map f) = do return (← xs.filterAuxM q found).map f := by
  induction xs generalizing found with
  | nil => rfl
  | cons x xs ih =>
    obtain ⟨hx, hxs⟩ := List.forall_mem_cons.mp h
    rw [List.map_cons, List.filterAuxM, List.filterAuxM, hx]
    cases q x with
    | error e => rfl
    | ok keeps =>
      rw [ok_bind, ok_bind]
      cases keeps with
      | true => exact ih hxs (x :: found)
      | false => exact ih hxs found

/-- A filter of elements that are made from others, by a test that the others can be put to. -/
theorem filterM_map {p : α → Except ε Bool} {f : β → α} {q : β → Except ε Bool} {xs : List β}
    (h : ∀ x ∈ xs, p (f x) = q x) :
    (xs.map f).filterM p = do return (← xs.filterM q).map f := by
  have haux := filterAuxM_map h []
  rw [List.map_nil] at haux
  rw [List.filterM, List.filterM, haux]
  cases xs.filterAuxM q [] with
  | error e => rfl
  | ok kept => exact congrArg Except.ok List.map_reverse.symm

/-- A filter whose test fails on no element, where the elements are made from others. -/
theorem filterM_map_eq_ok {p : α → Except ε Bool} {f : β → α} {q : β → Bool} {xs : List β}
    (h : ∀ x ∈ xs, p (f x) = .ok (q x)) : (xs.map f).filterM p = .ok ((xs.filter q).map f) := by
  rw [filterM_map h, List.filterM, filterAuxM_ok, ok_bind, List.append_nil]
  exact congrArg (fun ys => Except.ok (ys.map f)) (List.reverse_reverse _)

/-- A filter whose test fails on no element. -/
theorem filterM_eq_ok {p : α → Except ε Bool} {q : α → Bool} {xs : List α}
    (h : ∀ x ∈ xs, p x = .ok (q x)) : xs.filterM p = .ok (xs.filter q) := by
  have hall := filterM_map_eq_ok (f := id) h
  rwa [List.map_id, List.map_id] at hall

/-! ## What an outcome can be -/

/-- The outcome is a result with a property, or a fault of a kind. -/
def Ends (P : α → Prop) (E : ε → Prop) : Except ε α → Prop
  | .ok a => P a
  | .error e => E e

instance {P : α → Prop} {E : ε → Prop} [DecidablePred P] [DecidablePred E] (x : Except ε α) :
    Decidable (Ends P E x) :=
  match x with
  | .ok a => inferInstanceAs (Decidable (P a))
  | .error e => inferInstanceAs (Decidable (E e))

namespace Ends

variable {P : α → Prop} {Q : β → Prop} {E : ε → Prop}

@[simp] theorem ok_iff {a : α} : Ends P E (.ok a) ↔ P a := Iff.rfl

@[simp] theorem error_iff {e : ε} : Ends P E (.error e : Except ε α) ↔ E e := Iff.rfl

theorem pure {a : α} (h : P a) : Ends P E (Pure.pure a) := h

theorem mono {x : Except ε α} (h : Ends P E x) {P' : α → Prop} {E' : ε → Prop}
    (hP : ∀ a, P a → P' a) (hE : ∀ e, E e → E' e) : Ends P' E' x := by
  cases x with
  | ok a => exact hP a h
  | error e => exact hE e h

theorem bind {x : Except ε α} {f : α → Except ε β} (h : Ends P E x)
    (hf : ∀ a, P a → Ends Q E (f a)) : Ends Q E (x >>= f) := by
  cases x with
  | ok a => exact hf a h
  | error e => exact h

/-- Where no fault is possible there is a result. -/
theorem exists_ok {x : Except ε α} (h : Ends P (fun _ => False) x) : ∃ a, x = .ok a ∧ P a := by
  cases x with
  | ok a => exact ⟨a, rfl, h⟩
  | error e => exact h.elim

/-- A fault shows that what would ensure a result does not hold. -/
theorem rulesOut {x : Except ε α} (h : Ends P E x) {U : Prop} (hresult : U → ∃ a, x = .ok a) :
    Ends P (fun e => E e ∧ ¬ U) x := by
  cases x with
  | ok a => exact h
  | error e =>
    refine ⟨h, fun hU => ?_⟩
    obtain ⟨a, ha⟩ := hresult hU
    cases ha

theorem mapM {xs : List γ} {f : γ → Except ε α} (h : ∀ x ∈ xs, Ends P E (f x)) :
    Ends (fun as => ∀ a ∈ as, P a) E (xs.mapM f) := by
  induction xs with
  | nil => exact pure fun a ha => absurd ha List.not_mem_nil
  | cons x xs ih =>
    obtain ⟨hx, hxs⟩ := List.forall_mem_cons.mp h
    rw [List.mapM_cons]
    exact hx.bind fun a ha => (ih hxs).bind fun as has =>
      pure (List.forall_mem_cons.mpr ⟨ha, has⟩)

/-- A property that every step keeps is kept by a walk. -/
theorem foldlM {f : α → γ → Except ε α} {xs : List γ}
    (h : ∀ a, P a → ∀ x ∈ xs, Ends P E (f a x)) {a : α} (ha : P a) :
    Ends P E (xs.foldlM f a) := by
  induction xs generalizing a with
  | nil => exact ha
  | cons x xs ih =>
    rw [List.foldlM_cons]
    exact (h a ha x List.mem_cons_self).bind fun a' ha' =>
      ih (fun b hb y hy => h b hb y (List.mem_cons_of_mem _ hy)) ha'

theorem filterAuxM {p : γ → Except ε Bool} {xs : List γ}
    (h : ∀ x ∈ xs, Ends (fun _ => True) E (p x)) (found : List γ) :
    Ends (fun ys => ∃ kept : List γ, kept.Sublist xs ∧ ys = kept.reverse ++ found) E
      (xs.filterAuxM p found) := by
  induction xs generalizing found with
  | nil => exact ⟨[], .slnil, rfl⟩
  | cons x xs ih =>
    obtain ⟨hx, hxs⟩ := List.forall_mem_cons.mp h
    rw [List.filterAuxM]
    refine hx.bind fun keeps _ => (ih hxs _).mono (fun ys hys => ?_) fun _ => id
    obtain ⟨kept, hkept, rfl⟩ := hys
    cases keeps with
    | true => exact ⟨x :: kept, hkept.cons_cons x, by simp⟩
    | false => exact ⟨kept, hkept.cons x, rfl⟩

/-- A filter keeps some of the elements, in their order. -/
theorem filterM {p : γ → Except ε Bool} {xs : List γ}
    (h : ∀ x ∈ xs, Ends (fun _ => True) E (p x)) :
    Ends (fun ys => ys.Sublist xs) E (xs.filterM p) := by
  refine (filterAuxM h []).bind fun ys hys => ?_
  obtain ⟨kept, hkept, rfl⟩ := hys
  rw [List.append_nil, List.reverse_reverse]
  exact hkept

theorem forM {xs : List γ} {f : γ → Except ε Unit} (h : ∀ x ∈ xs, Ends (fun _ => True) E (f x)) :
    Ends (fun _ => True) E (xs.forM f) := by
  induction xs with
  | nil => trivial
  | cons x xs ih =>
    obtain ⟨hx, hxs⟩ := List.forall_mem_cons.mp h
    exact hx.bind fun _ _ => ih hxs

end Ends

/-- A walk ends well if every step does from where a property holds, and keeps it. -/
theorem exists_foldlM {P : β → Prop} {f : β → α → Except ε β} {xs : List α}
    (h : ∀ b, P b → ∀ x ∈ xs, ∃ b', f b x = .ok b' ∧ P b') {b : β} (hb : P b) :
    ∃ b', xs.foldlM f b = .ok b' ∧ P b' := by
  have hstep : ∀ b, P b → ∀ x ∈ xs, Ends P (fun _ => False) (f b x) := by
    intro b hb x hx
    obtain ⟨b', hstep, hb'⟩ := h b hb x hx
    rw [hstep]
    exact hb'
  exact (Ends.foldlM hstep hb).exists_ok

/-- The outcome is a result with a property, except for certain faults: each of them is the outcome
where it applies. -/
structure Settles (P : α → Prop) (E : ε → Prop) (x : Except ε α) : Prop where
  ends : Ends P E x
  faults : ∀ e, E e → x = .error e

namespace Settles

variable {P : α → Prop} {Q : β → Prop} {E E' : ε → Prop} {x : Except ε α}

theorem ok {a : α} (h : P a) (hE : ∀ e, ¬ E e) : Settles P E (.ok a) :=
  ⟨h, fun e he => absurd he (hE e)⟩

/-- What is made of a result without a fault. -/
theorem map (h : Settles P E x) {f : α → β} (hf : ∀ a, P a → Q (f a)) :
    Settles Q E (do return f (← x)) where
  ends := h.ends.bind hf
  faults e he := by rw [h.faults e he, error_bind]

theorem congr (h : Settles P E x) {P' : α → Prop} (hP : ∀ a, P a → P' a) (hE : ∀ e, E e ↔ E' e) :
    Settles P' E' x where
  ends := h.ends.mono hP fun e => (hE e).mp
  faults e he := h.faults e ((hE e).mpr he)

end Settles

end LiquidityWatch
