import LiquidityWatch.Ledger
import Mathlib.Data.List.Induction

/-! # Ledgers with the same keys, and ledgers made from a list

Entering a key changes the keys of a ledger in a way that does not depend on what is entered, so two
ledgers into which the same keys are entered in step keep the same keys in the same order. A ledger
made from a list is seen through `get?` like any other: the last entry of a key counts, and its key
stands where it came first. -/

namespace LiquidityWatch.Ledger

variable {κ β γ : Type} [BEq κ]

/-- What entering a key does to the keys depends on the keys alone. -/
theorem keys_insert_congr {l : Ledger κ β} {l' : Ledger κ γ} (h : l.keys = l'.keys) (k : κ)
    (v : β) (v' : γ) : (l.insert k v).keys = (l'.insert k v').keys := by
  obtain ⟨entries⟩ := l
  obtain ⟨others⟩ := l'
  simp only [keys, insert] at h ⊢
  induction entries generalizing others with
  | nil =>
    rw [List.map_nil, eq_comm, List.map_eq_nil_iff] at h
    subst others
    rfl
  | cons e rest ih =>
    obtain ⟨name, b⟩ := e
    cases others with
    | nil => cases h
    | cons e' others =>
      obtain ⟨name', b'⟩ := e'
      simp only [List.map_cons, List.cons.injEq] at h
      obtain ⟨rfl, hrest⟩ := h
      cases hk : name == k with
      | true => simp [enter, hk, hrest]
      | false => simpa [enter, hk] using ih others hrest

/-- Keys that are the same have the same entry. -/
theorem get?_congr [EquivBEq κ] (l : Ledger κ β) {k k' : κ} (h : k == k') :
    l.get? k = l.get? k' := by
  have hsame : (fun e : κ × β => e.1 == k) = fun e => e.1 == k' :=
    funext fun e => BEq.congr_right h
  rw [get?, hsame, get?]

/-- Entering one key after the other: the last entry of a key counts, and if there is none, what the
ledger had before. -/
theorem get?_foldl_insert [EquivBEq κ] (key : γ → κ) (value : γ → β) (xs : List γ)
    (l : Ledger κ β) (k : κ) :
    (xs.foldl (fun l x => l.insert (key x) (value x)) l).get? k =
      ((xs.reverse.find? fun x => key x == k).map value).or (l.get? k) := by
  induction xs generalizing l with
  | nil => rfl
  | cons x xs ih =>
    rw [List.foldl_cons, ih, get?_insert, List.reverse_cons, List.find?_append,
      List.find?_singleton]
    cases xs.reverse.find? fun x => key x == k <;> cases key x == k <;> rfl

theorem get?_ofList [EquivBEq κ] (es : List (κ × β)) (k : κ) :
    (ofList es).get? k = (es.reverse.find? fun e => e.1 == k).map Prod.snd := by
  rw [ofList, get?_foldl_insert, get?_empty, Option.or_none]

theorem contains_ofList [EquivBEq κ] (es : List (κ × β)) (k : κ) :
    (ofList es).contains k ↔ ∃ e ∈ es, e.1 == k := by
  simp [contains, get?_ofList]

/-- What is known under a key was listed with that key, perhaps in another guise. -/
theorem exists_of_get?_ofList [EquivBEq κ] {es : List (κ × β)} {k : κ} {v : β}
    (h : (ofList es).get? k = some v) : ∃ k', (k', v) ∈ es ∧ k' == k := by
  rw [get?_ofList] at h
  obtain ⟨e, he, rfl⟩ := Option.map_eq_some_iff.mp h
  have hkey := List.find?_some (p := fun e : κ × β => e.1 == k) he
  exact ⟨e.1, List.mem_reverse.mp (List.mem_of_find?_eq_some he), hkey⟩

theorem value_of_mem_enter {entries : List (κ × β)} {k : κ} {v : β} {e : κ × β}
    (h : e ∈ enter k v entries) : e ∈ entries ∨ v = e.2 := by
  induction entries with
  | nil => exact .inr (List.mem_singleton.mp h ▸ rfl)
  | cons first rest ih =>
    rw [enter] at h
    split at h
    · rcases List.mem_cons.mp h with rfl | h
      · exact .inr rfl
      · exact .inl (List.mem_cons_of_mem _ h)
    · rcases List.mem_cons.mp h with rfl | h
      · exact .inl List.mem_cons_self
      · exact (ih h).imp_left (List.mem_cons_of_mem _)

/-- What a ledger made from a list holds was entered there. -/
theorem exists_of_mem_ofList {es : List (κ × β)} {e : κ × β} (h : e ∈ (ofList es).entries) :
    ∃ e' ∈ es, e'.2 = e.2 := by
  have hfold : ∀ l : Ledger κ β, e ∈ (es.foldl (fun l e => l.insert e.1 e.2) l).entries →
      e ∈ l.entries ∨ ∃ e' ∈ es, e'.2 = e.2 := by
    clear h
    induction es with
    | nil => exact fun l h => .inl h
    | cons first rest ih =>
      intro l h
      rcases ih _ h with h | ⟨e', he', hvalue⟩
      · rcases value_of_mem_enter h with h | hvalue
        · exact .inl h
        · exact .inr ⟨first, List.mem_cons_self, hvalue⟩
      · exact .inr ⟨e', List.mem_cons_of_mem _ he', hvalue⟩
  exact (hfold ∅ h).resolve_left List.not_mem_nil

/-! ## Every key once -/

/-- No key stands in the ledger twice. -/
def Distinct (l : Ledger κ β) : Prop := l.entries.Pairwise fun e e' => (e.1 == e'.1) = false

theorem key_of_mem_enter {entries : List (κ × β)} {k : κ} {v : β} {e : κ × β}
    (h : e ∈ enter k v entries) : (∃ e' ∈ entries, e'.1 = e.1) ∨ e.1 = k := by
  induction entries with
  | nil => exact .inr (List.mem_singleton.mp h ▸ rfl)
  | cons first rest ih =>
    rw [enter] at h
    split at h
    · rcases List.mem_cons.mp h with rfl | h
      · exact .inl ⟨first, List.mem_cons_self, rfl⟩
      · exact .inl ⟨e, List.mem_cons_of_mem _ h, rfl⟩
    · rcases List.mem_cons.mp h with rfl | h
      · exact .inl ⟨e, List.mem_cons_self, rfl⟩
      · rcases ih h with ⟨e', he', hkey⟩ | hkey
        · exact .inl ⟨e', List.mem_cons_of_mem _ he', hkey⟩
        · exact .inr hkey

theorem Distinct.insert {l : Ledger κ β} (h : l.Distinct) (k : κ) (v : β) :
    (l.insert k v).Distinct := by
  obtain ⟨entries⟩ := l
  simp only [Distinct, Ledger.insert] at h ⊢
  induction entries with
  | nil => exact List.pairwise_singleton _ _
  | cons first rest ih =>
    obtain ⟨hfirst, hrest⟩ := List.pairwise_cons.mp h
    rw [enter]
    split
    · exact List.pairwise_cons.mpr ⟨hfirst, hrest⟩
    · rename_i hk
      refine List.pairwise_cons.mpr ⟨fun e he => ?_, ih hrest⟩
      rcases key_of_mem_enter he with ⟨e', he', hkey⟩ | hkey
      · rw [← hkey]
        exact hfirst e' he'
      · rw [hkey]
        exact Bool.eq_false_iff.mpr hk

theorem distinct_ofList (es : List (κ × β)) : (ofList es).Distinct := by
  have hfold : ∀ l : Ledger κ β, l.Distinct →
      (es.foldl (fun l e => l.insert e.1 e.2) l).Distinct := by
    induction es with
    | nil => exact fun l h => h
    | cons e rest ih => exact fun l h => ih _ (h.insert e.1 e.2)
  exact hfold ∅ .nil

theorem enter_eq_append {entries : List (κ × β)} {k : κ} (h : ∀ e ∈ entries, (e.1 == k) = false)
    (v : β) : enter k v entries = entries ++ [(k, v)] := by
  induction entries with
  | nil => rfl
  | cons first rest ih =>
    obtain ⟨hfirst, hrest⟩ := List.forall_mem_cons.mp h
    rw [enter, hfirst, if_neg Bool.false_ne_true, ih hrest, List.cons_append]

/-- A list without repeated keys is what is entered. -/
theorem entries_ofList {es : List (κ × β)} (h : es.Pairwise fun e e' => (e.1 == e'.1) = false) :
    (ofList es).entries = es := by
  have hfold : ∀ before : List (κ × β), (∀ e ∈ before, ∀ e' ∈ es, (e.1 == e'.1) = false) →
      (es.foldl (fun l e => l.insert e.1 e.2) (⟨before⟩ : Ledger κ β)).entries =
        before ++ es := by
    induction es with
    | nil => exact fun before _ => (List.append_nil before).symm
    | cons e rest ih =>
      intro before hbefore
      obtain ⟨hfirst, hrest⟩ := List.pairwise_cons.mp h
      have hnew := enter_eq_append (fun e' he' => hbefore e' he' e List.mem_cons_self) e.2
      rw [List.foldl_cons, Ledger.insert, hnew, List.append_cons before e rest]
      refine ih hrest _ fun e' he' e'' he'' => ?_
      rcases List.mem_append.mp he' with he' | he'
      · exact hbefore e' he' e'' (List.mem_cons_of_mem _ he'')
      · rw [List.mem_singleton.mp he']
        exact hfirst e'' he''
  exact hfold [] fun e he => absurd he List.not_mem_nil

/-- In a ledger without repeated keys what is found first under a key is its entry. -/
theorem findSome?_entries [EquivBEq κ] {l : Ledger κ (Option β)} (h : l.Distinct) (k : κ) :
    (l.entries.findSome? fun e => if e.1 == k then e.2 else none) = (l.get? k).join := by
  obtain ⟨entries⟩ := l
  simp only [Distinct, get?] at h ⊢
  induction entries with
  | nil => rfl
  | cons first rest ih =>
    obtain ⟨hfirst, hrest⟩ := List.pairwise_cons.mp h
    rw [List.findSome?_cons, List.find?_cons]
    cases hk : first.1 == k with
    | false => simpa using ih hrest
    | true =>
      -- No later entry has the key, so a key entered in vain has nothing.
      have hnone : ∀ e ∈ rest, (e.1 == k) = false := by
        intro e he
        rw [← BEq.congr_right hk, BEq.comm]
        exact hfirst e he
      cases hvalue : first.2 with
      | some value => rw [if_pos rfl]; exact (congrArg Option.join (congrArg some hvalue)).symm
      | none =>
        rw [if_pos rfl, Option.map_some, hvalue]
        refine List.findSome?_eq_none_iff.mpr fun e he => ?_
        rw [hnone e he, if_neg Bool.false_ne_true]

/-! ## The keys of a ledger -/

section Keys

variable [LawfulBEq κ]

/-- Entering a key that is there leaves the keys as they are. -/
theorem keys_insert_of_mem {l : Ledger κ β} {k : κ} (h : k ∈ l.keys) (v : β) :
    (l.insert k v).keys = l.keys := by
  obtain ⟨entries⟩ := l
  simp only [insert, keys] at h ⊢
  induction entries with
  | nil => cases h
  | cons e rest ih =>
    rw [enter]
    by_cases he : e.1 = k
    · simp [he]
    · rw [List.map_cons, List.mem_cons] at h
      rw [if_neg (by simpa using he), List.map_cons, List.map_cons,
        ih (h.resolve_left (Ne.symm he))]

/-- A new key is entered at the end. -/
theorem keys_insert_of_not_mem {l : Ledger κ β} {k : κ} (h : k ∉ l.keys) (v : β) :
    (l.insert k v).keys = l.keys ++ [k] := by
  have hnew : ∀ e ∈ l.entries, (e.1 == k) = false := by
    intro e he
    rw [beq_eq_false_iff_ne]
    rintro rfl
    exact h (List.mem_map_of_mem he)
  rw [keys, insert, enter_eq_append hnew, List.map_append]
  rfl

/-- The keys of a list, each where it comes first. -/
theorem keys_ofList (es : List (κ × β)) : (ofList es).keys = (es.map Prod.fst).eraseDups := by
  induction es using List.reverseRecOn with
  | nil => rfl
  | append_singleton es e ih =>
    have hlast : ofList (es ++ [e]) = (ofList es).insert e.1 e.2 := by
      rw [ofList, List.foldl_append]
      rfl
    have hmem : e.1 ∈ (ofList es).keys ↔ e.1 ∈ es.map Prod.fst := by
      rw [ih, List.mem_eraseDups]
    rw [hlast, List.map_append, List.eraseDups_append, List.map_singleton, ← ih, List.removeAll,
      List.filter_cons, List.filter_nil]
    by_cases h : e.1 ∈ es.map Prod.fst
    · rw [keys_insert_of_mem (hmem.mpr h)]
      simp [h]
    · rw [keys_insert_of_not_mem (mt hmem.mp h)]
      simp [h, List.eraseDups_cons]

end Keys

end LiquidityWatch.Ledger
