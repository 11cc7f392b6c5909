/-! # Ledgers

A ledger maps keys to entries and keeps the order in which keys were first entered. Entering a key
again replaces its entry and leaves the key in its place. A ledger is seen through `get?`:
`get?_insert` says all that entering changes. -/

namespace LiquidityWatch

structure Ledger (κ β : Type) where
  entries : List (κ × β)

namespace Ledger

variable {κ β : Type} [BEq κ]

instance : EmptyCollection (Ledger κ β) := ⟨⟨[]⟩⟩

instance : Inhabited (Ledger κ β) := ⟨∅⟩

/-- The entry of a key. -/
def get? (l : Ledger κ β) (k : κ) : Option β := (l.entries.find? fun e => e.1 == k).map Prod.snd

def contains (l : Ledger κ β) (k : κ) : Bool := (l.get? k).isSome

/-- Enters a key into a list of entries. -/
def enter (k : κ) (v : β) : List (κ × β) → List (κ × β)
  | [] => [(k, v)]
  | e :: rest => if e.1 == k then (e.1, v) :: rest else e :: enter k v rest

/-- Enters a key. -/
def insert (l : Ledger κ β) (k : κ) (v : β) : Ledger κ β := ⟨enter k v l.entries⟩

/-- Enters a list of keys one after the other. -/
def ofList (entries : List (κ × β)) : Ledger κ β :=
  entries.foldl (fun l e => l.insert e.1 e.2) ∅

def keys (l : Ledger κ β) : List κ := l.entries.map Prod.fst

@[simp] theorem get?_empty (k : κ) : (∅ : Ledger κ β).get? k = none := rfl

theorem get?_insert [EquivBEq κ] (l : Ledger κ β) (k k' : κ) (v : β) :
    (l.insert k v).get? k' = if k == k' then some v else l.get? k' := by
  obtain ⟨entries⟩ := l
  simp only [insert, get?]
  induction entries with
  | nil => cases h : k == k' <;> simp [enter, h]
  | cons e rest ih =>
    by_cases hek : e.1 == k
    · have hcongr : (e.1 == k') = (k == k') := BEq.congr_left hek
      cases h : k == k' <;> simp [enter, hek, hcongr, h]
    · cases hek' : e.1 == k' with
      | false => simpa [enter, hek, List.find?_cons, hek'] using ih
      | true =>
        have hk : (k == k') = false := by
          rw [← BEq.congr_right hek', BEq.comm]
          simpa using hek
        simp [enter, hek, hek', hk]

theorem contains_insert [EquivBEq κ] (l : Ledger κ β) (k k' : κ) (v : β) :
    (l.insert k v).contains k' = (k == k' || l.contains k') := by
  simp only [contains, get?_insert]
  cases h : k == k' <;> simp

end Ledger

end LiquidityWatch
