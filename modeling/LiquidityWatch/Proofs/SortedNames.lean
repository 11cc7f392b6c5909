import LiquidityWatch.Proofs.Outcome
import LiquidityWatch.Report
import Mathlib.Data.List.Perm.Lattice
import Mathlib.Order.Defs.LinearOrder

/-! # Names in order

A report asks for tokens and pools under their names, each once and in order. Where all names are
text there is such a list, and it depends on nothing but which names there are: not on their order,
nor on how often they occur (`Text.sortedDistinct_congr`). -/

namespace LiquidityWatch

namespace Text

theorem le_iff {s t : Text} : s.le t = true ↔ ¬ t.points < s.points := by
  rw [le, lt, Bool.not_eq_true', decide_eq_false_iff_not]

theorem le_trans {s t u : Text} (h : s.le t = true) (h' : t.le u = true) : s.le u = true := by
  rw [le_iff] at h h' ⊢
  exact List.le_trans h h'

theorem le_total (s t : Text) : (s.le t || t.le s) = true := by
  rw [Bool.or_eq_true, le_iff, le_iff]
  exact List.le_total s.points t.points

theorem le_antisymm {s t : Text} (h : s.le t = true) (h' : t.le s = true) : s = t := by
  rw [le_iff] at h h'
  exact points_injective (List.le_antisymm h h')

/-- Each text once, in order. -/
def sortedDistinct (ts : List Text) : List Text := ts.eraseDups.mergeSort Text.le

@[simp] theorem mem_sortedDistinct {t : Text} {ts : List Text} :
    t ∈ sortedDistinct ts ↔ t ∈ ts := by
  simp [sortedDistinct]

theorem nodup_eraseDups (ts : List Text) : ts.eraseDups.Nodup := by
  match ts with
  | [] => exact .nil
  | t :: rest =>
    rw [List.eraseDups_cons, List.nodup_cons]
    refine ⟨?_, nodup_eraseDups (rest.filter fun u => !u == t)⟩
    simp
termination_by ts.length
decreasing_by exact Nat.lt_succ_of_le (List.length_filter_le _ _)

theorem nodup_sortedDistinct (ts : List Text) : (sortedDistinct ts).Nodup :=
  (List.mergeSort_perm _ _).nodup_iff.mpr (nodup_eraseDups ts)

theorem pairwise_sortedDistinct (ts : List Text) :
    (sortedDistinct ts).Pairwise fun s t => s.le t = true :=
  @List.pairwise_mergeSort _ Text.le (fun _ _ _ => le_trans) le_total _

/-- Which texts there are decides about the list. -/
theorem sortedDistinct_congr {ts us : List Text} (h : ∀ t, t ∈ ts ↔ t ∈ us) :
    sortedDistinct ts = sortedDistinct us := by
  have hperm : (sortedDistinct ts).Perm (sortedDistinct us) := by
    rw [List.perm_ext_iff_of_nodup (nodup_sortedDistinct ts) (nodup_sortedDistinct us)]
    intro t
    rw [mem_sortedDistinct, mem_sortedDistinct, h]
  exact hperm.eq_of_pairwise (fun _ _ _ _ => le_antisymm) (pairwise_sortedDistinct ts)
    (pairwise_sortedDistinct us)

end Text

/-- Names that are text are told apart like the texts. -/
theorem Identifier.eraseDups_text (ts : List Text) :
    (ts.map Identifier.text).eraseDups = ts.eraseDups.map .text := by
  match ts with
  | [] => rfl
  | t :: rest =>
    have hfilter : (rest.map Identifier.text).filter (fun id => !id == .text t) =
        (rest.filter fun u => !u == t).map .text := by
      rw [List.filter_map]
      congr 2
      funext u
      exact congrArg not (text_beq_text u t)
    rw [List.map_cons, List.eraseDups_cons, List.eraseDups_cons, hfilter,
      eraseDups_text (rest.filter fun u => !u == t), List.map_cons]
termination_by ts.length
decreasing_by exact Nat.lt_succ_of_le (List.length_filter_le _ _)

namespace Report

theorem mapM_identifier_text (ts : List Text) :
    (ts.map Value.text).mapM Value.identifier = .ok (ts.map Identifier.text) := by
  rw [mapM_eq_ok, List.forall₂_map_left_iff, List.forall₂_map_right_iff, List.forall₂_same]
  exact fun t _ => rfl

/-- Names that are text can be sorted. -/
theorem sortedDistinct_text (ts : List Text) :
    sortedDistinct (ts.map .text) = .ok ((Text.sortedDistinct ts).map .text) := by
  have hvalues : (ts.eraseDups.map Identifier.text).map Identifier.toValue =
      ts.eraseDups.map Value.text := by
    rw [List.map_map]
    rfl
  have horder : Comparable.isOrder (ts.eraseDups.map Value.text) = true := by
    show (_ || (ts.eraseDups.map Value.text).all Value.isText) = true
    simp [Value.isText]
  have hle : ∀ s ∈ ts.eraseDups, ∀ t ∈ ts.eraseDups,
      s.le t = Comparable.atMost (Value.text s) (Value.text t) := by
    intro s _ t _
    simp [Comparable.atMost, Comparable.le, Value.compared]
  rw [sortedDistinct, mapM_identifier_text, ok_bind, Identifier.eraseDups_text, hvalues, sortedBy,
    List.map_id, if_pos horder, Text.sortedDistinct, List.map_mergeSort hle]
  rfl

theorem texts_text (index : Nat) (ts : List Text) : Value.texts index (ts.map .text) = .ok ts := by
  induction ts generalizing index with
  | nil => rfl
  | cons t rest ih =>
    rw [List.map_cons, Value.texts, ih]
    rfl

end Report

/-! ## The names in a file -/

/-- All names of a position are text. -/
structure Position.TextNamed (p : Position Int) : Prop where
  id : p.id.isText
  pool : p.pool.isText
  mintX : p.x.mint.isText
  mintY : p.y.mint.isText

instance (p : Position Int) : Decidable p.TextNamed :=
  decidable_of_iff (p.id.isText ∧ p.pool.isText ∧ p.x.mint.isText ∧ p.y.mint.isText)
    ⟨fun ⟨id, pool, mintX, mintY⟩ => ⟨id, pool, mintX, mintY⟩,
      fun ⟨id, pool, mintX, mintY⟩ => ⟨id, pool, mintX, mintY⟩⟩

theorem Value.eq_text_of_isText {v : Value} (h : v.isText) : v = .text v.shown := by
  cases v with
  | text t => rfl
  | null | truth | number | bytes | list | object | candle => cases h

/-- Values that are text are the texts that they show. -/
theorem Value.map_eq_text {ι : Type} {f : ι → Value} {xs : List ι} (h : ∀ x ∈ xs, (f x).isText) :
    xs.map f = (xs.map fun x => (f x).shown).map .text := by
  rw [List.map_map]
  exact List.map_congr_left fun x hx => eq_text_of_isText (h x hx)

/-- Texts are shown as they are. -/
theorem Value.map_shown_text (ts : List Text) : (ts.map Value.text).map (·.shown) = ts := by
  rw [List.map_map]
  exact List.map_id ts

/-- The token of a position whose index is tracked. -/
def Position.trackedName (p : Position Int) : Text :=
  if p.x.mint.shown = Report.solMint then p.y.mint.shown else p.x.mint.shown

theorem Position.TextNamed.trackedMint_eq {p : Position Int} (h : p.TextNamed) :
    Report.trackedMint p = .text p.trackedName := by
  rw [Report.trackedMint, Value.eq_text_of_isText h.mintX, trackedName]
  by_cases hsol : p.x.mint.shown = Report.solMint
  · rw [if_pos hsol]
    simp only [hsol]
    exact Value.eq_text_of_isText h.mintY
  · rw [if_neg hsol]
    simp only [hsol]
    rfl

namespace Report

/-- The tokens that prices are asked for. -/
def mintNames (positions : List (Position Int)) : List Text :=
  Text.sortedDistinct
    (positions.map (fun p => p.x.mint.shown) ++ positions.map fun p => p.y.mint.shown)

/-- The tokens whose index is tracked. -/
def trackedNames (positions : List (Position Int)) : List Text :=
  Text.sortedDistinct (positions.map Position.trackedName)

/-- The pools that fees are asked for. -/
def poolNames (positions : List (Position Int)) : List Text :=
  Text.sortedDistinct (positions.map fun p => p.pool.shown)

/-- The entries whose deposits are not known. -/
def unknownNames (state : MonitorState Number) (positions : List (Position Int)) : List Text :=
  (positions.map fun p => p.id.shown).filter fun id => !state.initialValues.contains (.text id)

section TextNamed

variable {positions : List (Position Int)} (htext : ∀ p ∈ positions, p.TextNamed)

include htext

theorem sortedDistinct_mints :
    sortedDistinct (positions.map (·.x.mint) ++ positions.map (·.y.mint)) =
      .ok ((mintNames positions).map .text) := by
  rw [Value.map_eq_text fun p hp => (htext p hp).mintX,
    Value.map_eq_text fun p hp => (htext p hp).mintY, ← List.map_append, sortedDistinct_text]
  rfl

theorem sortedDistinct_tracked :
    sortedDistinct (positions.map trackedMint) = .ok ((trackedNames positions).map .text) := by
  have htracked : positions.map trackedMint = (positions.map Position.trackedName).map .text := by
    rw [List.map_map]
    exact List.map_congr_left fun p hp => (htext p hp).trackedMint_eq
  rw [htracked, sortedDistinct_text]
  rfl

theorem sortedDistinct_pools :
    sortedDistinct (positions.map (·.pool)) = .ok ((poolNames positions).map .text) := by
  rw [Value.map_eq_text fun p hp => (htext p hp).pool, sortedDistinct_text]
  rfl

end TextNamed

/-! ## Files with the same entries -/

section Perm

variable {positions positions' : List (Position Int)} (h : positions.Perm positions')

include h

theorem mintNames_perm : mintNames positions' = mintNames positions :=
  Text.sortedDistinct_congr fun _ => ((h.map _).append (h.map _)).symm.mem_iff

theorem trackedNames_perm : trackedNames positions' = trackedNames positions :=
  Text.sortedDistinct_congr fun _ => (h.map _).symm.mem_iff

theorem poolNames_perm : poolNames positions' = poolNames positions :=
  Text.sortedDistinct_congr fun _ => (h.map _).symm.mem_iff

theorem unknownNames_perm (state : MonitorState Number) :
    (unknownNames state positions).Perm (unknownNames state positions') :=
  (h.map _).filter _

end Perm

end Report

end LiquidityWatch
