import LiquidityWatch.Proofs.LookupOutcomes
import LiquidityWatch.Proofs.StableOrder

/-! # The pool with the greatest reserve

Of the pools of a token the one with the greatest reserve is chosen, and of several with the same
reserve the first one (`FirstGreatest`): a later pool has to have more. The choice goes by what the
pools list as their reserves (`Lookup.HasReserve`) and by nothing else, so a pool without an address
can be chosen, and then no pool is named. Where one pool has more than all others it is chosen in
whatever order they are listed, and pools that have no more can be added behind the others
(`Lookup.mostLiquidPool_greatest`). -/

namespace LiquidityWatch

/-! ## The first of the greatest -/

section FirstGreatest

variable {α : Type} {measure : α → Place} {xs ys : List α} {x y : α}

/-- The first element of a list with the greatest measure: those before it have less, and those
behind it no more. -/
def FirstGreatest (measure : α → Place) (xs : List α) (x : α) : Prop :=
  ∃ before after, xs = before ++ x :: after ∧ (∀ y ∈ before, measure y < measure x) ∧
    ∀ y ∈ after, measure y ≤ measure x

/-- The element has more than all others of the list, wherever it stands. -/
def Dominates (measure : α → Place) (xs : List α) (x : α) : Prop :=
  ∃ others, xs.Perm (x :: others) ∧ ∀ y ∈ others, measure y < measure x

namespace FirstGreatest

theorem mem (h : FirstGreatest measure xs x) : x ∈ xs := by
  obtain ⟨before, after, rfl, -, -⟩ := h
  exact List.mem_append_right _ List.mem_cons_self

theorem bound (h : FirstGreatest measure xs x) (hy : y ∈ xs) : measure y ≤ measure x := by
  obtain ⟨before, after, rfl, hbefore, hafter⟩ := h
  rcases List.mem_append.mp hy with hy | hy
  · exact (hbefore y hy).le
  · rcases List.mem_cons.mp hy with rfl | hy
    · exact le_rfl
    · exact hafter y hy

theorem singleton (measure : α → Place) (x : α) : FirstGreatest measure [x] x :=
  ⟨[], [], rfl, fun _ h => absurd h List.not_mem_nil, fun _ h => absurd h List.not_mem_nil⟩

/-- An element with less can stand in front. -/
theorem cons_lt (h : FirstGreatest measure xs x) (hy : measure y < measure x) :
    FirstGreatest measure (y :: xs) x := by
  obtain ⟨before, after, rfl, hbefore, hafter⟩ := h
  exact ⟨y :: before, after, rfl, List.forall_mem_cons.mpr ⟨hy, hbefore⟩, hafter⟩

/-- An element can stand behind one that has as much. -/
theorem insert {z : α} (h : FirstGreatest measure (z :: xs) x) (hy : measure y ≤ measure z) :
    FirstGreatest measure (z :: y :: xs) x := by
  obtain ⟨before, after, hsplit, hbefore, hafter⟩ := h
  cases before with
  | nil =>
    obtain ⟨rfl, rfl⟩ := List.cons.inj hsplit
    exact ⟨[], y :: xs, rfl, hbefore, List.forall_mem_cons.mpr ⟨hy, hafter⟩⟩
  | cons first before =>
    obtain ⟨rfl, rfl⟩ := List.cons.inj hsplit
    obtain ⟨hz, hrest⟩ := List.forall_mem_cons.mp hbefore
    refine ⟨z :: y :: before, after, rfl, ?_, hafter⟩
    exact List.forall_mem_cons.mpr ⟨hz, List.forall_mem_cons.mpr ⟨hy.trans_lt hz, hrest⟩⟩

/-- Elements with no more can be added at the end. -/
theorem append (h : FirstGreatest measure xs x) (hys : ∀ y ∈ ys, measure y ≤ measure x) :
    FirstGreatest measure (xs ++ ys) x := by
  obtain ⟨before, after, rfl, hbefore, hafter⟩ := h
  exact ⟨before, after ++ ys, by simp, hbefore, List.forall_mem_append.mpr ⟨hafter, hys⟩⟩

theorem unique (hx : FirstGreatest measure xs x) (hy : FirstGreatest measure xs y) : x = y := by
  -- Where two lists are split at different places, one of the elements stands before the other.
  have hfirst : ∀ {x y : α} {before after more later : List α},
      x :: after = more ++ y :: later → (∀ z ∈ before ++ more, measure z < measure y) →
      (∀ z ∈ after, measure z ≤ measure x) → x = y := by
    intro x y before after more later hsplit hless hmost
    cases more with
    | nil => exact (List.cons.inj hsplit).1
    | cons first more =>
      obtain ⟨rfl, rfl⟩ := List.cons.inj hsplit
      have hlt := hless x (List.mem_append_right _ List.mem_cons_self)
      exact absurd (hmost y (List.mem_append_right _ List.mem_cons_self)) hlt.not_ge
  obtain ⟨before, after, rfl, hbefore, hafter⟩ := hx
  obtain ⟨before', after', hsplit, hbefore', hafter'⟩ := hy
  rcases List.append_eq_append_iff.mp hsplit with ⟨more, rfl, hrest⟩ | ⟨more, rfl, hrest⟩
  · exact hfirst hrest hbefore' hafter
  · exact (hfirst hrest hbefore hafter').symm

theorem eq_of_dominates (h : FirstGreatest measure xs x) (hy : Dominates measure xs y) : x = y := by
  obtain ⟨others, hperm, hless⟩ := hy
  rcases List.mem_cons.mp (hperm.subset h.mem) with rfl | hx
  · rfl
  · exact absurd (h.bound (hperm.symm.subset List.mem_cons_self)) (hless x hx).not_ge

end FirstGreatest

theorem Dominates.perm (h : Dominates measure xs x) (hperm : ys.Perm xs) :
    Dominates measure ys x := by
  obtain ⟨others, hothers, hless⟩ := h
  exact ⟨others, hperm.trans hothers, hless⟩

end FirstGreatest

/-- Numbers that have a place are compared by their places. -/
theorem Number.lt_real_iff {x y : Binary64} {p q : Place} (hx : x.place? = some p)
    (hy : y.place? = some q) : Number.lt (.real x) (.real y) = true ↔ p < q := by
  rw [Number.lt, Number.related, Number.place?, Number.place?, hx, hy]
  rfl

namespace Lookup

open Value Run

/-- The chosen candidate is the first one with the greatest measure. -/
theorem firstGreatest_greatest {α : Type} {measure : α → Place} {best : α × Binary64}
    {rest : List (α × Binary64)} (h : ∀ m ∈ best :: rest, m.2.place? = some (measure m.1)) :
    FirstGreatest measure ((best :: rest).map Prod.fst) (greatest best rest) := by
  induction rest generalizing best with
  | nil => exact .singleton measure best.1
  | cons next rest ih =>
    obtain ⟨hbest, hnext, hrest⟩ := by simpa only [List.forall_mem_cons] using h
    rw [greatest, List.map_cons, List.map_cons]
    by_cases hless : Number.lt (.real best.2) (.real next.2)
    · rw [if_pos hless]
      have hchosen := ih (List.forall_mem_cons.mpr ⟨hnext, hrest⟩)
      exact hchosen.cons_lt (((Number.lt_real_iff hbest hnext).mp hless).trans_le
        (hchosen.bound List.mem_cons_self))
    · rw [if_neg hless]
      have hchosen := ih (List.forall_mem_cons.mpr ⟨hbest, hrest⟩)
      exact hchosen.insert (not_lt.mp (mt (Number.lt_real_iff hbest hnext).mpr hless))

/-! ## What a pool lists -/

/-- The attributes of a pool. A pool lists nothing if they are null or left out. -/
def listed : Value → Option (List (Text × Value))
  | .object fields => match lookup "attributes" fields with
    | some (.object attributes) => some attributes
    | none | some .null => some []
    | some _ => none
  | _ => none

/-- The address that a pool lists; null if it lists none. -/
def listedAddress (pool : Value) : Value := ((listed pool).bind (lookup "address")).getD .null

/-- Where the reserve of a pool lies: at zero if it lists none, or one that counts as nothing, and
otherwise where the number does that it is read as. A NaN lies nowhere. -/
inductive HasReserve (pool : Value) : Place → Prop
  | nothing {attributes : List (Text × Value)} (h : listed pool = some attributes)
    (hnothing : ∀ v ∈ lookup "reserve_in_usd" attributes, v.isTruthy = false) :
    HasReserve pool (.point 0)
  | number {attributes : List (Text × Value)} {v : Value} {x : Binary64} {p : Place}
    (h : listed pool = some attributes) (hv : lookup "reserve_in_usd" attributes = some v)
    (htrue : v.isTruthy = true) (hx : v.toReal = .ok x) (hp : x.place? = some p) :
    HasReserve pool p

variable {pool : Value} {attributes : List (Text × Value)} {p : Place}

theorem listed_cases (h : listed pool = some attributes) : ∃ fields, pool = .object fields ∧
    (lookup "attributes" fields = some (.object attributes) ∨
      attributes = [] ∧ ∀ v ∈ lookup "attributes" fields, v = .null) := by
  cases pool with
  | object fields =>
    refine ⟨fields, rfl, ?_⟩
    rw [listed] at h
    split at h
    · rename_i found hfound
      obtain rfl := Option.some.inj h
      exact .inl hfound
    · rename_i hnone
      refine .inr ⟨(Option.some.inj h).symm, fun v hv => ?_⟩
      rw [hnone] at hv
      cases hv
    · rename_i hnull
      refine .inr ⟨(Option.some.inj h).symm, fun v hv => ?_⟩
      rw [hnull] at hv
      exact (Option.some.inj hv).symm
    · cases h
  | null | truth | number | text | bytes | list | candle => cases h

theorem orElse_of_nothing {found : Option Value} {other : Value}
    (h : ∀ v ∈ found, v.isTruthy = false) : (found.getD .null).orElse other = other := by
  cases found with
  | none => rfl
  | some v => rw [Option.getD_some, orElse, h v rfl, if_neg Bool.false_ne_true]

theorem reserveOf_eq (h : listed pool = some attributes) : reserveOf pool =
    (((lookup "reserve_in_usd" attributes).getD .null).orElse (.whole 0)).toReal := by
  obtain ⟨fields, rfl, hfound⟩ := listed_cases h
  have hattributes : ((lookup "attributes" fields).getD .null).orElse .nothing =
      .object attributes := by
    rcases hfound with hfound | ⟨rfl, hnull⟩
    · rw [hfound]
      cases attributes <;> rfl
    · exact orElse_of_nothing fun v hv => by rw [hnull v hv]; rfl
  show (((lookup "attributes" fields).getD .null).orElse .nothing |>.fieldD "reserve_in_usd" .null)
    >>= _ = _
  rw [hattributes]
  rfl

/-- Zero is in range, and lies at zero. -/
theorem exists_zero : ∃ x, (Value.whole 0).toReal = .ok x ∧ x.place? = some (.point 0) :=
  ⟨.zero, by decide +kernel, rfl⟩

/-- A pool has the reserve that is read of it. -/
theorem hasReserve_iff : HasReserve pool p ↔
    (listed pool).isSome ∧ ∃ x, reserveOf pool = .ok x ∧ x.place? = some p := by
  constructor
  · rintro (⟨h, hnothing⟩ | ⟨h, hv, htrue, hx, hp⟩)
    · refine ⟨Option.isSome_of_eq_some h, ?_⟩
      rw [reserveOf_eq h, orElse_of_nothing hnothing]
      exact exists_zero
    · refine ⟨Option.isSome_of_eq_some h, _, ?_, hp⟩
      rw [reserveOf_eq h, hv, Option.getD_some, orElse, if_pos htrue, hx]
  · rintro ⟨hsome, x, hx, hp⟩
    obtain ⟨attributes, h⟩ := Option.isSome_iff_exists.mp hsome
    rw [reserveOf_eq h] at hx
    by_cases hnothing : ∀ v ∈ lookup "reserve_in_usd" attributes, v.isTruthy = false
    · rw [orElse_of_nothing hnothing] at hx
      obtain ⟨zero, hzero, hplace⟩ := exists_zero
      obtain rfl := Except.ok.inj (hx.symm.trans hzero)
      obtain rfl := Option.some.inj (hp.symm.trans hplace)
      exact .nothing h hnothing
    · push Not at hnothing
      obtain ⟨v, hv, htrue⟩ := hnothing
      rw [Option.mem_def.mp hv, Option.getD_some, orElse, if_pos (by simpa using htrue)] at hx
      exact .number h hv (by simpa using htrue) hx hp

/-! ## The chosen pool -/

variable {pools : List Value} {reserve : Value → Place} {best : Value}

/-- Of a pool that lists something, or nothing at all, the listed address is taken. -/
theorem recovered_address (h : (listed best).isSome) :
    recovered (fun _ => .ok .null) (do (← best.item "attributes").item "address") =
      .ok (listedAddress best) := by
  obtain ⟨attributes, h⟩ := Option.isSome_iff_exists.mp h
  rw [listedAddress, h, Option.bind_some]
  obtain ⟨fields, rfl, hfound | ⟨rfl, hnull⟩⟩ := listed_cases h
  · rw [item, hfound]
    show recovered _ (item (.object attributes) "address") = _
    rw [item]
    cases lookup "address" attributes <;> rfl
  · rw [item]
    cases hfound : lookup "attributes" fields with
    | none => rfl
    | some v =>
      rw [hnull v hfound]
      rfl

/-- The pools with what is read as their reserves. -/
theorem exists_measured (hreserve : ∀ pool ∈ pools, HasReserve pool (reserve pool)) :
    ∃ measured : List (Value × Binary64),
      (pools.mapM fun pool => do return (pool, ← reserveOf pool)) = .ok measured ∧
        measured.map Prod.fst = pools ∧ ∀ m ∈ measured, m.2.place? = some (reserve m.1) := by
  have hends : Ends (fun measured => ∀ m ∈ measured, m.2.place? = some (reserve m.1))
      (fun _ => False) (pools.mapM fun pool => do return (pool, ← reserveOf pool)) := by
    refine Ends.mapM fun pool hpool => ?_
    obtain ⟨-, x, hx, hplace⟩ := hasReserve_iff.mp (hreserve pool hpool)
    rw [hx, ok_bind]
    exact hplace
  obtain ⟨measured, hmeasured, hplaces⟩ := hends.exists_ok
  refine ⟨measured, hmeasured, map_eq_of_forall₂ (mapM_eq_ok.mp hmeasured) ?_, hplaces⟩
  intro pool m h
  obtain ⟨x, -, h⟩ := bind_eq_ok.mp h
  obtain rfl := pure_eq_ok.mp h
  rfl

/-- The pool with the greatest reserve names the pool that is found. -/
theorem recovered_mostLiquid (hne : pools ≠ [])
    (hreserve : ∀ pool ∈ pools, HasReserve pool (reserve pool)) :
    ∃ best, FirstGreatest reserve pools best ∧
      recovered (fun _ => .ok .null) (mostLiquid pools) = .ok (listedAddress best) := by
  obtain ⟨measured, hmeasured, hfst, hplaces⟩ := exists_measured hreserve
  rw [mostLiquid, hmeasured, ok_bind]
  cases measured with
  | nil => exact absurd hfst.symm hne
  | cons first rest =>
    have hgreatest := firstGreatest_greatest hplaces
    rw [hfst] at hgreatest
    exact ⟨_, hgreatest, recovered_address (hasReserve_iff.mp (hreserve _ hgreatest.mem)).1⟩

/-- The pools in a response: its data, if that is a list. -/
def poolsIn (response : Response) : Option (List Value) :=
  match usable dataField response with
  | some (.list pools) => some pools
  | _ => none

theorem read_poolIn {response : Response} (hpools : poolsIn response = some pools) :
    (do poolIn (← readResponse response)) = mostLiquid pools := by
  rw [poolsIn] at hpools
  split at hpools
  · rename_i found hdata
    obtain rfl := Option.some.inj hpools
    obtain ⟨document, hdocument, hfield⟩ := usable_eq_some.mp hdata
    rw [hdocument, ok_bind, poolIn, hfield, ok_bind]
    cases found <;> rfl
  · cases hpools

/-- What comes of looking for the pool of a token, if the network answers with these pools. -/
theorem outcome_mostLiquidPool {w : World} {network mint : Text} (hw : w.Ready)
    (hpools : poolsIn (w.reply (Endpoint.tokenPools network mint)) = some pools) (hne : pools ≠ [])
    (hreserve : ∀ pool ∈ pools, HasReserve pool (reserve pool)) :
    ∃ best, FirstGreatest reserve pools best ∧
      ((mostLiquidPool network mint).result w).1 = .ok (listedAddress best) := by
  rw [(asksOnce_mostLiquidPool network mint).outcome hw]
  show ∃ best, _ ∧ recovered _ (do poolIn (← readResponse (w.reply _))) = _
  rw [read_poolIn hpools]
  exact recovered_mostLiquid hne hreserve

/-- **The first pool with the greatest reserve is found.** Where the network answers with pools that
all have a reserve, the pool that is found for the token is the address that the first pool with
the greatest one lists, or null if that pool lists none. So the answer is the same for the pools in
any other order if one of them has more than all others, and for the pools followed by others that
have no more than one of them; no matter what else distinguishes the worlds, or which token and
network they are asked for. -/
theorem mostLiquidPool_greatest {w : World} {network mint : Text} (hw : w.Ready)
    (hpools : poolsIn (w.reply (Endpoint.tokenPools network mint)) = some pools) (hne : pools ≠ [])
    (hreserve : ∀ pool ∈ pools, HasReserve pool (reserve pool)) :
    (∃ best, FirstGreatest reserve pools best ∧
      ((mostLiquidPool network mint).result w).1 = .ok (listedAddress best)) ∧
    ∀ (w' : World) (network' mint' : Text) (pools' : List Value), w'.Ready →
      poolsIn (w'.reply (Endpoint.tokenPools network' mint')) = some pools' →
      (pools'.Perm pools ∧ ∃ best, Dominates reserve pools best) ∨
        (∃ more, pools' = pools ++ more ∧ ∀ pool ∈ more, HasReserve pool (reserve pool) ∧
          ∃ other ∈ pools, reserve pool ≤ reserve other) →
      ((mostLiquidPool network' mint').result w').1 = ((mostLiquidPool network mint).result w).1 := by
  obtain ⟨best, hbest, houtcome⟩ := outcome_mostLiquidPool hw hpools hne hreserve
  refine ⟨⟨best, hbest, houtcome⟩, fun w' network' mint' pools' hw' hpools' hrelated => ?_⟩
  suffices h : pools' ≠ [] ∧ (∀ pool ∈ pools', HasReserve pool (reserve pool)) ∧
      ∀ other, FirstGreatest reserve pools' other → other = best by
    obtain ⟨hne', hreserve', hsame⟩ := h
    obtain ⟨best', hbest', houtcome'⟩ := outcome_mostLiquidPool hw' hpools' hne' hreserve'
    rw [houtcome, houtcome', hsame best' hbest']
  rcases hrelated with ⟨hperm, top, htop⟩ | ⟨more, rfl, hmore⟩
  · refine ⟨?_, fun pool h => hreserve pool (hperm.subset h), fun other hother => ?_⟩
    · rintro rfl
      exact hne hperm.nil_eq.symm
    · rw [hother.eq_of_dominates (htop.perm hperm), hbest.eq_of_dominates htop]
  · refine ⟨fun h => hne (List.append_eq_nil_iff.mp h).1, ?_, fun other hother => ?_⟩
    · exact List.forall_mem_append.mpr ⟨hreserve, fun pool h => (hmore pool h).1⟩
    · refine hother.unique (hbest.append fun pool h => ?_)
      obtain ⟨-, greater, hgreater, hle⟩ := hmore pool h
      exact hle.trans (hbest.bound hgreater)

/-- Three pools: one without attributes, and two with the same reserve. -/
def threePools : String :=
  "\x7b\"data\":[\x7b\"attributes\":null\x7d," ++
    "\x7b\"attributes\":\x7b\"address\":\"A\",\"reserve_in_usd\":\"2.5\"\x7d\x7d," ++
    "\x7b\"attributes\":\x7b\"address\":\"B\",\"reserve_in_usd\":2.5\x7d\x7d]\x7d"

/-- The reserve that is read of a pool. -/
def readReserve (pool : Value) : Place :=
  ((reserveOf pool).toOption.bind Binary64.place?).getD .bottom

theorem hasReserve_readReserve (h : (listed pool).isSome)
    (hplace : ((reserveOf pool).toOption.bind Binary64.place?).isSome) :
    HasReserve pool (readReserve pool) := by
  obtain ⟨p, hp⟩ := Option.isSome_iff_exists.mp hplace
  obtain ⟨x, hx, hxp⟩ := Option.bind_eq_some_iff.mp hp
  refine hasReserve_iff.mpr ⟨h, x, ?_, ?_⟩
  · cases hread : reserveOf pool with
    | error f => rw [hread] at hx; cases hx
    | ok y => rw [hread] at hx; exact congrArg _ (Option.some.inj hx)
  · rw [readReserve, hp, Option.getD_some, hxp]

/-- Of two pools with the greatest reserve the first is found, on every network. -/
theorem mostLiquidPool_greatest_tie : (answering threePools).Ready ∧ ∃ pools best,
    poolsIn ((answering threePools).reply (Endpoint.tokenPools "N" "M")) = some pools ∧
      FirstGreatest readReserve pools best ∧ (listedAddress best).shown = "A" ∧
      ((mostLiquidPool "N" "M").result (answering threePools)).1 = .ok (listedAddress best) ∧
      ((mostLiquidPool "N'" "M").result (answering threePools)).1 = .ok (listedAddress best) := by
  have hready : (answering threePools).Ready := World.ready_start ..
  have hread : (poolsIn ((answering threePools).reply (Endpoint.tokenPools "N" "M"))).map
      (fun pools => (pools.length, pools.all fun pool => (listed pool).isSome &&
        ((reserveOf pool).toOption.bind Binary64.place?).isSome)) = some (3, true) := by
    decide +kernel
  obtain ⟨pools, hpools, hread⟩ := Option.map_eq_some_iff.mp hread
  obtain ⟨hlength, hall⟩ := Prod.mk.inj hread
  have hreserve : ∀ pool ∈ pools, HasReserve pool (readReserve pool) := by
    intro pool hpool
    obtain ⟨hlisted, hplace⟩ := Bool.and_eq_true_iff.mp (List.all_eq_true.mp hall pool hpool)
    exact hasReserve_readReserve hlisted hplace
  have hne : pools ≠ [] := List.ne_nil_of_length_eq_add_one hlength
  obtain ⟨⟨best, hbest, houtcome⟩, hsame⟩ := mostLiquidPool_greatest hready hpools hne hreserve
  have hother := hsame (answering threePools) "N'" "M" pools hready hpools
    (.inr ⟨[], (List.append_nil pools).symm, fun _ h => absurd h List.not_mem_nil⟩)
  have hname : ((mostLiquidPool "N" "M").result (answering threePools)).1.toOption.map
      Value.shown = some "A" := by decide +kernel
  rw [houtcome] at hname
  exact ⟨hready, pools, best, hpools, hbest, Option.some.inj hname, houtcome,
    hother.trans houtcome⟩

end Lookup
end LiquidityWatch
