import LiquidityWatch.Proofs.Outcome
import LiquidityWatch.RateLimit
import Mathlib.Algebra.Order.Ring.Rat
import Mathlib.Tactic.Linarith
import Mathlib.Tactic.Ring

/-! # A limiter at work

Requests come to a limiter one after the other, on a clock that never goes back and that goes on by
exactly the time a request has to wait. A limiter keeps a list of grants that it purges, waits for
the first of them, and adds a grant without purging again, so that after a wait the list is longer
than the number of slots. What it does all the same is simple, and is read off the grants alone: a
request goes through at once unless the grant as many places back as there are slots lies in the
last period, and then it goes through a tenth of a second after that grant has left the period.

Times are exact rationals here. `LimiterRun.Valid` is the invariant; its `kept` is what makes the
stored list disappear from the rule: purged at any later time, the list holds exactly the grants
of the period before. -/

namespace LiquidityWatch

/-- A request that was granted: when it came, and how it was granted. -/
structure Turn where
  arrival : Rat
  grant : Grant Rat

/-- A limiter and the requests that it has granted, the first one first. -/
structure LimiterRun where
  limiter : Limiter Rat
  turns : List Turn

/-- Those of some times that lie in the period before `now`. -/
def recent (period now : Rat) (times : List Rat) : List Rat :=
  times.filter fun t => now - t < period

namespace Limiter

theorem margin_eq : (margin : Rat) = 1 / 10 := by decide +kernel

theorem purge_eq (l : Limiter Rat) (now : Rat) :
    l.purge now = .ok { l with granted := recent l.period now l.granted } := by
  have h : ∀ t ∈ l.granted, (do Comparable.lt (← Scalar.sub now t) l.period) =
      Except.ok (decide (now - t < l.period)) := fun _ _ => rfl
  rw [purge, filterM_eq_ok h]
  rfl

/-- A request goes through at once while fewer grants than slots lie in the last period. -/
theorem acquire_prompt {l : Limiter Rat} {now : Rat}
    (h : ((recent l.period now l.granted).length : Int) < l.slots) :
    l.acquire now =
      .ok ⟨{ l with granted := recent l.period now l.granted ++ [now] }, now, none⟩ := by
  rw [acquire, purge_eq, ok_bind, grant, wait, if_pos h]
  rfl

/-- A request waits while the slots are taken by grants of the last period. -/
theorem wait_eq_some {l : Limiter Rat} {now oldest : Rat} {rest : List Rat}
    (hgranted : l.granted = oldest :: rest) (hlength : l.slots ≤ (l.granted.length : Int))
    (hin : now - oldest < l.period) :
    l.wait now = .ok (some (l.period - (now - oldest) + 1 / 10)) := by
  have hpositive : ((0 : Int) : Rat) < l.period - (now - oldest) + 1 / 10 := by
    rw [Int.cast_zero]
    linarith
  rw [wait, if_neg (not_lt.mpr hlength), hgranted]
  simp only [Scalar.sub, Scalar.add, ok_bind, margin_eq, Comparable.lt, Scalar.ofInt]
  rw [decide_eq_true hpositive, if_pos rfl]
  rfl

/-- Otherwise it goes through a margin after the oldest of these has left the period. -/
theorem acquire_waiting {l : Limiter Rat} {now oldest : Rat} {rest : List Rat}
    (hrecent : recent l.period now l.granted = oldest :: rest)
    (hlength : l.slots ≤ ((oldest :: rest).length : Int)) (hin : now - oldest < l.period) :
    l.acquire now =
      .ok ⟨{ l with granted := oldest :: rest ++ [oldest + l.period + 1 / 10] },
        oldest + l.period + 1 / 10, some (l.period - (now - oldest) + 1 / 10)⟩ := by
  have htime : now + (l.period - (now - oldest) + 1 / 10) = oldest + l.period + 1 / 10 := by ring
  have hwait : wait { l with granted := oldest :: rest } now =
      .ok (some (l.period - (now - oldest) + 1 / 10)) := wait_eq_some rfl hlength hin
  rw [acquire, purge_eq, ok_bind, hrecent, grant, hwait, ok_bind, ← htime]
  rfl

end Limiter

namespace LimiterRun

/-- A limiter that nothing has been asked of. -/
def start (slots : Nat) (period : Rat) : LimiterRun := ⟨.fresh slots period, []⟩

/-- The times of the grants. -/
def times (s : LimiterRun) : List Rat := s.turns.map fun turn => turn.grant.time

/-- When a request comes that is made at a time: not before the last one has gone through. -/
def arrival (s : LimiterRun) (t : Rat) : Rat :=
  match s.times.getLast? with
  | none => t
  | some last => if last ≤ t then t else last

/-- One more request. -/
def request (s : LimiterRun) (t : Rat) : Except Fault LimiterRun := do
  let grant ← s.limiter.acquire (s.arrival t)
  return ⟨grant.limiter, s.turns ++ [⟨s.arrival t, grant⟩]⟩

/-- Requests one after the other, each made at a time of its own. -/
def serve (slots : Nat) (period : Rat) (requests : List Rat) : Except Fault LimiterRun :=
  requests.foldlM request (start slots period)

end LimiterRun

/-- How a request is granted, said by the times of the grants before it. -/
structure Turn.Regular (slots : Nat) (period : Rat) (earlier : List Rat) (turn : Turn) : Prop where
  /-- The clock does not go back. -/
  after : ∀ t ∈ earlier, t ≤ turn.arrival
  /-- The clock goes on by exactly the wait. -/
  clock : turn.grant.time = turn.arrival + turn.grant.waited.getD 0
  prompt : earlier.length < slots → turn.grant.time = turn.arrival
  slot : ∀ k old, k + slots = earlier.length → earlier[k]? = some old →
    turn.grant.time =
      if period ≤ turn.arrival - old then turn.arrival else old + period + 1 / 10
  /-- A request waits only while the slots are taken. -/
  taken : ∀ seconds, turn.grant.waited = some seconds →
    (recent period turn.arrival earlier).length = slots ∧
      1 / 10 < seconds ∧ seconds ≤ period + 1 / 10
  sorted : turn.grant.limiter.granted.Pairwise (· ≤ ·)
  bounded : turn.grant.limiter.granted.length ≤ slots + 1

/-- What holds between two requests. -/
structure LimiterRun.Valid (slots : Nat) (period : Rat) (s : LimiterRun) : Prop where
  slots_eq : s.limiter.slots = slots
  period_eq : s.limiter.period = period
  /-- Purged at any later time, the stored list holds the grants of the period before. -/
  kept : ∀ now, (∀ t ∈ s.times, t ≤ now) →
    recent period now s.limiter.granted = recent period now s.times
  sorted : s.times.Pairwise (· ≤ ·)
  spaced : ∀ k old new, s.times[k]? = some old → s.times[k + slots]? = some new →
    period ≤ new - old
  regular : ∀ (k : Nat) (turn : Turn), s.turns[k]? = some turn →
    turn.Regular slots period (s.times.take k)

/-! ## The last period -/

section Recent
variable {period now : Rat} {times : List Rat} {slots : Nat}

theorem recent_append (xs ys : List Rat) :
    recent period now (xs ++ ys) = recent period now xs ++ recent period now ys :=
  List.filter_append ..

/-- Purging at a later time makes up for not purging before. -/
theorem recent_recent {before : Rat} (h : before ≤ now) (xs : List Rat) :
    recent period now (recent period before xs) = recent period now xs := by
  unfold recent
  rw [List.filter_filter]
  refine List.filter_congr fun t _ => ?_
  rw [Bool.and_eq_left_iff_imp, decide_eq_true_eq, decide_eq_true_eq]
  intro hin
  linarith

theorem getElem?_le_of_sorted (hsorted : times.Pairwise (· ≤ ·)) {i j : Nat} {a b : Rat}
    (hij : i ≤ j) (ha : times[i]? = some a) (hb : times[j]? = some b) : a ≤ b := by
  obtain ⟨hi, rfl⟩ := List.getElem?_eq_some_iff.mp ha
  obtain ⟨hj, rfl⟩ := List.getElem?_eq_some_iff.mp hb
  rcases Nat.lt_or_eq_of_le hij with hlt | rfl
  · exact List.pairwise_iff_getElem.mp hsorted i j hi hj hlt
  · exact le_rfl

/-- If the grant as many places back as there are slots has left the period, a slot is free. -/
theorem recent_length_lt (hsorted : times.Pairwise (· ≤ ·)) {k : Nat} {old : Rat}
    (hk : k + slots = times.length) (hold : times[k]? = some old) (hout : period ≤ now - old) :
    (recent period now times).length < slots := by
  have hfront : recent period now (times.take (k + 1)) = [] := by
    refine List.filter_eq_nil_iff.mpr fun t ht => ?_
    obtain ⟨i, hi⟩ := List.mem_iff_getElem?.mp ht
    rw [List.getElem?_take] at hi
    split at hi
    · have hle := getElem?_le_of_sorted hsorted (by omega : i ≤ k) hi hold
      rw [decide_eq_true_eq]
      linarith
    · cases hi
  have hlt : k < times.length := (List.getElem?_eq_some_iff.mp hold).1
  have hlength : (times.drop (k + 1)).length = times.length - (k + 1) := List.length_drop
  rw [← List.take_append_drop (k + 1) times, recent_append, hfront, List.nil_append]
  have := List.length_filter_le (fun t => decide (now - t < period)) (times.drop (k + 1))
  exact lt_of_le_of_lt this (by omega)

/-- If it lies in the period, it is the oldest grant there: spacing puts the one before it out. -/
theorem recent_eq_drop (hsorted : times.Pairwise (· ≤ ·))
    (hspaced : ∀ k old new, times[k]? = some old → times[k + slots]? = some new →
      period ≤ new - old)
    (hnow : ∀ t ∈ times, t ≤ now) {k : Nat} {old : Rat} (hk : k + slots = times.length)
    (hold : times[k]? = some old) (hin : now - old < period) :
    recent period now times = times.drop k := by
  -- The grant `slots` places after an earlier one has come by now, and lies a period after it.
  have hfront : recent period now (times.take k) = [] := by
    refine List.filter_eq_nil_iff.mpr fun t ht => ?_
    obtain ⟨i, hi⟩ := List.mem_iff_getElem?.mp ht
    rw [List.getElem?_take] at hi
    split at hi
    · rename_i hik
      have hlt : i + slots < times.length := by omega
      have hnew := hspaced i t _ hi (List.getElem?_eq_getElem hlt)
      have hle := hnow _ (List.getElem_mem hlt)
      rw [decide_eq_true_eq]
      linarith
    · cases hi
  have hback : recent period now (times.drop k) = times.drop k := by
    refine List.filter_eq_self.mpr fun t ht => ?_
    obtain ⟨i, hi⟩ := List.mem_iff_getElem?.mp ht
    rw [List.getElem?_drop] at hi
    have hle := getElem?_le_of_sorted hsorted (Nat.le_add_right k i) hold hi
    rw [decide_eq_true_eq]
    linarith
  rw [← List.take_append_drop k times, recent_append, hfront, List.nil_append,
    List.take_append_drop, hback]

end Recent

/-! ## One request -/

section Request
variable {slots : Nat} {period : Rat}

/-- No grant lies before its request. -/
theorem Turn.Regular.arrival_le {earlier : List Rat} {turn : Turn}
    (h : turn.Regular slots period earlier) : turn.arrival ≤ turn.grant.time := by
  rw [h.clock]
  cases hw : turn.grant.waited with
  | none => simp
  | some seconds =>
    have := (h.taken seconds hw).2.1
    rw [Option.getD_some]
    linarith

/-- A grant lies a period after the one as many places back as there are slots. -/
theorem Turn.Regular.spaced {earlier : List Rat} {turn : Turn}
    (h : turn.Regular slots period earlier) {k : Nat} {old : Rat}
    (hk : k + slots = earlier.length) (hold : earlier[k]? = some old) :
    period ≤ turn.grant.time - old := by
  rw [h.slot k old hk hold]
  split <;> linarith

namespace LimiterRun
variable {s : LimiterRun}

@[simp] theorem times_append (l : Limiter Rat) (turns : List Turn) (turn : Turn) :
    (⟨l, turns ++ [turn]⟩ : LimiterRun).times =
      (⟨l, turns⟩ : LimiterRun).times ++ [turn.grant.time] := by
  simp [times]

theorem le_arrival (hsorted : s.times.Pairwise (· ≤ ·)) (t : Rat) :
    ∀ u ∈ s.times, u ≤ s.arrival t := by
  intro u hu
  unfold arrival
  cases hlast : s.times.getLast? with
  | none => rw [List.getLast?_eq_none_iff.mp hlast] at hu; cases hu
  | some last =>
    obtain ⟨i, hi⟩ := List.mem_iff_getElem?.mp hu
    have hlt := (List.getElem?_eq_some_iff.mp hi).1
    rw [List.getLast?_eq_getElem?] at hlast
    have hle : u ≤ last := getElem?_le_of_sorted hsorted (by omega) hi hlast
    dsimp only
    split <;> linarith

/-- A request that is made after all grants comes when it is made. -/
theorem arrival_eq {t : Rat} (h : ∀ u ∈ s.times, u ≤ t) : s.arrival t = t := by
  unfold arrival
  cases hlast : s.times.getLast? with
  | none => rfl
  | some last => exact if_pos (h last (List.mem_of_getLast? hlast))

/-- A regular grant, entered into the list, keeps what holds between two requests. -/
theorem Valid.extend (hpos : 0 < slots) (h : s.Valid slots period) {turn : Turn}
    (hturn : turn.Regular slots period s.times)
    (hslots : turn.grant.limiter.slots = slots) (hperiod : turn.grant.limiter.period = period)
    (hstored : turn.grant.limiter.granted =
      recent period turn.arrival s.times ++ [turn.grant.time]) :
    Valid slots period ⟨turn.grant.limiter, s.turns ++ [turn]⟩ := by
  have htimes : (⟨turn.grant.limiter, s.turns ++ [turn]⟩ : LimiterRun).times =
      s.times ++ [turn.grant.time] := times_append ..
  have hlength : s.times.length = s.turns.length := List.length_map ..
  refine ⟨hslots, hperiod, ?_, ?_, ?_, ?_⟩
  · intro now hnow
    rw [htimes] at hnow ⊢
    -- The list was purged when the request came, and is purged again later.
    have hlater : turn.arrival ≤ now :=
      hturn.arrival_le.trans (hnow _ (List.mem_append_right _ (List.mem_singleton_self _)))
    rw [hstored, recent_append, recent_recent hlater, recent_append]
  · rw [htimes]
    refine List.pairwise_append.mpr ⟨h.sorted, List.pairwise_singleton _ _, ?_⟩
    intro u hu v hv
    obtain rfl := List.mem_singleton.mp hv
    exact (hturn.after u hu).trans hturn.arrival_le
  · intro k old new hold hnew
    rw [htimes] at hold hnew
    have hlt := (List.getElem?_eq_some_iff.mp hnew).1
    rw [List.length_append, List.length_singleton] at hlt
    -- Only a pair whose later grant is the new one has to be looked at.
    rcases Nat.lt_or_ge (k + slots) s.times.length with hin | hlast
    · rw [List.getElem?_append_left hin] at hnew
      rw [List.getElem?_append_left (by omega)] at hold
      exact h.spaced k old new hold hnew
    · have hk : k + slots = s.times.length := by omega
      rw [hk, List.getElem?_concat_length] at hnew
      obtain rfl := Option.some.inj hnew
      rw [List.getElem?_append_left (by omega)] at hold
      exact hturn.spaced hk hold
  · intro k turn' hget
    rw [htimes]
    rcases Nat.lt_or_ge k s.turns.length with hlt | hge
    · rw [List.getElem?_append_left hlt] at hget
      rw [List.take_append_of_le_length (by omega)]
      exact h.regular k turn' hget
    · have hk : k = s.turns.length := by
        have := (List.getElem?_eq_some_iff.mp hget).1
        rw [List.length_append, List.length_singleton] at this
        omega
      subst hk
      rw [List.getElem?_concat_length] at hget
      obtain rfl := Option.some.inj hget
      rw [List.take_append_of_le_length (by omega), ← hlength, List.take_length]
      exact hturn

/-- The stored list after a grant: those of the period before the request, and the grant. -/
theorem Valid.stored (h : s.Valid slots period) {now time : Rat} (hnow : ∀ t ∈ s.times, t ≤ now)
    (htime : now ≤ time) (hlength : (recent period now s.times).length ≤ slots) :
    (recent period now s.times ++ [time]).Pairwise (· ≤ ·) ∧
      (recent period now s.times ++ [time]).length ≤ slots + 1 := by
  refine ⟨List.pairwise_append.mpr ⟨h.sorted.filter _, List.pairwise_singleton _ _, ?_⟩, ?_⟩
  · intro u hu v hv
    obtain rfl := List.mem_singleton.mp hv
    exact (hnow u (List.mem_filter.mp hu).1).trans htime
  · rw [List.length_append, List.length_singleton]
    omega

/-- A request whose grant is regular. -/
theorem Valid.admit (hpos : 0 < slots) (h : s.Valid slots period) {t : Rat} {grant : Grant Rat}
    (hacquire : s.limiter.acquire (s.arrival t) = .ok grant)
    (hregular : (⟨s.arrival t, grant⟩ : Turn).Regular slots period s.times)
    (hslots : grant.limiter.slots = slots) (hperiod : grant.limiter.period = period)
    (hstored : grant.limiter.granted =
      recent period (s.arrival t) s.times ++ [grant.time]) :
    ∃ turn next, s.request t = .ok next ∧ next.turns = s.turns ++ [turn] ∧
      turn.arrival = s.arrival t ∧ next.Valid slots period :=
  ⟨⟨s.arrival t, grant⟩, _, bind_eq_ok.mpr ⟨grant, hacquire, rfl⟩, rfl, rfl,
    h.extend hpos hregular hslots hperiod hstored⟩

/-- While a slot is free a request goes through at once. -/
theorem Valid.request_prompt (hpos : 0 < slots) (h : s.Valid slots period) (t : Rat)
    (hfree : (recent period (s.arrival t) s.times).length < slots) :
    ∃ turn next, s.request t = .ok next ∧ next.turns = s.turns ++ [turn] ∧
      turn.arrival = s.arrival t ∧ next.Valid slots period := by
  have hnow := le_arrival h.sorted t
  have hkept := h.kept _ hnow
  obtain ⟨hsorted, hbounded⟩ := h.stored hnow le_rfl hfree.le
  have hslots : ((recent s.limiter.period (s.arrival t) s.limiter.granted).length : Int) <
      s.limiter.slots := by
    rw [h.slots_eq, h.period_eq, hkept]
    exact_mod_cast hfree
  have hacquire := Limiter.acquire_prompt hslots
  rw [h.period_eq, hkept] at hacquire
  refine h.admit hpos hacquire
    ⟨hnow, (add_zero _).symm, fun _ => rfl, ?_, fun _ hw => ?_, hsorted, hbounded⟩
    h.slots_eq rfl rfl
  · intro k old hk hold
    refine (if_pos (not_lt.mp fun hin => ?_)).symm
    rw [recent_eq_drop h.sorted h.spaced hnow hk hold hin, List.length_drop] at hfree
    omega
  · cases hw

/-- Otherwise it waits for the grant as many places back as there are slots. -/
theorem Valid.request_waiting (hpos : 0 < slots) (h : s.Valid slots period) (t : Rat)
    (hfull : slots ≤ (recent period (s.arrival t) s.times).length) :
    ∃ turn next, s.request t = .ok next ∧ next.turns = s.turns ++ [turn] ∧
      turn.arrival = s.arrival t ∧ next.Valid slots period := by
  have hnow := le_arrival h.sorted t
  have hkept := h.kept _ hnow
  have hlength : slots ≤ s.times.length := hfull.trans (List.length_filter_le ..)
  -- `old`, the grant as many places back as there are slots, is the oldest of the last period.
  obtain ⟨k, hk⟩ : ∃ k, k + slots = s.times.length := ⟨s.times.length - slots, by omega⟩
  obtain ⟨old, hold⟩ : ∃ old, s.times[k]? = some old :=
    ⟨_, List.getElem?_eq_getElem (by omega : k < s.times.length)⟩
  have hin : s.arrival t - old < period := by
    by_contra hout
    have := recent_length_lt h.sorted hk hold (not_lt.mp hout)
    omega
  have hdrop := recent_eq_drop h.sorted h.spaced hnow hk hold hin
  have hcons : s.times.drop k = old :: s.times.drop (k + 1) := by
    obtain ⟨hlt, rfl⟩ := List.getElem?_eq_some_iff.mp hold
    exact List.drop_eq_getElem_cons hlt
  have hcount : (recent period (s.arrival t) s.times).length = slots := by
    rw [hdrop, List.length_drop]
    omega
  -- So the list is full exactly, and the request waits for `old` to leave the period.
  have hle : s.arrival t ≤ old + period + 1 / 10 := by linarith
  obtain ⟨hsorted, hbounded⟩ := h.stored hnow hle hcount.le
  have hrecent : recent s.limiter.period (s.arrival t) s.limiter.granted =
      old :: s.times.drop (k + 1) := by rw [h.period_eq, hkept, hdrop, hcons]
  have hslots : s.limiter.slots ≤ ((old :: s.times.drop (k + 1)).length : Int) := by
    rw [h.slots_eq, ← hcons, ← hdrop, hcount]
  have hacquire := Limiter.acquire_waiting hrecent hslots (h.period_eq ▸ hin)
  rw [h.period_eq, ← hcons, ← hdrop] at hacquire
  refine h.admit hpos hacquire
    ⟨hnow, ?_, fun hlt => ?_, ?_, fun seconds hw => ?_, hsorted, hbounded⟩ h.slots_eq rfl rfl
  · simp only [Option.getD_some]
    ring
  · omega
  · intro k' old' hk' hold'
    obtain rfl : k' = k := by omega
    obtain rfl : old = old' := Option.some.inj (hold.symm.trans hold')
    exact (if_neg (not_le.mpr hin)).symm
  · obtain rfl := Option.some.inj hw
    have hold_le := hnow old (List.mem_of_getElem? hold)
    refine ⟨hcount, ?_, ?_⟩ <;> linarith

/-- Every request is granted, and keeps what holds between two requests. -/
theorem Valid.request (hpos : 0 < slots) (h : s.Valid slots period) (t : Rat) :
    ∃ turn next, s.request t = .ok next ∧ next.turns = s.turns ++ [turn] ∧
      turn.arrival = s.arrival t ∧ next.Valid slots period := by
  rcases Nat.lt_or_ge (recent period (s.arrival t) s.times).length slots with hfree | hfull
  · exact h.request_prompt hpos t hfree
  · exact h.request_waiting hpos t hfull

theorem Valid.start : (LimiterRun.start slots period).Valid slots period := by
  refine ⟨rfl, rfl, fun _ _ => rfl, .nil, ?_, ?_⟩
  · intro k old new hold
    cases hold
  · intro k turn hget
    cases hget

/-- All requests are granted, one turn each; one that is made after all grants before it comes when
it is made. -/
theorem Valid.serve (hpos : 0 < slots) (h : s.Valid slots period) (requests : List Rat) :
    ∃ last more, requests.foldlM LimiterRun.request s = .ok last ∧ last.Valid slots period ∧
      last.turns = s.turns ++ more ∧ more.length = requests.length ∧
      ∀ (k : Nat) t turn, requests[k]? = some t → more[k]? = some turn →
        (∀ g ∈ last.times.take (s.turns.length + k), g ≤ t) → turn.arrival = t := by
  induction requests generalizing s with
  | nil => exact ⟨s, [], rfl, h, (List.append_nil _).symm, rfl, fun _ _ _ ht => by cases ht⟩
  | cons t rest ih =>
    obtain ⟨turn, next, hrequest, hturns, harrival, hnext⟩ := h.request hpos t
    obtain ⟨last, more, hrest, hlast, hmore, hlength, hlater⟩ := ih hnext
    have hall : last.turns = s.turns ++ turn :: more := by
      rw [hmore, hturns, List.append_assoc, List.singleton_append]
    have hcount : (turn :: more).length = (t :: rest).length := by
      rw [List.length_cons, hlength, List.length_cons]
    refine ⟨last, turn :: more, ?_, hlast, hall, hcount, ?_⟩
    · rw [List.foldlM_cons]
      exact bind_eq_ok.mpr ⟨next, hrequest, hrest⟩
    · intro k t' turn' ht' hturn' hg
      cases k with
      | zero =>
        obtain rfl := Option.some.inj ht'
        obtain rfl := Option.some.inj hturn'
        have htimes : last.times.take (s.turns.length + 0) = s.times := by
          rw [Nat.add_zero, times, hall, List.map_append, ← List.length_map, List.take_left, times]
        rw [htimes] at hg
        rw [harrival, arrival_eq hg]
      | succ k =>
        refine hlater k t' turn' ht' hturn' ?_
        rwa [hturns, List.length_append, List.length_singleton, Nat.add_assoc, Nat.add_comm 1 k]

end LimiterRun
end Request

/-! ## Whole runs -/

/-- Times that all lie closer together than a period are at most as many as there are slots. -/
theorem filter_length_le_of_spaced {slots : Nat} {period : Rat} {times : List Rat}
    (hsorted : times.Pairwise (· ≤ ·))
    (hspaced : ∀ k old new, times[k]? = some old → times[k + slots]? = some new →
      period ≤ new - old)
    {p : Rat → Bool} (hclose : ∀ x y, p x → p y → y - x < period) :
    (times.filter p).length ≤ slots := by
  let first := times.findIdx p
  have hfront : (times.take first).filter p = [] := by
    refine List.filter_eq_nil_iff.mpr fun x hx => ?_
    obtain ⟨i, hi⟩ := List.mem_iff_getElem?.mp hx
    rw [List.getElem?_take] at hi
    split at hi
    · rename_i hlt
      obtain ⟨-, rfl⟩ := List.getElem?_eq_some_iff.mp hi
      exact Bool.eq_false_iff.mp (List.not_of_lt_findIdx hlt)
    · cases hi
  -- from the slot after the first one's on, everything is a period away from it
  have hback : ((times.drop first).drop slots).filter p = [] := by
    rw [List.drop_drop]
    refine List.filter_eq_nil_iff.mpr fun y hy hpy => ?_
    obtain ⟨i, hi⟩ := List.mem_iff_getElem?.mp hy
    rw [List.getElem?_drop] at hi
    have hlt := (List.getElem?_eq_some_iff.mp hi).1
    have hfirst : first < times.length := by omega
    have hslot : first + slots < times.length := by omega
    have hx : p times[first] := List.findIdx_getElem
    have hgap := hspaced first _ _ (List.getElem?_eq_getElem hfirst)
      (List.getElem?_eq_getElem hslot)
    have hle := getElem?_le_of_sorted hsorted (Nat.le_add_right (first + slots) i)
      (List.getElem?_eq_getElem hslot) hi
    have := hclose _ _ hx hpy
    linarith
  rw [← List.take_append_drop first times, List.filter_append, hfront, List.nil_append,
    ← List.take_append_drop slots (times.drop first), List.filter_append, hback, List.append_nil]
  exact (List.length_filter_le ..).trans (List.length_take_le ..)

/-- **The sliding window, exactly.** With at least one slot, every request of a run is granted, and
one that is made after the grants before it comes when it is made. A request that has fewer grants
before it than there are slots goes through as it comes; each other one looks at the grant as many
places back as there are slots, goes through as it comes if that one lies a period back, and
otherwise a tenth of a second after that one has left the period. So two such grants lie at least a
period apart, and no half-open window of that length holds more grants than there are slots. A
request waits only while the last period holds as many grants as there are slots, longer than a
tenth of a second and at most that beyond the period; and after each grant the stored times are
sorted and at most one more than there are slots. -/
theorem serve_exact {slots : Nat} (hpos : 0 < slots) (period : Rat) (requests : List Rat) :
    ∃ s, LimiterRun.serve slots period requests = .ok s ∧ s.turns.length = requests.length ∧
      (∀ (k : Nat) t turn, requests[k]? = some t → s.turns[k]? = some turn →
        (∀ g ∈ s.times.take k, g ≤ t) → turn.arrival = t) ∧
      (∀ (k : Nat) turn, s.turns[k]? = some turn → k < slots →
        turn.grant.time = turn.arrival) ∧
      (∀ (k : Nat) before turn, s.turns[k]? = some before → s.turns[k + slots]? = some turn →
        turn.grant.time =
          (if period ≤ turn.arrival - before.grant.time then turn.arrival
            else before.grant.time + period + 1 / 10) ∧
        period ≤ turn.grant.time - before.grant.time) ∧
      (∀ t, (s.times.filter fun g => t ≤ g ∧ g < t + period).length ≤ slots ∧
        (s.times.filter fun g => t < g ∧ g ≤ t + period).length ≤ slots) ∧
      ∀ (k : Nat) turn, s.turns[k]? = some turn →
        (∀ g ∈ s.times.take k, g ≤ turn.arrival) ∧
        turn.grant.time = turn.arrival + turn.grant.waited.getD 0 ∧
        (∀ seconds, turn.grant.waited = some seconds →
          (recent period turn.arrival (s.times.take k)).length = slots ∧
            1 / 10 < seconds ∧ seconds ≤ period + 1 / 10) ∧
        turn.grant.limiter.granted.Pairwise (· ≤ ·) ∧
        turn.grant.limiter.granted.length ≤ slots + 1 := by
  have hstart : (LimiterRun.start slots period).Valid slots period := .start
  obtain ⟨s, turns, hs, hvalid, hturns, hlength, harrival⟩ := hstart.serve hpos requests
  obtain rfl : s.turns = turns := hturns
  have hget : ∀ {k : Nat} {turn : Turn}, s.turns[k]? = some turn →
      s.times[k]? = some turn.grant.time := fun h => by
    rw [LimiterRun.times, List.getElem?_map, h, Option.map_some]
  have htake : ∀ {k : Nat} {turn : Turn}, s.turns[k]? = some turn →
      (s.times.take k).length = k := fun h => by
    have := (List.getElem?_eq_some_iff.mp (hget h)).1
    rw [List.length_take]
    omega
  refine ⟨s, hs, hlength, fun k t turn ht hturn hg => ?_, ?_, ?_, ?_, ?_⟩
  · refine harrival k t turn ht hturn ?_
    rwa [show (LimiterRun.start slots period).turns.length + k = k from Nat.zero_add k]
  · intro k turn hturn hk
    exact (hvalid.regular k turn hturn).prompt (by rw [htake hturn]; exact hk)
  · intro k before turn hbefore hturn
    have hregular := hvalid.regular _ turn hturn
    have hk : k + slots = (s.times.take (k + slots)).length := (htake hturn).symm
    have hold : (s.times.take (k + slots))[k]? = some before.grant.time := by
      rw [List.getElem?_take_of_lt (by omega), hget hbefore]
    exact ⟨hregular.slot k _ hk hold, hregular.spaced hk hold⟩
  · intro t
    refine ⟨filter_length_le_of_spaced hvalid.sorted hvalid.spaced fun x y hx hy => ?_,
      filter_length_le_of_spaced hvalid.sorted hvalid.spaced fun x y hx hy => ?_⟩
    all_goals
      rw [decide_eq_true_eq] at hx hy
      linarith [hx.1, hx.2, hy.1, hy.2]
  · intro k turn hturn
    have h := hvalid.regular k turn hturn
    exact ⟨h.after, h.clock, h.taken, h.sorted, h.bounded⟩

/-- Two slots per ten seconds: the third and fourth request wait, the fifth comes late enough. -/
theorem serve_exact_two_slots : ∃ s, LimiterRun.serve 2 10 [0, 1, 2, 3, 30] = .ok s ∧
    s.times = [0, 1, 101 / 10, 111 / 10, 30] ∧
      ∀ t, (s.times.filter fun g => t ≤ g ∧ g < t + 10).length ≤ 2 := by
  obtain ⟨s, hs, -, -, -, -, hwindow, -⟩ :=
    serve_exact (by decide : 0 < 2) 10 [0, 1, 2, 3, 30]
  have htimes : (LimiterRun.serve 2 10 [0, 1, 2, 3, 30]).map LimiterRun.times =
      .ok [0, 1, 101 / 10, 111 / 10, 30] := by decide +kernel
  rw [hs] at htimes
  exact ⟨s, hs, Except.ok.inj htimes, fun t => (hwindow t).1⟩

end LiquidityWatch
