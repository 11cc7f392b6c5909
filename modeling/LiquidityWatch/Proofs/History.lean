import LiquidityWatch.Monitor
import LiquidityWatch.Proofs.Ledger
import LiquidityWatch.Proofs.Outcome
import Mathlib.Data.Option.Basic

/-! # The history behind a monitoring state

A monitoring state is what a run of cycles leaves behind. Two rules of merging work against each
other in it: of the deposits found for a position the first one stays, and of the metrics of a token
the last ones count. Here both are read off the whole run, for every position and every token.
`Deposits.Coherent` is what keeps the two ledgers of deposits in step. -/

namespace LiquidityWatch.MonitorState

variable {α : Type} [Scalar α]

/-- Cycles one after the other, each on the state that the one before it returned: the summaries
they returned, and the last state. -/
def runAll (s : MonitorState α) :
    List (CycleData α) → Except Fault (List (Summary α) × MonitorState α)
  | [] => .ok ([], s)
  | data :: rest => do
    let (summary, next) ← s.run data
    let (summaries, last) ← next.runAll rest
    return (summary :: summaries, last)

/-! ## What a run was given -/

/-- The first deposit among entries for a position, without the lookups in vain. -/
def firstFound (id : Identifier) (entries : List (Identifier × Option (Deposit α))) :
    Option (Deposit α) :=
  entries.findSome? fun e => if e.1 == id then e.2 else none

/-- The first deposit that was found for a position in a run. -/
def firstDeposit (cycles : List (CycleData α)) (id : Identifier) : Option (Deposit α) :=
  firstFound id (cycles.flatMap fun data => data.deposits.entries)

/-- The metrics that were supplied in a run, with the times of their cycles. -/
def suppliedMetrics (cycles : List (CycleData α)) : List (α × TokenMetrics α) :=
  cycles.flatMap fun data => data.metrics.map fun m => (data.now, m)

/-- The last metrics of a token that were supplied in a run, with the time of their cycle. -/
def lastMetrics (cycles : List (CycleData α)) (mint : Text) : Option (α × TokenMetrics α) :=
  (suppliedMetrics cycles).reverse.find? fun supplied => supplied.2.mint == mint

/-! ## Deposits: the first one stays -/

/-- Both ledgers hold the same positions, and the initial value of a position is that of its
deposit. -/
structure Deposits.Coherent (known : Deposits α) : Prop where
  keys : known.initialValues.keys = known.deposits.keys
  values : ∀ id, (known.initialValues.get? id).map Except.ok =
    (known.deposits.get? id).map Deposit.initialValue

omit [Scalar α] in
theorem firstFound_append (id : Identifier) (xs ys : List (Identifier × Option (Deposit α))) :
    firstFound id (xs ++ ys) = (firstFound id xs).or (firstFound id ys) :=
  List.findSome?_append

omit [Scalar α] in
theorem firstFound_singleton (id : Identifier) (found : Identifier × Option (Deposit α)) :
    firstFound id [found] = if found.1 == id then found.2 else none := by
  unfold firstFound
  rw [List.findSome?_cons, List.findSome?_nil]
  split <;> simp_all

namespace Deposits.Coherent

/-- In a coherent record an initial value is known exactly where a deposit is. -/
theorem contains_iff {known : Deposits α} (hc : known.Coherent) (id : Identifier) :
    known.initialValues.contains id = (known.deposits.get? id).isSome := by
  have h := congrArg Option.isSome (hc.values id)
  rwa [Option.isSome_map, Option.isSome_map] at h

/-- Coherent records with the same deposit of a position have the same initial value of it. -/
theorem initialValue_congr {known known' : Deposits α} (hc : known.Coherent) (hc' : known'.Coherent)
    {id : Identifier} (h : known.deposits.get? id = known'.deposits.get? id) :
    known.initialValues.get? id = known'.initialValues.get? id := by
  have hvalue := hc.values id
  rw [h, ← hc'.values id] at hvalue
  exact Option.map_injective (fun _ _ => Except.ok.inj) hvalue

/-- The initial value of a known deposit could be computed, and is known. -/
theorem initialValue_eq_ok {known : Deposits α} (hc : known.Coherent) {id : Identifier}
    {deposit : Deposit α} (h : known.deposits.get? id = some deposit) :
    ∃ value, known.initialValues.get? id = some value ∧ deposit.initialValue = .ok value := by
  have hvalue := hc.values id
  rw [h, Option.map_some] at hvalue
  obtain ⟨value, hget, heq⟩ := Option.map_eq_some_iff.mp hvalue
  exact ⟨value, hget, heq.symm⟩

theorem empty : (⟨∅, ∅⟩ : Deposits α).Coherent := ⟨rfl, fun _ => rfl⟩

/-- Entering a deposit keeps the ledgers in step, and changes nothing where one is known. -/
theorem enter {known next : Deposits α} (hc : known.Coherent)
    {found : Identifier × Option (Deposit α)} (h : known.enter found = .ok next) :
    next.Coherent ∧
      ∀ id, next.deposits.get? id = (known.deposits.get? id).or (firstFound id [found]) := by
  obtain ⟨key, deposit⟩ := found
  simp only [firstFound_singleton]
  cases deposit with
  | none =>
    obtain rfl := Except.ok.inj h
    exact ⟨hc, fun id => by rw [ite_self, Option.or_none]⟩
  | some deposit =>
    simp only [Deposits.enter] at h
    split at h
    · rename_i hknown
      obtain rfl := Except.ok.inj h
      -- The position is known: the deposit found now comes second.
      refine ⟨hc, fun id => ?_⟩
      rw [hc.contains_iff] at hknown
      split
      · rename_i hid
        rw [← Ledger.get?_congr _ hid, Option.or_of_isSome hknown]
      · rw [Option.or_none]
    · rename_i hknown
      obtain ⟨value, hvalue, h⟩ := bind_eq_ok.mp h
      obtain rfl := Except.ok.inj h
      rw [hc.contains_iff, Option.not_isSome_iff_eq_none] at hknown
      -- It is not: both ledgers get an entry for it, at the same place.
      refine ⟨⟨Ledger.keys_insert_congr hc.keys _ _ _, fun id => ?_⟩, fun id => ?_⟩
      · simp only [Ledger.get?_insert]
        split
        · simp only [Option.map_some, hvalue]
        · exact hc.values id
      · simp only [Ledger.get?_insert]
        split
        · rename_i hid
          rw [← Ledger.get?_congr _ hid, hknown, Option.none_or]
        · rw [Option.or_none]

/-- Entering the deposits of a cycle: the record has what it had, and then the first found. -/
theorem enterAll {known next : Deposits α} (hc : known.Coherent)
    {entries : List (Identifier × Option (Deposit α))}
    (h : entries.foldlM Deposits.enter known = .ok next) :
    next.Coherent ∧
      ∀ id, next.deposits.get? id = (known.deposits.get? id).or (firstFound id entries) := by
  induction entries generalizing known with
  | nil =>
    obtain rfl := Except.ok.inj h
    exact ⟨hc, fun id => by simp [firstFound]⟩
  | cons found rest ih =>
    rw [List.foldlM_cons] at h
    obtain ⟨middle, hfirst, h⟩ := bind_eq_ok.mp h
    obtain ⟨hmiddle, hget⟩ := hc.enter hfirst
    obtain ⟨hnext, hrest⟩ := ih hmiddle h
    refine ⟨hnext, fun id => ?_⟩
    rw [hrest, hget, Option.or_assoc, ← firstFound_append, List.singleton_append]

end Deposits.Coherent

/-- Deposits can be entered as long as their initial values can be computed. -/
theorem Deposits.exists_enterAll {entries : List (Identifier × Option (Deposit α))}
    (h : ∀ e ∈ entries, ∀ deposit, e.2 = some deposit → ∃ value, deposit.initialValue = .ok value)
    (known : Deposits α) : ∃ after, entries.foldlM Deposits.enter known = .ok after := by
  have henter : ∀ known : Deposits α, True → ∀ e ∈ entries,
      ∃ next, known.enter e = .ok next ∧ True := by
    rintro known - ⟨k, found⟩ he
    cases found with
    | none => exact ⟨known, rfl, trivial⟩
    | some deposit =>
      rw [Deposits.enter]
      split
      · exact ⟨known, rfl, trivial⟩
      · obtain ⟨value, hvalue⟩ := h _ he deposit rfl
        rw [hvalue]
        exact ⟨_, rfl, trivial⟩
  obtain ⟨after, hafter, -⟩ := exists_foldlM henter trivial
  exact ⟨after, hafter⟩

/-! ## Metrics: the last ones count -/

omit [Scalar α] in
theorem lastMetrics_cons (data : CycleData α) (rest : List (CycleData α)) (mint : Text) :
    lastMetrics (data :: rest) mint =
      (lastMetrics rest mint).or
        ((data.metrics.reverse.find? fun m => m.mint == mint).map fun m => (data.now, m)) := by
  unfold lastMetrics suppliedMetrics
  rw [List.flatMap_cons, List.reverse_append, List.find?_append, ← List.map_reverse, List.find?_map]
  rfl

/-- Supplied metrics as they are kept: with the time of their cycle where they have none. -/
def kept (supplied : α × TokenMetrics α) : TokenMetrics α :=
  { supplied.2 with
    fetchedAt :=
      if Scalar.isZero supplied.2.fetchedAt then supplied.1 else supplied.2.fetchedAt }

theorem stamp_eq_kept (now : α) : stamp now = fun m => kept (now, m) := by
  funext m
  unfold stamp kept
  split <;> rfl

/-! ## One cycle, and a run of cycles -/

/-- The deposits that a state knows. -/
def known (s : MonitorState α) : Deposits α := ⟨s.initialValues, s.deposits⟩

/-- What a cycle does that ends well. -/
theorem run_eq_ok {s next : MonitorState α} {data : CycleData α} {summary : Summary α} :
    s.run data = .ok (summary, next) ↔
      data.deposits.entries.foldlM Deposits.enter s.known = .ok next.known ∧
        Summary.ofValuations next.initialValues data.valuations = .ok summary ∧
        next.cycle = s.cycle + 1 ∧
        next.metrics = data.metrics.foldl
          (fun metrics m => metrics.insert m.mint (stamp data.now m)) s.metrics ∧
        next.lastSummary = some summary := by
  unfold run
  constructor
  · intro h
    obtain ⟨entered, hentered, h⟩ := bind_eq_ok.mp h
    obtain ⟨total, htotal, h⟩ := bind_eq_ok.mp h
    obtain ⟨rfl, rfl⟩ := Prod.mk.inj (pure_eq_ok.mp h)
    exact ⟨hentered, htotal, rfl, rfl, rfl⟩
  · obtain ⟨cycle, initialValues, deposits, metrics, lastSummary⟩ := next
    rintro ⟨hentered, htotal, rfl, rfl, rfl⟩
    refine bind_eq_ok.mpr ⟨_, hentered, bind_eq_ok.mpr ⟨summary, htotal, rfl⟩⟩

/-- What a run of cycles makes of a state. -/
structure Leads (s : MonitorState α) (cycles : List (CycleData α)) (summaries : List (Summary α))
    (last : MonitorState α) : Prop where
  cycle : last.cycle = s.cycle + cycles.length
  coherent : last.known.Coherent
  deposits : ∀ id, last.deposits.get? id = (s.deposits.get? id).or (firstDeposit cycles id)
  metrics : ∀ mint, last.metrics.get? mint =
    ((lastMetrics cycles mint).map kept).or (s.metrics.get? mint)
  summary : last.lastSummary = summaries.getLast?.or s.lastSummary

theorem Leads.refl {s : MonitorState α} (hc : s.known.Coherent) : s.Leads [] [] s :=
  ⟨rfl, hc, fun _ => Option.or_none.symm, fun _ => rfl, rfl⟩

/-- A cycle in front of a run. -/
theorem Leads.cons {s next last : MonitorState α} {data : CycleData α} {summary : Summary α}
    {rest : List (CycleData α)} {summaries : List (Summary α)} (hc : s.known.Coherent)
    (hrun : s.run data = .ok (summary, next))
    (hrest : next.known.Coherent → next.Leads rest summaries last) :
    s.Leads (data :: rest) (summary :: summaries) last := by
  obtain ⟨hentered, -, hcycle, hmetrics, hsummary⟩ := run_eq_ok.mp hrun
  obtain ⟨hnext, hdeposits⟩ := hc.enterAll hentered
  have h := hrest hnext
  refine ⟨?_, h.coherent, fun id => ?_, fun mint => ?_, ?_⟩
  · rw [h.cycle, hcycle, List.length_cons]
    omega
  · rw [h.deposits, show next.deposits.get? id = _ from hdeposits id, Option.or_assoc,
      firstDeposit, firstDeposit, ← firstFound_append, List.flatMap_cons]
    rfl
  · rw [h.metrics, hmetrics, Ledger.get?_foldl_insert, lastMetrics_cons, ← Option.or_assoc,
      Option.map_or, Option.map_map, stamp_eq_kept]
    rfl
  · rw [h.summary, hsummary, List.getLast?_cons]
    cases summaries.getLast? <;> rfl

theorem Leads.of_runAll {s last : MonitorState α} {cycles : List (CycleData α)}
    {summaries : List (Summary α)} (hc : s.known.Coherent)
    (h : s.runAll cycles = .ok (summaries, last)) : s.Leads cycles summaries last := by
  induction cycles generalizing s summaries with
  | nil =>
    obtain ⟨rfl, rfl⟩ := Prod.mk.inj (Except.ok.inj h)
    exact .refl hc
  | cons data rest ih =>
    obtain ⟨⟨summary, next⟩, hrun, h⟩ := bind_eq_ok.mp h
    obtain ⟨⟨later, last'⟩, hrest, h⟩ := bind_eq_ok.mp h
    obtain ⟨rfl, rfl⟩ := Prod.mk.inj (pure_eq_ok.mp h)
    exact .cons hc hrun fun hnext => ih hnext hrest

/-- After a run, the known initial values are those that the last cycle summed up. -/
theorem ofValuations_of_runAll {s last : MonitorState α} {cycles : List (CycleData α)}
    {summaries : List (Summary α)} (h : s.runAll cycles = .ok (summaries, last))
    {data : CycleData α} (hdata : cycles.getLast? = some data) :
    ∃ summary, summaries.getLast? = some summary ∧
      Summary.ofValuations last.initialValues data.valuations = .ok summary := by
  induction cycles generalizing s summaries with
  | nil => cases hdata
  | cons first rest ih =>
    obtain ⟨⟨summary, next⟩, hrun, h⟩ := bind_eq_ok.mp h
    obtain ⟨⟨later, last'⟩, hrest, h⟩ := bind_eq_ok.mp h
    obtain ⟨rfl, rfl⟩ := Prod.mk.inj (pure_eq_ok.mp h)
    cases rest with
    | nil =>
      obtain rfl := Option.some.inj hdata
      obtain ⟨rfl, rfl⟩ := Prod.mk.inj (Except.ok.inj hrest)
      exact ⟨summary, rfl, (run_eq_ok.mp hrun).2.1⟩
    | cons second others =>
      obtain ⟨total, htotal, hsum⟩ := ih hrest hdata
      refine ⟨total, ?_, hsum⟩
      rw [List.getLast?_cons, htotal, Option.getD_some]

/-- **What a run of cycles leaves behind.** From the state before the first cycle, a run that ends
well counts its cycles; it knows for every position the first deposit that was found in it, whose
initial value it takes, both ledgers having the same positions; it has for every token the metrics
supplied last, with the time of their cycle where they had none; and its summary is the one that the
last cycle returned, the totals of that cycle's valuations over the initial values known by then. -/
theorem runAll_initial {cycles : List (CycleData α)} {summaries : List (Summary α)}
    {last : MonitorState α} (h : initial.runAll cycles = .ok (summaries, last)) :
    last.cycle = cycles.length ∧
      (∀ id, last.deposits.get? id = firstDeposit cycles id) ∧
      (∀ id, (last.initialValues.get? id).map Except.ok =
        (firstDeposit cycles id).map Deposit.initialValue) ∧
      last.initialValues.keys = last.deposits.keys ∧
      (∀ mint, last.metrics.get? mint = (lastMetrics cycles mint).map kept) ∧
      last.lastSummary = summaries.getLast? ∧
      ∀ data, cycles.getLast? = some data → ∃ summary, last.lastSummary = some summary ∧
        Summary.ofValuations last.initialValues data.valuations = .ok summary := by
  have hl : Leads initial cycles summaries last := .of_runAll .empty h
  have hdeposits : ∀ id, last.deposits.get? id = firstDeposit cycles id :=
    fun id => (hl.deposits id).trans (Option.none_or ..)
  have hsummary : last.lastSummary = summaries.getLast? := hl.summary.trans Option.or_none
  refine ⟨?_, hdeposits, fun id => ?_, hl.coherent.keys, fun mint => ?_, hsummary, ?_⟩
  · exact hl.cycle.trans (Nat.zero_add _)
  · rw [← hdeposits]
    exact hl.coherent.values id
  · exact (hl.metrics mint).trans Option.or_none
  · intro data hdata
    rw [hsummary]
    exact ofValuations_of_runAll h hdata

/-- A deposit of so many dollars of one token and one dollar of the other. -/
def sampleDeposit (dollars : Int) : Deposit Number :=
  ⟨.whole 1, .whole 1, .whole dollars, .whole 1, .whole 1700000000, .whole 2⟩

/-- Metrics of a token `m` under a name, fetched at a time. -/
def sampleMetrics (name : String) (fetchedAt : Int) : TokenMetrics Number :=
  ⟨"m", .text name, .whole 1, .noData (.whole 5), .whole fetchedAt⟩

/-- Three cycles: a position `p` is looked up in vain, then found, then found again. -/
def sampleRun : List (CycleData Number) :=
  [⟨[], .ofList [(.text "p", none)], [sampleMetrics "M" 0], .whole 10⟩,
    ⟨[], .ofList [(.text "p", some (sampleDeposit 100))], [sampleMetrics "N" 15], .whole 20⟩,
    ⟨[], .ofList [(.text "q", none), (.text "p", some (sampleDeposit 300))],
      [sampleMetrics "O" 25, sampleMetrics "P" 0], .whole 30⟩]

/-- The second cycle's deposit stays, and the third cycle's last metrics get its time. -/
theorem runAll_initial_sampleRun : ∃ summaries last,
    initial.runAll sampleRun = .ok (summaries, last) ∧ last.cycle = 3 ∧
      last.deposits.get? (.text "p") = some (sampleDeposit 100) ∧
      last.initialValues.get? (.text "p") = some (.whole 101) ∧
      last.deposits.get? (.text "q") = none ∧
      last.metrics.get? "m" = some (sampleMetrics "P" 30) ∧
      last.lastSummary = some .empty := by
  obtain ⟨⟨summaries, last⟩, h⟩ : ∃ r, initial.runAll sampleRun = .ok r := ⟨_, rfl⟩
  obtain ⟨hcycle, hdeposits, hvalues, -, hmetrics, -, htotals⟩ := runAll_initial h
  refine ⟨summaries, last, h, hcycle, (hdeposits _).trans rfl, ?_, (hdeposits _).trans rfl,
    (hmetrics _).trans rfl, ?_⟩
  · obtain ⟨value, hget, hvalue⟩ := Option.map_eq_some_iff.mp ((hvalues (.text "p")).trans rfl)
    exact hget.trans (congrArg some (Except.ok.inj hvalue))
  · obtain ⟨summary, hlast, hsum⟩ := htotals _ rfl
    exact hlast.trans (congrArg some (Except.ok.inj hsum).symm)

end LiquidityWatch.MonitorState
