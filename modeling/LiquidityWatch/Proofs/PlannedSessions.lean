import LiquidityWatch.Proofs.RequestPlan

/-! # Sessions of planned requests

What is known after a session of reports that ended well are the tokens in their files
(`Stage.Reached`). So the plan of each report can be read off the files and the answers about pools,
but for deposits, and no name is ever asked for twice (`Stage.requests_planned`). -/

namespace LiquidityWatch

open Run

namespace Call

/-- All positions in the file of a call have names that are text. -/
def TextNamed (c : Call) : Prop :=
  ∀ positions, SnapshotFile.load c.files c.path = .ok positions → ∀ p ∈ positions, p.TextNamed

theorem textNamed_of_all {c : Call} (h : ((SnapshotFile.load c.files c.path).toOption.getD []).all
    fun p => decide p.TextNamed) : c.TextNamed := by
  intro positions hload p hp
  rw [hload] at h
  exact of_decide_eq_true (List.all_eq_true.mp h p hp)

/-- The tokens that the file of a call makes a report track. -/
def tracked (c : Call) : List Text :=
  match SnapshotFile.load c.files c.path with
  | .ok positions => Report.trackedNames positions
  | .error _ => []

end Call

namespace Stage

/-- What a call asks. -/
def inquiries (g : Stage) (c : Call) : List Inquiry :=
  match SnapshotFile.load c.files c.path with
  | .ok (p :: rest) =>
    Report.inquiries g.world.network g.world.settings g.state g.world.requests (p :: rest)
  | _ => []

/-- What calls ask, call by call. -/
def allInquiries (g : Stage) : List Call → List (List Inquiry)
  | [] => []
  | c :: rest => g.inquiries c :: (g.next c).allInquiries rest

/-- Each of the calls returns a state. -/
def completesAll (g : Stage) : List Call → Bool
  | [] => true
  | c :: rest => g.completes c && (g.next c).completesAll rest

variable {g : Stage} {c : Call}

/-- A call that returns a state has asked what was planned, and learned about its tokens. -/
theorem sends_call (hg : g.world.Ready) (htext : c.TextNamed) (hcompletes : g.completes c) :
    (c.enter g.world).Sends (g.next c).world
      ((g.inquiries c).map (Inquiry.url g.world.settings)) ∧
    Report.Learns g.state (g.next c).state c.tracked := by
  rw [completes] at hcompletes
  rw [next, inquiries, Call.tracked]
  rcases hcall : g.call c with ⟨fault | _ | ⟨summary, state⟩, after⟩
  · rw [hcall] at hcompletes
    cases hcompletes
  · rw [hcall] at hcompletes
    cases hcompletes
  · have hfiles : (c.enter g.world).files = c.files := rfl
    rw [call, Report.result_run, hfiles] at hcall
    dsimp only
    rcases hload : SnapshotFile.load c.files c.path with f | _ | ⟨p, rest⟩
    · rw [hload] at hcall
      dsimp only at hcall
      split at hcall
      · cases hcall
      · cases hcall
    · rw [hload] at hcall
      obtain ⟨hvalue, rfl⟩ := Prod.mk.inj hcall
      obtain ⟨-, rfl⟩ := Prod.mk.inj (Option.some.inj (Except.ok.inj hvalue))
      refine ⟨.showing _ _, fun mint => ?_, fun mint known hknown => ⟨known, hknown, rfl⟩⟩
      simp [Report.trackedNames]
    · rw [hload] at hcall
      obtain ⟨hlearns, hsent⟩ := Report.sends_runPositions (ready_enter hg c) (htext _ hload)
        (List.cons_ne_nil p rest) hcall
      exact ⟨hsent, hlearns⟩

/-- Where a session stands after calls that all returned a state: what was asked, and for which
tokens metrics are known. -/
structure Reached (network : Network) (settings : Settings) (calls : List Call)
    (asked : List Inquiry) (g : Stage) : Prop where
  network_eq : g.world.network = network
  settings_eq : g.world.settings = settings
  ready : g.world.Ready
  requests : g.world.requests = asked.map (Inquiry.url settings)
  tracked : ∀ mint, g.state.metrics.contains mint ↔ ∃ c ∈ calls, mint ∈ c.tracked

variable {network : Network} {settings : Settings} {calls : List Call} {asked : List Inquiry}

theorem reached_begin (network : Network) (settings : Settings) :
    (begin network settings).Reached network settings [] [] := by
  refine ⟨rfl, rfl, World.ready_start .., rfl, fun mint => ?_⟩
  simp [begin, MonitorState.initial, Ledger.contains]

theorem Reached.next (h : g.Reached network settings calls asked) (htext : c.TextNamed)
    (hcompletes : g.completes c) :
    (g.next c).Reached network settings (calls ++ [c]) (asked ++ g.inquiries c) := by
  obtain ⟨hsent, hlearns⟩ := sends_call h.ready htext hcompletes
  refine ⟨hsent.network.trans h.network_eq, hsent.settings.trans h.settings_eq,
    hsent.ready (ready_enter h.ready c), ?_, fun mint => ?_⟩
  · rw [hsent.requests, List.map_append, ← h.requests, h.settings_eq]
    rfl
  · rw [hlearns.contains, h.tracked]
    simp [or_and_right, exists_or]

/-- The stage that a session reaches, and every stage on the way. -/
theorem Reached.after (h : g.Reached network settings calls asked) {more : List Call}
    (htext : ∀ c ∈ more, c.TextNamed) (hcompletes : g.completesAll more) :
    (g.after more).Reached network settings (calls ++ more)
      (asked ++ (g.allInquiries more).flatten) := by
  induction more generalizing g calls asked with
  | nil =>
    rw [List.append_nil, allInquiries, List.flatten_nil, List.append_nil]
    exact h
  | cons c rest ih =>
    obtain ⟨hc, hrest⟩ := List.forall_mem_cons.mp htext
    obtain ⟨hfirst, hlater⟩ := Bool.and_eq_true_iff.mp hcompletes
    have hnext := ih (h.next hc hfirst) hrest hlater
    rw [List.append_assoc, List.append_assoc] at hnext
    exact hnext

theorem completesAll_append (g : Stage) (earlier later : List Call) :
    g.completesAll (earlier ++ later) =
      (g.completesAll earlier && (g.after earlier).completesAll later) := by
  induction earlier generalizing g with
  | nil => rfl
  | cons c rest ih =>
    rw [List.cons_append, completesAll, completesAll, ih, Bool.and_assoc]
    rfl

/-- Names that are known stay. -/
theorem name_kept (hg : g.world.Ready) {more : List Call} (htext : ∀ c ∈ more, c.TextNamed)
    (hcompletes : g.completesAll more) {mint : Text} {known : TokenMetrics Number}
    (hknown : g.state.metrics.get? mint = some known) :
    ∃ m, (g.after more).state.metrics.get? mint = some m ∧ m.name = known.name := by
  induction more generalizing g known with
  | nil => exact ⟨known, hknown, rfl⟩
  | cons c rest ih =>
    obtain ⟨hc, hrest⟩ := List.forall_mem_cons.mp htext
    obtain ⟨hfirst, hlater⟩ := Bool.and_eq_true_iff.mp hcompletes
    obtain ⟨hsent, hlearns⟩ := sends_call hg hc hfirst
    obtain ⟨m, hm, hname⟩ := hlearns.names mint known hknown
    obtain ⟨m', hm', hname'⟩ := ih (hsent.ready (ready_enter hg c)) hrest hlater hm
    exact ⟨m', hm', hname'.trans hname⟩

/-- A call asks for the name of a token that its file makes it track, unless it is known. -/
theorem count_name_inquiries (g : Stage) (c : Call) (mint : Text) :
    (g.inquiries c).count (.name mint) =
      if mint ∈ c.tracked ∧ g.state.metrics.contains mint = false then 1 else 0 := by
  rw [inquiries, Call.tracked]
  rcases SnapshotFile.load c.files c.path with f | _ | ⟨p, rest⟩
  · simp
  · simp [Report.trackedNames]
  · exact (Report.plan_inquiries _ _ _ _ _).names mint

/-- Calls ask for the name of a token at most once, and not at all if it is known. -/
theorem count_name_le (hg : g.world.Ready) {more : List Call} (htext : ∀ c ∈ more, c.TextNamed)
    (hcompletes : g.completesAll more) (mint : Text) :
    (g.allInquiries more).flatten.count (.name mint) ≤
      if g.state.metrics.contains mint then 0 else 1 := by
  induction more generalizing g with
  | nil => exact Nat.zero_le _
  | cons c rest ih =>
    obtain ⟨hc, hrest⟩ := List.forall_mem_cons.mp htext
    obtain ⟨hfirst, hlater⟩ := Bool.and_eq_true_iff.mp hcompletes
    obtain ⟨hsent, hlearns⟩ := sends_call hg hc hfirst
    have hall := ih (hsent.ready (ready_enter hg c)) hrest hlater
    rw [allInquiries, List.flatten_cons, List.count_append, count_name_inquiries]
    -- A name that this call asks for is known to the later ones.
    by_cases hmint : mint ∈ c.tracked
    · rw [if_pos ((hlearns.contains mint).mpr (.inr hmint))] at hall
      by_cases hknown : g.state.metrics.contains mint
      · simp only [hknown, Bool.true_eq_false, and_false, if_false, if_true]
        omega
      · simp only [hmint, hknown, true_and, if_true]
        simp
        omega
    · simp only [hmint, false_and, if_false]
      have hsame : (g.next c).state.metrics.contains mint = g.state.metrics.contains mint := by
        rw [Bool.eq_iff_iff, hlearns.contains]
        exact or_iff_left hmint
      rw [hsame] at hall
      omega

theorem length_allInquiries (g : Stage) (calls : List Call) :
    (g.allInquiries calls).length = calls.length := by
  induction calls generalizing g with
  | nil => rfl
  | cons c rest ih => rw [allInquiries, List.length_cons, List.length_cons, ih]

/-- What a call asks goes by the stage that the calls before it have reached. -/
theorem getElem?_allInquiries (g : Stage) (calls : List Call) (i : ℕ) :
    (g.allInquiries calls)[i]? = calls[i]?.map (g.after (calls.take i)).inquiries := by
  induction calls generalizing g i with
  | nil => rfl
  | cons c rest ih =>
    cases i with
    | zero => rfl
    | succ i => exact ih (g.next c) i

/-- A call after earlier ones has sent these requests: none for a file without positions, and for
any other file those of a plan, by which the names of tokens that were tracked before are known. -/
structure Planned (network : Network) (settings : Settings) (earlier : List Call) (c : Call)
    (sent : List Inquiry) : Prop where
  requests : let g := (begin network settings).after earlier
    (g.call c).2.requests = g.world.requests ++ sent.map (Inquiry.url settings)
  empty : SnapshotFile.load c.files c.path = .ok [] → sent = []
  plan : let g := (begin network settings).after earlier
    ∀ positions, SnapshotFile.load c.files c.path = .ok positions → positions ≠ [] →
      Report.Plan network settings (fun mint => earlier.any fun e => e.tracked.contains mint)
        g.state g.world.requests positions sent

theorem planned_inquiries {earlier : List Call} (hearlier : ∀ e ∈ earlier, e.TextNamed)
    (hc : c.TextNamed) (hcompletes : (begin network settings).completesAll earlier)
    (hcompletes' : ((begin network settings).after earlier).completes c) :
    Planned network settings earlier c (((begin network settings).after earlier).inquiries c) := by
  have hreached := (reached_begin network settings).after hearlier hcompletes
  obtain ⟨hsent, -⟩ := sends_call hreached.ready hc hcompletes'
  refine ⟨?_, fun hload => ?_, fun positions hload hne => ?_⟩
  · dsimp only
    rw [← world_next, hsent.requests, hreached.settings_eq]
    rfl
  · rw [inquiries, hload]
  · have hknown : ((begin network settings).after earlier).state.metrics.contains =
        fun mint => earlier.any fun e => e.tracked.contains mint := by
      funext mint
      rw [Bool.eq_iff_iff, hreached.tracked]
      simp
    obtain ⟨p, rest, rfl⟩ := List.exists_cons_of_ne_nil hne
    have hplan := Report.plan_inquiries network settings
      ((begin network settings).after earlier).state
      ((begin network settings).after earlier).world.requests (p :: rest)
    rw [hknown] at hplan
    rw [inquiries, hload, hreached.network_eq, hreached.settings_eq]
    exact hplan

/-- **The plan of requests.** In a session of reports that all return a state, on files whose names
are text, and whatever the network answers: the requests of the session are those of its calls, one
call after the other. A report on positions sends those of a plan, which goes by its file, by the
deposits that its state knows, by the tokens that earlier reports tracked, whose names it does not
ask for, and by the answers about pools. So the name of a token is never asked for twice, and once a
token was tracked, its name stays what it was. -/
theorem requests_planned (network : Network) (settings : Settings) {calls : List Call}
    (htext : ∀ c ∈ calls, c.TextNamed)
    (hcompletes : (begin network settings).completesAll calls) :
    let start := begin network settings
    (∃ asked : List (List Inquiry), asked.length = calls.length ∧
      (start.after calls).world.requests = asked.flatten.map (Inquiry.url settings) ∧
      (∀ mint, asked.flatten.count (.name mint) ≤ 1) ∧
      ∀ (i : ℕ) (c : Call) (sent : List Inquiry), calls[i]? = some c → asked[i]? = some sent →
        Planned network settings (calls.take i) c sent) ∧
    ∀ earlier later, calls = earlier ++ later → ∀ e ∈ earlier, ∀ mint ∈ e.tracked,
      ∃ known m, (start.after earlier).state.metrics.get? mint = some known ∧
        (start.after calls).state.metrics.get? mint = some m ∧ m.name = known.name := by
  intro start
  have hstart : start.Reached network settings [] [] := reached_begin network settings
  have hready : start.world.Ready := hstart.ready
  refine ⟨⟨start.allInquiries calls, length_allInquiries start calls,
    (hstart.after htext hcompletes).requests, count_name_le hready htext hcompletes, ?_⟩, ?_⟩
  · intro i c sent hc hsent
    obtain ⟨hi, rfl⟩ := List.getElem?_eq_some_iff.mp hc
    rw [getElem?_allInquiries, hc] at hsent
    obtain rfl := Option.some.inj hsent
    -- The calls fall into the earlier ones, this one, and those after it.
    have hcalls : calls = calls.take i ++ calls[i] :: calls.drop (i + 1) := by
      rw [← List.drop_eq_getElem_cons hi, List.take_append_drop]
    rw [hcalls, completesAll_append] at hcompletes
    obtain ⟨hearlier, hlater⟩ := Bool.and_eq_true_iff.mp hcompletes
    exact planned_inquiries (fun e he => htext e (List.mem_of_mem_take he))
      (htext _ (List.getElem_mem hi)) hearlier (Bool.and_eq_true_iff.mp hlater).1
  · rintro earlier later rfl e he mint hmint
    rw [completesAll_append] at hcompletes
    obtain ⟨hearlier, hlater⟩ := Bool.and_eq_true_iff.mp hcompletes
    obtain ⟨htext, htext'⟩ := List.forall_mem_append.mp htext
    have hreached := hstart.after htext hearlier
    have hknown := (hreached.tracked mint).mpr ⟨e, he, hmint⟩
    obtain ⟨known, hknown⟩ := Option.isSome_iff_exists.mp hknown
    obtain ⟨m, hm, hname⟩ := name_kept hreached.ready htext' hlater hknown
    refine ⟨known, m, hknown, ?_, hname⟩
    rwa [after, List.foldl_append]

/-- A network that knows a pool of the token and the deposit into the position. -/
def pooledAnswer (url : String) : Response :=
  if url = (Inquiry.pools "C").url .standard then
    .answered 200
      "\x7b\"data\": [\x7b\"attributes\": \x7b\"address\": \"P\"\x7d\x7d]\x7d".toUTF8.toList
  else sampleAnswer url

/-- The second report asks neither for the name of the token nor for the deposit: its requests are
those of a plan by which the token was tracked. -/
theorem requests_planned_sample :
    let start := begin (.constant pooledAnswer) .standard
    (∀ c ∈ [sampleCall, sampleCall], c.TextNamed) ∧ start.completesAll [sampleCall, sampleCall] ∧
    (start.after [sampleCall, sampleCall]).world.requests =
      [.prices ["C"], .name "C", .pools "C", .candles "C" "P", .deposits "A", .fees "B",
        .prices ["C"], .pools "C", .candles "C" "P", .fees "B"].map (Inquiry.url .standard) ∧
    ∃ first second,
      (start.after [sampleCall, sampleCall]).world.requests =
        (first ++ second).map (Inquiry.url .standard) ∧
      (first ++ second).count (.name "C") ≤ 1 ∧
      Planned (.constant pooledAnswer) .standard [] sampleCall first ∧
      Planned (.constant pooledAnswer) .standard [sampleCall] sampleCall second := by
  intro start
  have htext : sampleCall.TextNamed := Call.textNamed_of_all (by decide +kernel)
  have hall : ∀ c ∈ [sampleCall, sampleCall], c.TextNamed := by
    intro c hc
    simp only [List.mem_cons, List.not_mem_nil, or_false, or_self] at hc
    exact hc ▸ htext
  have hcompletes : start.completesAll [sampleCall, sampleCall] := by decide +kernel
  obtain ⟨⟨asked, hlength, hrequests, hnames, hplanned⟩, -⟩ :=
    requests_planned (.constant pooledAnswer) .standard hall hcompletes
  obtain ⟨first, second, rfl⟩ := List.length_eq_two.mp hlength
  have hflat : [first, second].flatten = first ++ second := by simp
  rw [hflat] at hrequests hnames
  exact ⟨hall, hcompletes, by decide +kernel, first, second, hrequests, hnames "C",
    hplanned 0 sampleCall first rfl rfl, hplanned 1 sampleCall second rfl rfl⟩

end Stage

end LiquidityWatch
