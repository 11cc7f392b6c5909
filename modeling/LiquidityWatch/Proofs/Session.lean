import LiquidityWatch.Proofs.CarriedState

/-! # Sessions of reports

Reports on files come one after the other, each on the state that the one before it returned.
Whatever happened before, a report that ends well shows the same blocks and totals and returns the
same summary as from the initial state (`Stage.call_fresh`). -/

namespace LiquidityWatch

open Run

/-! ## Printing a report -/

/-- What is shown from the first block of a report on. -/
def World.shown (w : World) : List String := w.printed.dropWhile isMessage

namespace Run

/-- Lines are printed up to the first one that has a fault. -/
theorem result_printAll (lines : List (Except Fault String)) (w : World) :
    ∃ outcome texts, (printAll lines).result w = (outcome, w.showing texts) ∧
      (outcome = .ok () → lines = texts.map .ok) := by
  induction lines generalizing w with
  | nil => exact ⟨.ok (), [], by rw [World.showing_nil]; rfl, fun _ => rfl⟩
  | cons line rest ih =>
    cases line with
    | error fault => exact ⟨.error fault, [], by rw [World.showing_nil]; rfl, fun h => nomatch h⟩
    | ok text =>
      obtain ⟨outcome, texts, hresult, htexts⟩ := ih (w.showing [text])
      rw [World.showing_cons] at hresult
      exact ⟨outcome, text :: texts, hresult, fun h => congrArg _ (htexts h)⟩

theorem result_printAll_ok (texts : List String) (w : World) :
    (printAll (texts.map .ok)).result w = (.ok (), w.showing texts) := by
  induction texts generalizing w with
  | nil => rw [World.showing_nil]; rfl
  | cons text rest ih =>
    rw [← World.showing_cons]
    exact ih (w.showing [text])

end Run

namespace Report

variable {s : Surroundings} {w : World} {state : MonitorState Number}

/-- What a report on positions makes of what its lookups come to. -/
def outcomeOf (A : Answers s (Endpoint.networkOr "" s.settings.network)) (now : Number)
    (state : MonitorState Number) (positions : List (Position Int)) :
    Except Fault (Report × MonitorState Number) := do
  ofFindings (← (A.findings now state positions).outcome) state now positions

/-- The first line of a report on positions. -/
abbrev header (positions : List (Position Int)) : String :=
  s!"🔍 Valuing {positions.length} position(s)..."

/-- A report on positions first prints messages, and then the lines of the report. -/
theorem result_runPositions (A : Answers s (Endpoint.networkOr "" s.settings.network))
    (hw : w.Within s) (state : MonitorState Number) (positions : List (Position Int)) :
    ∃ w', w.Proceeds w' (header positions :: (A.findings w.now state positions).messages) ∧
      (runPositions state positions).result w =
        match outcomeOf A w.now state positions with
        | .ok (report, next) => ((do
            printAll (report.lines s.settings.label)
            return some (report.summary, next)) : Run _).result w'
        | .error fault => (.error fault, w') := by
  have hnow : s.times w.now := hw.times
  have hshown := w.proceeds_showing [header positions]
  have hsettings : (w.showing [header positions]).settings = s.settings := hw.settings
  -- The first line changes nothing that the lookups look at.
  have hwithin : (w.showing [header positions]).Within (s.at w.now) :=
    ⟨hw.network, hsettings, rfl, hshown.ready hw.ready⟩
  obtain ⟨w', hresult, hproceeds⟩ := (A.gives_findings hnow state positions).result _ hwithin
  refine ⟨w', hshown.trans hproceeds, ?_⟩
  rw [runPositions, result_bind_ok (result_print _ _), result_bind_ok (result_get _)]
  simp only [hsettings]
  rw [outcomeOf]
  cases houtcome : (A.findings w.now state positions).outcome with
  | error fault =>
    rw [houtcome] at hresult
    rw [result_bind_error hresult]
    rfl
  | ok findings =>
    rw [houtcome] at hresult
    rw [result_bind_ok hresult, ok_bind]
    show (Run.ofExcept (ofFindings findings state w.now positions) >>= _ : Run _).result w' = _
    cases ofFindings findings state w.now positions with
    | error fault => exact result_bind_error rfl _
    | ok pair => exact result_bind_ok rfl _

/-- The state after a cycle without positions. -/
def afterEmpty (state : MonitorState Number) : MonitorState Number :=
  { state with cycle := state.cycle + 1, lastSummary := some .empty }

theorem result_runEmpty (w : World) : (runEmpty state).result w =
    (.ok (some (.empty, afterEmpty state)), w.showing ["No positions found in snapshot."]) := rfl

/-- A report looks at its file first. -/
theorem result_run (path : Text) (w : World) : (run path state).result w =
    match SnapshotFile.load w.files path with
    | .error f =>
      if f.isValueFault then (.ok none, w.showing [s!"❌ {f.message}"]) else (.error f, w)
    | .ok [] => (runEmpty state).result w
    | .ok positions => (runPositions state positions).result w := by
  rw [run, result_bind_ok (result_get w)]
  rcases SnapshotFile.load w.files path with f | _ | ⟨p, rest⟩
  · show (if f.isValueFault then _ else _ : Run _).result w = if f.isValueFault then _ else _
    by_cases hf : f.isValueFault
    · rw [if_pos hf, if_pos hf]
      rfl
    · rw [if_neg hf, if_neg hf]
      rfl
  · rfl
  · rfl

/-- A report leaves a world in which further reports can be made. -/
theorem proceeds_run (A : Answers s (Endpoint.networkOr "" s.settings.network)) (hw : w.Within s)
    (path : Text) : ∃ ms, w.Proceeds ((run path state).result w).2 ms := by
  rw [result_run]
  rcases SnapshotFile.load w.files path with f | _ | ⟨p, rest⟩
  · dsimp only
    split
    · exact ⟨_, w.proceeds_showing _⟩
    · exact ⟨_, .refl w⟩
  · exact ⟨_, w.proceeds_showing _⟩
  · obtain ⟨w', hproceeds, hresult⟩ := result_runPositions A hw state (p :: rest)
    dsimp only
    rw [hresult]
    split
    · rename_i report next _
      obtain ⟨outcome, texts, hprinted, -⟩ := result_printAll (report.lines s.settings.label) w'
      -- A line with a fault ends the report, but the lines before it have been shown.
      refine ⟨_, hproceeds.trans (?_ : w'.Proceeds _ texts)⟩
      cases outcome with
      | error fault => rw [result_bind_error hprinted]; exact w'.proceeds_showing texts
      | ok _ => rw [result_bind_ok hprinted]; exact w'.proceeds_showing texts
    · exact ⟨_, hproceeds⟩

/-- How a report on positions ends well: all is found, and all lines can be printed. -/
structure Completes (A : Answers s (Endpoint.networkOr "" s.settings.network)) (now : Number)
    (state : MonitorState Number) (positions : List (Position Int)) (ms texts : List String)
    (report : Report) (next : MonitorState Number) : Prop where
  findings : ∃ findings, A.findings now state positions = ⟨.ok findings, ms⟩ ∧
    ofFindings findings state now positions = .ok (report, next)
  lines : report.lines s.settings.label = texts.map .ok

variable {A : Answers s (Endpoint.networkOr "" s.settings.network)} {next : MonitorState Number}
  {positions : List (Position Int)}

theorem Completes.result {ms texts : List String} {report : Report}
    (h : Completes A w.now state positions ms texts report next) (hw : w.Within s) :
    ∃ after, (runPositions state positions).result w = (.ok (some (report.summary, next)), after) ∧
      after.printed = w.printed ++ (header positions :: ms ++ texts) := by
  obtain ⟨findings, hfindings, hreport⟩ := h.findings
  obtain ⟨w', hproceeds, hresult⟩ := result_runPositions A hw state positions
  have houtcome : outcomeOf A w.now state positions = .ok (report, next) := by
    rw [outcomeOf, hfindings]
    exact hreport
  refine ⟨w'.showing texts, ?_, ?_⟩
  · rw [hresult, houtcome]
    dsimp only
    rw [h.lines, result_bind_ok (result_printAll_ok texts w')]
    rfl
  · rw [World.showing, hproceeds.printed, hfindings, List.append_assoc]

theorem Completes.of_result {summary : Summary Number} {after : World} (hw : w.Within s)
    (h : (runPositions state positions).result w = (.ok (some (summary, next)), after)) :
    ∃ ms texts report, Completes A w.now state positions ms texts report next ∧
      report.summary = summary ∧
      after.printed = w.printed ++ (header positions :: ms ++ texts) := by
  obtain ⟨w', hproceeds, hresult⟩ := result_runPositions A hw state positions
  rw [h] at hresult
  cases houtcome : outcomeOf A w.now state positions with
  | error fault =>
    rw [houtcome] at hresult
    cases hresult
  | ok pair =>
    obtain ⟨report, next'⟩ := pair
    rw [houtcome] at hresult
    dsimp only at hresult
    obtain ⟨findings, hfindings, hreport⟩ := bind_eq_ok.mp houtcome
    obtain ⟨outcome, texts, hprinted, htexts⟩ := result_printAll (report.lines s.settings.label) w'
    cases outcome with
    | error fault =>
      rw [result_bind_error hprinted] at hresult
      cases hresult
    | ok _ =>
      rw [result_bind_ok hprinted] at hresult
      obtain ⟨hvalue, rfl⟩ := Prod.mk.inj hresult
      obtain ⟨rfl, rfl⟩ := Prod.mk.inj (Option.some.inj (Except.ok.inj hvalue))
      have hfound := Effect.ext (y := ⟨.ok findings, _⟩) hfindings rfl
      refine ⟨_, texts, report, ⟨⟨findings, hfound, hreport⟩, htexts rfl⟩, rfl, ?_⟩
      rw [World.showing, hproceeds.printed, List.append_assoc]

/-- The first line of a report begins a block. -/
theorem exists_first_line (label : String) (report : Report) :
    ∃ first rest, report.lines label = .ok first :: rest ∧ isMessage first = false := by
  obtain ⟨blocks, summary⟩ := report
  cases blocks with
  | nil => exact ⟨_, _, rfl, by decide⟩
  | cons b blocks =>
    refine ⟨_, _, rfl, ?_⟩
    show isMessage ("\n📍 Position " ++ b.position.id.shown.toString) = false
    rw [isMessage_append_eq (by decide)]
    decide

/-- What a report shows are its lines: the messages of the lookups come before them. -/
theorem Completes.shown {now : Number} {ms texts : List String} {report : Report} {after : World}
    (h : Completes A now state positions ms texts report next) (hnow : s.times now)
    (hprinted : after.printed = header positions :: ms ++ texts) : after.shown = texts := by
  obtain ⟨findings, hfindings, -⟩ := h.findings
  have hmessages : ∀ m ∈ header positions :: ms, isMessage m := by
    have hms := (A.gives_findings hnow state positions).messages
    rw [hfindings] at hms
    exact List.forall_mem_cons.mpr ⟨isMessage_append (isMessage_append (by decide) _) _, hms⟩
  obtain ⟨first, rest, hlines, hfirst⟩ := exists_first_line s.settings.label report
  rw [World.shown, hprinted, List.dropWhile_append_of_pos hmessages]
  rw [h.lines] at hlines
  cases texts with
  | nil => rfl
  | cons text texts =>
    obtain rfl := Except.ok.inj (List.cons.inj hlines).1
    rw [List.dropWhile_cons_of_neg]
    rw [hfirst]
    exact Bool.false_ne_true

end Report

theorem exists_ids {positions : List (Position Int)}
    (h : ∀ p ∈ positions, ∃ id, p.id = .text id) :
    ∃ ids : List Text, positions.map (·.id) = ids.map .text := by
  induction positions with
  | nil => exact ⟨[], rfl⟩
  | cons p rest ih =>
    obtain ⟨id, hid⟩ := h p List.mem_cons_self
    obtain ⟨ids, hids⟩ := ih fun q hq => h q (List.mem_cons_of_mem _ hq)
    exact ⟨id :: ids, congrArg₂ List.cons hid hids⟩

namespace Answers.Bears

variable {s : Surroundings} {A : Answers s (Endpoint.networkOr "" s.settings.network)}
  {state next : MonitorState Number} {summary : Summary Number} {w w' after : World}

/-- A report on positions is the same from the initial state. -/
theorem runPositions_initial (hb : A.Bears state) (hw : w.Within s) (hw' : w'.Within s)
    (hnow : w'.now = w.now) (hprinted : w.printed = []) (hprinted' : w'.printed = [])
    {positions : List (Position Int)} (htext : ∀ p ∈ positions, ∃ id, p.id = .text id)
    (h : (Report.runPositions state positions).result w = (.ok (some (summary, next)), after)) :
    A.Bears next ∧ ∃ next' after',
      (Report.runPositions .initial positions).result w' = (.ok (some (summary, next')), after') ∧
        next.Carries next' ∧ after'.shown = after.shown ∧
        after.printed.Subperm after'.printed := by
  obtain ⟨ids, hids⟩ := exists_ids htext
  obtain ⟨ms, texts, report, hcompletes, rfl, hafter⟩ := Report.Completes.of_result (A := A) hw h
  -- From the initial state all deposits are looked up, and the rest is found as it is here.
  obtain ⟨findings, hfindings, hreport⟩ := hcompletes.findings
  obtain ⟨_, ms', hfindings', ⟨hfound, rfl⟩, hsub⟩ := hb.findings_below hids findings ms hfindings
  obtain ⟨hnext, next', hreport', hcarries⟩ := hb.ofFindings_initial hfound hids hreport
  have hcompletes' : Report.Completes A w'.now .initial positions ms' texts report next' :=
    ⟨⟨_, by rw [hnow]; exact hfindings', by rw [hnow]; exact hreport'⟩, hcompletes.lines⟩
  obtain ⟨after', hresult', hafter'⟩ := hcompletes'.result hw'
  rw [hprinted, List.nil_append] at hafter
  rw [hprinted', List.nil_append] at hafter'
  refine ⟨hnext, next', after', hresult', hcarries, ?_, ?_⟩
  · have hnow' : s.times w'.now := hnow ▸ hw.times
    rw [hcompletes'.shown hnow' hafter', hcompletes.shown hw.times hafter]
  · rw [hafter, hafter']
    exact ((List.subperm_cons _).mpr hsub).append (.refl texts)

/-- A report on a file is the same from the initial state. -/
theorem run_initial_result (hb : A.Bears state) (hw : w.Within s) (hw' : w'.Within s)
    (hfiles : w'.files = w.files) (hnow : w'.now = w.now) (hprinted : w.printed = [])
    (hprinted' : w'.printed = []) {path : Text}
    (htext : ∀ positions, SnapshotFile.load w.files path = .ok positions →
      ∀ p ∈ positions, ∃ id, p.id = .text id)
    (h : (Report.run path state).result w = (.ok (some (summary, next)), after)) :
    A.Bears next ∧ ∃ next' after',
      (Report.run path .initial).result w' = (.ok (some (summary, next')), after') ∧
        next.Carries next' ∧ after'.shown = after.shown ∧
        after.printed.Subperm after'.printed := by
  rw [Report.result_run] at h
  rw [Report.result_run, hfiles]
  rcases hload : SnapshotFile.load w.files path with f | _ | ⟨p, rest⟩
  · rw [hload] at h
    dsimp only at h
    split at h
    · cases h
    · cases h
  · rw [hload] at h
    dsimp only at h
    rw [Report.result_runEmpty] at h
    obtain ⟨hvalue, rfl⟩ := Prod.mk.inj h
    obtain ⟨rfl, rfl⟩ := Prod.mk.inj (Option.some.inj (Except.ok.inj hvalue))
    have hlines : (w'.showing ["No positions found in snapshot."]).printed =
        (w.showing ["No positions found in snapshot."]).printed := by
      rw [World.showing, World.showing, hprinted, hprinted']
    refine ⟨⟨hb.coherent, hb.names, hb.deposits⟩, _, _, Report.result_runEmpty w', ?_, ?_, ?_⟩
    · exact ⟨fun _ _ h => (nomatch h), fun _ _ h => (nomatch h), fun _ _ h => (nomatch h), rfl⟩
    · rw [World.shown, World.shown, hlines]
    · rw [hlines]
  · rw [hload] at h
    exact hb.runPositions_initial hw hw' hnow hprinted hprinted' (htext _ hload) h

end Answers.Bears

/-! ## Calls one after the other -/

/-- A call for a report: which file, and the files and times that it meets. -/
structure Call where
  path : Text
  files : Text → Option (List UInt8)
  now : Number
  clock : Binary64

namespace Call

/-- The world as a call meets it, before anything is printed. -/
def enter (c : Call) (w : World) : World :=
  { w with files := c.files, now := c.now, clock := .real c.clock, printed := [] }

/-- All positions in the file of a call have names that are text. -/
def NamedByText (c : Call) : Prop :=
  ∀ positions, SnapshotFile.load c.files c.path = .ok positions →
    ∀ p ∈ positions, ∃ id, p.id = .text id

theorem namedByText_of_all {c : Call} (h : ((SnapshotFile.load c.files c.path).toOption.getD []).all
    fun p => p.id.kind == .text) : c.NamedByText := by
  intro positions hload p hp
  rw [hload] at h
  have hkind := List.all_eq_true.mp h p hp
  cases hid : p.id with
  | text id => exact ⟨id, rfl⟩
  | number n => rw [hid] at hkind; cases n <;> cases hkind
  | null | truth | bytes | list | object | candle => rw [hid] at hkind; cases hkind

end Call

/-- Where a session of reports stands. -/
structure Stage where
  world : World
  state : MonitorState Number

/-- Surroundings at any time of day. -/
def Surroundings.anytime (answer : String → Response) (settings : Settings) : Surroundings :=
  ⟨answer, settings, fun _ => True⟩

namespace Stage

/-- A session against a network that always answers alike. -/
def start (answer : String → Response) (settings : Settings) : Stage :=
  ⟨.start (.constant answer) (fun _ => none) settings (.whole 0), .initial⟩

/-- What comes of a call. -/
def call (g : Stage) (c : Call) :
    Except Fault (Option (Summary Number × MonitorState Number)) × World :=
  (Report.run c.path g.state).result (c.enter g.world)

/-- The stage after a call: a report that ends well hands on its state. -/
def next (g : Stage) (c : Call) : Stage :=
  match g.call c with
  | (.ok (some (_, state)), w) => ⟨w, state⟩
  | (_, w) => ⟨w, g.state⟩

/-- The stage after several calls. -/
def after (g : Stage) (calls : List Call) : Stage := calls.foldl next g

/-- The same stage with all forgotten that reports hand on. -/
def fresh (g : Stage) : Stage := { g with state := .initial }

variable {answer : String → Response} {settings : Settings}

theorem world_next (g : Stage) (c : Call) : (g.next c).world = (g.call c).2 := by
  rw [next]
  split
  · rename_i h
    rw [h]
  · rename_i h
    rw [h]

/-- Every call enters a world with the same surroundings. -/
theorem within_enter {w : World} (hw : w.Within (.anytime answer settings)) (c : Call) :
    (c.enter w).Within (.anytime answer settings) :=
  ⟨hw.network, hw.settings, trivial, ⟨_, rfl⟩, hw.ready.prices, hw.ready.market⟩

variable {A : Answers (.anytime answer settings) (Endpoint.networkOr "" settings.network)}
  {g : Stage}

/-- Whatever is called, the surroundings stay the same, and requests can take their turns. -/
theorem within_next (hg : g.world.Within (.anytime answer settings)) (c : Call) :
    (g.next c).world.Within (.anytime answer settings) := by
  obtain ⟨A⟩ := exists_answers (.anytime answer settings) (Endpoint.networkOr "" settings.network)
  rw [world_next]
  obtain ⟨ms, hproceeds⟩ := Report.proceeds_run A (within_enter hg c) c.path
  exact (within_enter hg c).proceed hproceeds

theorem within_after (hg : g.world.Within (.anytime answer settings)) (calls : List Call) :
    (g.after calls).world.Within (.anytime answer settings) := by
  induction calls generalizing g with
  | nil => exact hg
  | cons c rest ih => exact ih (within_next hg c)

/-- The session can go on, and its state knows only what the lookups answer. -/
structure Sound (A : Answers (.anytime answer settings) (Endpoint.networkOr "" settings.network))
    (g : Stage) : Prop where
  within : g.world.Within (.anytime answer settings)
  bears : A.Bears g.state

theorem sound_start : (start answer settings).Sound A :=
  ⟨⟨rfl, rfl, trivial, World.ready_start ..⟩, A.bears_initial⟩

theorem Sound.next (hg : g.Sound A) {c : Call} (hc : c.NamedByText) : (g.next c).Sound A := by
  refine ⟨within_next hg.within c, ?_⟩
  rw [Stage.next]
  split
  · rename_i h
    have hw := within_enter hg.within c
    exact (hg.bears.run_initial_result hw hw rfl rfl rfl rfl hc h).1
  · exact hg.bears

theorem Sound.after (hg : g.Sound A) {calls : List Call} (hcalls : ∀ c ∈ calls, c.NamedByText) :
    (g.after calls).Sound A := by
  induction calls generalizing g with
  | nil => exact hg
  | cons c rest ih =>
    obtain ⟨hc, hrest⟩ := List.forall_mem_cons.mp hcalls
    exact ih (hg.next hc) hrest

/-- Whatever was reported before, a report that ends well shows the same blocks and the same totals,
and returns the same summary, as from the initial state, even where other reports made the requests
wait. Each message that it prints is printed from there, too, and no less often, though perhaps in
another order, and the state it leaves holds all that the other one does. -/
theorem call_fresh (answer : String → Response) (settings : Settings) {earlier : List Call}
    {c : Call} (hearlier : ∀ e ∈ earlier, e.NamedByText) (hc : c.NamedByText)
    {summary : Summary Number} {next : MonitorState Number} {w : World}
    (h : ((start answer settings).after earlier).call c = (.ok (some (summary, next)), w))
    (others : List Call) :
    ∃ next' w', ((start answer settings).after others).fresh.call c =
        (.ok (some (summary, next')), w') ∧
      w'.shown = w.shown ∧ w.printed.Subperm w'.printed ∧ next.Carries next' := by
  obtain ⟨A⟩ := exists_answers (.anytime answer settings) (Endpoint.networkOr "" settings.network)
  -- Both calls enter worlds with the same surroundings; only the states differ.
  have hsound := (sound_start (A := A)).after hearlier
  have hothers := within_after (sound_start (A := A)).within others
  obtain ⟨-, next', w', hresult, hcarries, hshown, hprinted⟩ :=
    hsound.bears.run_initial_result (within_enter hsound.within c) (within_enter hothers c)
      rfl rfl rfl rfl hc h
  exact ⟨next', w', hresult, hshown, hprinted, hcarries⟩

/-- A service that knows a deposit into a position, and nothing else. -/
def sampleAnswer (url : String) : Response :=
  if url = Endpoint.deposits "A" then
    .answered 200 "[\x7b\"token_x_usd_amount\": 2, \"token_y_usd_amount\": 3\x7d]".toUTF8.toList
  else .failed

/-- A call for a report on a file with that position. -/
def sampleCall : Call where
  path := "snapshot.json"
  files _ := some ("[\x7b\"position_id\": \"A\", \"pool_address\": \"B\", " ++
    "\"token_x_mint\": \"C\", \"token_y_mint\": \"C\"\x7d]").toUTF8.toList
  now := .whole 0
  clock := .zero

/-- The second report on a file asks neither for the deposit nor for the name of the token. -/
theorem call_fresh_sampleCall :
    sampleCall.NamedByText ∧ ∃ summary next w,
      ((start sampleAnswer .standard).after [sampleCall]).call sampleCall =
        (.ok (some (summary, next)), w) ∧ w.requests.length = 8 ∧
      ∃ next' w', ((start sampleAnswer .standard).after []).fresh.call sampleCall =
          (.ok (some (summary, next')), w') ∧ w'.requests.length = 5 ∧
        w'.shown = w.shown ∧ w.printed.Subperm w'.printed ∧ next.Carries next' := by
  have hnamed : sampleCall.NamedByText := Call.namedByText_of_all (by decide +kernel)
  have hsome : (((start sampleAnswer .standard).after [sampleCall]).call
      sampleCall).1.toOption.join.isSome := by decide +kernel
  have hrequests : (((start sampleAnswer .standard).after [sampleCall]).call
      sampleCall).2.requests.length = 8 := by decide +kernel
  have hrequests' : (((start sampleAnswer .standard).after []).fresh.call
      sampleCall).2.requests.length = 5 := by decide +kernel
  rcases hcall : ((start sampleAnswer .standard).after [sampleCall]).call sampleCall with
    ⟨_ | _ | ⟨summary, next⟩, w⟩
  · rw [hcall] at hsome
    cases hsome
  · rw [hcall] at hsome
    cases hsome
  · obtain ⟨next', w', hcall', hsame⟩ := call_fresh sampleAnswer .standard
      (List.forall_mem_singleton.mpr hnamed) hnamed hcall []
    rw [hcall] at hrequests
    rw [hcall'] at hrequests'
    exact ⟨hnamed, summary, next, w, rfl, hrequests, next', w', hcall', hrequests', hsame⟩

end Stage

end LiquidityWatch
