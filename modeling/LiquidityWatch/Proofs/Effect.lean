import LiquidityWatch.Proofs.Outcome
import LiquidityWatch.Proofs.Rounding
import LiquidityWatch.Proofs.Rounds
import Mathlib.Data.List.Perm.Subperm

/-! # What actions come to

Against a network that answers an address always in the same way, an action of lookups comes to the
same whatever has been asked before: it has the same outcome, and prints the same messages. That is
its `Effect`, and `Gives` says that an action has it in all worlds with given surroundings. The
rules follow the ways in which actions are put together. What an action leaves behind otherwise,
requests and waits, is no part of its effect, but it has to leave limiters that grant further
requests (`World.Ready`), and how long it waits is decided by the clock and the limiters
(`World.InStep`). -/

namespace LiquidityWatch

/-- What an action comes to: its outcome, and the lines that it prints on the way. -/
@[ext]
structure Effect (α : Type) where
  outcome : Except Fault α
  messages : List String

namespace Effect

variable {α β : Type}

instance : Monad Effect where
  pure a := ⟨.ok a, []⟩
  bind e f := match e.outcome with
    | .ok a => ⟨(f a).outcome, e.messages ++ (f a).messages⟩
    | .error fault => ⟨.error fault, e.messages⟩

instance : MonadLift (Except Fault) Effect := ⟨fun outcome => ⟨outcome, []⟩⟩

theorem bind_ok (a : α) (ms : List String) (f : α → Effect β) :
    (⟨.ok a, ms⟩ : Effect α) >>= f = ⟨(f a).outcome, ms ++ (f a).messages⟩ := rfl

/-- A chain ends well exactly if its first link does and the rest does from there; the messages of
both are printed. -/
theorem bind_eq_ok {e : Effect α} {f : α → Effect β} {b : β} {ms : List String} :
    e >>= f = ⟨.ok b, ms⟩ ↔
      ∃ a m m', e = ⟨.ok a, m⟩ ∧ f a = ⟨.ok b, m'⟩ ∧ ms = m ++ m' := by
  obtain ⟨outcome, printed⟩ := e
  constructor
  · intro h
    cases outcome with
    | error fault => cases (Effect.mk.inj h).1
    | ok a =>
      obtain ⟨houtcome, hmessages⟩ := Effect.mk.inj h
      exact ⟨a, printed, (f a).messages, rfl, by rw [← houtcome], hmessages.symm⟩
  · rintro ⟨a, m, m', he, hf, rfl⟩
    rw [he, bind_ok, hf]

/-- The outcome as a value. -/
def attempt (e : Effect α) : Effect (Except Fault α) := ⟨.ok e.outcome, e.messages⟩

/-- The effect of actions that are started together: each prints its messages, and the first fault
among them counts. -/
def gather (es : List (Effect α)) : Effect (List α) :=
  ⟨es.mapM outcome, es.flatMap messages⟩

/-- The effect of two actions that are started together. -/
def both (e : Effect α) (e' : Effect β) : Effect (α × β) :=
  ⟨do return (← e.outcome, ← e'.outcome), e.messages ++ e'.messages⟩

/-- The effect of actions that are started together, of which some begin at once and the others in a
second round. -/
def gatherRounds {ι : Type} (atOnce : ι → Bool) (g : ι → Effect α) (xs : List ι) :
    Effect (List α) := do
  let (first, later) ← (gather ((xs.filter atOnce).map g)).both
    (gather ((xs.filter fun x => !atOnce x).map g))
  return Run.rejoin (xs.map atOnce) first later

theorem gather_eq_ok {ι : Type} {xs : List ι} {g : ι → Effect α} {as : List α}
    {ms : List String} : gather (xs.map g) = ⟨.ok as, ms⟩ ↔
      List.Forall₂ (fun x a => (g x).outcome = .ok a) xs as ∧
        ms = xs.flatMap fun x => (g x).messages := by
  rw [gather, List.mapM_map, List.flatMap_map, Effect.mk.injEq, eq_comm (a := ms)]
  exact and_congr_left fun _ => mapM_eq_ok

theorem messages_gather {ι : Type} (g : ι → Effect α) (xs : List ι) :
    (gather (xs.map g)).messages = xs.flatMap fun x => (g x).messages :=
  List.flatMap_map ..

theorem both_eq_ok {e : Effect α} {e' : Effect β} {a : α} {b : β} {ms : List String} :
    e.both e' = ⟨.ok (a, b), ms⟩ ↔
      e.outcome = .ok a ∧ e'.outcome = .ok b ∧ ms = e.messages ++ e'.messages := by
  obtain ⟨outcome, m⟩ := e
  obtain ⟨outcome', m'⟩ := e'
  cases outcome <;> cases outcome' <;> simp [both, eq_comm, and_assoc]

/-- Rounds end well exactly if each action does; the messages come in the order of the rounds. -/
theorem gatherRounds_eq_ok {ι : Type} {atOnce : ι → Bool} {xs : List ι} {g : ι → Effect α}
    {as : List α} {ms : List String} : gatherRounds atOnce g xs = ⟨.ok as, ms⟩ ↔
      List.Forall₂ (fun x a => (g x).outcome = .ok a) xs as ∧
        ms = (Run.inRounds atOnce xs).flatMap fun x => (g x).messages := by
  rw [Run.inRounds, List.flatMap_append]
  constructor
  · intro h
    obtain ⟨⟨first, later⟩, _, _, hboth, has, rfl⟩ := bind_eq_ok.mp h
    obtain ⟨hfirst, hlater, rfl⟩ := both_eq_ok.mp hboth
    obtain ⟨hfirst, -⟩ := gather_eq_ok.mp (Effect.ext hfirst rfl)
    obtain ⟨hlater, -⟩ := gather_eq_ok.mp (Effect.ext hlater rfl)
    obtain ⟨has, hnone⟩ := Effect.mk.inj has
    obtain rfl := Except.ok.inj has
    rw [messages_gather, messages_gather, ← hnone, List.append_nil]
    exact ⟨Run.forall₂_rejoin hfirst hlater, rfl⟩
  · rintro ⟨hall, rfl⟩
    obtain ⟨first, later, rfl, hfirst, hlater⟩ := Run.exists_rejoin atOnce hall
    refine bind_eq_ok.mpr ⟨(first, later), _, [], both_eq_ok.mpr ⟨?_, ?_, rfl⟩, rfl, ?_⟩
    · rw [gather_eq_ok.mpr ⟨hfirst, rfl⟩]
    · rw [gather_eq_ok.mpr ⟨hlater, rfl⟩]
    · rw [messages_gather, messages_gather, List.append_nil]

/-- Whatever the first effect ends well with, the second one ends well with something related to it,
and it prints the messages of the first one, in whatever order, and perhaps others. -/
def Below (R : α → β → Prop) (e : Effect α) (e' : Effect β) : Prop :=
  ∀ a ms, e = ⟨.ok a, ms⟩ → ∃ b ms', e' = ⟨.ok b, ms'⟩ ∧ R a b ∧ ms.Subperm ms'

namespace Below

variable {γ δ : Type} {R : α → β → Prop} {S : γ → δ → Prop}

theorem refl (e : Effect α) : e.Below Eq e := fun a ms h => ⟨a, ms, h, rfl, .refl ms⟩

theorem pure {a : α} {b : β} (h : R a b) :
    (Pure.pure a : Effect α).Below R (Pure.pure b : Effect β) := by
  rintro _ _ ⟨⟩
  exact ⟨b, [], rfl, h, .refl _⟩

theorem bind {e : Effect α} {e' : Effect β} {f : α → Effect γ} {f' : β → Effect δ}
    (h : e.Below R e') (hf : ∀ a b, R a b → (f a).Below S (f' b)) :
    (e >>= f).Below S (e' >>= f') := by
  intro c ms hc
  obtain ⟨a, m, m', he, hfa, rfl⟩ := bind_eq_ok.mp hc
  obtain ⟨b, n, he', hab, hsub⟩ := h a m he
  obtain ⟨d, n', hfb, hcd, hsub'⟩ := hf a b hab c m' hfa
  exact ⟨d, n ++ n', bind_eq_ok.mpr ⟨b, n, n', he', hfb, rfl⟩, hcd, hsub.append hsub'⟩

theorem both {e : Effect α} {e' : Effect β} {f : Effect γ} {f' : Effect δ} (h : e.Below R e')
    (hf : f.Below S f') :
    (e.both f).Below (fun p q => R p.1 q.1 ∧ S p.2 q.2) (e'.both f') := by
  rintro ⟨a, c⟩ ms hac
  obtain ⟨ha, hc, rfl⟩ := both_eq_ok.mp hac
  obtain ⟨b, n, hb, hab, hsub⟩ := h a e.messages (Effect.ext ha rfl)
  obtain ⟨d, n', hd, hcd, hsub'⟩ := hf c f.messages (Effect.ext hc rfl)
  subst hb hd
  exact ⟨(b, d), n ++ n', both_eq_ok.mpr ⟨rfl, rfl, rfl⟩, ⟨hab, hcd⟩, hsub.append hsub'⟩

end Below

end Effect

/-! ## Worlds that differ in their traces -/

/-- A line that begins no block of a report: those begin with a line feed. -/
def isMessage (line : String) : Bool := line.toList.head?.any (· != '\n')

/-- The beginning of a line decides whether it is a message. -/
theorem isMessage_append_eq {line : String} (h : line.toList ≠ []) (more : String) :
    isMessage (line ++ more) = isMessage line := by
  rw [isMessage, isMessage, String.toList_append, List.head?_append_of_ne_nil _ h]

theorem isMessage_append {line : String} (h : isMessage line) (more : String) :
    isMessage (line ++ more) := by
  rw [isMessage_append_eq _ more]
  · exact h
  · intro hline
    rw [isMessage, hline] at h
    cases h

/-- A limiter that can grant a request at any time. -/
structure Limiter.Ready (l : Limiter Number) : Prop where
  slots : 0 < l.slots
  period : ∃ x, l.period.toReal = .ok x
  granted : ∀ t ∈ l.granted, ∃ x, t = .real x

/-- Requests can take their turns. -/
structure World.Ready (w : World) : Prop where
  clock : ∃ x, w.clock = .real x
  prices : w.priceLimiter.Ready
  market : w.marketLimiter.Ready

/-- Where nothing has been asked, requests can take their turns. -/
theorem World.ready_start (network : Network) (files : Text → Option (List UInt8))
    (settings : Settings) (now : Number) : (World.start network files settings now).Ready := by
  have hperiod : ∃ x, World.limitPeriod.toReal = .ok x :=
    exists_of_isSome_toOption (by decide +kernel)
  have hprices : (0 : Int) < World.priceSlots := by decide
  have hmarket : (0 : Int) < World.marketSlots := by decide
  exact ⟨⟨_, rfl⟩, ⟨hprices, hperiod, fun t ht => (nomatch ht)⟩,
    ⟨hmarket, hperiod, fun t ht => (nomatch ht)⟩⟩

/-- What happens to a world when an action prints messages: its traces grow, its clock goes on. -/
structure World.Proceeds (w w' : World) (messages : List String) : Prop where
  network : w'.network = w.network
  files : w'.files = w.files
  settings : w'.settings = w.settings
  now : w'.now = w.now
  ready : w.Ready → w'.Ready
  printed : w'.printed = w.printed ++ messages

namespace World.Proceeds

theorem refl (w : World) : w.Proceeds w [] :=
  ⟨rfl, rfl, rfl, rfl, id, (List.append_nil _).symm⟩

theorem trans {w w' w'' : World} {ms ms' : List String} (h : w.Proceeds w' ms)
    (h' : w'.Proceeds w'' ms') : w.Proceeds w'' (ms ++ ms') where
  network := h'.network.trans h.network
  files := h'.files.trans h.files
  settings := h'.settings.trans h.settings
  now := h'.now.trans h.now
  ready := fun hw => h'.ready (h.ready hw)
  printed := by rw [h'.printed, h.printed, List.append_assoc]

end World.Proceeds

/-- A world after more lines were printed. -/
def World.showing (w : World) (lines : List String) : World :=
  { w with printed := w.printed ++ lines }

theorem World.showing_nil (w : World) : w.showing [] = w :=
  congrArg (fun printed => { w with printed }) (List.append_nil w.printed)

theorem World.showing_cons (w : World) (line : String) (lines : List String) :
    (w.showing [line]).showing lines = w.showing (line :: lines) :=
  congrArg (fun printed => { w with printed }) (List.append_cons w.printed line lines).symm

theorem World.showing_append (w : World) (lines more : List String) :
    (w.showing lines).showing more = w.showing (lines ++ more) :=
  congrArg (fun printed => { w with printed }) (List.append_assoc w.printed lines more)

theorem World.proceeds_showing (w : World) (lines : List String) :
    w.Proceeds (w.showing lines) lines :=
  ⟨rfl, rfl, rfl, rfl, fun h => ⟨h.clock, h.prices, h.market⟩, rfl⟩

/-- What lookups see of a world: how addresses are answered, the settings, and the time of day, as
far as it is fixed. -/
structure Surroundings where
  answer : String → Response
  settings : Settings
  times : Number → Prop

/-- The same surroundings at one time of day. -/
def Surroundings.at (s : Surroundings) (now : Number) : Surroundings :=
  { s with times := fun time => time = now }

/-- A world with these surroundings. -/
structure World.Within (s : Surroundings) (w : World) : Prop where
  network : w.network = .constant s.answer
  settings : w.settings = s.settings
  times : s.times w.now
  ready : w.Ready

theorem World.Within.proceed {s : Surroundings} {w w' : World} {ms : List String}
    (hw : w.Within s) (h : w.Proceeds w' ms) : w'.Within s where
  network := h.network.trans hw.network
  settings := h.settings.trans hw.settings
  times := by rw [h.now]; exact hw.times
  ready := h.ready hw.ready

/-- Two worlds in which requests take the same turns: their clocks and limiters are the same. -/
structure World.InStep (w w' : World) : Prop where
  clock : w'.clock = w.clock
  prices : w'.priceLimiter = w.priceLimiter
  market : w'.marketLimiter = w.marketLimiter

/-- What two worlds in step become where the same turns are taken: they have waited for the same
times, and are in step again. -/
structure World.SameTurns (w w' after after' : World) : Prop where
  inStep : after.InStep after'
  waits : ∃ waits, after.waits = w.waits ++ waits ∧ after'.waits = w'.waits ++ waits

namespace World.SameTurns

variable {w w' v v' u u' : World}

/-- Where no turn is taken, nothing is waited for. -/
theorem of_waits_eq (h : v.InStep v') (hwaits : v.waits = w.waits) (hwaits' : v'.waits = w'.waits) :
    SameTurns w w' v v' :=
  ⟨h, [], by rw [hwaits, List.append_nil], by rw [hwaits', List.append_nil]⟩

theorem trans (h : SameTurns w w' v v') (h' : SameTurns v v' u u') : SameTurns w w' u u' := by
  obtain ⟨first, hfirst, hfirst'⟩ := h.waits
  obtain ⟨later, hlater, hlater'⟩ := h'.waits
  refine ⟨h'.inStep, first ++ later, ?_, ?_⟩
  · rw [hlater, hfirst, List.append_assoc]
  · rw [hlater', hfirst', List.append_assoc]

end World.SameTurns

namespace Run

variable {α β : Type}

/-- What an action does from a world on: its outcome, and the world it leaves. -/
def result (action : Run α) (w : World) : Except Fault α × World := (action.run w).run

theorem result_bind (action : Run α) (f : α → Run β) (w : World) :
    (action >>= f).result w = match action.result w with
      | (.ok a, w') => (f a).result w'
      | (.error fault, w') => (.error fault, w') := by
  show ExceptT.bindCont f (action w).1 (action w).2 = _
  rw [result, ExceptT.run, Id.run]
  rcases action w with ⟨_ | _, w'⟩ <;> rfl

theorem result_print (line : String) (w : World) :
    (print line).result w = (.ok (), w.showing [line]) := rfl

theorem result_get (w : World) : (MonadState.get : Run World).result w = (.ok w, w) := rfl

theorem result_attempt (action : Run α) (w : World) :
    (attempt action).result w = (.ok (action.result w).1, (action.result w).2) := rfl

theorem result_bind_ok {action : Run α} {a : α} {w w' : World}
    (h : action.result w = (.ok a, w')) (f : α → Run β) :
    (action >>= f).result w = (f a).result w' := by
  rw [result_bind, h]

theorem result_bind_error {action : Run α} {fault : Fault} {w w' : World}
    (h : action.result w = (.error fault, w')) (f : α → Run β) :
    (action >>= f).result w = (.error fault, w') := by
  rw [result_bind, h]

/-- A chain of actions ends well exactly if its first link does and the rest does from there. -/
theorem result_bind_eq_ok {action : Run α} {f : α → Run β} {b : β} {w after : World} :
    (action >>= f).result w = (.ok b, after) ↔
      ∃ a w', action.result w = (.ok a, w') ∧ (f a).result w' = (.ok b, after) := by
  rw [result_bind]
  rcases action.result w with ⟨fault | a, w'⟩
  · constructor
    · intro h
      cases h
    · rintro ⟨a, w'', h, -⟩
      cases h
  · constructor
    · exact fun h => ⟨a, w', rfl, h⟩
    · rintro ⟨a', w'', h, hrest⟩
      obtain ⟨hvalue, rfl⟩ := Prod.mk.inj h
      obtain rfl := Except.ok.inj hvalue
      exact hrest

/-- What is computed outside the world leaves it alone. -/
theorem result_lift_eq_ok {outcome : Except Fault α} {a : α} {w after : World} :
    (liftM outcome : Run α).result w = (.ok a, after) ↔ outcome = .ok a ∧ w = after :=
  Prod.mk_inj

/-- In worlds with these surroundings the action has the effect, prints only messages, and takes the
same turns where worlds are in step. -/
structure Gives (s : Surroundings) (action : Run α) (e : Effect α) : Prop where
  result : ∀ w, w.Within s → ∃ w', action.result w = (e.outcome, w') ∧ w.Proceeds w' e.messages
  messages : ∀ m ∈ e.messages, isMessage m
  turns : ∀ w w' : World, w.Within s → w'.Within s → w.InStep w' →
    w.SameTurns w' (action.result w).2 (action.result w').2

namespace Gives

variable {s : Surroundings}

/-- What holds at any time holds at a given one. -/
theorem at_time {action : Run α} {e : Effect α} (h : Gives s action e) {now : Number}
    (hnow : s.times now) : Gives (s.at now) action e where
  result := by
    intro w hw
    have htime : w.now = now := hw.times
    exact h.result w ⟨hw.network, hw.settings, htime ▸ hnow, hw.ready⟩
  messages := h.messages
  turns w w' hw hw' := by
    have htime : w.now = now := hw.times
    have htime' : w'.now = now := hw'.times
    exact h.turns w w' ⟨hw.network, hw.settings, htime ▸ hnow, hw.ready⟩
      ⟨hw'.network, hw'.settings, htime' ▸ hnow, hw'.ready⟩

theorem ofExcept (outcome : Except Fault α) : Gives s (Run.ofExcept outcome) ⟨outcome, []⟩ where
  result w _ := ⟨w, rfl, .refl w⟩
  messages _ hm := absurd hm List.not_mem_nil
  turns _ _ _ _ h := .of_waits_eq h rfl rfl

theorem pure (a : α) : Gives s (Pure.pure a) (Pure.pure a) := ofExcept (.ok a)

theorem throw (fault : Fault) : Gives s (throw fault : Run α) ⟨.error fault, []⟩ :=
  ofExcept (.error fault)

theorem print {line : String} (h : isMessage line) : Gives s (Run.print line) ⟨.ok (), [line]⟩ where
  result w _ := ⟨w.showing [line], rfl, w.proceeds_showing [line]⟩
  messages m hm := by rw [List.mem_singleton.mp hm]; exact h
  turns _ _ _ _ h := .of_waits_eq ⟨h.clock, h.prices, h.market⟩ rfl rfl

/-- An action that does the same in all these worlds, after a look at them. -/
theorem get {f : World → Run β} {action : Run β} {e : Effect β} (h : Gives s action e)
    (hf : ∀ w, w.Within s → f w = action) : Gives s (MonadState.get >>= f) e where
  result w hw := by
    rw [result_bind_ok (result_get w), hf w hw]
    exact h.result w hw
  messages := h.messages
  turns w w' hw hw' := by
    rw [result_bind_ok (result_get w), result_bind_ok (result_get w'), hf w hw, hf w' hw']
    exact h.turns w w' hw hw'

theorem bind {action : Run α} {e : Effect α} {f : α → Run β} {g : α → Effect β}
    (h : Gives s action e) (hf : ∀ a, Gives s (f a) (g a)) : Gives s (action >>= f) (e >>= g) where
  result w hw := by
    obtain ⟨w', hresult, hproceeds⟩ := h.result w hw
    rw [result_bind, hresult]
    obtain ⟨outcome, ms⟩ := e
    cases outcome with
    | error fault => exact ⟨w', rfl, hproceeds⟩
    | ok a =>
      obtain ⟨w'', hresult', hproceeds'⟩ := (hf a).result w' (hw.proceed hproceeds)
      exact ⟨w'', hresult', hproceeds.trans hproceeds'⟩
  messages := by
    obtain ⟨outcome, ms⟩ := e
    cases outcome with
    | error fault => exact h.messages
    | ok a =>
      intro m hm
      rcases List.mem_append.mp hm with hm | hm
      · exact h.messages m hm
      · exact (hf a).messages m hm
  turns w w' hw hw' hstep := by
    have hturns := h.turns w w' hw hw' hstep
    obtain ⟨v, hresult, hproceeds⟩ := h.result w hw
    obtain ⟨v', hresult', hproceeds'⟩ := h.result w' hw'
    rw [hresult, hresult'] at hturns
    rw [result_bind, result_bind, hresult, hresult']
    obtain ⟨outcome, ms⟩ := e
    cases outcome with
    | error fault => exact hturns
    | ok a =>
      exact hturns.trans ((hf a).turns v v' (hw.proceed hproceeds) (hw'.proceed hproceeds')
        hturns.inStep)

theorem attempt {action : Run α} {e : Effect α} (h : Gives s action e) :
    Gives s (Run.attempt action) e.attempt where
  result w hw := by
    obtain ⟨w', hresult, hproceeds⟩ := h.result w hw
    refine ⟨w', ?_, hproceeds⟩
    show (Except.ok (action.result w).1, (action.result w).2) = _
    rw [hresult]
    rfl
  messages := h.messages
  turns := h.turns

theorem mapM_attempt {ι : Type} {xs : List ι} {f : ι → Run α} {g : ι → Effect α}
    (h : ∀ x ∈ xs, Gives s (f x) (g x)) :
    Gives s ((xs.map f).mapM Run.attempt)
      ⟨.ok (xs.map fun x => (g x).outcome), xs.flatMap fun x => (g x).messages⟩ := by
  induction xs with
  | nil => exact pure []
  | cons x xs ih =>
    have hrest := ih fun y hy => h y (List.mem_cons_of_mem _ hy)
    have hall := (h x List.mem_cons_self).attempt.bind fun o => hrest.bind fun os => pure (o :: os)
    rw [List.map_cons, List.mapM_cons, List.map_cons, List.flatMap_cons,
      ← List.append_nil (xs.flatMap _)]
    exact hall

theorem mapM_ofExcept (outcomes : List (Except Fault α)) :
    Gives s (outcomes.mapM Run.ofExcept) ⟨outcomes.mapM id, []⟩ := by
  induction outcomes with
  | nil => exact pure []
  | cons outcome outcomes ih =>
    have hall := (ofExcept outcome).bind fun a => ih.bind fun as => pure (a :: as)
    rw [List.mapM_cons, List.mapM_cons]
    cases outcome with
    | error fault => exact hall
    | ok a => cases h : outcomes.mapM id <;> rw [h] at hall <;> exact hall

theorem gather {ι : Type} {xs : List ι} {f : ι → Run α} {g : ι → Effect α}
    (h : ∀ x ∈ xs, Gives s (f x) (g x)) :
    Gives s (Run.gather (xs.map f)) (Effect.gather (xs.map g)) := by
  have hall := (mapM_attempt h).bind fun outcomes => mapM_ofExcept outcomes
  have houtcome : (xs.map fun x => (g x).outcome).mapM id = (xs.map g).mapM Effect.outcome := by
    rw [List.mapM_map, List.mapM_map]
    rfl
  rw [Effect.bind_ok, List.append_nil, houtcome] at hall
  rw [Effect.gather, List.flatMap_map]
  exact hall

theorem both {action : Run α} {action' : Run β} {e : Effect α} {e' : Effect β}
    (h : Gives s action e) (h' : Gives s action' e') :
    Gives s (Run.both action action') (e.both e') := by
  have hpair : ∀ (a : Except Fault α) (b : Except Fault β),
      Gives s (do return (← Run.ofExcept a, ← Run.ofExcept b)) ⟨do return (← a, ← b), []⟩ := by
    intro a b
    have hall := (ofExcept (s := s) a).bind fun a => (ofExcept b).bind fun b => pure (a, b)
    cases a <;> cases b <;> exact hall
  have hall := h.attempt.bind fun a => h'.attempt.bind fun b => hpair a b
  rw [Effect.both, ← List.append_nil e'.messages]
  exact hall

theorem gatherRounds {ι : Type} {atOnce : ι → Bool} {xs : List ι} {f : ι → Run α}
    {g : ι → Effect α} (h : ∀ x ∈ xs, Gives s (f x) (g x)) :
    Gives s (Run.gatherRounds atOnce f xs) (Effect.gatherRounds atOnce g xs) := by
  have hround : ∀ p : ι → Bool, ∀ x ∈ xs.filter p, Gives s (f x) (g x) :=
    fun p x hx => h x (List.mem_filter.mp hx).1
  exact ((gather (hround _)).both (gather (hround _))).bind fun found => pure _

end Gives

end Run

/-! ## Taking turns -/

namespace Limiter.Ready

theorem margin_real : ∃ x, (margin : Number) = .real x := ⟨_, rfl⟩

variable {l : Limiter Number}

theorem purge (h : l.Ready) (x : Binary64) :
    ∃ l', l.purge (.real x) = .ok l' ∧ l'.Ready := by
  have htest : ∀ t ∈ l.granted, (do Comparable.lt (← Scalar.sub (.real x) t) l.period) =
      Except.ok
        (((Scalar.sub (.real x) t).toOption.map fun d => Number.lt d l.period).getD false) := by
    intro t ht
    obtain ⟨y, rfl⟩ := h.granted t ht
    rfl
  rw [Limiter.purge, filterM_eq_ok htest]
  exact ⟨_, rfl, h.slots, h.period, fun t ht => h.granted t (List.mem_filter.mp ht).1⟩

theorem wait (h : l.Ready) (x : Binary64) :
    ∃ waited, l.wait (.real x) = .ok waited ∧ ∀ t ∈ waited, ∃ y, t = .real y := by
  rw [Limiter.wait]
  split
  · exact ⟨none, rfl, by rintro t ⟨⟩⟩
  · rename_i hfull
    have hslots := h.slots
    cases hgranted : l.granted with
    | nil =>
      rw [hgranted] at hfull
      exact absurd hslots hfull
    | cons oldest rest =>
      obtain ⟨y, rfl⟩ := h.granted oldest (hgranted ▸ List.mem_cons_self)
      obtain ⟨z, hz⟩ := h.period
      -- Every step of the sum is real, because one side of it is.
      have hage : Scalar.sub (Number.real x) (.real y) = .ok (.real (x.sub y)) := rfl
      have hrest : Scalar.sub l.period (.real (x.sub y)) = .ok (.real (z.sub (x.sub y))) :=
        Number.lift_real hz rfl (.inr rfl) _ _
      obtain ⟨m, hm⟩ := margin_real
      have htime : Scalar.add (Number.real (z.sub (x.sub y))) margin =
          .ok (.real ((z.sub (x.sub y)).add m)) := by
        rw [hm]
        rfl
      generalize (z.sub (x.sub y)).add m = t at htime
      obtain ⟨b, hb⟩ : ∃ b, Comparable.lt (Scalar.ofInt 0) (Number.real t) = .ok b := ⟨_, rfl⟩
      simp only [hage, hrest, htime, hb, ok_bind]
      cases b with
      | false => exact ⟨none, rfl, by rintro t ⟨⟩⟩
      | true => exact ⟨some _, rfl, by rintro _ ⟨⟩; exact ⟨t, rfl⟩⟩

theorem grant (h : l.Ready) (x : Binary64) :
    ∃ g, l.grant (.real x) = .ok g ∧ g.limiter.Ready ∧ ∃ y, g.time = .real y := by
  obtain ⟨waited, hwaited, hreal⟩ := h.wait x
  -- Whenever the request goes through, its time is real like the others.
  have hready : ∀ y, Ready { l with granted := l.granted ++ [.real y] } := by
    refine fun y => ⟨h.slots, h.period, fun t ht => ?_⟩
    rcases List.mem_append.mp ht with ht | ht
    · exact h.granted t ht
    · exact ⟨y, List.mem_singleton.mp ht⟩
  rw [Limiter.grant, hwaited, ok_bind]
  cases waited with
  | none => exact ⟨_, rfl, hready x, x, rfl⟩
  | some seconds =>
    obtain ⟨y, rfl⟩ := hreal seconds rfl
    exact ⟨_, rfl, hready _, _, rfl⟩

end Limiter.Ready

/-- The limiter of a service is ready where the world is. -/
theorem World.Ready.limiter {w : World} (h : w.Ready) {service : Service} {l : Limiter Number}
    (hl : w.limiter? service = some l) : l.Ready := by
  cases service with
  | prices => obtain rfl := Option.some.inj hl; exact h.prices
  | market => obtain rfl := Option.some.inj hl; exact h.market
  | positions => cases hl

/-- A grant leaves a world in which further requests can take their turns. -/
theorem World.proceeds_grant (w : World) (service : Service) (purged : Limiter Number)
    {g : Grant Number} (hlimiter : g.limiter.Ready) (htime : ∃ x, g.time = .real x) :
    w.Proceeds { (w.setLimiter service purged).setLimiter service g.limiter with
      clock := g.time
      waits := (w.setLimiter service purged).waits ++ g.waited.toList } [] := by
  cases service with
  | prices =>
    exact ⟨rfl, rfl, rfl, rfl, fun h => ⟨htime, hlimiter, h.market⟩, (List.append_nil _).symm⟩
  | market =>
    exact ⟨rfl, rfl, rfl, rfl, fun h => ⟨htime, h.prices, hlimiter⟩, (List.append_nil _).symm⟩
  | positions =>
    exact ⟨rfl, rfl, rfl, rfl, fun h => ⟨htime, h.prices, h.market⟩, (List.append_nil _).symm⟩

theorem World.requests_setLimiter (w : World) (service : Service) (l : Limiter Number) :
    (w.setLimiter service l).requests = w.requests := by
  cases service <;> rfl

/-- Where requests can take turns, taking one never fails, and sends no request. -/
theorem Run.result_takeTurn {w : World} (hw : w.Ready) (service : Service) :
    ∃ w', (Run.takeTurn service).result w = (.ok (), w') ∧ w.Proceeds w' [] ∧
      w'.requests = w.requests := by
  rw [Run.takeTurn, result_bind_ok (result_get w)]
  dsimp only
  cases h : w.limiter? service with
  | none => exact ⟨w, rfl, .refl w, rfl⟩
  | some limiter =>
    obtain ⟨x, hx⟩ := hw.clock
    obtain ⟨purged, hpurge, hpurged⟩ := (hw.limiter h).purge x
    obtain ⟨g, hgrant, hlimiter, htime⟩ := hpurged.grant x
    rw [← hx] at hpurge hgrant
    refine ⟨_, ?_, w.proceeds_grant service purged hlimiter htime, ?_⟩
    · show (Run.ofExcept (limiter.purge w.clock) >>= _ : Run Unit).result w = _
      rw [result_bind, hpurge]
      show (Run.ofExcept (purged.grant w.clock) >>= _ : Run Unit).result
        (w.setLimiter service purged) = _
      rw [result_bind, hgrant]
      rfl
    · exact ((w.setLimiter service purged).requests_setLimiter service g.limiter).trans
        (w.requests_setLimiter service purged)

theorem World.InStep.limiter? {w w' : World} (h : w.InStep w') (service : Service) :
    w'.limiter? service = w.limiter? service := by
  cases service with
  | prices => exact congrArg some h.prices
  | market => exact congrArg some h.market
  | positions => rfl

theorem World.InStep.setLimiter {w w' : World} (h : w.InStep w') (service : Service)
    (l : Limiter Number) : (w.setLimiter service l).InStep (w'.setLimiter service l) := by
  cases service with
  | prices => exact ⟨h.clock, rfl, h.market⟩
  | market => exact ⟨h.clock, h.prices, rfl⟩
  | positions => exact h

theorem World.waits_setLimiter (w : World) (service : Service) (l : Limiter Number) :
    (w.setLimiter service l).waits = w.waits := by
  cases service <;> rfl

/-- Taking a turn goes by the clock and the limiter of the service. -/
theorem Run.sameTurns_takeTurn {w w' : World} (h : w.InStep w') (service : Service) :
    w.SameTurns w' ((takeTurn service).result w).2 ((takeTurn service).result w').2 := by
  rw [takeTurn, result_bind_ok (result_get w), result_bind_ok (result_get w')]
  dsimp only
  rw [h.limiter? service, h.clock]
  rcases w.limiter? service with _ | limiter
  · exact .of_waits_eq h rfl rfl
  · show w.SameTurns w' ((Run.ofExcept (limiter.purge w.clock) >>= _ : Run Unit).result w).2
      ((Run.ofExcept (limiter.purge w.clock) >>= _ : Run Unit).result w').2
    rcases limiter.purge w.clock with fault | purged
    · exact .of_waits_eq h rfl rfl
    · have hpurged := h.setLimiter service purged
      have hwaits := w.waits_setLimiter service purged
      have hwaits' := w'.waits_setLimiter service purged
      show w.SameTurns w'
        ((Run.ofExcept (purged.grant w.clock) >>= _ : Run Unit).result
          (w.setLimiter service purged)).2
        ((Run.ofExcept (purged.grant w.clock) >>= _ : Run Unit).result
          (w'.setLimiter service purged)).2
      rcases purged.grant w.clock with fault | g
      · exact .of_waits_eq hpurged hwaits hwaits'
      · have hgranted := hpurged.setLimiter service g.limiter
        exact ⟨⟨rfl, hgranted.prices, hgranted.market⟩, g.waited.toList,
          congrArg (· ++ g.waited.toList) hwaits, congrArg (· ++ g.waited.toList) hwaits'⟩

namespace Run.Gives

variable {s : Surroundings}

/-- Where requests can take turns, taking one never fails. -/
theorem takeTurn (service : Service) : Gives s (Run.takeTurn service) ⟨.ok (), []⟩ where
  result w hw := by
    obtain ⟨w', hresult, hproceeds, -⟩ := Run.result_takeTurn hw.ready service
    exact ⟨w', hresult, hproceeds⟩
  messages _ hm := absurd hm List.not_mem_nil
  turns _ _ _ _ h := sameTurns_takeTurn h service

/-- A network that always answers alike gives what it answers. -/
theorem fetch (service : Service) (url : String) :
    Gives s (Run.fetch service url) ⟨readResponse (s.answer url), []⟩ := by
  have hnone : ∀ m ∈ ([] : List String), isMessage m := fun _ hm => absurd hm List.not_mem_nil
  refine (takeTurn service).bind (g := fun _ => ⟨readResponse (s.answer url), []⟩) fun _ =>
    ⟨fun w hw => ⟨{ w with requests := w.requests ++ [url] }, ?_, ?_⟩, hnone,
      fun w w' _ _ h => .of_waits_eq ⟨h.clock, h.prices, h.market⟩ rfl rfl⟩
  · show (readResponse (w.network w.requests url), _) = _
    rw [hw.network]
    rfl
  · exact ⟨rfl, rfl, rfl, rfl, fun h => ⟨h.clock, h.prices, h.market⟩, (List.append_nil _).symm⟩

end Run.Gives

/-! ## Actions that are settled -/

/-- The action has some effect in these surroundings, which is the same in all worlds. -/
def Run.Settled {α : Type} (s : Surroundings) (action : Run α) : Prop := ∃ e, Run.Gives s action e

namespace Run.Settled

variable {α β : Type} {s : Surroundings}

theorem pure (a : α) : Settled s (Pure.pure a) := ⟨_, .pure a⟩

theorem lift (outcome : Except Fault α) : Settled s (liftM outcome : Run α) :=
  ⟨_, .ofExcept outcome⟩

theorem throw (fault : Fault) : Settled s (MonadExcept.throw fault : Run α) := ⟨_, .throw fault⟩

theorem print {line : String} (h : isMessage line) : Settled s (Run.print line) := ⟨_, .print h⟩

theorem fetch (service : Service) (url : String) : Settled s (Run.fetch service url) :=
  ⟨_, .fetch service url⟩

theorem bind {action : Run α} {f : α → Run β} (h : Settled s action) (hf : ∀ a, Settled s (f a)) :
    Settled s (action >>= f) := by
  obtain ⟨e, he⟩ := h
  choose g hg using hf
  exact ⟨_, he.bind hg⟩

theorem attempt {action : Run α} (h : Settled s action) : Settled s (Run.attempt action) := by
  obtain ⟨e, he⟩ := h
  exact ⟨_, he.attempt⟩

/-- An action that does the same in all these worlds, after a look at them. -/
theorem get {f : World → Run β} {action : Run β} (h : Settled s action)
    (hf : ∀ w, w.Within s → f w = action) : Settled s (MonadState.get >>= f) := by
  obtain ⟨e, he⟩ := h
  exact ⟨e, he.get hf⟩

theorem recover {action : Run α} {fallback : Fault → Run α} (h : Settled s action)
    (hf : ∀ fault, Settled s (fallback fault)) : Settled s (Run.recover action fallback) := by
  refine h.attempt.bind fun outcome => ?_
  cases outcome with
  | ok a => exact pure a
  | error fault =>
    show Settled s (if fault.isRecoverable then fallback fault else MonadExcept.throw fault)
    split
    · exact hf fault
    · exact throw fault

end Run.Settled

end LiquidityWatch
