import LiquidityWatch.Proofs.RequestPlan

/-! # Lookups without an answer

Where every request fails or times out, each lookup still returns: prices are zero, no pool is found
and so there is no index, and nothing is known of deposits and fees. `Run.Concludes` says of an
action what it ends with in such a world, whatever was asked before; its rules follow the ways in
which actions are put together. -/

namespace LiquidityWatch

/-- The request failed or timed out, or its status is none of success. -/
def Response.IsFailure : Response → Prop
  | .timedOut | .failed => True
  | .answered status _ => ¬ (200 ≤ status ∧ status < 300)

theorem Run.readResponse_of_isFailure {response : Response} (h : response.IsFailure) :
    ∃ fault, readResponse response = .error fault ∧ fault.isRecoverable = true := by
  cases response with
  | timedOut => exact ⟨.timedOut, rfl, rfl⟩
  | failed => exact ⟨.requestFailed, rfl, rfl⟩
  | answered status body => exact ⟨.requestFailed, if_neg h, rfl⟩

/-- Requests can take their turns, and none of them is answered, whatever was asked before. -/
structure World.Unanswered (w : World) : Prop where
  ready : w.Ready
  fails : ∀ log url, (w.network log url).IsFailure

theorem World.Proceeds.unanswered {w w' : World} {ms : List String} (h : w.Proceeds w' ms)
    (hw : w.Unanswered) : w'.Unanswered :=
  ⟨h.ready hw.ready, by rw [h.network]; exact hw.fails⟩

namespace Run

variable {α β γ : Type}

/-- Where no request is answered, the action ends with a result that has a property, or a fault of a
kind. -/
def Concludes (P : α → Prop) (E : Fault → Prop) (action : Run α) : Prop :=
  ∀ w, w.Unanswered → (action.result w).2.Unanswered ∧ Ends P E (action.result w).1

namespace Concludes

variable {P : α → Prop} {Q : β → Prop} {E : Fault → Prop} {action : Run α}

theorem lift {outcome : Except Fault α} (h : Ends P E outcome) :
    Concludes P E (liftM outcome : Run α) := fun _ hw => ⟨hw, h⟩

theorem pure {a : α} (h : P a) : Concludes P E (Pure.pure a) := fun _ hw => ⟨hw, h⟩

theorem bind {f : α → Run β} (h : Concludes P E action) (hf : ∀ a, P a → Concludes Q E (f a)) :
    Concludes Q E (action >>= f) := by
  intro w hw
  obtain ⟨hafter, hends⟩ := h w hw
  rw [result_bind]
  rcases hresult : action.result w with ⟨fault | a, w'⟩
  · rw [hresult] at hafter hends
    exact ⟨hafter, hends⟩
  · rw [hresult] at hafter hends
    exact hf a hends w' hafter

theorem print (line : String) : Concludes (fun _ => True) E (Run.print line) :=
  fun w hw => ⟨(w.proceeds_showing [line]).unanswered hw, trivial⟩

theorem printAll (texts : List String) :
    Concludes (fun _ => True) E (Run.printAll (texts.map .ok)) := by
  intro w hw
  rw [result_printAll_ok]
  exact ⟨(w.proceeds_showing texts).unanswered hw, trivial⟩

theorem get : Concludes World.Unanswered E (MonadState.get : Run World) := fun _ hw => ⟨hw, hw⟩

theorem attempt (h : Concludes P E action) {E' : Fault → Prop} :
    Concludes (Ends P E) E' (Run.attempt action) := h

theorem mapM {f : γ → Run α} {xs : List γ} (h : ∀ x ∈ xs, Concludes P E (f x)) :
    Concludes (fun as => ∀ a ∈ as, P a) E (xs.mapM f) := by
  induction xs with
  | nil => exact pure fun a ha => absurd ha List.not_mem_nil
  | cons x xs ih =>
    obtain ⟨hx, hxs⟩ := List.forall_mem_cons.mp h
    rw [List.mapM_cons]
    exact hx.bind fun a ha => (ih hxs).bind fun as has => pure (List.forall_mem_cons.mpr ⟨ha, has⟩)

theorem gather {f : γ → Run α} {xs : List γ} (h : ∀ x ∈ xs, Concludes P E (f x)) :
    Concludes (fun as => ∀ a ∈ as, P a) E (Run.gather (xs.map f)) := by
  have hall : ∀ action ∈ xs.map f, Concludes (Ends P E) E (Run.attempt action) := by
    intro action haction
    obtain ⟨x, hx, rfl⟩ := List.mem_map.mp haction
    exact (h x hx).attempt
  exact (mapM hall).bind fun outcomes houtcomes => mapM fun outcome houtcome =>
    lift (houtcomes outcome houtcome)

theorem both {action' : Run β} (h : Concludes P E action) (h' : Concludes Q E action') :
    Concludes (fun pair => P pair.1 ∧ Q pair.2) E (Run.both action action') :=
  h.attempt.bind fun _ ha => h'.attempt.bind fun _ hb =>
    (lift ha).bind fun _ ha => (lift hb).bind fun _ hb => pure ⟨ha, hb⟩

theorem gatherRounds {atOnce : γ → Bool} {f : γ → Run α} {xs : List γ}
    (h : ∀ x ∈ xs, Concludes P E (f x)) :
    Concludes (fun as => ∀ a ∈ as, P a) E (Run.gatherRounds atOnce f xs) := by
  have hround : ∀ p : γ → Bool, ∀ x ∈ xs.filter p, Concludes P E (f x) :=
    fun p x hx => h x (List.mem_filter.mp hx).1
  exact ((gather (hround _)).both (gather (hround _))).bind fun _ hfound =>
    pure (forall_mem_rejoin hfound.1 hfound.2)

/-- An action of one request ends with what it answers to a failure. -/
theorem of_asksOnce {url : Settings → String} {answer : Response → Except Fault α}
    (h : AsksOnce action url answer) (hanswer : ∀ response, response.IsFailure →
      Ends P E (answer response)) : Concludes P E action := by
  intro w hw
  obtain ⟨w', ms, hresult, hproceeds, -⟩ := h w hw.ready
  rw [hresult]
  exact ⟨hproceeds.unanswered hw, hanswer _ (hw.fails _ _)⟩

end Concludes

/-- A lookup that recovers with a fallback ends with that where there is no answer. -/
theorem ends_of_isFailure {P : α → Prop} {E : Fault → Prop} {response : Response}
    (h : response.IsFailure) {read : Value → Except Fault α} {fallback : Fault → Except Fault α}
    (hfallback : ∀ fault, Ends P E (fallback fault)) :
    Ends P E (recovered fallback (do read (← readResponse response))) := by
  obtain ⟨fault, hread, hrecovers⟩ := readResponse_of_isFailure h
  rw [hread, error_bind, recovered, if_pos hrecovers]
  exact hfallback fault

end Run

namespace Lookup

open Run

variable {E : Fault → Prop}

theorem concludes_prices (mints : List Text) :
    Concludes (fun found => found = unpriced mints) E (prices mints) := by
  by_cases hnone : mints = []
  · subst hnone
    exact .pure rfl
  · refine .of_asksOnce (asksOnce_prices hnone) fun response hresponse => ?_
    obtain ⟨fault, hread, hrecovers⟩ := readResponse_of_isFailure hresponse
    rw [hread, pricesIn, pricesKept]
    simp only [hrecovers, if_pos]
    rfl

/-- A token without an answer keeps its shortened address for a name. -/
theorem concludes_tokenName (network mint : Text) :
    Concludes (fun name => name = .text (Address.shorten mint)) E (tokenName network mint) := by
  refine .of_asksOnce (asksOnce_tokenName network mint) fun response hresponse => ?_
  have hname : Ends (fun name : Value => name = .null) E
      (recovered (fun _ => .ok .null) (do nameIn (← readResponse response))) :=
    ends_of_isFailure hresponse fun _ => rfl
  refine hname.bind fun name hnull => ?_
  subst hnull
  rfl

theorem concludes_tokenRsi (network mint : Text) (aggregate : Option Int) :
    Concludes (fun rsi => rsi.hasData = false) E (tokenRsi network mint aggregate) := by
  have hpool : Concludes (fun pool : Value => pool = .null) E (mostLiquidPool network mint) :=
    .of_asksOnce (asksOnce_mostLiquidPool network mint) fun response hresponse =>
      ends_of_isFailure hresponse fun _ => rfl
  refine hpool.bind fun pool hnull => Concludes.get.bind fun w _ => ?_
  subst hnull
  exact (Concludes.print _).bind fun _ _ => .pure rfl

theorem concludes_initialDeposit (position : Text) :
    Concludes (fun found => found = none) E (initialDeposit position) :=
  .of_asksOnce (asksOnce_initialDeposit position) fun _ hresponse =>
    ends_of_isFailure hresponse fun _ => rfl

theorem concludes_feeInfo (pool : Text) :
    Concludes (fun found => found = none) E (feeInfo pool) :=
  .of_asksOnce (asksOnce_feeInfo pool) fun _ hresponse =>
    ends_of_isFailure hresponse fun _ => rfl

end Lookup

end LiquidityWatch
