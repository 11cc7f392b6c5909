import LiquidityWatch.Proofs.DepositLookups
import LiquidityWatch.Proofs.LookupOutcomes

/-! # Requests that actions sent

What actions that ended well left in the log of requests, read off the chain of their results. Where
the requests of an action depend on the answers to earlier ones, the log up to it says which answers
those were. -/

namespace LiquidityWatch

/-- What happens to a world when an action sends these requests. -/
structure World.Sends (w w' : World) (urls : List String) : Prop where
  proceeds : ∃ ms, w.Proceeds w' ms
  requests : w'.requests = w.requests ++ urls

namespace World.Sends

variable {w w' w'' : World} {urls urls' : List String}

theorem showing (w : World) (lines : List String) : w.Sends (w.showing lines) [] :=
  ⟨⟨lines, w.proceeds_showing lines⟩, (List.append_nil _).symm⟩

theorem refl (w : World) : w.Sends w [] := ⟨⟨[], .refl w⟩, (List.append_nil _).symm⟩

theorem trans (h : w.Sends w' urls) (h' : w'.Sends w'' urls') : w.Sends w'' (urls ++ urls') := by
  obtain ⟨ms, hproceeds⟩ := h.proceeds
  obtain ⟨ms', hproceeds'⟩ := h'.proceeds
  refine ⟨⟨ms ++ ms', hproceeds.trans hproceeds'⟩, ?_⟩
  rw [h'.requests, h.requests, List.append_assoc]

theorem ready (h : w.Sends w' urls) (hw : w.Ready) : w'.Ready := by
  obtain ⟨ms, hproceeds⟩ := h.proceeds
  exact hproceeds.ready hw

theorem network (h : w.Sends w' urls) : w'.network = w.network := by
  obtain ⟨ms, hproceeds⟩ := h.proceeds
  exact hproceeds.network

theorem settings (h : w.Sends w' urls) : w'.settings = w.settings := by
  obtain ⟨ms, hproceeds⟩ := h.proceeds
  exact hproceeds.settings

end World.Sends

namespace Run

variable {α β : Type} {w after : World}

theorem Silent.sends {action : Run α} {x y : Except Fault α} (h : Silent action x)
    (hresult : action.result w = (y, after)) : y = x ∧ w.Sends after [] := by
  obtain ⟨ms, hshown⟩ := h w
  obtain ⟨rfl, rfl⟩ := Prod.mk.inj (hshown.symm.trans hresult)
  exact ⟨rfl, .showing w ms⟩

theorem AsksOnce.sends {action : Run α} {url : Settings → String}
    {answer : Response → Except Fault α} (h : AsksOnce action url answer) (hw : w.Ready)
    {x : Except Fault α} (hresult : action.result w = (x, after)) :
    x = answer (w.reply (url w.settings)) ∧ w.Sends after [url w.settings] := by
  obtain ⟨w', ms, hsent, hproceeds, hrequests⟩ := h w hw
  obtain ⟨rfl, rfl⟩ := Prod.mk.inj (hsent.symm.trans hresult)
  exact ⟨rfl, ⟨ms, hproceeds⟩, hrequests⟩

theorem lift_ok_bind (a : α) (f : α → Run β) :
    ((liftM (Except.ok a : Except Fault α) : Run α) >>= f) = f a := rfl

/-- Actions that are started together end well one after the other. -/
theorem result_gather_cons {action : Run α} {rest : List (Run α)} {as : List α} :
    (gather (action :: rest)).result w = (.ok as, after) ↔ ∃ a later w', as = a :: later ∧
      action.result w = (.ok a, w') ∧ (gather rest).result w' = (.ok later, after) := by
  rw [result_gather, outcomes, Prod.mk_inj, mapM_id_eq_ok]
  constructor
  · rintro ⟨hall, hafter⟩
    cases as with
    | nil => cases hall
    | cons a later =>
      obtain ⟨ha, hlater⟩ := List.cons.inj hall
      refine ⟨a, later, (action.result w).2, rfl, Prod.ext ha rfl, ?_⟩
      rw [result_gather, Prod.mk_inj, mapM_id_eq_ok]
      exact ⟨hlater, hafter⟩
  · rintro ⟨a, later, w', rfl, hfirst, hrest⟩
    rw [result_gather, Prod.mk_inj, mapM_id_eq_ok] at hrest
    rw [hfirst]
    exact ⟨congrArg _ hrest.1, hrest.2⟩

theorem result_gather_nil {as : List α} :
    (gather []).result w = (.ok as, after) ↔ as = [] ∧ w = after := by
  rw [result_gather, outcomes, Prod.mk_inj, mapM_id_eq_ok]
  refine and_congr_left fun _ => ?_
  rw [eq_comm, List.map_eq_nil_iff]

theorem result_both {first : Run α} {second : Run β} {a : α} {b : β} :
    (both first second).result w = (.ok (a, b), after) ↔
      ∃ w', first.result w = (.ok a, w') ∧ second.result w' = (.ok b, after) := by
  rw [both, result_bind_ok (result_attempt first w), result_bind_ok (result_attempt second _)]
  rcases first.result w with ⟨fault | x, w'⟩
  · constructor
    · intro h
      cases h
    · rintro ⟨_, h, -⟩
      cases h
  · rcases hsecond : second.result w' with ⟨fault | y, w''⟩
    · constructor
      · intro h
        cases h
      · rintro ⟨_, h, h'⟩
        obtain ⟨-, rfl⟩ := Prod.mk.inj h
        cases hsecond.symm.trans h'
    · constructor
      · intro h
        obtain ⟨hvalue, rfl⟩ := Prod.mk.inj h
        obtain ⟨rfl, rfl⟩ := Prod.mk.inj (Except.ok.inj hvalue)
        exact ⟨w', rfl, hsecond⟩
      · rintro ⟨_, h, h'⟩
        obtain ⟨hvalue, rfl⟩ := Prod.mk.inj h
        obtain rfl := Except.ok.inj hvalue
        obtain ⟨hvalue', rfl⟩ := Prod.mk.inj (hsecond.symm.trans h')
        obtain rfl := Except.ok.inj hvalue'
        rfl

/-- Rounds that end well are two gatherings. -/
theorem result_gatherRounds {ι : Type} {atOnce : ι → Bool} {f : ι → Run α} {xs : List ι}
    {as : List α} (h : (gatherRounds atOnce f xs).result w = (.ok as, after)) :
    ∃ first later w', (gather ((xs.filter atOnce).map f)).result w = (.ok first, w') ∧
      (gather ((xs.filter fun x => !atOnce x).map f)).result w' = (.ok later, after) ∧
      as = rejoin (xs.map atOnce) first later := by
  obtain ⟨⟨first, later⟩, w', hboth, h⟩ := result_bind_eq_ok.mp h
  obtain ⟨w'', hfirst, hlater⟩ := result_both.mp hboth
  obtain ⟨has, rfl⟩ := Prod.mk.inj h
  exact ⟨first, later, w'', hfirst, hlater, (Except.ok.inj has).symm⟩

/-- Of actions that are started together, the fault of the first one counts. -/
theorem result_both_error {first : Run α} {fault : Fault} (h : (first.result w).1 = .error fault)
    (second : Run β) : (both first second).result w =
      (.error fault, (second.result (first.result w).2).2) := by
  rw [both, result_bind_ok (result_attempt first w), h]
  rfl

/-- Actions of one request each that are started together send their requests in order. -/
theorem sends_gather {ι : Type} {xs : List ι} {f : ι → Run α} {url : ι → String}
    {answer : ι → Response → Except Fault α}
    (h : ∀ x ∈ xs, AsksOnce (f x) (fun _ => url x) (answer x)) (hw : w.Ready)
    {x : Except Fault (List α)} (hresult : (gather (xs.map f)).result w = (x, after)) :
    w.Sends after (xs.map url) := by
  obtain ⟨ms, hproceeds, hrequests⟩ := proceeds_outcomes h hw
  rw [result_gather] at hresult
  obtain ⟨-, rfl⟩ := Prod.mk.inj hresult
  exact ⟨⟨ms, hproceeds⟩, hrequests⟩

end Run

end LiquidityWatch
