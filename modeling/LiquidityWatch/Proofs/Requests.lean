import LiquidityWatch.Lookup.Position
import LiquidityWatch.Lookup.Token
import LiquidityWatch.Proofs.Effect

/-! # Requests that actions send

A network may answer a request depending on all requests before it. What an action of lookups sends
is read off the log here, whatever the network answers. `Run.AsksOnce` says that an action sends one
request, and that its outcome depends on nothing but the response to it; `Run.Asks` says of larger
actions that all requests they send are of a kind. The rules follow the ways in which actions are
put together; for what holds between the world before and the world after, whatever the outcome,
they are stated once (`Run.Leads`). -/

namespace LiquidityWatch

namespace Run

variable {α β : Type}

/-! ## Actions that send nothing -/

/-- In every world, the action has this outcome, and prints at most. -/
def Silent (action : Run α) (outcome : Except Fault α) : Prop :=
  ∀ w, ∃ ms, action.result w = (outcome, w.showing ms)

namespace Silent

theorem ofExcept (outcome : Except Fault α) : Silent (Run.ofExcept outcome) outcome :=
  fun w => ⟨[], by rw [World.showing_nil]; rfl⟩

theorem lift (outcome : Except Fault α) : Silent (liftM outcome : Run α) outcome :=
  ofExcept outcome

theorem pure (a : α) : Silent (Pure.pure a) (.ok a) := ofExcept (.ok a)

theorem throw (fault : Fault) : Silent (MonadExcept.throw fault : Run α) (.error fault) :=
  ofExcept (.error fault)

theorem print (line : String) : Silent (Run.print line) (.ok ()) := fun _ => ⟨[line], rfl⟩

theorem bind {action : Run α} {f : α → Run β} {x : Except Fault α} {g : α → Except Fault β}
    (h : Silent action x) (hf : ∀ a, Silent (f a) (g a)) : Silent (action >>= f) (x >>= g) := by
  intro w
  obtain ⟨ms, hresult⟩ := h w
  cases x with
  | error fault => exact ⟨ms, result_bind_error hresult f⟩
  | ok a =>
    obtain ⟨ms', hresult'⟩ := hf a (w.showing ms)
    refine ⟨ms ++ ms', ?_⟩
    rw [result_bind_ok hresult, hresult', ok_bind, World.showing, World.showing, World.showing,
      List.append_assoc]

end Silent

/-! ## Actions that send one request -/

/-- The action sends one request, which depends on the settings at most, and its outcome is this
answer to the response. -/
def AsksOnce (action : Run α) (url : Settings → String) (answer : Response → Except Fault α) :
    Prop :=
  ∀ w, w.Ready → ∃ w' ms,
    action.result w = (answer (w.network w.requests (url w.settings)), w') ∧ w.Proceeds w' ms ∧
      w'.requests = w.requests ++ [url w.settings]

namespace AsksOnce

variable {url : Settings → String}

/-- The outcome goes by the response alone. -/
theorem outcome {action : Run α} {answer : Response → Except Fault α}
    (h : AsksOnce action url answer) {w : World} (hw : w.Ready) :
    (action.result w).1 = answer (w.network w.requests (url w.settings)) := by
  obtain ⟨w', ms, hresult, -⟩ := h w hw
  rw [hresult]

theorem fetch (service : Service) (url : String) :
    AsksOnce (Run.fetch service url) (fun _ => url) readResponse := by
  intro w hw
  obtain ⟨w', hturn, hproceeds, hrequests⟩ := result_takeTurn hw service
  refine ⟨{ w' with requests := w'.requests ++ [url] }, [], ?_, ?_, ?_⟩
  · rw [Run.fetch, result_bind_ok hturn]
    show (readResponse (w'.network w'.requests url), _) = _
    rw [hproceeds.network, hrequests]
  · exact ⟨hproceeds.network, hproceeds.files, hproceeds.settings, hproceeds.now,
      fun h => ⟨(hproceeds.ready h).clock, (hproceeds.ready h).prices, (hproceeds.ready h).market⟩,
      hproceeds.printed⟩
  · rw [← hrequests]

/-- What follows a response without sending anything. -/
theorem bind {action : Run α} {f : α → Run β} {answer : Response → Except Fault α}
    {g : α → Except Fault β} (h : AsksOnce action url answer) (hf : ∀ a, Silent (f a) (g a)) :
    AsksOnce (action >>= f) url fun response => answer response >>= g := by
  intro w hw
  obtain ⟨w', ms, hresult, hproceeds, hrequests⟩ := h w hw
  dsimp only
  cases hanswer : answer (w.network w.requests (url w.settings)) with
  | error fault =>
    rw [hanswer] at hresult
    exact ⟨w', ms, result_bind_error hresult f, hproceeds, hrequests⟩
  | ok a =>
    rw [hanswer] at hresult
    obtain ⟨ms', hresult'⟩ := hf a w'
    refine ⟨w'.showing ms', ms ++ ms', ?_, hproceeds.trans (w'.proceeds_showing ms'), hrequests⟩
    rw [result_bind_ok hresult, hresult', ok_bind]

theorem attempt {action : Run α} {answer : Response → Except Fault α}
    (h : AsksOnce action url answer) :
    AsksOnce (Run.attempt action) url fun response => .ok (answer response) := by
  intro w hw
  obtain ⟨w', ms, hresult, hproceeds, hrequests⟩ := h w hw
  refine ⟨w', ms, ?_, hproceeds, hrequests⟩
  show (Except.ok (action.result w).1, (action.result w).2) = _
  rw [hresult]

/-- An action that looks at the settings first. -/
theorem get {f : World → Run α} {answer : Response → Except Fault α}
    (h : ∀ w, AsksOnce (f w) (fun _ => url w.settings) answer) :
    AsksOnce (MonadState.get >>= f) url answer := by
  intro w hw
  rw [result_bind_ok (result_get w)]
  exact h w w hw

end AsksOnce

/-- An outcome after recovering: the fallback decides about a fault that is recovered from. -/
def recovered (fallback : Fault → Except Fault α) : Except Fault α → Except Fault α
  | .ok a => .ok a
  | .error fault => if fault.isRecoverable then fallback fault else .error fault

theorem AsksOnce.recover {action : Run α} {fallback : Fault → Run α} {url : Settings → String}
    {answer : Response → Except Fault α} (h : AsksOnce action url answer)
    {g : Fault → Except Fault α} (hf : ∀ fault, Silent (fallback fault) (g fault)) :
    AsksOnce (Run.recover action fallback) url fun response => recovered g (answer response) := by
  refine h.attempt.bind (g := recovered g) fun outcome => ?_
  cases outcome with
  | ok a => exact .pure a
  | error fault =>
    show Silent (if fault.isRecoverable then fallback fault else MonadExcept.throw fault)
      (if fault.isRecoverable then g fault else .error fault)
    split
    · exact hf fault
    · exact .throw fault

/-! ## Where actions lead -/

/-- Whatever its outcome, the action leads from every world to one in this relation to it. -/
def Leads (R : World → World → Prop) (action : Run α) : Prop := ∀ w, R w (action.result w).2

namespace Leads

variable {R : World → World → Prop}

theorem attempt {action : Run α} (h : Leads R action) : Leads R (Run.attempt action) := h

variable [IsPreorder World R]

theorem lift (outcome : Except Fault α) : Leads R (liftM outcome : Run α) :=
  fun w => Std.Refl.refl w

theorem pure (a : α) : Leads R (Pure.pure a) := lift (.ok a)

theorem throw (fault : Fault) : Leads R (MonadExcept.throw fault : Run α) := lift (.error fault)

theorem bind {action : Run α} {f : α → Run β} (h : Leads R action) (hf : ∀ a, Leads R (f a)) :
    Leads R (action >>= f) := by
  intro w
  have hw := h w
  rw [result_bind]
  rcases hresult : action.result w with ⟨fault | a, w'⟩
  · rwa [hresult] at hw
  · rw [hresult] at hw
    exact IsTrans.trans _ _ _ hw (hf a w')

theorem recover {action : Run α} {fallback : Fault → Run α} (h : Leads R action)
    (hf : ∀ fault, Leads R (fallback fault)) : Leads R (Run.recover action fallback) := by
  refine bind (attempt h) fun outcome => ?_
  cases outcome with
  | ok a => exact pure a
  | error fault =>
    show Leads R (if fault.isRecoverable then fallback fault else MonadExcept.throw fault)
    split
    · exact hf fault
    · exact throw fault

theorem mapM {ι : Type} {f : ι → Run α} {xs : List ι} (h : ∀ x ∈ xs, Leads R (f x)) :
    Leads R (xs.mapM f) := by
  induction xs with
  | nil => exact pure []
  | cons x xs ih =>
    obtain ⟨hx, hxs⟩ := List.forall_mem_cons.mp h
    rw [List.mapM_cons]
    exact bind hx fun a => bind (ih hxs) fun as => pure (a :: as)

theorem gather {ι : Type} {f : ι → Run α} {xs : List ι} (h : ∀ x ∈ xs, Leads R (f x)) :
    Leads R (Run.gather (xs.map f)) := by
  rw [Run.gather, List.mapM_map]
  exact bind (mapM fun x hx => attempt (h x hx)) fun outcomes => mapM fun outcome _ => lift outcome

theorem both {action : Run α} {action' : Run β} (h : Leads R action) (h' : Leads R action') :
    Leads R (Run.both action action') :=
  bind (attempt h) fun a => bind (attempt h') fun b => bind (lift a) fun a =>
    bind (lift b) fun b => pure (a, b)

theorem gatherRounds {ι : Type} {atOnce : ι → Bool} {f : ι → Run α} {xs : List ι}
    (h : ∀ x ∈ xs, Leads R (f x)) : Leads R (Run.gatherRounds atOnce f xs) := by
  have hround : ∀ p : ι → Bool, Leads R (Run.gather ((xs.filter p).map f)) :=
    fun p => gather fun x hx => h x (List.mem_filter.mp hx).1
  exact bind (both (hround _) (hround _)) fun found => pure _

theorem printAll (hprint : ∀ line, Leads R (Run.print line)) (lines : List (Except Fault String)) :
    Leads R (Run.printAll lines) := by
  induction lines with
  | nil => exact pure ()
  | cons line rest ih => exact bind (lift line) fun text => bind (hprint text) fun _ => ih

end Leads

/-! ## Actions that send requests of a kind -/

/-- Once requests can take their turns, only requests of this kind are sent on the way from one
world to the other; the settings may tell more of the kind. -/
def AskedSince (Q : Settings → String → Prop) (w after : World) : Prop :=
  w.Ready → ∃ urls ms, w.Proceeds after ms ∧ after.requests = w.requests ++ urls ∧
    ∀ url ∈ urls, Q w.settings url

/-- The action sends only requests of this kind, which the settings may tell more of. -/
def AsksBy (Q : Settings → String → Prop) (action : Run α) : Prop := Leads (AskedSince Q) action

/-- The action sends only requests of this kind. -/
def Asks (Q : String → Prop) (action : Run α) : Prop := AsksBy (fun _ => Q) action

variable {Q : Settings → String → Prop}

instance : IsPreorder World (AskedSince Q) where
  refl w _ := ⟨[], [], .refl w, (List.append_nil _).symm, List.forall_mem_nil _⟩
  trans w v u h h' hw := by
    obtain ⟨urls, ms, hproceeds, hurls, hall⟩ := h hw
    obtain ⟨more, ms', hproceeds', hmore, hall'⟩ := h' (hproceeds.ready hw)
    rw [hproceeds.settings] at hall'
    refine ⟨urls ++ more, ms ++ ms', hproceeds.trans hproceeds', ?_,
      List.forall_mem_append.mpr ⟨hall, hall'⟩⟩
    rw [hmore, hurls, List.append_assoc]

theorem AsksBy.asks {Q : String → Prop} {action : Run α} (h : AsksBy (fun _ => Q) action) :
    Asks Q action := h

theorem Silent.asksBy {action : Run α} {x : Except Fault α} (h : Silent action x) :
    AsksBy Q action := by
  intro w _
  obtain ⟨ms, hresult⟩ := h w
  rw [hresult]
  exact ⟨[], ms, w.proceeds_showing ms, (List.append_nil _).symm, List.forall_mem_nil _⟩

theorem AsksOnce.asksBy {action : Run α} {url : Settings → String}
    {answer : Response → Except Fault α} (h : AsksOnce action url answer)
    (hurl : ∀ settings, Q settings (url settings)) : AsksBy Q action := by
  intro w hw
  obtain ⟨w', ms, hresult, hproceeds, hrequests⟩ := h w hw
  rw [hresult]
  exact ⟨[url w.settings], ms, hproceeds, hrequests, List.forall_mem_singleton.mpr (hurl _)⟩

namespace AsksBy

theorem mono {R : Settings → String → Prop} {action : Run α} (h : AsksBy Q action)
    (hQ : ∀ settings url, Q settings url → R settings url) : AsksBy R action := by
  intro w hw
  obtain ⟨urls, ms, hproceeds, hurls, hall⟩ := h w hw
  exact ⟨urls, ms, hproceeds, hurls, fun url hurl => hQ w.settings url (hall url hurl)⟩

theorem pure (a : α) : AsksBy Q (Pure.pure a) := (Silent.pure a).asksBy

theorem lift (outcome : Except Fault α) : AsksBy Q (liftM outcome : Run α) :=
  (Silent.lift outcome).asksBy

theorem print (line : String) : AsksBy Q (Run.print line) := (Silent.print line).asksBy

theorem bind {action : Run α} {f : α → Run β} (h : AsksBy Q action) (hf : ∀ a, AsksBy Q (f a)) :
    AsksBy Q (action >>= f) :=
  Leads.bind (R := AskedSince Q) h hf

/-- An action that looks at the world first. -/
theorem get {f : World → Run α}
    (h : ∀ w : World, AsksBy (fun settings url => settings = w.settings → Q settings url) (f w)) :
    AsksBy Q (MonadState.get >>= f) := by
  intro w hw
  rw [result_bind_ok (result_get w)]
  obtain ⟨urls, ms, hproceeds, hurls, hall⟩ := h w w hw
  exact ⟨urls, ms, hproceeds, hurls, fun url hurl => hall url hurl rfl⟩

theorem gather {ι : Type} {f : ι → Run α} {xs : List ι} (h : ∀ x ∈ xs, AsksBy Q (f x)) :
    AsksBy Q (Run.gather (xs.map f)) :=
  Leads.gather (R := AskedSince Q) h

theorem both {action : Run α} {action' : Run β} (h : AsksBy Q action) (h' : AsksBy Q action') :
    AsksBy Q (Run.both action action') :=
  Leads.both (R := AskedSince Q) h h'

theorem gatherRounds {ι : Type} {atOnce : ι → Bool} {f : ι → Run α} {xs : List ι}
    (h : ∀ x ∈ xs, AsksBy Q (f x)) : AsksBy Q (Run.gatherRounds atOnce f xs) :=
  Leads.gatherRounds (R := AskedSince Q) h

theorem printAll (lines : List (Except Fault String)) : AsksBy Q (Run.printAll lines) :=
  Leads.printAll (R := AskedSince Q) print lines

end AsksBy

end Run

/-! ## Lookups -/

namespace Lookup

open Run

/-- The name of a token in a document. -/
def nameIn (answer : Value) : Except Fault Value := do
  (← attributesOf answer).fieldD "name" .null

theorem asksOnce_tokenName (network mint : Text) :
    AsksOnce (tokenName network mint) (fun _ => Endpoint.token network mint) fun response => do
      let name ← recovered (fun _ => .ok .null) (do nameIn (← readResponse response))
      return name.orElse (.text (Address.shorten mint)) := by
  refine AsksOnce.bind (.recover ?_ fun fault => ?_) fun name => .pure _
  · exact (AsksOnce.fetch _ _).bind fun answer => (Silent.lift _).bind fun attributes => .lift _
  · exact (Silent.print _).bind fun _ => .pure _

/-- The address of the most liquid pool in a document. -/
def poolIn (answer : Value) : Except Fault Value := do
  mostLiquid (← ((← answer.dataField).orElse (.list [])).elements)

theorem asksOnce_mostLiquidPool (network mint : Text) :
    AsksOnce (mostLiquidPool network mint) (fun _ => Endpoint.tokenPools network mint)
      fun response => recovered (fun _ => .ok .null) (do poolIn (← readResponse response)) := by
  refine .recover ?_ fun fault => ?_
  · exact (AsksOnce.fetch _ _).bind fun answer => (Silent.lift _).bind fun data =>
      (Silent.lift _).bind fun pools => .lift _
  · exact (Silent.print _).bind fun _ => .pure _

/-- The rows of candles in a document. -/
def rowsIn (answer : Value) : Except Fault (List Value) := do
  ((← (← attributesOf answer).fieldD "ohlcv_list" .null).orElse (.list [])).elements

/-- The address that candles are asked for at: what is not given is as it is set. -/
def candlesUrl (network : Text) (pool : Value) (timeframe : Option String)
    (aggregate : Option Int) (settings : Settings) : String :=
  let timeframe := match timeframe with
    | none | some "" => Settings.timeframe
    | some given => given
  let aggregate := match aggregate with
    | none | some 0 => settings.aggregate
    | some given => given
  Endpoint.candles network pool.shown timeframe (toString aggregate)

/-- What comes of candles that cannot be used: none, as long as the pool can be named. -/
def noRows (pool : Value) (fault : Fault) : Except Fault (List Value) :=
  if fault = .timedOut then .ok []
  else do
    let _ ← Address.shortenValue pool
    return []

theorem asksOnce_candles (network : Text) (pool : Value) (timeframe : Option String)
    (aggregate : Option Int) :
    AsksOnce (candles network pool timeframe aggregate)
      (candlesUrl network pool timeframe aggregate) fun response =>
      recovered (noRows pool) (do rowsIn (← readResponse response)) := by
  refine .get fun w => .recover ?_ fun fault => ?_
  · exact (AsksOnce.fetch _ _).bind fun answer => (Silent.lift _).bind fun attributes =>
      (Silent.lift _).bind fun rows => .lift _
  · show Silent (do
      if fault = .timedOut then Run.print "⏰ Timeout fetching candles"
      else
        let shortened ← Address.shortenValue pool
        Run.print s!"❌ Candle fetch failed for pool {shortened}"
      return []) (noRows pool fault)
    rw [noRows]
    split
    · exact (Silent.print _).bind fun _ => .pure _
    · exact (Silent.lift _).bind fun shortened => (Silent.print _).bind fun _ => .pure _

theorem asksOnce_initialDeposit (position : Text) :
    AsksOnce (initialDeposit position) (fun _ => Endpoint.deposits position) fun response =>
      recovered (fun _ => .ok none) (do firstDeposit (← readResponse response)) := by
  refine .recover ?_ fun fault => ?_
  · exact (AsksOnce.fetch _ _).bind fun answer => .lift _
  · exact (Silent.print _).bind fun _ => .pure _

theorem asksOnce_feeInfo (pool : Text) :
    AsksOnce (feeInfo pool) (fun _ => Endpoint.pair pool) fun response =>
      recovered (fun _ => .ok none) (do
        return some (← FeeInfo.ofAnswer (← readResponse response))) := by
  refine .recover ?_ fun fault => ?_
  · exact (AsksOnce.fetch _ _).bind fun answer => (Silent.lift _).bind fun info => .pure _
  · exact (Silent.print _).bind fun _ => .pure _

/-- The prices in what a request came to, and the fault that ended reading them. -/
def pricesIn (mints : List Text) : Except Fault Value → Ledger Text Number × Option Fault
  | .ok answer => readPrices answer mints
  | .error fault => (unpriced mints, some fault)

/-- Prices stand if the fault that ended reading them, if any, is recovered from. -/
def pricesKept (found : Ledger Text Number × Option Fault) : Except Fault (Ledger Text Number) :=
  match found.2 with
  | none => .ok found.1
  | some fault => if fault.isRecoverable then .ok found.1 else .error fault

theorem silent_reportPriceFault (fault : Fault) :
    Silent (reportPriceFault fault) (if fault.isRecoverable then .ok () else .error fault) := by
  rw [reportPriceFault]
  cases fault.isRecoverable with
  | false => exact .throw fault
  | true =>
    rw [Bool.not_true, if_neg Bool.false_ne_true, if_pos rfl]
    split
    · exact .print _
    · exact .print _

/-- Reporting a fault keeps the prices that were found. -/
theorem silent_keepPrices (fault : Fault) (found : Ledger Text Number) :
    Silent (reportPriceFault fault >>= fun _ => Pure.pure found)
      (pricesKept (found, some fault)) := by
  have hall := (silent_reportPriceFault fault).bind fun _ => Silent.pure found
  simp only [pricesKept]
  cases hf : fault.isRecoverable with
  | true => rw [hf] at hall; exact hall
  | false => rw [hf] at hall; exact hall

/-- Prices of some tokens are asked for in one request. -/
theorem asksOnce_prices {mints : List Text} (h : mints ≠ []) :
    AsksOnce (prices mints) (fun _ => Endpoint.prices mints) fun response =>
      pricesKept (pricesIn mints (readResponse response)) := by
  cases mints with
  | nil => exact absurd rfl h
  | cons mint mints =>
    refine (AsksOnce.fetch _ _).attempt.bind
      (g := fun outcome => pricesKept (pricesIn (mint :: mints) outcome)) fun outcome => ?_
    cases outcome with
    | error fault => exact silent_keepPrices fault _
    | ok answer =>
      show Silent ((readPrices answer (mint :: mints)).2.forM reportPriceFault >>= fun _ =>
        Pure.pure (readPrices answer (mint :: mints)).1) (pricesKept (readPrices answer _))
      rcases readPrices answer (mint :: mints) with ⟨found, _ | fault⟩
      · exact .pure found
      · exact silent_keepPrices fault found

theorem asksOnce_price (mint : Text) :
    AsksOnce (price mint) (fun _ => Endpoint.prices [mint]) fun response => do
      let found ← pricesKept (pricesIn [mint] (readResponse response))
      return (found.get? mint).getD (.real .zero) :=
  (asksOnce_prices (List.cons_ne_nil _ _)).bind fun _ => .pure _

/-- The fee of a pair about which nothing is known. -/
theorem asksOnce_currentFee (pool : Text) :
    AsksOnce (currentFee pool .null) (fun _ => Endpoint.pair pool) fun response => do
      let found ← recovered (fun _ => .ok none) (do
        return some (← FeeInfo.ofAnswer (← readResponse response)))
      return (found.map fun info => .number info.current).getD .null := by
  refine (asksOnce_feeInfo pool).bind fun found => ?_
  cases found with
  | none => exact .pure _
  | some info => exact .pure _

variable {Q : Settings → String → Prop}

theorem asksBy_prices {mints : List Text} (h : ∀ settings, Q settings (Endpoint.prices mints)) :
    AsksBy Q (prices mints) := by
  by_cases hmints : mints = []
  · subst hmints
    exact .pure ∅
  · exact (asksOnce_prices hmints).asksBy h

theorem asksBy_tokenRsi {network mint : Text} {aggregate : Option Int}
    (hpools : ∀ settings, Q settings (Endpoint.tokenPools network mint))
    (hcandles : ∀ settings pool, Q settings (candlesUrl network pool none aggregate settings)) :
    AsksBy Q (tokenRsi network mint aggregate) := by
  refine ((asksOnce_mostLiquidPool network mint).asksBy hpools).bind fun pool =>
    AsksBy.get fun w => ?_
  dsimp only
  split
  · exact ((asksOnce_candles network pool none aggregate).asksBy fun settings _ =>
      hcandles settings pool).bind fun rows => .lift _
  · exact (AsksBy.print _).bind fun _ => .pure _

end Lookup

end LiquidityWatch
