import LiquidityWatch.Proofs.AcceptedLines
import LiquidityWatch.Proofs.ShownFindings

/-! # Checked addresses

Commands on addresses put these into the requests that they send. What comes from a command line is
checked before (`CommandLine.addresses_checked`): a malformed address keeps the command from sending
anything, and what is well-formed can be told from the requests again (`Endpoint.TellAddresses`),
since no character of an address separates anything in them. -/

namespace LiquidityWatch

/-! ## Addresses -/

namespace Address

/-- The characters of addresses. -/
def alphabet : String := "123456789ABCDEFGHJKLMNPQRSTUVWXYZabcdefghijkmnopqrstuvwxyz"

/-- Text that is an address as far as it can be told: 32 to 44 characters, all of the alphabet. -/
structure IsAddress (t : Text) : Prop where
  long : 32 ≤ t.length
  short : t.length ≤ 44
  base58 : ∀ code ∈ t.codes, ∃ c ∈ alphabet.toList, code = .char c

theorem isBase58_iff (c : Char) : isBase58 c = true ↔ c ∈ alphabet.toList := by
  constructor
  · intro h
    have hsmall : c.toNat < 128 := by
      simp only [isBase58, Bool.or_eq_true, Bool.and_eq_true, decide_eq_true_eq, Char.le_def,
        UInt32.le_iff_toNat_le, Char.reduceVal, UInt32.reduceToNat] at h
      show c.val.toNat < 128
      omega
    -- as a computation of one truth value, which stays shallow over the whole range
    have hall : ((List.range 128).map Char.ofNat).all
        (fun a => !isBase58 a || alphabet.toList.contains a) = true := by
      decide +kernel
    have hmem : c ∈ (List.range 128).map Char.ofNat :=
      List.mem_map.mpr ⟨c.toNat, List.mem_range.mpr hsmall, Char.ofNat_toNat c⟩
    simpa [h] using List.all_eq_true.mp hall c hmem
  · have hall : alphabet.toList.all isBase58 = true := by decide +kernel
    exact fun h => List.all_eq_true.mp hall c h

/-- A surrogate is of no alphabet. -/
theorem isBase58_toChar_iff (code : Code) :
    isBase58 code.toChar = true ↔ ∃ c ∈ alphabet.toList, code = .char c := by
  cases code with
  | char c =>
    rw [Code.toChar, isBase58_iff]
    constructor
    · exact fun h => ⟨c, h, rfl⟩
    · rintro ⟨_, h, heq⟩
      rwa [Code.char.inj heq]
  | surrogate offset =>
    have hnone : isBase58 Code.replacement = false := by decide +kernel
    rw [Code.toChar, hnone]
    constructor
    · exact fun h => absurd h Bool.false_ne_true
    · rintro ⟨_, _, heq⟩
      cases heq

theorem isAddress_iff {t : Text} : isAddress t = true ↔ IsAddress t := by
  rw [isAddress, Text.toChars]
  simp only [Bool.and_eq_true, decide_eq_true_eq, List.all_map, List.all_eq_true,
    Function.comp_apply, isBase58_toChar_iff]
  constructor
  · rintro ⟨⟨hlong, hshort⟩, hbase58⟩
    exact ⟨hlong, hshort, hbase58⟩
  · exact fun h => ⟨⟨h.long, h.short⟩, h.base58⟩

instance (t : Text) : Decidable (IsAddress t) := decidable_of_iff _ isAddress_iff

/-- An address consists of characters. -/
theorem IsAddress.eq_ofString {t : Text} (h : IsAddress t) : t = Text.ofString t.toString := by
  obtain ⟨codes⟩ := t
  have hcodes : codes.map (Code.char ∘ Code.toChar) = codes := by
    refine (List.map_congr_left fun code hcode => ?_).trans (List.map_id codes)
    obtain ⟨c, -, rfl⟩ := h.base58 code hcode
    rfl
  rw [Text.toString, Text.ofString, String.toList_ofList, Text.ofChars, Text.toChars, List.map_map,
    hcodes]

end Address

/-! ## Addresses in requests -/

namespace Endpoint

/-- What follows the first occurrence of a mark. -/
def after (mark : List Char) : List Char → List Char
  | [] => []
  | c :: cs =>
    if mark.isPrefixOf (c :: cs) then (c :: cs).drop mark.length else after mark cs

/-- The tokens that prices are asked for, as the address of the request lists them. -/
def listedIds (url : String) : List Text :=
  ((after "ids=".toList url.toList).splitOn ',').map Text.ofChars

theorem toList_prices (mints : List Text) : (prices mints).toList =
    (priceBase ++ pricePath ++ "?ids=").toList ++ [','].intercalate (mints.map Text.toChars) := by
  have hmints : (mints.map Text.toString).map String.toList = mints.map Text.toChars := by
    rw [List.map_map]
    exact List.map_congr_left fun mint _ => String.toList_ofList
  rw [prices, String.toList_append, String.toList_intercalate, hmints]
  rfl

theorem listedIds_prices {mints : List Text} (hne : mints ≠ [])
    (haddress : ∀ mint ∈ mints, Address.IsAddress mint) : listedIds (prices mints) = mints := by
  have hafter : ∀ cs, after "ids=".toList ((priceBase ++ pricePath ++ "?ids=").toList ++ cs) = cs :=
    fun _ => rfl
  have hcomma : ∀ cs ∈ mints.map Text.toChars, ',' ∉ cs := by
    intro cs hcs h
    obtain ⟨mint, hmint, rfl⟩ := List.mem_map.mp hcs
    obtain ⟨code, hcode, heq⟩ := List.mem_map.mp h
    obtain ⟨c, hc, rfl⟩ := (haddress mint hmint).base58 code hcode
    obtain rfl : c = ',' := heq
    exact absurd hc (by decide +kernel)
  rw [listedIds, toList_prices, hafter, List.splitOn_intercalate ',' hcomma (by simpa using hne),
    List.map_map]
  refine (List.map_congr_left fun mint hmint => ?_).trans (List.map_id mints)
  rw [(haddress mint hmint).eq_ofString, Function.comp_apply, Text.ofString, Text.toChars_ofChars,
    id_eq]

/-- What stands between two fixed texts can be told from the whole, as long as it consists of
characters. -/
theorem injOn_between {url : Text → String} {before behind : String}
    (hurl : ∀ part : Text, url part = before ++ part.toString ++ behind) :
    Set.InjOn url (Set.range Text.ofString) := by
  rintro _ ⟨s, rfl⟩ _ ⟨t, rfl⟩ h
  have hlists := congrArg String.toList h
  simp only [hurl, Text.toString_ofString, String.toList_append] at hlists
  exact congrArg _
    (String.toList_inj.mp (List.append_cancel_left (List.append_cancel_right hlists)))

/-- Requests tell the addresses that they were built from: those for prices all of them, and the
others any text of characters, which addresses are. -/
structure TellAddresses : Prop where
  prices (mints : List Text) (hne : mints ≠ []) (h : ∀ mint ∈ mints, Address.IsAddress mint) :
    listedIds (prices mints) = mints
  characters (a : Text) (h : Address.IsAddress a) : a ∈ Set.range Text.ofString
  deposits : Set.InjOn deposits (Set.range Text.ofString)
  pair : Set.InjOn pair (Set.range Text.ofString)
  token (network : Text) : Set.InjOn (token network) (Set.range Text.ofString)
  tokenPools (network : Text) : Set.InjOn (tokenPools network) (Set.range Text.ofString)

theorem tellAddresses : TellAddresses where
  prices _ hne h := listedIds_prices hne h
  characters a h := ⟨a.toString, h.eq_ofString.symm⟩
  deposits := injOn_between fun _ => rfl
  pair := injOn_between fun _ => (String.append_empty).symm
  token _ := injOn_between fun _ => (String.append_empty).symm
  tokenPools _ := injOn_between fun _ => rfl

end Endpoint

/-! ## What commands send -/

namespace Run

variable {α β : Type} {w : World} {urls : List String}

/-- The action sends no requests. -/
abbrev Quiet (action : Run α) : Prop := AsksBy (fun _ _ => False) action

theorem Quiet.sends {action : Run α} (h : Quiet action) (hw : w.Ready) :
    w.Sends (action.result w).2 [] := by
  obtain ⟨urls, ms, hproceeds, hurls, hall⟩ := h w hw
  rw [List.eq_nil_iff_forall_not_mem.mpr hall] at hurls
  exact ⟨⟨ms, hproceeds⟩, hurls⟩

/-- What follows an action without sending anything. -/
theorem sends_bind {action : Run α} {f : α → Run β} (h : w.Sends (action.result w).2 urls)
    (hw : w.Ready) (hf : ∀ a, Quiet (f a)) : w.Sends ((action >>= f).result w).2 urls := by
  rw [result_bind]
  rcases hresult : action.result w with ⟨fault | a, w'⟩
  · rw [hresult] at h
    exact h
  · rw [hresult] at h
    have hrest := h.trans ((hf a).sends (h.ready hw))
    rw [List.append_nil] at hrest
    exact hrest

/-- The second of two actions that are started together is carried out in any case. -/
theorem snd_result_both (first : Run α) (second : Run β) (w : World) :
    ((both first second).result w).2 = (second.result (first.result w).2).2 := by
  rw [both, result_bind_ok (result_attempt first w), result_bind_ok (result_attempt second _)]
  cases (first.result w).1 with
  | error fault => rfl
  | ok a => cases (second.result (first.result w).2).1 <;> rfl

end Run

namespace Lookup

open Run

/-- After the pools of a token, the candles of one of them are asked for at most. -/
theorem sends_tokenRsi {w : World} (hw : w.Ready) (network mint : Text) (aggregate : Option Int) :
    ∃ more, w.Sends ((tokenRsi network mint aggregate).result w).2
        (Endpoint.tokenPools network mint :: more) ∧
      (more = [] ∨ ∃ pool, more = [candlesUrl network pool none aggregate w.settings]) := by
  rcases hpool : (mostLiquidPool network mint).result w with ⟨fault | pool, w'⟩
  · have hsends := ((asksOnce_mostLiquidPool network mint).sends hw hpool).2
    refine ⟨[], ?_, .inl rfl⟩
    rw [tokenRsi, result_bind_error hpool]
    exact hsends
  · have hsends := ((asksOnce_mostLiquidPool network mint).sends hw hpool).2
    rw [tokenRsi, result_bind_ok hpool, result_bind_ok (result_get w')]
    dsimp only
    by_cases htruthy : pool.isTruthy
    · rw [if_pos htruthy]
      have hcandles := ((asksOnce_candles network pool none aggregate).sends (hsends.ready hw)
        (Prod.mk.eta).symm).2
      rw [hsends.settings] at hcandles
      refine ⟨_, hsends.trans (sends_bind hcandles (hsends.ready hw) fun rows => ?_),
        .inr ⟨pool, rfl⟩⟩
      exact .lift _
    · rw [if_neg htruthy]
      have hquiet : Quiet (Run.print s!"🔍 No liquid pool found for token {Address.shorten mint}" >>=
          fun _ => (Pure.pure (.noData w'.now) : Run (Rsi.Reading Number))) :=
        (AsksBy.print _).bind fun _ => .pure _
      exact ⟨[], hsends.trans (hquiet.sends (hsends.ready hw)), .inl rfl⟩

end Lookup

namespace Command

open Run

/-- The addresses that a command is given. -/
def addresses? : Command → Option (List Text)
  | rsi mint _ _ => some [mint]
  | price mints => some mints
  | fee pool => some [pool]
  | deposit position _ => some [position]
  | report _ | info => none

/-- The requests that a command builds from its addresses. -/
def requests (w : World) : Command → List String
  | rsi mint _ network =>
    [Endpoint.token (w.networkOr network) mint, Endpoint.tokenPools (w.networkOr network) mint]
  | price mints => [Endpoint.prices mints]
  | fee pool => [Endpoint.pair pool]
  | deposit position _ => [Endpoint.deposits position]
  | report _ | info => []

/-- The candles of a pool that the network has named, which the index of a token may ask for. -/
def AsksCandles (w : World) (c : Command) (url : String) : Prop :=
  ∃ mint aggregate network pool, c = .rsi mint aggregate network ∧
    url = Lookup.candlesUrl (w.networkOr network) pool none aggregate w.settings

variable {w : World} {c : Command} {addresses : List Text}

/-- The command asks what it builds from its addresses, and no more than the candles of a pool. -/
def AsksFor (w : World) (c : Command) (after : World) : Prop :=
  ∃ more, w.Sends after (c.requests w ++ more) ∧
    (more = [] ∨ ∃ url, more = [url] ∧ c.AsksCandles w url)

theorem sends_showRsi (hw : w.Ready) (mint : Text) (aggregate : Option Int)
    (network : Option Text) : ∃ more, w.Sends ((showRsi mint aggregate network).result w).2
        (Endpoint.token (w.networkOr network) mint ::
          Endpoint.tokenPools (w.networkOr network) mint :: more) ∧
      (more = [] ∨ ∃ pool,
        more = [Lookup.candlesUrl (w.networkOr network) pool none aggregate w.settings]) := by
  have hname := ((Lookup.asksOnce_tokenName (w.networkOr network) mint).sends hw
    (Prod.mk.eta).symm).2
  obtain ⟨more, hreading, hmore⟩ := Lookup.sends_tokenRsi (hname.ready hw) (w.networkOr network)
    mint aggregate
  rw [hname.settings] at hmore
  refine ⟨more, ?_, hmore⟩
  rw [showRsi, result_bind_ok (Lookup.result_clientNetwork network w),
    result_bind_ok (result_get w)]
  refine sends_bind ?_ hw fun found => ?_
  · rw [snd_result_both]
    exact hname.trans hreading
  · obtain ⟨name, reading⟩ := found
    dsimp only
    split
    · exact (AsksBy.lift _).bind fun index => (AsksBy.print _).bind fun _ =>
        (AsksBy.lift _).bind fun time => (AsksBy.print _).bind fun _ => .pure reading
    · exact (AsksBy.print _).bind fun _ => .pure reading

theorem sends_showPrices (hw : w.Ready) {mints : List Text} (hne : mints ≠ []) :
    w.Sends ((showPrices mints).result w).2 [Endpoint.prices mints] := by
  have hprices := ((Lookup.asksOnce_prices hne).sends hw (Prod.mk.eta).symm).2
  exact sends_bind hprices hw fun prices => (AsksBy.printAll _).bind fun _ => .pure prices

theorem sends_showFees (hw : w.Ready) (pool : Text) :
    w.Sends ((showFees pool).result w).2 [Endpoint.pair pool] := by
  have hfees := ((Lookup.asksOnce_feeInfo pool).sends hw (Prod.mk.eta).symm).2
  refine sends_bind hfees hw fun found => ?_
  cases found with
  | none => exact .pure none
  | some info => exact (AsksBy.printAll _).bind fun _ => .pure (some info)

theorem sends_showDeposit (hw : w.Ready) (position : Text) (currentValue : Option Number) :
    w.Sends ((showDeposit position currentValue).result w).2 [Endpoint.deposits position] := by
  have hdeposit := ((Lookup.asksOnce_initialDeposit position).sends hw (Prod.mk.eta).symm).2
  refine sends_bind hdeposit hw fun found => ?_
  cases found with
  | none => exact (AsksBy.print _).bind fun _ => .pure none
  | some d =>
    refine (AsksBy.lift _).bind fun time => (AsksBy.printAll _).bind fun _ => ?_
    cases currentValue with
    | none => exact .pure (some d)
    | some current =>
      exact (AsksBy.lift _).bind fun initial => (AsksBy.lift _).bind fun profit =>
        (AsksBy.printAll _).bind fun _ => .pure (some d)

/-! ## The check -/

theorem checking_of_isAddress {action : Run Nat} (h : ∀ a ∈ addresses, Address.IsAddress a) :
    checking addresses action = action := by
  have hnone : (addresses.filter fun a => !Address.isAddress a) = [] := by
    rw [List.filter_eq_nil_iff]
    intro a ha
    rw [Address.isAddress_iff.mpr (h a ha)]
    exact Bool.false_ne_true
  rw [checking, hnone]

/-- Printing lines one after the other. -/
theorem result_forM_print {α : Type} (line : α → String) (xs : List α) (w : World) :
    (xs.forM fun x => Run.print (line x)).result w = (.ok (), w.showing (xs.map line)) := by
  induction xs generalizing w with
  | nil => rw [List.map_nil, World.showing_nil]; rfl
  | cons x xs ih =>
    rw [List.map_cons, ← World.showing_cons, ← ih]
    rfl

/-- Where addresses are malformed the command names them, and that is all. -/
theorem result_checking {action : Run Nat} (h : ∃ a ∈ addresses, ¬ Address.IsAddress a)
    (w : World) : (checking addresses action).result w = (.ok 1,
      w.showing ((addresses.filter fun a => ¬ Address.IsAddress a).map badAddressLine)) := by
  have hfilter : (addresses.filter fun a => !Address.isAddress a) =
      addresses.filter fun a => ¬ Address.IsAddress a := by
    refine List.filter_congr fun a _ => ?_
    by_cases hgood : Address.IsAddress a
    · rw [Address.isAddress_iff.mpr hgood, decide_eq_false (not_not_intro hgood), Bool.not_true]
    · rw [eq_false_of_ne_true (mt Address.isAddress_iff.mp hgood), decide_eq_true hgood,
        Bool.not_false]
  obtain ⟨a, ha, hbad⟩ := h
  have hmem : a ∈ addresses.filter fun a => ¬ Address.IsAddress a :=
    List.mem_filter.mpr ⟨ha, decide_eq_true hbad⟩
  rw [checking, hfilter]
  cases hbads : addresses.filter fun a => ¬ Address.IsAddress a with
  | nil => rw [hbads] at hmem; cases hmem
  | cons first rest => exact result_bind_ok (result_forM_print badAddressLine _ w) _

/-! ## Accepted commands -/

/-- A command on addresses is given what it is made of. -/
theorem addresses_of_makes {arguments : List Text} {values : List (String × Text)}
    (hmakes : CommandLine.Makes arguments values c) (h : c.addresses? = some addresses) :
    addresses = arguments ∧ c ≠ .info := by
  cases hmakes with
  | rsi hone | fee hone | deposit hone =>
    exact ⟨(Option.some.inj h).symm.trans hone.symm, fun h => nomatch h⟩
  | price => exact ⟨(Option.some.inj h).symm, fun h => nomatch h⟩
  | report | info => cases h

theorem result_run_of_bad (h : c.addresses? = some addresses)
    (hbad : ∃ a ∈ addresses, ¬ Address.IsAddress a) (w : World) : c.run.result w = (.ok 1,
      w.showing ((addresses.filter fun a => ¬ Address.IsAddress a).map badAddressLine)) := by
  cases c with
  | rsi | price | fee | deposit =>
    obtain rfl := Option.some.inj h
    exact result_checking hbad w
  | report | info => cases h

/-- A command whose addresses are well-formed sends the requests that it builds from them. -/
theorem asksFor_run (hw : w.Ready) (h : c.addresses? = some addresses) (hne : addresses ≠ [])
    (hgood : ∀ a ∈ addresses, Address.IsAddress a) : c.AsksFor w (c.run.result w).2 := by
  cases c with
  | rsi mint aggregate network =>
    obtain rfl := Option.some.inj h
    obtain ⟨more, hsends, hmore⟩ := sends_showRsi hw mint aggregate network
    rw [run, checking_of_isAddress hgood]
    refine ⟨more, sends_bind hsends hw fun reading => .pure _, hmore.imp_right ?_⟩
    rintro ⟨pool, rfl⟩
    exact ⟨_, rfl, mint, aggregate, network, pool, rfl, rfl⟩
  | price mints =>
    obtain rfl := Option.some.inj h
    rw [run, checking_of_isAddress hgood]
    exact ⟨[], sends_bind (sends_showPrices hw hne) hw fun _ => .pure _, .inl rfl⟩
  | fee pool =>
    obtain rfl := Option.some.inj h
    rw [run, checking_of_isAddress hgood]
    exact ⟨[], sends_bind (sends_showFees hw pool) hw fun _ => .pure _, .inl rfl⟩
  | deposit position currentValue =>
    obtain rfl := Option.some.inj h
    rw [run, checking_of_isAddress hgood]
    exact ⟨[], sends_bind (sends_showDeposit hw position currentValue) hw fun _ => .pure _,
      .inl rfl⟩
  | report | info => cases h

end Command

namespace CommandLine

/-- **No address reaches a request unchecked.** Given a line that is accepted as a command on
addresses: its addresses are those of its arguments that are neither options nor their values. If
some of them are malformed, the command prints one line for each of these, in their order, and ends
with the exit code 1 without any request, in every world. Otherwise it sends the requests that it
builds from the addresses, whatever the network answers, and at most one more, for the candles of a
pool. And the addresses can be told from the requests. -/
theorem addresses_checked {arguments addresses : List Text} {c : Command}
    (hread : read arguments = .command c) (hgiven : c.addresses? = some addresses) :
    (∃ name rest, arguments = name :: rest ∧ addresses = positionalsOf name rest ∧
      addresses.Sublist rest ∧ addresses ≠ []) ∧
    ((∃ a ∈ addresses, ¬ Address.IsAddress a) → ∀ w : World, (read arguments).run.result w =
      (.ok 1, w.showing
        ((addresses.filter fun a => ¬ Address.IsAddress a).map Command.badAddressLine))) ∧
    ((∀ a ∈ addresses, Address.IsAddress a) → ∀ w : World, w.Ready →
      c.AsksFor w ((read arguments).run.result w).2) ∧
    Endpoint.TellAddresses := by
  obtain ⟨name, rest, values, rfl, hmakes, hsublist, hsome⟩ := read_eq_command hread
  obtain ⟨rfl, hinfo⟩ := Command.addresses_of_makes hmakes hgiven
  have hne := hsome hinfo
  rw [hread]
  exact ⟨⟨name, rest, rfl, rfl, hsublist, hne⟩,
    fun hbad w => Command.result_run_of_bad hgiven hbad w,
    fun hgood w hw => Command.asksFor_run hw hgiven hne hgood, Endpoint.tellAddresses⟩

/-- An address. -/
def sampleMint : Text := "So11111111111111111111111111111111111111112"

/-- Of three addresses two are malformed, one by a character and one by its length; an address that
is given twice is asked for twice. -/
theorem addresses_checked_sample :
    (∀ w, (read ["price", "--", "0", sampleMint, "So1"]).run.result w = (.ok 1, w.showing
      ["❌ Invalid address: 0. Must be a base58 Solana public key.",
        "❌ Invalid address: So1. Must be a base58 Solana public key."])) ∧
    ∀ w : World, w.Ready → ∃ url,
      w.Sends ((read ["price", sampleMint, sampleMint]).run.result w).2 [url] ∧
        Endpoint.listedIds url = [sampleMint, sampleMint] := by
  have hread : read ["price", "--", "0", sampleMint, "So1"] =
      .command (.price ["0", sampleMint, "So1"]) := rfl
  have hread' : read ["price", sampleMint, sampleMint] =
      .command (.price [sampleMint, sampleMint]) := rfl
  constructor
  · intro w
    obtain ⟨-, hbad, -, -⟩ := addresses_checked hread rfl
    have hlines : ((["0", sampleMint, "So1"] : List Text).filter fun a => ¬ Address.IsAddress a).map
        Command.badAddressLine = ["❌ Invalid address: 0. Must be a base58 Solana public key.",
          "❌ Invalid address: So1. Must be a base58 Solana public key."] := by decide +kernel
    rw [hbad ⟨"0", List.mem_cons_self, by decide +kernel⟩ w, hlines]
  · intro w hw
    obtain ⟨-, -, hgood, htell⟩ := addresses_checked hread' rfl
    have haddresses : ∀ a ∈ [sampleMint, sampleMint], Address.IsAddress a := by decide +kernel
    obtain ⟨more, hsends, rfl | ⟨url, -, mint, aggregate, network, pool, h, -⟩⟩ :=
      hgood haddresses w hw
    · exact ⟨_, hsends, htell.prices _ (List.cons_ne_nil _ _) haddresses⟩
    · cases h

end CommandLine

end LiquidityWatch
