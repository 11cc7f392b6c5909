import LiquidityWatch.CommandLine
import LiquidityWatch.Proofs.Outcome

/-! # Lines that are accepted

The arguments of a line are read one after the other, and an argument that fits nowhere does not
stop the reading. So a line is accepted exactly as it stands or not at all: the arguments that a
command is made of are those of the line that are neither options nor values of options
(`CommandLine.positionals`), all of them, in their order and unchanged. -/

namespace LiquidityWatch.CommandLine

/-! ## Tokens -/

/-- The arguments among tokens that are no options and no values of options. A value may be
awaited. -/
def positionals : Bool → List Token → List Text
  | _, [] => []
  | true, _ :: rest => positionals false rest
  | false, .plain argument :: rest => argument :: positionals false rest
  | false, .option (.valued _) none :: rest => positionals true rest
  | false, _ :: rest => positionals false rest

variable {options : Options} {argument : Text} {arguments : List Text} {token : Token}
  {tokens : List Token}

theorem not_plain_of_candidates {plain : Text} :
    .plain plain ∉ candidates options argument := by
  rw [candidates]
  split
  · rcases splitEquals argument with ⟨name, value⟩
    intro h
    obtain ⟨⟨full, kind⟩, -, h⟩ := List.mem_filterMap.mp h
    dsimp only at h
    split at h <;> cases h
  · intro h
    obtain ⟨⟨full, kind⟩, -, h⟩ := List.mem_filterMap.mp h
    dsimp only at h
    split at h
    · cases h
    · split at h <;> cases h
  · exact List.not_mem_nil

/-- An argument that is no option stands for itself. -/
theorem classify_plain {plain : Text} (h : classify options argument = some (.plain plain)) :
    plain = argument := by
  rw [classify] at h
  split at h
  · exact (Token.plain.inj (Option.some.inj h)).symm
  · split at h
    · cases h
    · dsimp only at h
      split at h
      · cases h
      · split at h
        · rename_i token hfound
          obtain rfl := Option.some.inj h
          exact absurd (hfound ▸ List.mem_singleton_self _) not_plain_of_candidates
        · split at h
          · exact (Token.plain.inj (Option.some.inj h)).symm
          · cases h
        · cases h

/-- Tokens of a line: at the separator the line is cut off, and what is left of it stands for
itself. -/
inductive Tokenized (options : Options) : List Text → List Token → Prop
  | nil : Tokenized options [] []
  | separator (rest : List Text) :
    Tokenized options ("--" :: rest) (.separator :: rest.map .plain)
  | cons {argument : Text} {rest : List Text} {token : Token} {tokens : List Token}
    (h : classify options argument = some token) (hrest : Tokenized options rest tokens) :
    Tokenized options (argument :: rest) (token :: tokens)

theorem tokenized (h : tokenize options arguments = some tokens) :
    Tokenized options arguments tokens := by
  induction arguments using tokenize.induct generalizing tokens with
  | case1 =>
    obtain rfl := Option.some.inj h
    exact .nil
  | case2 rest =>
    rw [tokenize, if_pos rfl] at h
    obtain rfl := Option.some.inj h
    exact .separator rest
  | case3 argument rest hne ih =>
    rw [tokenize, if_neg hne] at h
    obtain ⟨token, htoken, h⟩ := Option.bind_eq_some_iff.mp h
    obtain ⟨later, hlater, h⟩ := Option.bind_eq_some_iff.mp h
    obtain rfl := Option.some.inj h
    exact .cons htoken (ih hlater)

theorem positionals_plain (arguments : List Text) :
    positionals false (arguments.map .plain) = arguments := by
  induction arguments with
  | nil => rfl
  | cons argument arguments ih => rw [List.map_cons, positionals, ih]

namespace Tokenized

theorem length_eq (h : Tokenized options arguments tokens) : tokens.length = arguments.length := by
  induction h with
  | nil => rfl
  | separator rest => rw [List.length_cons, List.length_map, List.length_cons]
  | cons _ _ ih => rw [List.length_cons, List.length_cons, ih]

/-- What is found among the tokens of a line stands on the line in the same order. -/
theorem sublist (h : Tokenized options arguments tokens) (awaiting : Bool) :
    (positionals awaiting tokens).Sublist arguments := by
  induction h generalizing awaiting with
  | nil => cases awaiting <;> exact .refl []
  | separator rest =>
    have hrest : positionals awaiting (.separator :: rest.map .plain) = rest := by
      cases awaiting <;> exact positionals_plain rest
    rw [hrest]
    exact List.sublist_cons_self _ rest
  | @cons argument rest token tokens htoken _ ih =>
    cases awaiting with
    | true => exact (ih false).cons argument
    | false =>
      rcases token with plain | _ | _ | ⟨_ | _ | name, _ | attached⟩
      · rw [classify_plain htoken]
        exact (ih false).cons_cons argument
      · exact (ih false).cons argument
      · exact (ih false).cons argument
      all_goals exact (ih _).cons argument

end Tokenized

/-! ## Reading -/

variable {arity : Arity} {check : ValueCheck} {r r' : Reading}

theorem plainOption_eq_command {request : Request} {attached : Option Attached} {c : Command}
    (h : plainOption request attached = .command c) : request = .command c := by
  rw [plainOption.eq_def] at h
  split at h
  · exact h
  · cases h
  · rw [bundledHelp] at h
    split at h <;> cases h

namespace Reading

/-- As long as no argument has been reached, none was found. -/
def Consistent (r : Reading) : Prop := r.phase = .ahead → r.arguments = []

/-- As long as no argument was found, none has been reached. -/
def Expectant (r : Reading) : Prop := r.arguments = [] → r.phase = .ahead

/-- The arguments that a line comes to: those found so far, and those to come. -/
def found (r : Reading) (tokens : List Token) : List Text :=
  r.arguments ++ positionals r.awaiting.isSome tokens

/-- Between two states of a reading nothing was lost: unless an argument fitted nowhere, the line
comes to the same arguments. -/
def Leads (r : Reading) (tokens : List Token) (r' : Reading) (rest : List Token) : Prop :=
  r'.superfluous = false → r.superfluous = false ∧
    (r.Consistent → r'.Consistent ∧ r'.found rest = r.found tokens) ∧ (r.Expectant → r'.Expectant)

theorem Leads.refl (r : Reading) (tokens : List Token) : r.Leads tokens r tokens :=
  fun h => ⟨h, fun hr => ⟨hr, rfl⟩, id⟩

theorem Leads.trans {r'' : Reading} {tokens tokens' tokens'' : List Token}
    (h : r.Leads tokens r' tokens') (h' : r'.Leads tokens' r'' tokens'') :
    r.Leads tokens r'' tokens'' := by
  intro hfits
  obtain ⟨hfits', hlater, hreached'⟩ := h' hfits
  obtain ⟨hfirst, hearlier, hreached⟩ := h hfits'
  refine ⟨hfirst, fun hr => ?_, fun hr => hreached' (hreached hr)⟩
  obtain ⟨hr', hfound⟩ := hearlier hr
  obtain ⟨hr'', hfound'⟩ := hlater hr'
  exact ⟨hr'', hfound'.trans hfound⟩

/-- A token that changes none of the arguments is passed over. -/
theorem leads_same {tokens rest : List Token} (hphase : r'.phase = r.phase)
    (harguments : r'.arguments = r.arguments) (hfits : r'.superfluous = r.superfluous)
    (hrest : positionals r'.awaiting.isSome rest = positionals r.awaiting.isSome tokens) :
    r.Leads tokens r' rest := by
  intro h
  refine ⟨hfits ▸ h, fun hr => ⟨fun hahead => ?_, ?_⟩, fun hr hnone => ?_⟩
  · exact harguments.trans (hr (hphase.symm.trans hahead))
  · rw [found, found, harguments, hrest]
  · exact hphase.trans (hr (harguments.symm.trans hnone))

/-- A reading after an option, which ends the arguments that stand together. -/
def closed (r : Reading) : Reading :=
  if r.phase = .within then { r with phase := .behind } else r

theorem awaiting_closed (r : Reading) : r.closed.awaiting = r.awaiting := by
  rw [closed]
  split <;> rfl

theorem leads_closed (r : Reading) (tokens : List Token) : r.Leads tokens r.closed tokens := by
  rw [closed]
  split
  · rename_i hwithin
    refine fun h => ⟨h, fun _ => ⟨fun h => (nomatch h), rfl⟩, fun hr hnone => ?_⟩
    exact nomatch hwithin.symm.trans (hr hnone)
  · exact .refl r tokens

theorem leads_addPlain {plain : Text} {rest : List Token} (h : r.awaiting = none) :
    r.Leads (.plain plain :: rest) (r.addPlain arity plain) rest := by
  rw [addPlain.eq_def]
  split
  · rename_i hphase
    refine fun hfits => ⟨hfits, fun hr => ⟨fun h => (nomatch h), ?_⟩, fun _ h => (nomatch h)⟩
    rw [found, found, hr hphase, h]
    rfl
  · rename_i hphase
    refine fun hfits => ⟨hfits, fun hr => ⟨fun h => (nomatch hphase.symm.trans h), ?_⟩,
      fun _ h => ?_⟩
    · rw [found, found, h]
      exact List.append_assoc _ _ _
    · exact absurd (List.append_eq_nil_iff.mp h).2 (List.cons_ne_nil _ _)
  · exact fun h => nomatch h

theorem leads_note {name : String} {value : Text} {tokens rest : List Token}
    (h : r.note check name value = .ok r')
    (hrest : positionals false rest = positionals r.awaiting.isSome tokens) :
    r.Leads tokens r' rest := by
  rw [note] at h
  split at h
  · obtain rfl := Except.ok.inj h
    exact leads_same rfl rfl rfl hrest
  · cases h

/-- No step loses an argument. -/
theorem leads_next (h : r.next arity check token = .ok r') (rest : List Token) :
    r.Leads (token :: rest) r' rest := by
  rw [next.eq_def] at h
  dsimp only at h
  split at h
  · rename_i name value hawaiting
    exact leads_note h (by rw [hawaiting]; rfl)
  · cases h
  · rename_i plain hawaiting
    obtain rfl := Except.ok.inj h
    exact leads_addPlain hawaiting
  · rename_i hawaiting
    obtain rfl := Except.ok.inj h
    split
    · exact fun hfits => nomatch hfits
    · exact leads_same rfl rfl rfl (by rw [hawaiting]; rfl)
  · obtain rfl := Except.ok.inj h
    exact fun hfits => nomatch hfits
  · cases h
  · cases h
  · rename_i name value hawaiting
    have hclosed := (r.awaiting_closed).trans hawaiting
    refine (r.leads_closed _).trans (leads_note (r := r.closed) h ?_)
    rw [hclosed]
    rfl
  · cases h
  · rename_i name hawaiting
    have hclosed := (r.awaiting_closed).trans hawaiting
    obtain rfl := Except.ok.inj h
    exact (r.leads_closed _).trans (leads_same rfl rfl rfl (by rw [hclosed]; rfl))

/-- What ends a line early is no command. -/
theorem next_eq_error {request : Request} (h : r.next arity check token = .error request)
    (c : Command) : request ≠ .command c := by
  rintro rfl
  have hnote : ∀ (r : Reading) (name : String) (value : Text),
      r.note check name value ≠ .error (.command c) := by
    intro r name value h
    rw [note] at h
    split at h <;> cases h
  rw [next.eq_def] at h
  dsimp only at h
  split at h
  · exact hnote _ _ _ h
  · cases h
  · cases h
  · cases h
  · cases h
  · cases plainOption_eq_command (Except.error.inj h)
  · cases plainOption_eq_command (Except.error.inj h)
  · exact hnote _ _ _ h
  · cases h
  · cases h

theorem foldlM_eq_error {request : Request}
    (h : tokens.foldlM (next arity check) r = .error request) (c : Command) :
    request ≠ .command c := by
  induction tokens generalizing r with
  | nil => cases h
  | cons token tokens ih =>
    rw [List.foldlM_cons] at h
    cases hnext : r.next arity check token with
    | error found =>
      rw [hnext] at h
      obtain rfl := Except.error.inj h
      exact next_eq_error hnext c
    | ok r₁ =>
      rw [hnext] at h
      exact ih h

/-- No run of steps loses an argument. -/
theorem leads_foldlM (h : tokens.foldlM (next arity check) r = .ok r') : r.Leads tokens r' [] := by
  induction tokens generalizing r with
  | nil =>
    obtain rfl := pure_eq_ok.mp h
    exact .refl r []
  | cons token tokens ih =>
    rw [List.foldlM_cons] at h
    obtain ⟨r₁, hnext, h⟩ := bind_eq_ok.mp h
    exact (leads_next hnext tokens).trans (ih h)

end Reading

/-! ## Forms -/

/-- The options that a command takes. -/
def Form.allOptions (form : Form) : Options :=
  helpOptions ++ form.options.map fun name => (name, .valued name)

/-- An accepted line makes its command of the arguments that are found on it. -/
theorem Form.read_eq_command {form : Form} {c : Command}
    (h : form.read arguments = .command c) : ∃ tokens values,
      tokenize form.allOptions arguments = some tokens ∧
        form.build (positionals false tokens) values = some c ∧
          (form.arity ≠ .none → positionals false tokens ≠ []) := by
  rw [Form.read] at h
  split at h
  · cases h
  · rename_i tokens htokens
    split at h
    · rename_i request hread
      exact absurd h (Reading.foldlM_eq_error hread c)
    · rename_i r hread
      split at h
      · cases h
      · rename_i hcomplete
        simp only [Bool.or_eq_true, not_or, Bool.not_eq_true] at hcomplete
        obtain ⟨⟨hawaiting, hreached⟩, hfits⟩ := hcomplete
        obtain ⟨-, hall, hexpectant⟩ := Reading.leads_foldlM hread hfits
        obtain ⟨-, hfound⟩ := hall fun _ => rfl
        rw [Reading.found, hawaiting] at hfound
        split at h
        · rename_i command hbuild
          obtain rfl := Request.command.inj h
          have harguments : r.arguments = positionals false tokens :=
            (List.append_nil r.arguments).symm.trans hfound
          rw [harguments] at hbuild
          refine ⟨tokens, r.values, htokens, hbuild, fun harity hnone => ?_⟩
          have hahead := hexpectant (fun _ => if_neg harity) (harguments.trans hnone)
          rw [hahead] at hreached
          cases hreached
        · cases h

/-- The command that arguments and the values of options make. -/
inductive Makes (arguments : List Text) (values : List (String × Text)) : Command → Prop
  | rsi {mint : Text} (h : arguments = [mint]) :
    Makes arguments values (.rsi mint ((values.lookup aggregateOption).bind aggregateOf?)
      (values.lookup networkOption))
  | price : Makes arguments values (.price arguments)
  | fee {pool : Text} (h : arguments = [pool]) : Makes arguments values (.fee pool)
  | deposit {position : Text} (h : arguments = [position]) :
    Makes arguments values (.deposit position
      ((values.lookup currentValueOption).bind currentValueOf?))
  | report {path : Text} (h : arguments = [path]) : Makes arguments values (.report path)
  | info : Makes arguments values .info

theorem onOne_eq_some {make : Text → Command} {c : Command}
    (h : onOne make arguments = some c) : ∃ a, arguments = [a] ∧ c = make a := by
  rw [onOne.eq_def] at h
  split at h
  · rename_i a
    exact ⟨a, rfl, (Option.some.inj h).symm⟩
  · cases h

theorem makes_of_build {name : String} {form : Form} {values : List (String × Text)} {c : Command}
    (hform : formOf? name = some form) (hbuild : form.build arguments values = some c) :
    Makes arguments values c ∧ (form.arity = .none → c = .info) := by
  rw [formOf?.eq_def] at hform
  split at hform
  · obtain rfl := Option.some.inj hform
    obtain ⟨a, rfl, rfl⟩ := onOne_eq_some hbuild
    exact ⟨.rsi rfl, fun h => nomatch h⟩
  · obtain rfl := Option.some.inj hform
    obtain rfl := Option.some.inj hbuild
    exact ⟨.price, fun h => nomatch h⟩
  · obtain rfl := Option.some.inj hform
    obtain ⟨a, rfl, rfl⟩ := onOne_eq_some hbuild
    exact ⟨.fee rfl, fun h => nomatch h⟩
  · obtain rfl := Option.some.inj hform
    obtain ⟨a, rfl, rfl⟩ := onOne_eq_some hbuild
    exact ⟨.deposit rfl, fun h => nomatch h⟩
  · obtain rfl := Option.some.inj hform
    obtain ⟨a, rfl, rfl⟩ := onOne_eq_some hbuild
    exact ⟨.report rfl, fun h => nomatch h⟩
  · obtain rfl := Option.some.inj hform
    obtain rfl := Option.some.inj hbuild
    exact ⟨.info, fun _ => rfl⟩
  · cases hform

/-! ## Lines -/

/-- An accepted line begins with its command, without options before that. -/
theorem readTokens_eq_command {superfluous : Bool} {line : List (Token × Text)} {c : Command}
    (h : readTokens superfluous line = .command c) : superfluous = false ∧
      ∃ name argument rest, line = (.plain name, argument) :: rest ∧
        readCommand name (rest.map Prod.snd) = .command c := by
  induction line generalizing superfluous with
  | nil =>
    rw [readTokens] at h
    split at h <;> cases h
  | cons entry line ih =>
    obtain ⟨token, argument⟩ := entry
    rcases token with name | _ | _ | ⟨_ | _ | option, attached⟩
    · rw [readTokens] at h
      cases hread : readCommand name (line.map Prod.snd) with
      | command c' =>
        rw [hread] at h
        cases superfluous with
        | false => exact ⟨rfl, name, argument, line, rfl, hread.trans h⟩
        | true => cases h
      | help | version | invalid =>
        rw [hread] at h
        cases superfluous <;> cases h
    · cases h
    · cases (ih h).1
    · cases plainOption_eq_command h
    · cases plainOption_eq_command h
    · cases h

/-- The arguments of a line that its command is made of. -/
def positionalsOf (name : Text) (rest : List Text) : List Text :=
  match formOf? name.toString with
  | some form => match tokenize form.allOptions rest with
    | some tokens => positionals false tokens
    | none => []
  | none => []

/-- A line that is accepted as a command begins with the name of the command, which is made of
those arguments behind it that are neither options nor values of options. -/
theorem read_eq_command {c : Command} (h : read arguments = .command c) :
    ∃ name rest values, arguments = name :: rest ∧ Makes (positionalsOf name rest) values c ∧
      (positionalsOf name rest).Sublist rest ∧ (c ≠ .info → positionalsOf name rest ≠ []) := by
  rw [read] at h
  split at h
  · cases h
  · rename_i tokens htokens
    obtain ⟨-, name, argument, line, hline, hread⟩ := readTokens_eq_command h
    obtain ⟨rest, rfl, hrest⟩ : ∃ rest, arguments = name :: rest ∧ line.map Prod.snd = rest := by
      cases tokenized htokens with
      | nil => cases hline
      | separator => cases hline
      | cons hfirst hrest =>
        obtain ⟨hhead, rfl⟩ := List.cons.inj hline
        obtain ⟨rfl, rfl⟩ := Prod.mk.inj hhead
        obtain rfl := classify_plain hfirst
        exact ⟨_, rfl, List.map_snd_zip (Nat.le_of_eq hrest.length_eq.symm)⟩
    rw [readCommand, hrest] at hread
    split at hread
    · rename_i form hform
      obtain ⟨tokens, values, htokens, hbuild, hne⟩ := Form.read_eq_command hread
      have hfound : positionalsOf name rest = positionals false tokens := by
        rw [positionalsOf, hform]
        dsimp only
        rw [htokens]
      rw [← hfound] at hbuild hne
      obtain ⟨hmakes, hinfo⟩ := makes_of_build hform hbuild
      refine ⟨name, rest, values, rfl, hmakes, ?_, fun hc => hne (mt hinfo hc)⟩
      rw [hfound]
      exact (tokenized htokens).sublist false
    · cases hread

end LiquidityWatch.CommandLine
