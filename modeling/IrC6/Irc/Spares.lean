import IrC6.Irc.Sent

/-!
# What the handlers leave alone

The data of the login, the flags of the connection and the commands that wait are changed
by few handlers.  `Login` is this part of a connection.  A handler that comes to its end on
a connection that is completed has left it as it was, and so has a handler of the local
channels on any connection.
-/

namespace IrC6
namespace Irc

/-- The data of the login with what comes of them. -/
structure Login where
  nick : Name
  user : Name
  pass : Name
  connFlags : UInt8
  cmdList : List (List UInt8)

def State.login (st : State) : Login where
  nick := st.nick
  user := st.user
  pass := st.pass
  connFlags := st.connFlags
  cmdList := st.cmdList

/-- A handler leaves the login as it is in `st`. -/
def Spares (st : State) (r : Wrote State) : Prop :=
  ∀ st' outs, r = .ok (st', outs) → st'.login = st.login

/-- Either the command of a line or nothing, with the words behind it. -/
def lineCommand (str : List UInt8) : Option (Comandi.Command × List (List UInt8)) :=
  match argsSep str with
  | [] => none
  | cmd :: argv => (lookupWord Comandi.table cmd).map fun command => (command, argv)

theorem ircProcessInput_command {set : Setup} {st : State} {str : List UInt8}
    {command : Comandi.Command} {argv : List (List UInt8)}
    (h : lineCommand str = some (command, argv)) :
    ircProcessInput set st str = Comandi.run set st argv str command := by
  unfold lineCommand at h
  unfold ircProcessInput
  cases hargs : argsSep str with
  | nil => simp [hargs] at h
  | cons cmd rest =>
      rw [hargs] at h
      rcases Option.map_eq_some_iff.mp h with ⟨command', hlook, heq⟩
      injection heq with hcommand hargv
      subst hcommand hargv
      simp only [hlook]

/-- A line without a command is answered, or is empty. -/
theorem ircProcessInput_none (set : Setup) (st : State) {str : List UInt8}
    (h : lineCommand str = none) :
    ∃ lines : List Line, ircProcessInput set st str = say st (lines.map .line) := by
  unfold lineCommand at h
  unfold ircProcessInput
  cases hargs : argsSep str with
  | nil => exact ⟨[], rfl⟩
  | cons cmd rest =>
      rw [hargs] at h
      dsimp only
      rw [Option.map_eq_none_iff.mp h]
      exact ⟨[.other .unkCmd [serv, st.nick.text, cmd]], rfl⟩

/-- The words of a line are its command and the words behind it. -/
theorem argsSep_of_lineCommand {str : List UInt8} {command : Comandi.Command}
    {argv : List (List UInt8)}
    (h : lineCommand str = some (command, argv)) : ∃ cmd, argsSep str = cmd :: argv := by
  unfold lineCommand at h
  split at h
  · nomatch h
  · rename_i cmd rest heq
    rcases Option.map_eq_some_iff.mp h with ⟨_, -, hpair⟩
    injection hpair with _ hargv
    exact ⟨cmd, hargv ▸ heq⟩

section Rules

variable {st : State} {r : Wrote State}

theorem spares_say (st : State) (outs : List Out) : Spares st (say st outs) := by
  intro st' outs' h
  injection h with h
  injection h with h
  rw [← h]

theorem spares_error (st : State) (e : Halt × List Out) : Spares st (.error e) := nofun

theorem spares_ok {st' : State} (h : st'.login = st.login) (outs : List Out) :
    Spares st (.ok (st', outs)) := by
  intro s outs' heq
  injection heq with heq
  injection heq with heq
  rw [← heq, h]

theorem spares_ite {p : Prop} [Decidable p] {r' : Wrote State} (h : Spares st r)
    (h' : Spares st r') : Spares st (if p then r else r') := by
  by_cases hp : p
  · rwa [if_pos hp]
  · rwa [if_neg hp]

/-- A part that comes to its end, and the part behind it. -/
theorem andThen_eq_ok {σ τ : Type} {r : Wrote σ} {f : σ → Wrote τ} {t : τ × List Out}
    (h : r.andThen f = .ok t) :
    ∃ s t', r = .ok s ∧ f s.1 = .ok t' ∧ t = (t'.1, s.2 ++ t'.2) := by
  unfold Wrote.andThen at h
  rcases r with e | s
  · nomatch h
  · dsimp only at h
    rcases hf : f s.1 with e | t'
    · rw [hf] at h
      nomatch h
    · rw [hf] at h
      injection h with h
      exact ⟨s, t', rfl, hf, h.symm⟩

theorem each_append_ok {σ β : Type} {turn : σ → β → Wrote σ} {s : σ} {as bs : List β}
    {r t : σ × List Out} (h : each turn s as = .ok r) (ht : each turn r.1 bs = .ok t) :
    each turn s (as ++ bs) = .ok (t.1, r.2 ++ t.2) := by
  induction as generalizing s r with
  | nil =>
      injection h with h
      subst h
      exact ht
  | cons a as ih =>
      rcases andThen_eq_ok h with ⟨s', r', hs', hr', rfl⟩
      rw [List.append_assoc]
      exact each_cons_ok hs' (ih hr' ht)

theorem each_single {σ β : Type} {turn : σ → β → Wrote σ} {s : σ} {b : β} {r : σ × List Out}
    (h : turn s b = .ok r) : each turn s [b] = .ok r := by
  rw [each_cons_ok h rfl, List.append_nil]

theorem spares_andThen {f : State → Wrote State} (hr : Spares st r)
    (hf : ∀ s, s.login = st.login → Spares s (f s)) : Spares st (r.andThen f) := by
  intro st' outs h
  rcases andThen_eq_ok h with ⟨s, t, hs, ht, heq⟩
  injection heq with hst' _
  have hlogin := hr s.1 s.2 hs
  rw [hst', hf s.1 hlogin t.1 t.2 ht, hlogin]

theorem spares_each {β : Type} {turn : State → β → Wrote State}
    (hturn : ∀ s b, Spares s (turn s b)) (st : State) (bs : List β) :
    Spares st (each turn st bs) := by
  induction bs generalizing st with
  | nil => exact spares_ok rfl []
  | cons b bs ih => exact spares_andThen (hturn st b) fun s _ => ih s

theorem spares_textFrom {str word : List UInt8} {f : List UInt8 → Wrote State}
    (hf : ∀ text, Spares st (f text)) : Spares st (textFrom str word f) := by
  unfold textFrom
  cases strstr str word with
  | none => exact spares_error st _
  | some text => exact hf text

theorem spares_onConn (st : State) (r : Wrote Conn) : Spares st (st.onConn r) := by
  cases r with
  | error e => exact spares_error st e
  | ok r => exact spares_ok rfl r.2

end Rules

/-! ## The user's own status -/

section Status

variable (st : State)

theorem spares_busy (on : Bool) (msg : Option (List UInt8)) : Spares st (ircStatusBusy st on msg) :=
  spares_ok rfl _

theorem spares_onlyfriends (on : Bool) : Spares st (ircStatusOnlyfriends st on) := spares_ok rfl _

theorem spares_available : Spares st (ircStatusAvailable st) :=
  spares_andThen (spares_ite (spares_busy st false none) (spares_ok rfl [])) fun s _ =>
    spares_ite (spares_onlyfriends s false) (spares_ok rfl [])

theorem spares_visibleip (on : Bool) : Spares st (ircStatusVisibleip st on) := spares_ok rfl _

theorem spares_nickMode (arg : Option (List UInt8)) (str mode : List UInt8) (plus : Bool) :
    Spares st (Comandi.nickMode arg str mode plus st) := by
  induction mode generalizing st plus with
  | nil => exact spares_say st []
  | cons m mode ih =>
      unfold Comandi.nickMode
      refine spares_ite (ih st true) (spares_ite (ih st false) ?_)
      refine spares_andThen ?_ fun s _ => ih s plus
      refine spares_ite ?_ (spares_ite (spares_onlyfriends st plus)
        (spares_ite (spares_visibleip st plus) (spares_ite (spares_ok rfl []) (spares_say st _))))
      split
      · exact spares_busy st plus none
      · exact spares_textFrom fun away => spares_busy st plus (some away)

end Status

/-! ## The local channels -/

section Local

variable (st : State) (argv : List (List UInt8)) (str : List UInt8)

theorem spares_translate (f : List UInt8 → List UInt8) :
    Spares st (Console.translate st f argv str) := by
  cases argv with
  | nil => exact spares_say st _
  | cons arg argv => exact spares_textFrom fun text => spares_say st _

theorem spares_cUserinfo : Spares st (Console.cUserinfo st argv) := by
  cases argv with
  | nil => exact spares_say st _
  | cons arg argv => exact spares_say st _

theorem spares_cStyle : Spares st (Console.cStyle st argv) := by
  cases argv with
  | nil => exact spares_say st _
  | cons arg argv => exact spares_ite (spares_error st _) (spares_say st _)

theorem spares_cNewroom : Spares st (Console.cNewroom st argv str) := by
  match argv with
  | [] => exact spares_say st _
  | [_] => exact spares_say st _
  | room :: kind :: rest =>
      unfold Console.cNewroom
      dsimp only
      cases Console.roomKind kind with
      | none => exact spares_say st _
      | some pub =>
          cases rest with
          | nil => exact spares_say st _
          | cons word rest => exact spares_textFrom fun topic => spares_say st _

theorem spares_consoleMail : Spares st (Console.cMail st argv str) := by
  match argv with
  | [] => exact spares_say st _
  | [_] => exact spares_say st _
  | _ :: word :: _ => exact spares_textFrom fun text => spares_say st _

theorem spares_cStatus : Spares st (Console.cStatus st argv) := by
  unfold Console.cStatus
  split
  · exact spares_available st
  · exact spares_busy st true none
  · exact spares_onlyfriends st true
  · exact spares_say st _

theorem spares_consoleRun (set : Setup) (command : Console.Command) :
    Spares st (Console.run set st argv str command) := by
  cases command with
  | aiuto => exact spares_say st _
  | agg | canc | lnAgg | lnCanc => exact spares_onConn st _
  | profilo => exact spares_cUserinfo st argv
  | stato => exact spares_cStatus st argv
  | stile => exact spares_cStyle st argv
  | stanzaCod | stanzaDecod => exact spares_translate st argv str _
  | creaStanza => exact spares_cNewroom st argv str
  | mail => exact spares_consoleMail st argv str
  | cerca => exact spares_ite (spares_say st _) (spares_ok rfl _)

theorem spares_consoleInput (set : Setup) : Spares st (ircConsoleInput set st argv str) := by
  cases argv with
  | nil => exact spares_say st _
  | cons arg argv =>
      unfold ircConsoleInput
      dsimp only
      cases lookupWord Console.table (skipColon arg) with
      | none => exact spares_say st _
      | some command => exact spares_consoleRun st argv str set command

theorem spares_cCheckword (u : Userinfo) : Spares st (Searchusr.cCheckword u st argv) := by
  unfold Searchusr.cCheckword
  split
  · exact spares_ite (spares_say st _) (spares_say st _)
  · exact spares_say st _

theorem spares_searchusrRun (set : Setup) (command : Searchusr.Command) :
    Spares st (Searchusr.run set st argv command) := by
  cases command with
  | aiuto | mostra | rifai | cerca => exact spares_say st _
  | lista => cases argv <;> exact spares_say st _
  | email => cases argv <;> exact spares_say st _
  | agg =>
      cases argv with
      | nil => exact spares_say st _
      | cons arg argv => exact spares_onConn st _

theorem spares_searchusrInput (set : Setup) : Spares st (ircSearchusrInput set st argv) := by
  cases argv with
  | nil => exact spares_say st _
  | cons arg argv =>
      unfold ircSearchusrInput
      dsimp only
      cases lookupWord Searchusr.table (skipColon arg) with
      | none => exact spares_cCheckword st _ set.userinfo
      | some command => exact spares_searchusrRun st argv set command

end Local

/-! ## The commands of IRC -/

section Commands

variable {st : State} (argv : List (List UInt8)) (str : List UInt8)

theorem loginCompleted_of_connectionCompleted (h : st.connectionCompleted = true) :
    st.loginCompleted = true := by
  simp only [State.connectionCompleted, State.loginCompleted, decide_eq_true_eq] at h ⊢
  have hand : flagPass ||| flagNick ||| flagUser =
      (flagPass ||| flagNick ||| flagUser ||| flagReady) &&& (flagPass ||| flagNick ||| flagUser) :=
    rfl
  rw [hand, ← UInt8.and_assoc, h]

/-- `ADD_COMMAND` when the connection is completed. -/
theorem spares_addCommand (hst : st.connectionCompleted = true) {rest : Wrote State}
    (h : Spares st rest) : Spares st (Comandi.addCommand st str rest) := by
  rw [addCommand_connected hst]
  exact h

theorem spares_cMode (hst : st.connectionCompleted = true) (set : Setup) :
    Spares st (Comandi.cMode set st argv str) := by
  refine spares_addCommand str hst ?_
  match argv with
  | [] => exact spares_error st _
  | [_] => exact spares_ite (spares_say st _) (spares_say st _)
  | who :: mode :: rest =>
      exact spares_ite (spares_nickMode st rest.head? str mode true)
        (spares_ite (spares_say st _) (spares_say st _))

theorem spares_cAway (hst : st.connectionCompleted = true) (set : Setup) :
    Spares st (Comandi.cAway set st argv str) := by
  refine spares_addCommand str hst ?_
  cases argv with
  | nil => exact spares_andThen (spares_cMode _ str hst set) fun s _ => spares_say s _
  | cons arg argv => exact spares_andThen (spares_cMode _ str hst set) fun s _ => spares_say s _

theorem spares_cPrivmsg (hst : st.connectionCompleted = true) (set : Setup) :
    Spares st (Comandi.cPrivmsg set st argv str) := by
  refine spares_addCommand str hst ?_
  match argv with
  | [] => exact spares_say st _
  | [_] => exact spares_say st _
  | to_ :: word :: rest =>
      refine spares_ite (spares_ite (spares_consoleInput st _ str set)
        (spares_ite (spares_searchusrInput st _ set) (spares_say st _))) ?_
      exact spares_textFrom fun text => spares_say st _

theorem spares_partOne (st : State) (p : List UInt8) : Spares st (Comandi.partOne st p) := by
  refine spares_ite (spares_ite (spares_say st _) (spares_ite ?_ (spares_say st _)))
    (spares_ite (spares_say st _) (spares_say st _))
  exact spares_ite (spares_say st _) (spares_ok rfl _)

theorem spares_cPart (hst : st.connectionCompleted = true) :
    Spares st (Comandi.cPart st argv str) := by
  refine spares_addCommand str hst ?_
  cases argv with
  | nil => exact spares_say st _
  | cons arg argv => exact spares_each spares_partOne st _

/-- A handler of a connection that is completed leaves the login as it is. -/
theorem spares_run (hst : st.connectionCompleted = true) (set : Setup)
    (command : Comandi.Command) : Spares st (Comandi.run set st argv str command) := by
  have hlogin := loginCompleted_of_connectionCompleted hst
  have hdone : ∀ r, Spares st (if st.loginCompleted = true then Comandi.loginDone st else r) :=
    fun r => if_pos hlogin ▸ spares_say st _
  cases command with
  | pass | nick | user => exact hdone _
  | ping => cases argv <;> exact spares_say st _
  | mode => exact spares_cMode argv str hst set
  | quit => exact spares_error st _
  | squit => exact spares_ite (spares_error st _) (spares_say st _)
  | privmsg => exact spares_cPrivmsg argv str hst set
  | ison =>
      refine spares_addCommand str hst ?_
      cases argv with
      | nil => exact spares_say st _
      | cons arg argv => exact spares_onConn st _
  | join | whois => refine spares_addCommand str hst ?_; cases argv <;> exact spares_say st _
  | part => exact spares_cPart argv str hst
  | who =>
      refine spares_addCommand str hst ?_
      cases argv with
      | nil => exact spares_say st _
      | cons arg argv => exact spares_ite (spares_say st _) (spares_say st _)
  | away => exact spares_cAway argv str hst set
  | mail =>
      refine spares_addCommand str hst ?_
      match argv with
      | [] => exact spares_say st _
      | [_] => exact spares_say st _
      | _ :: word :: _ => exact spares_textFrom fun text => spares_say st _
  | list => exact spares_say st _

theorem spares_ircProcessInput (hst : st.connectionCompleted = true) (set : Setup) :
    Spares st (ircProcessInput set st str) := by
  rcases hcommand : lineCommand str with _ | ⟨command, argv⟩
  · rcases ircProcessInput_none set st hcommand with ⟨lines, heq⟩
    rw [heq]
    exact spares_say st _
  · rw [ircProcessInput_command hcommand]
    exact spares_run argv str hst set command

end Commands

end Irc
end IrC6
