import IrC6.Irc.Login
import IrC6.Irc.Tokens
import IrC6.Irc.Welcome

/-!
# The user's presence

The server tells a connection that its login is done, and later welcomes it.  In between and
behind that the user changes the status with `MODE`, with `AWAY` and with `stato` on the
console; what comes before the welcome waits for it.  `PresenceRun` are these runs, and in
all their states the status is one of the three, a message belongs to a busy user, and the
server knows the status.
-/

namespace IrC6
namespace Irc

/-! ## The packets of the server -/

/-- `irc_out_logindone`, with the texts of its notices. -/
def ircOutLogindone (st : State) (texts : List (List UInt8)) : Wrote State :=
  .ok ({ st with status := statusOnline ||| statusAvailable }, texts.map (ircNotice st.nick.text))

/-- `cmd_wlcome` with the message of its packet, and `irc_out_welcome` behind it. -/
def cmdWlcome (set : Setup) (p : Program) (st : State) (msg : List UInt8) : Wrote State :=
  (say st [.sendStatus st.status]).andThen fun st => (ircOutWelcome set p st msg).2

/-! ## The lines -/

/-- A line that is about the status: `MODE`, `AWAY` or `stato` on the console. -/
def PresenceLine (str : List UInt8) : Prop :=
  match lineCommand str with
  | some (.mode, _ :: _) => True
  | some (.away, _) => True
  | some (.privmsg, to_ :: word :: _) =>
      skipColon to_ = console ∧ lookupWord Console.table (skipColon word) = some .stato
  | _ => False

/-! ## The runs -/

/-- How far the server has got. -/
inductive Phase where
  | before
  | known
  | welcoming
  | welcomed
deriving DecidableEq, Repr

/-- The runs with all that they have put out.  `replay` is a state between two commands of
the loop in `irc_out_welcome`. -/
inductive PresenceRun (set : Setup) (p : Program) (ip : List UInt8) :
    Phase → State → List Out → Prop where
  | start : PresenceRun set p ip .before (ircConnectionNew ip) []
  | line {ph : Phase} {st st' : State} {outs outs' : List Out} {str : List UInt8} :
      PresenceRun set p ip ph st outs → ph ≠ .welcoming → LoginLine str ∨ PresenceLine str →
      ircProcessInput set st str = .ok (st', outs') → PresenceRun set p ip ph st' (outs ++ outs')
  | infologin {st st' : State} {outs outs' : List Out} (texts : List (List UInt8)) :
      PresenceRun set p ip .before st outs → ircOutLogindone st texts = .ok (st', outs') →
      PresenceRun set p ip .known st' (outs ++ outs')
  | replay {st st' : State} {outs outs' : List Out} {done rest : List (List UInt8)} :
      PresenceRun set p ip .known st outs → st.cmdList = done ++ rest →
      each (ircProcessInput set) st.ready done = .ok (st', outs') →
      PresenceRun set p ip .welcoming st'
        (outs ++ .sendStatus st.status :: welcomeLines st ++ outs')
  | wlcome {st st' : State} {outs outs' : List Out} (msg : List UInt8) :
      PresenceRun set p ip .known st outs → cmdWlcome set p st msg = .ok (st', outs') →
      PresenceRun set p ip .welcomed st' (outs ++ outs')

/-! ## What holds in their states -/

/-- The status is one of the three, and a message belongs to a busy user. -/
structure Consistent (st : State) : Prop where
  one : st.status &&& statusMask ∈ [statusBusy, statusNetfriends, statusAvailable]
  online : st.status &&& statusOnline ≠ 0
  away : st.away ≠ none → st.status &&& statusBusy ≠ 0

/-- The bits of a status, each with the bit of `C6_STATUS_*` for it. -/
def protocolBits : List (UInt8 × UInt8) :=
  [(statusOnline, 0x40), (statusBusy, 0x10), (statusNetfriends, 0x08), (statusAvailable, 0x04),
    (statusVisibleIp, 0x01)]

/-- A packet has the bits of a status and no others. -/
def Carries (packet status : UInt8) : Prop :=
  (∀ row ∈ protocolBits, packet &&& row.2 ≠ 0 ↔ status &&& row.1 ≠ 0) ∧
    packet &&& ~~~(protocolBits.foldl (fun bits row => bits ||| row.2) 0) = 0

/-- The status in a packet of `send status`. -/
def Out.statusPacket : Out → Option UInt8
  | .sendStatus status => some (C6.wireStatus status)
  | _ => none

def lastPacket (outs : List Out) : Option UInt8 := (outs.filterMap Out.statusPacket).getLast?

theorem carries_wireStatus (status : UInt8) : Carries (C6.wireStatus status) status := by
  unfold Carries
  simp only [protocolBits, List.forall_mem_cons]
  refine ⟨⟨?_, ?_, ?_, ?_, ?_, fun _ h => absurd h List.not_mem_nil⟩, ?_⟩
  all_goals revert status
  · exact byte_forall (by decide +kernel)
  · exact byte_forall (by decide +kernel)
  · exact byte_forall (by decide +kernel)
  · exact byte_forall (by decide +kernel)
  · exact byte_forall (by decide +kernel)
  · exact byte_forall (by decide +kernel)

theorem lastPacket_append (outs outs' : List Out) :
    lastPacket (outs ++ outs') = (lastPacket outs').or (lastPacket outs) := by
  unfold lastPacket
  rw [List.filterMap_append, List.getLast?_append]

theorem lastPacket_lines {outs : List Out} (h : ∀ o ∈ outs, o.statusPacket = none) :
    lastPacket outs = none := by
  unfold lastPacket
  rw [List.filterMap_eq_nil_iff.mpr h]
  rfl

/-! ## What the handlers do with it -/

/-- A handler keeps a status consistent and sends it on when it changes it. -/
def Tracks (st : State) (r : Wrote State) : Prop :=
  ∀ st' outs, r = .ok (st', outs) → Consistent st → Consistent st' ∧
    (lastPacket outs).getD (C6.wireStatus st.status) = C6.wireStatus st'.status

section Rules

variable {st : State} {r : Wrote State}

theorem tracks_error (st : State) (e : Halt × List Out) : Tracks st (.error e) := nofun

/-- A handler that leaves the status alone. -/
theorem tracks_same {st' : State} {outs : List Out} (hstatus : st'.status = st.status)
    (haway : st'.away = st.away) (h : ∀ o ∈ outs, o.statusPacket = none) :
    Tracks st (.ok (st', outs)) := by
  intro s outs' heq hst
  injection heq with heq
  injection heq with hs houts
  subst hs houts
  rw [lastPacket_lines h, hstatus]
  refine ⟨⟨?_, ?_, ?_⟩, rfl⟩
  · rw [hstatus]
    exact hst.one
  · rw [hstatus]
    exact hst.online
  · rw [hstatus, haway]
    exact hst.away

theorem tracks_say (st : State) {outs : List Out} (h : ∀ o ∈ outs, o.statusPacket = none) :
    Tracks st (say st outs) := tracks_same rfl rfl h

theorem tracks_ite {q : Prop} [Decidable q] {r' : Wrote State} (h : Tracks st r)
    (h' : Tracks st r') : Tracks st (if q then r else r') := by
  by_cases hq : q
  · rwa [if_pos hq]
  · rwa [if_neg hq]

theorem tracks_andThen {f : State → Wrote State} (hr : Tracks st r)
    (hf : ∀ s, Tracks s (f s)) : Tracks st (r.andThen f) := by
  intro st' outs h hst
  rcases andThen_eq_ok h with ⟨s, t, hs, ht, heq⟩
  injection heq with hst' houts
  subst hst' houts
  rcases hr s.1 s.2 hs hst with ⟨hconsistent, hpacket⟩
  rcases hf s.1 t.1 t.2 ht hconsistent with ⟨hconsistent', hpacket'⟩
  refine ⟨hconsistent', ?_⟩
  rw [← hpacket', ← hpacket, lastPacket_append]
  cases lastPacket t.2 <;> rfl

/-- A status that is sent when it has been set. -/
theorem tracks_send {status : UInt8} (away : Option (List UInt8)) {outs : List Out}
    (h : ∀ o ∈ outs, o.statusPacket = none)
    (hst : Consistent st → Consistent { st with status := status, away := away }) :
    Tracks st (.ok ({ st with status := status, away := away }, .sendStatus status :: outs)) := by
  intro s outs' heq hconsistent
  injection heq with heq
  injection heq with hs houts
  subst hs houts
  refine ⟨hst hconsistent, ?_⟩
  rw [← List.singleton_append, lastPacket_append, lastPacket_lines h]
  rfl

end Rules

/-! ### The status -/

section Status

variable (st : State)

theorem setMask_one {bit : UInt8} (h : bit ∈ [statusBusy, statusNetfriends, statusAvailable])
    (status : UInt8) :
    setMask status bit &&& statusMask = bit ∧
      setMask status bit &&& statusOnline = status &&& statusOnline := by
  simp only [List.mem_cons, List.not_mem_nil, or_false] at h
  revert status
  rcases h with rfl | rfl | rfl
  · exact byte_forall (by decide +kernel)
  · exact byte_forall (by decide +kernel)
  · exact byte_forall (by decide +kernel)

/-- One of the three is set; with a message it is the one for a busy user. -/
theorem consistent_setMask {bit : UInt8} {away : Option (List UInt8)}
    (h : bit ∈ [statusBusy, statusNetfriends, statusAvailable])
    (haway : away ≠ none → bit = statusBusy) (hst : Consistent st) :
    Consistent { st with status := setMask st.status bit, away := away } := by
  have hmask := setMask_one h st.status
  refine ⟨?_, ?_, fun hsome => ?_⟩
  · show setMask st.status bit &&& statusMask ∈ _
    rw [hmask.1]
    exact h
  · show setMask st.status bit &&& statusOnline ≠ 0
    rw [hmask.2]
    exact hst.online
  · show setMask st.status bit &&& statusBusy ≠ 0
    have hbusy : statusBusy = statusMask &&& statusBusy := rfl
    rw [hbusy, ← UInt8.and_assoc, hmask.1, haway hsome]
    decide

theorem tracks_busy (on : Bool) (msg : Option (List UInt8)) :
    Tracks st (ircStatusBusy st on msg) := by
  refine tracks_send _ (by simp [srvMode, reply, Out.statusPacket]) (consistent_setMask st ?_ ?_)
  · cases on <;> simp
  · cases on <;> simp

theorem tracks_onlyfriends (on : Bool) : Tracks st (ircStatusOnlyfriends st on) := by
  refine tracks_send _ (by simp [srvMode, reply, Out.statusPacket]) (consistent_setMask st ?_ ?_)
  · cases on <;> simp
  · exact fun h => absurd rfl h

theorem tracks_available : Tracks st (ircStatusAvailable st) := by
  have hnothing : ∀ s, Tracks s (.ok (s, [])) := fun s => tracks_same rfl rfl (by simp)
  exact tracks_andThen (tracks_ite (tracks_busy st false none) (hnothing st)) fun s =>
    tracks_ite (tracks_onlyfriends s false) (hnothing s)

theorem visibleIp_bits (on : Bool) (status : UInt8) :
    let status' := if on then status &&& ~~~statusVisibleIp else status ||| statusVisibleIp
    status' &&& statusMask = status &&& statusMask ∧
      status' &&& statusOnline = status &&& statusOnline ∧
      status' &&& statusBusy = status &&& statusBusy := by
  revert status
  cases on
  · exact byte_forall (by decide +kernel)
  · exact byte_forall (by decide +kernel)

theorem tracks_visibleip (on : Bool) : Tracks st (ircStatusVisibleip st on) := by
  have hbits := visibleIp_bits on st.status
  refine tracks_send st.away (by simp [srvMode, reply, Out.statusPacket]) fun hst => ?_
  refine ⟨?_, ?_, fun haway => ?_⟩
  · rw [hbits.1]
    exact hst.one
  · rw [hbits.2.1]
    exact hst.online
  · rw [hbits.2.2]
    exact hst.away haway

theorem tracks_nickMode (arg : Option (List UInt8)) (str mode : List UInt8) (plus : Bool) :
    Tracks st (Comandi.nickMode arg str mode plus st) := by
  induction mode generalizing st plus with
  | nil => exact tracks_say st (by simp)
  | cons m mode ih =>
      unfold Comandi.nickMode
      refine tracks_ite (ih st true) (tracks_ite (ih st false)
        (tracks_andThen ?_ fun s => ih s plus))
      refine tracks_ite ?_ (tracks_ite (tracks_onlyfriends st plus)
        (tracks_ite (tracks_visibleip st plus) (tracks_ite (tracks_same rfl rfl (by simp))
          (tracks_say st (by simp [reply, Out.statusPacket])))))
      split
      · exact tracks_busy st plus none
      · unfold textFrom
        split
        · exact tracks_error st _
        · exact tracks_busy st plus _

end Status

/-! ### The commands -/

section Commands

variable {set : Setup} {st : State} {str : List UInt8}

theorem tracks_addCommand {rest : Wrote State} (h : Tracks st rest) :
    Tracks st (Comandi.addCommand st str rest) :=
  tracks_ite h (tracks_same rfl rfl (by simp))

/-- What a line of the login does to a connection. -/
structure LoginStep (st st' : State) (outs : List Out) : Prop where
  status : st'.status = st.status
  away : st'.away = st.away
  cmdList : st'.cmdList = st.cmdList
  connFlags : ∃ flag ∈ [0, flagPass, flagNick, flagUser], st'.connFlags = st.connFlags ||| flag
  unsent : ∀ o ∈ outs, o.statusPacket = none

theorem loginStep_say (st : State) {outs : List Out} (h : ∀ o ∈ outs, o.statusPacket = none) :
    LoginStep st st outs :=
  ⟨rfl, rfl, rfl, ⟨0, List.mem_cons_self, (UInt8.or_zero).symm⟩, h⟩

theorem loginStep_doLogin (st s : State) (hstatus : s.status = st.status)
    (haway : s.away = st.away) (hlist : s.cmdList = st.cmdList)
    (hflags : s.connFlags = st.connFlags) {flag : UInt8}
    (hflag : flag ∈ [0, flagPass, flagNick, flagUser]) :
    ∃ st' outs, Comandi.doLogin s flag = .ok (st', outs) ∧ LoginStep st st' outs := by
  by_cases hlogin : s.loginCompleted = true
  · refine ⟨s, [], if_pos hlogin, hstatus, haway, hlist, ⟨0, List.mem_cons_self, ?_⟩, by simp⟩
    rw [hflags, UInt8.or_zero]
  · refine ⟨_, _, doLogin_eq (by simpa using hlogin) flag, hstatus, haway, hlist,
      ⟨flag, hflag, ?_⟩, ?_⟩
    · show s.connFlags ||| flag = _
      rw [hflags]
    · intro o ho
      split at ho
      · rw [List.mem_singleton.mp ho]
        rfl
      · exact absurd ho List.not_mem_nil

theorem loginStep_line (set : Setup) (st : State) (hline : LoginLine str) :
    ∃ st' outs, ircProcessInput set st str = .ok (st', outs) ∧ LoginStep st st' outs := by
  have hif : ∀ r : Wrote State, (∃ st' outs, r = .ok (st', outs) ∧ LoginStep st st' outs) →
      ∃ st' outs, (if st.loginCompleted = true then Comandi.loginDone st else r) =
        .ok (st', outs) ∧ LoginStep st st' outs := by
    intro r hr
    by_cases hlogin : st.loginCompleted = true
    · rw [if_pos hlogin]
      exact ⟨st, _, rfl, loginStep_say st (by simp [ircErrmsg, ircNotice, Out.statusPacket])⟩
    · rwa [if_neg hlogin]
  have herr : ∀ text, ∃ st' outs, say st [Comandi.errParam st text] = .ok (st', outs) ∧
      LoginStep st st' outs := fun text =>
    ⟨st, _, rfl, loginStep_say st (by simp [Comandi.errParam, reply, Out.statusPacket])⟩
  rcases hline with ⟨command, argv, hcommand, rfl | rfl | rfl⟩
  · rw [ircProcessInput_command hcommand]
    refine hif _ ?_
    cases argv with
    | nil => exact herr _
    | cons arg argv =>
        exact loginStep_doLogin st { st with pass := strlcpy arg } rfl rfl rfl rfl (by simp)
  · rw [ircProcessInput_command hcommand]
    refine hif _ ?_
    cases argv with
    | nil => exact herr _
    | cons arg argv =>
        exact loginStep_doLogin st { st with nick := strlcpy arg } rfl rfl rfl rfl (by simp)
  · rw [ircProcessInput_command hcommand]
    refine hif _ ?_
    rcases argv with _ | ⟨arg, _ | ⟨_, _ | _⟩⟩
    · exact herr _
    · exact herr _
    · exact herr _
    · exact loginStep_doLogin st { st with user := strlcpy arg } rfl rfl rfl rfl (by simp)

theorem tracks_login (hline : LoginLine str) : Tracks st (ircProcessInput set st str) := by
  rcases loginStep_line set st hline with ⟨st', outs, hrun, hstep⟩
  rw [hrun]
  exact tracks_same hstep.status hstep.away hstep.unsent

theorem statusPacket_ite {q : Prop} [Decidable q] {o o' : Out} (h : o.statusPacket = none)
    (h' : o'.statusPacket = none) : (if q then o else o').statusPacket = none := by
  by_cases hq : q
  · rwa [if_pos hq]
  · rwa [if_neg hq]

theorem chanLetter_statusPacket (st : State) (chan : List UInt8) (hasArg : Bool) (m : UInt8) :
    (Comandi.chanLetter st chan hasArg m).statusPacket = none := by
  have hreply : ∀ row args, (reply row args).statusPacket = none := fun _ _ => rfl
  exact statusPacket_ite (statusPacket_ite (hreply _ _) (hreply _ _))
    (statusPacket_ite (statusPacket_ite (hreply _ _) (hreply _ _))
      (statusPacket_ite (statusPacket_ite (hreply _ _) (hreply _ _))
        (statusPacket_ite (hreply _ _) (hreply _ _))))

theorem tracks_cMode (argv : List (List UInt8)) : Tracks st (Comandi.cMode set st argv str) := by
  refine tracks_addCommand ?_
  match argv with
  | [] => exact tracks_error st _
  | [_] =>
      exact tracks_ite (tracks_say st (by simp [reply, Out.statusPacket]))
        (tracks_say st (by simp [Comandi.errParam, reply, Out.statusPacket]))
  | who :: mode :: rest =>
      refine tracks_ite (tracks_nickMode st rest.head? str mode true)
        (tracks_ite (tracks_say st fun o ho => ?_) (tracks_say st (by simp)))
      rcases List.mem_map.mp ho with ⟨m, -, rfl⟩
      exact chanLetter_statusPacket st who _ m

theorem tracks_cAway (argv : List (List UInt8)) : Tracks st (Comandi.cAway set st argv str) := by
  refine tracks_addCommand ?_
  have hsay : ∀ s row args, Tracks s (say s [reply row args]) := fun s row args =>
    tracks_say s (by simp [reply, Out.statusPacket])
  cases argv with
  | nil => exact tracks_andThen (tracks_cMode _) fun s => hsay s _ _
  | cons arg argv => exact tracks_andThen (tracks_cMode _) fun s => hsay s _ _

theorem tracks_cStatus (st : State) (argv : List (List UInt8)) :
    Tracks st (Console.cStatus st argv) := by
  unfold Console.cStatus
  split
  · exact tracks_available st
  · exact tracks_busy st true none
  · exact tracks_onlyfriends st true
  · exact tracks_say st (by simp [Console.statusUsage, ircConsole, Out.statusPacket])

/-- `stato` on the console. -/
theorem stato_eq {to_ word : List UInt8} {rest : List (List UInt8)} (hto : skipColon to_ = console)
    (hword : lookupWord Console.table (skipColon word) = some .stato) :
    Comandi.cPrivmsg set st (to_ :: word :: rest) str =
      Comandi.addCommand st str (Console.cStatus st rest) := by
  have hloc : isLocChan console = true := rfl
  have hinput : ircConsoleInput set st (word :: rest) str = Console.cStatus st rest := by
    unfold ircConsoleInput
    simp only [hword]
    rfl
  unfold Comandi.cPrivmsg
  dsimp only
  rw [hto, if_pos hloc, if_pos rfl, hinput]

/-- A line about the status runs one of three handlers. -/
theorem presenceLine_cases (h : PresenceLine str) :
    (∃ arg argv, lineCommand str = some (.mode, arg :: argv)) ∨
    (∃ argv, lineCommand str = some (.away, argv)) ∨
    ∃ to_ word rest, lineCommand str = some (.privmsg, to_ :: word :: rest) ∧
      skipColon to_ = console ∧ lookupWord Console.table (skipColon word) = some .stato := by
  unfold PresenceLine at h
  split at h
  · rename_i arg argv heq
    exact .inl ⟨arg, argv, heq⟩
  · rename_i argv heq
    exact .inr (.inl ⟨argv, heq⟩)
  · rename_i to_ word rest heq
    exact .inr (.inr ⟨to_, word, rest, heq, h⟩)
  · exact h.elim

theorem tracks_presence (hline : PresenceLine str) : Tracks st (ircProcessInput set st str) := by
  rcases presenceLine_cases hline with
    ⟨arg, argv, hcommand⟩ | ⟨argv, hcommand⟩ | ⟨to_, word, rest, hcommand, hto, hword⟩
  · rw [ircProcessInput_command hcommand]
    exact tracks_cMode (arg :: argv)
  · rw [ircProcessInput_command hcommand]
    exact tracks_cAway argv
  · rw [ircProcessInput_command hcommand, Comandi.run, stato_eq hto hword]
    exact tracks_addCommand (tracks_cStatus st rest)

theorem tracks_line (hline : LoginLine str ∨ PresenceLine str) :
    Tracks st (ircProcessInput set st str) := by
  rcases hline with hline | hline
  · exact tracks_login hline
  · exact tracks_presence hline

theorem tracks_each {lines : List (List UInt8)} (hlines : ∀ str ∈ lines, PresenceLine str)
    (st : State) : Tracks st (each (ircProcessInput set) st lines) := by
  induction lines generalizing st with
  | nil => exact tracks_same rfl rfl (by simp)
  | cons str lines ih =>
      exact tracks_andThen (tracks_presence (hlines str List.mem_cons_self)) fun s =>
        ih (fun str hstr => hlines str (List.mem_cons_of_mem _ hstr)) s

end Commands

/-! ## Before the welcome -/

/-- The list holds lines about the status, and no message is set. -/
structure Unready (st : State) : Prop where
  flag : st.connFlags &&& flagReady = 0
  away : st.away = none
  lines : ∀ str ∈ st.cmdList, PresenceLine str

section Before

variable {set : Setup} {st st' : State} {str : List UInt8} {outs : List Out}

theorem Unready.connectionCompleted (h : Unready st) : st.connectionCompleted = false := by
  have hall : ∀ f : UInt8, f &&& flagReady = 0 →
      ¬f &&& (flagPass ||| flagNick ||| flagUser ||| flagReady) =
        flagPass ||| flagNick ||| flagUser ||| flagReady :=
    byte_forall (by decide +kernel)
  exact decide_eq_false (hall st.connFlags h.flag)

theorem or_loginFlag {flag : UInt8} (hflag : flag ∈ [0, flagPass, flagNick, flagUser])
    (f : UInt8) : f &&& flagReady = 0 → (f ||| flag) &&& flagReady = 0 := by
  simp only [List.mem_cons, List.not_mem_nil, or_false] at hflag
  revert f
  rcases hflag with rfl | rfl | rfl | rfl
  · exact byte_forall (by decide +kernel)
  · exact byte_forall (by decide +kernel)
  · exact byte_forall (by decide +kernel)
  · exact byte_forall (by decide +kernel)

/-- A line about the status waits. -/
theorem presence_waits (hst : st.connectionCompleted = false) (hline : PresenceLine str) :
    ircProcessInput set st str = .ok ({ st with cmdList := st.cmdList ++ [str] }, []) := by
  rcases presenceLine_cases hline with
    ⟨arg, argv, hcommand⟩ | ⟨argv, hcommand⟩ | ⟨to_, word, rest, hcommand, hto, hword⟩
  · rw [ircProcessInput_command hcommand]
    exact addCommand_waits hst _
  · rw [ircProcessInput_command hcommand]
    exact addCommand_waits hst _
  · rw [ircProcessInput_command hcommand, Comandi.run, stato_eq hto hword]
    exact addCommand_waits hst _

theorem Unready.line (h : Unready st) (hline : LoginLine str ∨ PresenceLine str)
    (hrun : ircProcessInput set st str = .ok (st', outs)) :
    Unready st' ∧ st'.status = st.status ∧ lastPacket outs = none := by
  rcases hline with hline | hline
  · rcases loginStep_line set st hline with ⟨s, o, hstep, hlogin⟩
    injection hrun.symm.trans hstep with heq
    injection heq with hst' houts
    subst hst' houts
    rcases hlogin.connFlags with ⟨flag, hflag, hflags⟩
    refine ⟨⟨?_, hlogin.away.trans h.away, ?_⟩, hlogin.status, lastPacket_lines hlogin.unsent⟩
    · rw [hflags]
      exact or_loginFlag hflag _ h.flag
    · rw [hlogin.cmdList]
      exact h.lines
  · rw [presence_waits h.connectionCompleted hline] at hrun
    injection hrun with heq
    injection heq with hst' houts
    subst hst' houts
    refine ⟨⟨h.flag, h.away, ?_⟩, rfl, rfl⟩
    intro s hs
    rcases List.mem_append.mp hs with hs | hs
    · exact h.lines s hs
    · rw [List.mem_singleton.mp hs]
      exact hline

end Before

/-! ## The runs -/

section Runs

variable {set : Setup} {p : Program} {ip : List UInt8} {ph : Phase} {st : State} {outs : List Out}

/-- What holds in the states of a run, as far as the server has got. -/
def PhaseInv (ph : Phase) (st : State) (outs : List Out) : Prop :=
  match ph with
  | .before => Unready st ∧ lastPacket outs = none
  | .known => Unready st ∧ Consistent st ∧ lastPacket outs = none
  | .welcoming | .welcomed => Consistent st ∧ lastPacket outs = some (C6.wireStatus st.status)

/-- A handler that tracks the status, behind a packet with it. -/
theorem Tracks.lastPacket {r : Wrote State} {st' : State} {outs' : List Out} (h : Tracks st r)
    (hrun : r = .ok (st', outs')) (hst : Consistent st)
    (hlast : lastPacket outs = some (C6.wireStatus st.status)) :
    Consistent st' ∧ lastPacket (outs ++ outs') = some (C6.wireStatus st'.status) := by
  rcases h st' outs' hrun hst with ⟨hconsistent, hpacket⟩
  refine ⟨hconsistent, ?_⟩
  rw [lastPacket_append, hlast, ← hpacket]
  cases IrC6.Irc.lastPacket outs' <;> rfl

/-- What `cmd_wlcome` puts out before the commands ends with the status as it is. -/
theorem lastPacket_greet (st : State) (outs : List Out) :
    lastPacket (outs ++ .sendStatus st.status :: welcomeLines st) =
      some (C6.wireStatus st.status) := by
  have hlines : lastPacket (welcomeLines st) = none := by
    refine lastPacket_lines fun o ho => ?_
    simp only [welcomeLines, Comandi.ircJoinConsole, reply, ircConsole, List.mem_cons,
      List.mem_append, List.mem_map, List.not_mem_nil, or_false] at ho
    rcases ho with rfl | ((rfl | rfl | rfl) | ⟨nl, -, rfl⟩) | rfl | rfl | rfl <;> rfl
  rw [← List.singleton_append, ← List.append_assoc, lastPacket_append, hlines, lastPacket_append]
  rfl

theorem lastPacket_append_none {outs outs' : List Out} (h : lastPacket outs = none)
    (h' : lastPacket outs' = none) : lastPacket (outs ++ outs') = none := by
  rw [lastPacket_append, h, h']
  rfl

theorem Consistent.ready (h : Consistent st) : Consistent st.ready := ⟨h.one, h.online, h.away⟩

variable {st' : State} {outs' : List Out}

theorem PhaseInv.line (h : PhaseInv ph st outs) (hph : ph ≠ .welcoming) {str : List UInt8}
    (hline : LoginLine str ∨ PresenceLine str)
    (hrun : ircProcessInput set st str = .ok (st', outs')) : PhaseInv ph st' (outs ++ outs') := by
  have htracks : Tracks st (ircProcessInput set st str) := tracks_line hline
  cases ph with
  | before =>
      rcases h with ⟨hunready, hlast⟩
      rcases hunready.line hline hrun with ⟨hunready', -, hlast'⟩
      exact ⟨hunready', lastPacket_append_none hlast hlast'⟩
  | known =>
      rcases h with ⟨hunready, hconsistent, hlast⟩
      rcases hunready.line hline hrun with ⟨hunready', -, hlast'⟩
      exact ⟨hunready', (htracks st' outs' hrun hconsistent).1,
        lastPacket_append_none hlast hlast'⟩
  | welcoming => exact absurd rfl hph
  | welcomed => exact htracks.lastPacket hrun h.1 h.2

theorem PhaseInv.infologin (h : PhaseInv .before st outs) {texts : List (List UInt8)}
    (hrun : ircOutLogindone st texts = .ok (st', outs')) : PhaseInv .known st' (outs ++ outs') := by
  rcases h with ⟨hunready, hlast⟩
  injection hrun with heq
  injection heq with hst' houts
  subst hst' houts
  refine ⟨⟨hunready.flag, hunready.away, hunready.lines⟩, ⟨?_, ?_, ?_⟩,
    lastPacket_append_none hlast (lastPacket_lines fun o ho => ?_)⟩
  · show (statusOnline ||| statusAvailable) &&& statusMask ∈ _
    decide
  · show (statusOnline ||| statusAvailable) &&& statusOnline ≠ 0
    decide
  · exact fun haway => absurd hunready.away haway
  · rcases List.mem_map.mp ho with ⟨text, -, rfl⟩
    rfl

theorem PhaseInv.replay (h : PhaseInv .known st outs) {done rest : List (List UInt8)}
    (hlines : st.cmdList = done ++ rest)
    (hrun : each (ircProcessInput set) st.ready done = .ok (st', outs')) :
    PhaseInv .welcoming st' (outs ++ .sendStatus st.status :: welcomeLines st ++ outs') := by
  rcases h with ⟨hunready, hconsistent, -⟩
  have hdone : ∀ str ∈ done, PresenceLine str := fun str hstr =>
    hunready.lines str (hlines ▸ List.mem_append_left rest hstr)
  exact (tracks_each hdone st.ready).lastPacket hrun hconsistent.ready (lastPacket_greet st outs)

theorem PhaseInv.wlcome (h : PhaseInv .known st outs) {msg : List UInt8}
    (hrun : cmdWlcome set p st msg = .ok (st', outs')) :
    PhaseInv .welcomed st' (outs ++ outs') := by
  rcases h with ⟨hunready, hconsistent, -⟩
  rcases andThen_eq_ok hrun with ⟨a, t, ha, ht, heq⟩
  injection ha with ha
  subst ha
  rcases ircOutWelcome_ok ht with ⟨c, hc, rfl⟩
  injection heq with hst' houts
  subst hst' houts
  have htracks := (tracks_each hunready.lines st.ready).lastPacket hc hconsistent.ready
    (lastPacket_greet st outs)
  refine ⟨⟨htracks.1.one, htracks.1.online, htracks.1.away⟩, ?_⟩
  simpa only [List.append_assoc, List.cons_append, List.nil_append] using htracks.2

theorem presence_inv (h : PresenceRun set p ip ph st outs) : PhaseInv ph st outs := by
  induction h with
  | start => exact ⟨⟨UInt8.zero_and, rfl, fun _ h => absurd h List.not_mem_nil⟩, rfl⟩
  | line _ hph hline hrun ih => exact ih.line hph hline hrun
  | infologin texts _ hrun ih => exact ih.infologin hrun
  | replay _ hlines hrun ih => exact ih.replay hlines hrun
  | wlcome msg _ hrun ih => exact ih.wlcome hrun

end Runs

/-! ## The lines come to their end -/

section Ends

variable {set : Setup} {st : State} {str : List UInt8}

theorem andThen_ok {σ τ : Type} {r : Wrote σ} {f : σ → Wrote τ} (hr : ∃ s, r = .ok s)
    (hf : ∀ s, ∃ t, f s = .ok t) : ∃ t, r.andThen f = .ok t := by
  rcases hr with ⟨s, rfl⟩
  rcases hf s.1 with ⟨t, ht⟩
  refine ⟨(t.1, s.2 ++ t.2), ?_⟩
  simp only [Wrote.andThen, ht]

theorem ok_ite {σ : Type} {q : Prop} [Decidable q] {r r' : Wrote σ} (h : ∃ s, r = .ok s)
    (h' : ∃ s, r' = .ok s) : ∃ s, (if q then r else r') = .ok s := by
  by_cases hq : q
  · rwa [if_pos hq]
  · rwa [if_neg hq]

/-- A mode whose argument is a word of the line. -/
theorem nickMode_ok {arg : Option (List UInt8)} (harg : ∀ a ∈ arg, a ∈ argsSep str)
    (mode : List UInt8) (plus : Bool) (st : State) :
    ∃ r, Comandi.nickMode arg str mode plus st = .ok r := by
  induction mode generalizing plus st with
  | nil => exact ⟨_, rfl⟩
  | cons m mode ih =>
      unfold Comandi.nickMode
      refine ok_ite (ih true st) (ok_ite (ih false st) (andThen_ok ?_ fun s => ih plus s))
      refine ok_ite ?_ (ok_ite ⟨_, rfl⟩ (ok_ite ⟨_, rfl⟩ (ok_ite ⟨_, rfl⟩ ⟨_, rfl⟩)))
      split
      · exact ⟨_, rfl⟩
      · rename_i a heq
        have hmem : a ∈ arg := by
          cases plus
          · nomatch heq
          · exact heq
        rcases (exists_strstr_arg (harg a hmem)).2 with ⟨found, hfound⟩
        simp only [textFrom, hfound]
        exact ⟨_, rfl⟩

theorem cMode_ok {arg : List UInt8} {argv : List (List UInt8)}
    (hargs : ∀ a ∈ (argv.drop 1).head?, a ∈ argsSep str) (st : State) :
    ∃ r, Comandi.cMode set st (arg :: argv) str = .ok r := by
  refine ok_ite ?_ ⟨_, rfl⟩
  cases argv with
  | nil => exact ok_ite ⟨_, rfl⟩ ⟨_, rfl⟩
  | cons mode rest => exact ok_ite (nickMode_ok hargs mode true st) (ok_ite ⟨_, rfl⟩ ⟨_, rfl⟩)

theorem cStatus_ok (st : State) (argv : List (List UInt8)) :
    ∃ r, Console.cStatus st argv = .ok r := by
  unfold Console.cStatus
  split
  · exact andThen_ok (ok_ite ⟨_, rfl⟩ ⟨_, rfl⟩) fun s => ok_ite ⟨_, rfl⟩ ⟨_, rfl⟩
  · exact ⟨_, rfl⟩
  · exact ⟨_, rfl⟩
  · exact ⟨_, rfl⟩

/-- The words behind a command are words of the line. -/
theorem mem_argsSep_of_lineCommand {command : Comandi.Command} {argv : List (List UInt8)}
    (h : lineCommand str = some (command, argv)) : ∀ a ∈ argv, a ∈ argsSep str := by
  rcases argsSep_of_lineCommand h with ⟨cmd, hargs⟩
  rw [hargs]
  exact fun a ha => List.mem_cons_of_mem _ ha

theorem presence_ok (st : State) (hline : PresenceLine str) :
    ∃ r, ircProcessInput set st str = .ok r := by
  rcases presenceLine_cases hline with
    ⟨arg, argv, hcommand⟩ | ⟨argv, hcommand⟩ | ⟨to_, word, rest, hcommand, hto, hword⟩
  · have hargs := mem_argsSep_of_lineCommand hcommand
    rw [ircProcessInput_command hcommand]
    refine cMode_ok (fun a ha => hargs a (List.mem_cons_of_mem _ ?_)) st
    exact List.mem_of_mem_drop (List.mem_of_head? ha)
  · have hargs := mem_argsSep_of_lineCommand hcommand
    rw [ircProcessInput_command hcommand]
    refine ok_ite ?_ ⟨_, rfl⟩
    cases argv with
    | nil => exact andThen_ok (cMode_ok (by simp) st) fun s => ⟨_, rfl⟩
    | cons arg argv =>
        refine andThen_ok (cMode_ok (fun a ha => ?_) st) fun s => ⟨_, rfl⟩
        injection ha with ha
        exact ha ▸ hargs arg List.mem_cons_self
  · rw [ircProcessInput_command hcommand, Comandi.run, stato_eq hto hword]
    exact ok_ite (cStatus_ok st rest) ⟨_, rfl⟩

end Ends

/-- From the end of the login on the status is consistent, the packet that was sent last has
its bits, and one has been sent when the user is welcomed.  Every line comes to its end. -/
theorem presence_consistent {set : Setup} {p : Program} {ip : List UInt8} {ph : Phase}
    {st : State} {outs : List Out} (h : PresenceRun set p ip ph st outs) (hph : ph ≠ .before) :
    Consistent st ∧ (∀ packet, lastPacket outs = some packet → Carries packet st.status) ∧
      (ph ≠ .known → (lastPacket outs).isSome = true) ∧
      ∀ str, PresenceLine str → ∃ r, ircProcessInput set st str = .ok r := by
  have hends : ∀ str, PresenceLine str → ∃ r, ircProcessInput set st str = .ok r :=
    fun str hline => presence_ok st hline
  have hinv := presence_inv h
  have hsent : lastPacket outs = some (C6.wireStatus st.status) →
      (∀ packet, lastPacket outs = some packet → Carries packet st.status) ∧
        (lastPacket outs).isSome = true := by
    intro hlast
    refine ⟨fun packet hpacket => ?_, by rw [hlast]; rfl⟩
    injection hlast.symm.trans hpacket with heq
    rw [← heq]
    exact carries_wireStatus st.status
  cases ph with
  | before => exact absurd rfl hph
  | known =>
      rcases hinv with ⟨-, hconsistent, hlast⟩
      refine ⟨hconsistent, fun packet hpacket => ?_, fun hknown => absurd rfl hknown, hends⟩
      rw [hlast] at hpacket
      nomatch hpacket
  | welcoming | welcomed =>
      rcases hsent hinv.2 with ⟨hcarries, hsome⟩
      exact ⟨hinv.1, hcarries, fun _ => hsome, hends⟩

/-- The user `io`, with some flags and a status. -/
def io (connFlags status : UInt8) : State :=
  { ircConnectionNew [] with
    nick := strlcpy (ascii "io"), user := strlcpy (ascii "io"), pass := strlcpy (ascii "x"),
    connFlags := connFlags, status := status }

theorem presence_consistent_io :
    ∃ st outs, PresenceRun noSetup ⟨[], []⟩ [] .welcomed st outs ∧ Consistent st ∧
      st.status = statusOnline ||| statusNetfriends ||| statusVisibleIp := by
  have hstart : PresenceRun noSetup ⟨[], []⟩ [] .before (ircConnectionNew []) [] := .start
  have hpass := hstart.line nofun (.inl ⟨.pass, [ascii "x"], rfl, .inl rfl⟩)
    (rfl : ircProcessInput noSetup _ (ascii "PASS x") = _)
  have hnick := hpass.line nofun (.inl ⟨.nick, [ascii "io"], rfl, .inr (.inl rfl)⟩)
    (rfl : ircProcessInput noSetup _ (ascii "NICK io") = _)
  have huser : PresenceRun noSetup ⟨[], []⟩ [] .before (io 7 0) [.silent .connect] :=
    hnick.line nofun (.inl ⟨.user, [ascii "io", ascii "0", ascii "*"], rfl, .inr (.inr rfl)⟩)
      (rfl : ircProcessInput noSetup _ (ascii "USER io 0 *") = _)
  have hwelcomed : PresenceRun noSetup ⟨[], []⟩ [] .welcomed (io 15 9) _ :=
    (huser.infologin [] rfl).wlcome [] rfl
  have hline : PresenceLine (ascii "MODE io +an-i") := trivial
  have hmode := hwelcomed.line nofun (.inr hline) rfl
  exact ⟨_, _, hmode, (presence_consistent hmode nofun).1, rfl⟩

end Irc
end IrC6
