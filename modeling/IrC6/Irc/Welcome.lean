import IrC6.Irc.Spares

/-!
# The commands before the welcome

A handler of a connection that is not completed puts its line into a list, and
`irc_out_welcome` runs the lines of the list.  `Waits` are the runs from the login to the
welcome: lines come, and between them packets of the server that change other things.  One
handler, `c_list`, does not wait.
-/

namespace IrC6
namespace Irc

/-! ## `irc_out_welcome` -/

/-- `VERSION`, and what `strftime` makes of the time at which irC6 was started. -/
structure Program where
  version : List UInt8
  started : List UInt8

/-- What is written before the modes: `IRC_NOTICE` and the rows of `reply` for a new client. -/
inductive Greeting where
  | notice
  | welcome
  | yourHost
  | created
  | myInfo
  | motdStart
  | motd
  | motdEnd
deriving DecidableEq, Repr

/-- A buffer as `%s` prints it. -/
def printed (buf : List UInt8) : List UInt8 := buf.takeWhile (· ≠ 0)

/-- The loop over the message of the day, with what stands between `msg` and `ptr`.  A `\r`
before a newline becomes the end of the text and the newline is kept for the next one;
without it the newline is the end. -/
def motdLines (linemax : Nat) : List UInt8 → List UInt8 → List (List UInt8)
  | buf, [] => if buf = [] then [] else [printed buf]
  | buf, b :: rest =>
      if b = 10 then
        if buf.getLast? = some 13 then printed buf.dropLast :: motdLines linemax [10] rest
        else printed buf :: motdLines linemax [0] rest
      else if buf.length = linemax then printed buf :: motdLines linemax [b] rest
      else motdLines linemax (buf ++ [b]) rest

def greeting (p : Program) (st : State) (msg : List UInt8) :
    List (Greeting × List (List UInt8)) :=
  let me := st.nick.text
  let motdhead := ascii ":" ++ serv ++ ascii " 372 " ++ me ++ ascii " :- "
  [(.notice, [serv, me, ascii "-"]), (.welcome, [serv, me, serv, me, st.user.text, st.ip]),
    (.yourHost, [serv, me, serv, p.version]), (.created, [serv, me, p.started]),
    (.myInfo, [serv, me, serv, p.version, ascii "aniwroOs", ascii "ovOkstlib"]),
    (.motdStart, [serv, me, serv])] ++
  (motdLines (80 - motdhead.length) [] msg).map (fun text => (.motd, [serv, me, text])) ++
  [(.motdEnd, [serv, me])]

/-- The flag that is set before the commands are run. -/
def State.ready (st : State) : State := { st with connFlags := st.connFlags ||| flagReady }

/-- The last loop of `irc_out_welcome`, which runs the commands of the list. -/
def runCommands (set : Setup) (st : State) : Wrote State :=
  (each (ircProcessInput set) st st.cmdList).andThen fun st => .ok ({ st with cmdList := [] }, [])

/-- The mode of the user and the console. -/
def welcomeLines (st : State) : List Out :=
  reply .srvMode [st.nick.text, st.nick.text, ascii "+O"] :: Comandi.ircJoinConsole st

/-- `irc_out_welcome`: what it greets with, and what it does then. -/
def ircOutWelcome (set : Setup) (p : Program) (st : State) (msg : List UInt8) :
    List (Greeting × List (List UInt8)) × Wrote State :=
  (greeting p st msg,
    (say st (welcomeLines st)).andThen fun st => runCommands set st.ready)

theorem ircOutWelcome_ok {set : Setup} {p : Program} {st : State} {msg : List UInt8}
    {t : State × List Out} (h : (ircOutWelcome set p st msg).2 = .ok t) :
    ∃ c, each (ircProcessInput set) st.ready st.cmdList = .ok c ∧
      t = ({ c.1 with cmdList := [] }, welcomeLines st ++ c.2) := by
  dsimp only [ircOutWelcome] at h
  rcases andThen_eq_ok h with ⟨a, b, ha, hb, rfl⟩
  injection ha with ha
  subst ha
  rcases andThen_eq_ok hb with ⟨c, d, hc, hd, rfl⟩
  injection hd with hd
  subst hd
  exact ⟨c, hc, by rw [List.append_nil]⟩

/-! ## What waits -/

/-- The commands other than `PASS`, `NICK`, `USER`, `PING`, `QUIT` and `SQUIT`. -/
def Comandi.Command.waits : Comandi.Command → Bool
  | .pass | .nick | .user | .ping | .quit | .squit => false
  | _ => true

/-- A line with a command that has to wait for the welcome. -/
def waits (str : List UInt8) : Bool :=
  match lineCommand str with
  | some (command, _) => command.waits
  | none => false

/-- A line of `LIST`. -/
def isList (str : List UInt8) : Bool :=
  match lineCommand str with
  | some (.list, _) => true
  | _ => false

/-- What sends to the server, or connects to it. -/
def Out.toServer : Out → Bool
  | .emit _ | .sendStatus _ | .silent .connect => true
  | _ => false

/-- A line, and what it made its handler do. -/
structure Received where
  str : List UInt8
  outs : List Out

/-- The runs of a connection before the welcome, with the lines that came.  The packets that
come in between change neither the flags nor the list of commands. -/
inductive Waits (set : Setup) (st₀ : State) : State → List Received → Prop where
  | start : Waits set st₀ st₀ []
  | line {st st' : State} {rs : List Received} {str : List UInt8} {outs : List Out} :
      Waits set st₀ st rs → ircProcessInput set st str = .ok (st', outs) →
      Waits set st₀ st' (rs ++ [⟨str, outs⟩])
  | server {st : State} {rs : List Received} (st' : State) :
      Waits set st₀ st rs → st'.connFlags = st.connFlags → st'.cmdList = st.cmdList →
      Waits set st₀ st' rs

/-- The lines that have to wait, in the order in which they came. -/
def waiting (rs : List Received) : List (List UInt8) := (rs.map (·.str)).filter waits

/-- The commands of a run have waited: none of their lines has sent anything to the server,
and the welcome runs just these lines behind those that were there before, one after the
other on a connection that is completed, and leaves none. -/
structure Deferred (set : Setup) (st₀ st : State) (rs : List Received) : Prop where
  unsent : ∀ r ∈ rs, waits r.str = true → ∀ o ∈ r.outs, o.toServer = false
  runs : ∀ p msg, (ircOutWelcome set p st msg).2 =
    (say st (welcomeLines st)).andThen fun st =>
      (each (ircProcessInput set) st.ready (st₀.cmdList ++ waiting rs)).andThen fun st =>
        .ok ({ st with cmdList := [] }, [])
  completed : ∀ done rest st' outs, st₀.cmdList ++ waiting rs = done ++ rest →
    each (ircProcessInput set) st.ready done = .ok (st', outs) →
      st'.connectionCompleted = true ∧ st'.cmdList = st₀.cmdList ++ waiting rs
  emptied : ∀ p msg st' outs, (ircOutWelcome set p st msg).2 = .ok (st', outs) → st'.cmdList = []

section Waiting

variable {set : Setup} {st : State} {str : List UInt8}

theorem loginCompleted_iff {st st' : State} (h : st'.connFlags = st.connFlags) :
    st'.loginCompleted = st.loginCompleted ∧ st'.connectionCompleted = st.connectionCompleted := by
  simp only [State.loginCompleted, State.connectionCompleted, h, and_self]

theorem ready_connectionCompleted (h : st.loginCompleted = true) :
    st.ready.connectionCompleted = true := by
  simp only [State.connectionCompleted, State.loginCompleted, State.ready, decide_eq_true_eq]
    at h ⊢
  have hready : ∀ f : UInt8,
      f &&& (flagPass ||| flagNick ||| flagUser) = flagPass ||| flagNick ||| flagUser →
      (f ||| flagReady) &&& (flagPass ||| flagNick ||| flagUser ||| flagReady) =
        flagPass ||| flagNick ||| flagUser ||| flagReady :=
    byte_forall (by decide +kernel)
  exact decide_eq_true (hready _ h)

/-- What a line does before the welcome, when it comes to its end. -/
structure BeforeWelcome (st st' : State) (str : List UInt8) (outs : List Out) : Prop where
  connFlags : st'.connFlags = st.connFlags
  cmdList : st'.cmdList =
    st.cmdList ++ if waits str = true ∧ isList str = false then [str] else []
  unsent : waits str = true → isList str = false → outs = []
  list : isList str = true → outs = [.emit .reqRoomlist]

theorem BeforeWelcome.same {st' : State} {outs : List Out} (hflags : st'.connFlags = st.connFlags)
    (hlist : st'.cmdList = st.cmdList) (hwaits : waits str = false) :
    BeforeWelcome st st' str outs where
  connFlags := hflags
  cmdList := by rw [hlist, hwaits]; simp
  unsent := fun h => by rw [hwaits] at h; nomatch h
  list := fun h => by
    unfold waits at hwaits
    unfold isList at h
    split at h
    · rename_i heq
      rw [heq] at hwaits
      nomatch hwaits
    · nomatch h

/-- A handler with `ADD_COMMAND` at its start. -/
theorem addCommand_waits (hst : st.connectionCompleted = false) (rest : Wrote State) :
    Comandi.addCommand st str rest = .ok ({ st with cmdList := st.cmdList ++ [str] }, []) := by
  rw [Comandi.addCommand, if_neg (by simp [hst])]

theorem beforeWelcome_run (hlogin : st.loginCompleted = true)
    (hst : st.connectionCompleted = false) {command : Comandi.Command} {argv : List (List UInt8)}
    (hcommand : lineCommand str = some (command, argv)) {st' : State} {outs : List Out}
    (h : Comandi.run set st argv str command = .ok (st', outs)) :
    BeforeWelcome st st' str outs := by
  have hwaits : waits str = command.waits := by simp only [waits, hcommand]
  have hsay : ∀ lines, command.waits = false → say st lines = .ok (st', outs) →
      BeforeWelcome st st' str outs := by
    intro lines hno heq
    have hkept := spares_say st lines st' outs heq
    exact .same (congrArg Login.connFlags hkept) (congrArg Login.cmdList hkept) (hwaits.trans hno)
  have hadd : ∀ rest, command.waits = true → isList str = false →
      Comandi.addCommand st str rest = .ok (st', outs) → BeforeWelcome st st' str outs := by
    intro rest hyes hnot heq
    rw [addCommand_waits hst] at heq
    injection heq with heq
    injection heq with hst' houts
    subst hst' houts
    exact ⟨rfl, by rw [if_pos ⟨hwaits.trans hyes, hnot⟩], fun _ _ => rfl,
      fun h => absurd (hnot.symm.trans h) nofun⟩
  have hnot : command ≠ .list → isList str = false := by
    intro hne
    unfold isList
    rw [hcommand]
    cases command <;> first | rfl | exact absurd rfl hne
  cases command with
  | pass | nick | user =>
      have hdone : Comandi.loginDone st = .ok (st', outs) := by
        rw [← h]
        exact (if_pos hlogin).symm
      exact hsay _ rfl hdone
  | ping => cases argv <;> exact hsay _ rfl h
  | quit => nomatch h
  | squit =>
      simp only [Comandi.run, Comandi.cSquit] at h
      split at h
      · nomatch h
      · exact hsay _ rfl h
  | mode | privmsg | ison | join | part | who | away | whois | mail =>
      exact hadd _ rfl (hnot nofun) h
  | list =>
      have hlist : isList str = true := by simp only [isList, hcommand]
      injection h with h
      injection h with hst' houts
      subst hst' houts
      exact ⟨rfl, by simp [hlist], fun _ h' => absurd (hlist.symm.trans h') nofun, fun _ => rfl⟩

theorem beforeWelcome_line (hlogin : st.loginCompleted = true)
    (hst : st.connectionCompleted = false) {st' : State} {outs : List Out}
    (h : ircProcessInput set st str = .ok (st', outs)) : BeforeWelcome st st' str outs := by
  rcases hcommand : lineCommand str with _ | ⟨command, argv⟩
  · rcases ircProcessInput_none set st hcommand with ⟨lines, heq⟩
    have hkept := spares_say st _ st' outs (heq.symm.trans h)
    exact .same (congrArg Login.connFlags hkept) (congrArg Login.cmdList hkept)
      (by simp only [waits, hcommand])
  · rw [ircProcessInput_command hcommand] at h
    exact beforeWelcome_run hlogin hst hcommand h

end Waiting

/-! ## The runs -/

section Runs

variable {set : Setup} {st₀ st : State} {rs : List Received}

theorem waiting_append (rs : List Received) (r : Received) :
    waiting (rs ++ [r]) = waiting rs ++ if waits r.str = true then [r.str] else [] := by
  rw [waiting, List.map_append, List.filter_append]
  congr 1
  by_cases h : waits r.str = true
  · rw [if_pos h]
    exact List.filter_cons_of_pos h
  · rw [if_neg h]
    exact List.filter_cons_of_neg h

theorem Waits.connFlags (hlogin : st₀.loginCompleted = true)
    (hst₀ : st₀.connectionCompleted = false) (h : Waits set st₀ st rs) :
    st.connFlags = st₀.connFlags := by
  induction h with
  | start => rfl
  | line _ hline ih =>
      have hsame := loginCompleted_iff ih
      have hstep := beforeWelcome_line (hsame.1.trans hlogin) (hsame.2.trans hst₀) hline
      exact hstep.connFlags.trans ih
  | server st' _ hflags _ ih => exact hflags.trans ih

/-- What each line of a run has done. -/
theorem Waits.line_of_mem (hlogin : st₀.loginCompleted = true)
    (hst₀ : st₀.connectionCompleted = false) (h : Waits set st₀ st rs) :
    ∀ r ∈ rs, ∃ s s', BeforeWelcome s s' r.str r.outs := by
  induction h with
  | start => exact fun r hr => absurd hr List.not_mem_nil
  | line hrun hline ih =>
      have hsame := loginCompleted_iff (hrun.connFlags hlogin hst₀)
      intro r hr
      rcases List.mem_append.mp hr with hr | hr
      · exact ih r hr
      · rw [List.mem_singleton.mp hr]
        exact ⟨_, _, beforeWelcome_line (hsame.1.trans hlogin) (hsame.2.trans hst₀) hline⟩
  | server st' _ _ _ ih => exact ih

/-- Without `LIST` the list holds the lines that have to wait. -/
theorem Waits.cmdList (hlogin : st₀.loginCompleted = true)
    (hst₀ : st₀.connectionCompleted = false) (h : Waits set st₀ st rs)
    (hlist : ∀ r ∈ rs, isList r.str = false) : st.cmdList = st₀.cmdList ++ waiting rs := by
  induction h with
  | start => exact (List.append_nil _).symm
  | @line _ _ rs str outs hrun hline ih =>
      have hsame := loginCompleted_iff (hrun.connFlags hlogin hst₀)
      have hstep := beforeWelcome_line (hsame.1.trans hlogin) (hsame.2.trans hst₀) hline
      have hnot : isList str = false := hlist ⟨str, outs⟩ (by simp)
      have ih := ih fun r hr => hlist r (List.mem_append_left _ hr)
      rw [hstep.cmdList, ih, waiting_append, List.append_assoc]
      simp only [hnot, and_true]
  | server st' _ _ hcmds ih => exact hcmds.trans (ih hlist)

/-- Lines that are run on a completed connection leave it and its list as they are. -/
theorem spares_each_completed (hst : st.connectionCompleted = true) {lines : List (List UInt8)}
    {t : State × List Out} (h : each (ircProcessInput set) st lines = .ok t) :
    t.1.connectionCompleted = true ∧ t.1.cmdList = st.cmdList := by
  induction lines generalizing st t with
  | nil =>
      injection h with h
      subst h
      exact ⟨hst, rfl⟩
  | cons str lines ih =>
      rcases andThen_eq_ok h with ⟨s, t, hs, ht, heq⟩
      subst heq
      have hkept := spares_ircProcessInput str hst set s.1 s.2 hs
      have hs1 : s.1.connectionCompleted = true :=
        (loginCompleted_iff (congrArg Login.connFlags hkept)).2.trans hst
      rcases ih hs1 ht with ⟨hcompleted, hcmds⟩
      exact ⟨hcompleted, hcmds.trans (congrArg Login.cmdList hkept)⟩

/-- The commands before the welcome wait for it if and only if none of them is `LIST`. -/
theorem deferred_iff (hlogin : st₀.loginCompleted = true)
    (hst₀ : st₀.connectionCompleted = false) (h : Waits set st₀ st rs) :
    Deferred set st₀ st rs ↔ ∀ r ∈ rs, isList r.str = false := by
  have hline := h.line_of_mem hlogin hst₀
  constructor
  · intro hdeferred r hr
    by_contra hlist
    have hlist : isList r.str = true := by simpa using hlist
    rcases hline r hr with ⟨s, s', hbefore⟩
    have hwaits : waits r.str = true := by
      by_contra hno
      unfold waits at hno
      unfold isList at hlist
      split at hlist
      · rename_i heq
        rw [heq] at hno
        exact hno rfl
      · nomatch hlist
    have hsent := hdeferred.unsent r hr hwaits
    rw [hbefore.list hlist] at hsent
    exact absurd (hsent _ List.mem_cons_self) nofun
  · intro hlist
    have hcmds := h.cmdList hlogin hst₀ hlist
    have hready : st.ready.connectionCompleted = true :=
      ready_connectionCompleted ((loginCompleted_iff (h.connFlags hlogin hst₀)).1.trans hlogin)
    refine ⟨?_, ?_, ?_, ?_⟩
    · intro r hr hwaits o ho
      rcases hline r hr with ⟨s, s', hbefore⟩
      rw [hbefore.unsent hwaits (hlist r hr)] at ho
      exact absurd ho List.not_mem_nil
    · intro p msg
      rw [← hcmds]
      rfl
    · intro done rest st' outs _ hrun
      rw [← hcmds]
      exact spares_each_completed hready hrun
    · intro p msg st' outs hrun
      rcases ircOutWelcome_ok hrun with ⟨c, -, heq⟩
      injection heq with hst' _
      rw [hst']

end Runs

/-- A user who has logged in. -/
def loggedIn : State := { welcomed with connFlags := flagPass ||| flagNick ||| flagUser }

/-- Two commands wait in the order in which they came. -/
theorem deferred_iff_joinPart :
    Deferred noSetup loggedIn
        { loggedIn with cmdList := [ascii "JOIN #a", ascii "PART #b"] }
        [⟨ascii "JOIN #a", []⟩, ⟨ascii "PART #b", []⟩] ↔
      ∀ r ∈ [(⟨ascii "JOIN #a", []⟩ : Received), ⟨ascii "PART #b", []⟩], isList r.str = false :=
  deferred_iff rfl rfl (.line (.line .start rfl) rfl)

theorem list_not_deferred :
    loggedIn.loginCompleted = true ∧ loggedIn.connectionCompleted = false ∧
      Waits noSetup loggedIn loggedIn [⟨ascii "LIST", [.emit .reqRoomlist]⟩] ∧
      waits (ascii "LIST") = true ∧
      ¬Deferred noSetup loggedIn loggedIn [⟨ascii "LIST", [.emit .reqRoomlist]⟩] := by
  refine ⟨rfl, rfl, .line .start rfl, rfl, ?_⟩
  intro h
  exact absurd (h.unsent _ List.mem_cons_self rfl _ List.mem_cons_self) nofun

end Irc
end IrC6
