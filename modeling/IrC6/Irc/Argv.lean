import IrC6.Irc.Spares

/-!
# The reads of `argv`

A handler gets `argc` and `argv`, compares `argc` with what it needs and then reads `argv` by
index.  The handlers of `comandi.c`, `console.c` and `searchusr.c` stand here with these
comparisons and reads, where `Comandi`, `Console` and `Searchusr` take the words apart by
pattern.  A read that is not below `argc` ends the handler with `noArg`.
-/

namespace IrC6
namespace Irc
namespace Indexed

/-! ## Reads -/

section Reads

variable {σ : Type}

/-- A read of `argv[i]`, with what comes behind it.  `argc` is the length of `argv`. -/
def argAt (argv : List (List UInt8)) (i : Nat) (f : List UInt8 → Wrote σ) : Wrote σ :=
  match argv[i]? with
  | none => .error (.noArg, [])
  | some arg => f arg

/-- `(argc > i) ? argv[i] : NULL`. -/
def argOrNull (argv : List (List UInt8)) (i : Nat) (f : Option (List UInt8) → Wrote σ) :
    Wrote σ :=
  if i < argv.length then argAt argv i fun arg => f (some arg) else f none

/-- The turns of `for (i = 0; i < argc; i++)` from `i` on, with the number of them. -/
def forArgsFrom (turn : σ → List UInt8 → Wrote σ) (argv : List (List UInt8)) :
    Nat → Nat → σ → Wrote σ
  | 0, _, s => .ok (s, [])
  | n + 1, i, s =>
      (argAt argv i (turn s)).andThen fun s => forArgsFrom turn argv n (i + 1) s

def forArgs (turn : σ → List UInt8 → Wrote σ) (s : σ) (argv : List (List UInt8)) : Wrote σ :=
  forArgsFrom turn argv argv.length 0 s

end Reads

/-! ## `console.c` -/

namespace Console

open Irc.Console

section Handlers

variable (refuses : Refusal) (c : Conn) (st : State) (argv : List (List UInt8))
  (str : List UInt8)

/-- A loop over the nicks, with the request that comes before it. -/
def withNicks (req : List UInt8 → List (List UInt8) → C6.Request)
    (turn : Conn → List UInt8 → Wrote Conn) : Wrote Conn :=
  if argv.length < 1 then .ok (c, noNick)
  else argAt argv 0 fun arg =>
    writeFirst [.emit (req arg argv.tail)] (forArgs turn c argv)

def cAdd : Wrote Conn := withNicks c argv .reqUsers (addNick refuses)

def cDel : Wrote Conn := withNicks c argv .delUsers delNick

def cIgnore : Wrote Conn := withNicks c argv .reqUsers (ignoreNick refuses)

def cUnignore : Wrote Unignore :=
  let u : Unignore := { conn := c, nl := none, used := [] }
  if argv.length < 1 then .ok (u, noNick) else forArgs unignoreNick u argv

def unignore : Wrote State :=
  st.onConn ((cUnignore st.conn argv).map fun r => (r.1.conn, r.2))

def cUserinfo : Wrote State :=
  if argv.length < 1 then say st noNick
  else forArgs (fun st arg => say st (askInfo arg)) st argv

def cStyle : Wrote State :=
  if argv.length < 1 then say st [ircConsole (ascii "specificare un argomento; vedere `stile ?'")]
  else argAt argv 0 fun arg =>
    if arg = ascii "?" then .error (.uninitialised, [])
    else
      let style := (strtoul arg).toUInt32
      say st (.silent (.setStyle style) ::
        if style ≠ 4294967295 ∧ style ≤ 12 then []
        else [ircConsole (ascii
          "argomento non valido; usare `stile ?' per la lista di argomenti accettati")])

/-- `c_roomenc` and `c_roomdec`. -/
def translate (f : List UInt8 → List UInt8) : Wrote State :=
  if argv.length < 1 then say st [ircConsole (ascii "specificare una stanza")]
  else argAt argv 0 fun arg =>
    textFrom str arg fun ptr => say st [ircConsole (ptr ++ ascii " ---> " ++ f ptr)]

def cRoomenc : Wrote State := translate st argv str ircRoomEncode

def cRoomdec : Wrote State := translate st argv str ircRoomDecode

def cNewroom : Wrote State :=
  if argv.length < 2 then say st newroomUsage
  else argAt argv 1 fun kind =>
    match roomKind kind with
    | none => say st newroomUsage
    | some pub => argAt argv 0 fun room =>
        let droom := ircRoomDecode room
        if 2 < argv.length then
          argAt argv 2 fun word =>
            textFrom str word fun topic => say st [.emit (.createRoom droom pub topic)]
        else say st [.emit (.createRoom droom pub droom)]

def cMail : Wrote State :=
  if argv.length < 2 then say st [ircConsole (ascii "usare: mail <nick> <messaggio>")]
  else argAt argv 1 fun word =>
    textFrom str word fun msg => argAt argv 0 fun to_ =>
      say st [.emit (.sendOfmsg to_ (skipColon msg))]

def cStatus : Wrote State :=
  if 0 < argv.length then
    argAt argv 0 fun arg =>
      match arg with
      | 100 :: _ => ircStatusAvailable st
      | 111 :: _ => ircStatusBusy st true none
      | 97 :: _ => ircStatusOnlyfriends st true
      | _ => say st statusUsage
  else say st statusUsage

end Handlers

/-- The call through the table of `cmd_console`. -/
def run (set : Setup) (st : State) (argv : List (List UInt8)) (str : List UInt8) :
    Command → Wrote State
  | .aiuto => say st (set.consoleWords.map fun row => ircConsole (row.1 ++ ascii ": " ++ row.2))
  | .agg => st.onConn (cAdd set.refuses st.conn argv)
  | .canc => st.onConn (cDel st.conn argv)
  | .lnAgg => st.onConn (cIgnore set.refuses st.conn argv)
  | .lnCanc => unignore st argv
  | .profilo => cUserinfo st argv
  | .stato => cStatus st argv
  | .stile => cStyle st argv
  | .stanzaCod => cRoomenc st argv str
  | .stanzaDecod => cRoomdec st argv str
  | .creaStanza => cNewroom st argv str
  | .mail => cMail st argv str
  | .cerca => cSearchnicks st

end Console

def ircConsoleInput (set : Setup) (st : State) (argv : List (List UInt8)) (str : List UInt8) :
    Wrote State :=
  if 0 < argv.length then
    argAt argv 0 fun arg =>
      match lookupWord Irc.Console.table (skipColon arg) with
      | none => say st [ircConsole (skipColon arg ++ ascii ": comando sconosciuto")]
      | some command => Console.run set st argv.tail str command
  else say st []

/-! ## `searchusr.c` -/

namespace Searchusr

open Irc.Searchusr

section Handlers

variable (u : Userinfo) (st : State) (argv : List (List UInt8))

def cCheckword : Wrote State :=
  if argv.length < 3 then say st checkUsage
  else argAt argv 1 fun sign =>
    if sign ≠ ascii "=" then say st checkUsage
    else argAt argv 0 fun arg => argAt argv 2 fun value =>
      let field := skipColon arg
      say st (.silent (.setSearch field value) ::
        match u.getid field with
        | none => [ircSearchmsg (field ++ ascii ": campo sconosciuto")]
        | some id =>
            if u.getval id value = none then
              [ircSearchmsg (value ++ ascii ": valore non valido per " ++ field)]
            else [])

def cList : Wrote State :=
  if argv.length = 0 then
    say st (u.fields.mapIdx fun i field =>
      ircSearchmsg (ascii "  [" ++ decimal i ++ ascii "] " ++ field))
  else forArgs (fun st arg => say st (listField u arg)) st argv

def cEmail : Wrote State :=
  if argv.length ≤ 0 then say st [ircSearchmsg (ascii "specificare almeno un indirizzo email")]
  else forArgs (fun st arg => say st [.emit (.ufindByEmail arg)]) st argv

def cAdd (refuses : Refusal) : Wrote State :=
  if argv.length < 1 then say st [ircSearchmsg (ascii "specificare almeno un nick")]
  else st.onConn (argAt argv 0 fun arg =>
    writeFirst [.emit (.reqUsers arg argv.tail)] (forArgs (addNick refuses) st.conn argv))

end Handlers

/-- The call through the table of `cmd_searchusr`. -/
def run (set : Setup) (st : State) (argv : List (List UInt8)) : Command → Wrote State
  | .aiuto => say st (help set.searchWords)
  | .lista => cList set.userinfo st argv
  | .email => cEmail st argv
  | .mostra => cShowconf set.userinfo st
  | .rifai => cReset st
  | .cerca => cSearch st
  | .agg => cAdd st argv set.refuses

end Searchusr

def ircSearchusrInput (set : Setup) (st : State) (argv : List (List UInt8)) : Wrote State :=
  if 0 < argv.length then
    argAt argv 0 fun arg =>
      match lookupWord Irc.Searchusr.table (skipColon arg) with
      | none => Searchusr.cCheckword set.userinfo st argv
      | some command => Searchusr.run set st argv.tail command
  else say st []

/-! ## `comandi.c` -/

namespace Comandi

open Irc.Comandi

section Handlers

variable (set : Setup) (st : State) (argv : List (List UInt8)) (str : List UInt8)

def cNick : Wrote State :=
  if st.loginCompleted then loginDone st
  else if 0 < argv.length then
    argAt argv 0 fun arg => doLogin { st with nick := strlcpy arg } flagNick
  else say st [errParam st "NICK"]

def cPass : Wrote State :=
  if st.loginCompleted then loginDone st
  else if 0 < argv.length then
    argAt argv 0 fun arg => doLogin { st with pass := strlcpy arg } flagPass
  else say st [errParam st "PASS"]

def cUser : Wrote State :=
  if st.loginCompleted then loginDone st
  else if argv.length < 3 then say st [errParam st "USER"]
  else argAt argv 0 fun arg => doLogin { st with user := strlcpy arg } flagUser

def cPing : Wrote State :=
  if argv.length < 1 then say st [errParam st "PING"]
  else argAt argv 0 fun arg => say st [reply .pong [serv, serv, skipColon arg]]

/-- `c_mode`, whose first comparison is also true of no words at all. -/
def cMode : Wrote State :=
  addCommand st str <|
    if argv.length < 2 then
      argAt argv 0 fun chan =>
        if isChannel chan then
          say st [reply .chanModeIs [serv, st.nick.text, chan, ascii "+", []],
            reply .creationTime [serv, st.nick.text, chan, decimal set.srvTime]]
        else say st [errParam st "MODE"]
    else argAt argv 0 fun who =>
      if st.nick.text = who then
        argAt argv 1 fun mode => argOrNull argv 2 fun arg => nickMode arg str mode true st
      else if isChannel who then
        argAt argv 1 fun mode => argOrNull argv 2 fun arg =>
          Irc.Comandi.chanMode st who mode arg.isSome
      else say st []

def cAway : Wrote State :=
  addCommand st str <|
    if 0 < argv.length then
      argAt argv 0 fun arg => (cMode set st [st.nick.text, ascii "+a", arg] str).andThen fun st =>
        say st [reply .nowAway [serv, st.nick.text]]
    else (cMode set st [st.nick.text, ascii "-a"] str).andThen fun st =>
      say st [reply .unAway [serv, st.nick.text]]

def cPrivmsg : Wrote State :=
  addCommand st str <|
    if argv.length < 2 then say st [errParam st "PRIVMSG"]
    else argAt argv 0 fun to_ =>
      let arg0 := skipColon to_
      if isLocChan arg0 then
        if arg0 = console then ircConsoleInput set st argv.tail str
        else if arg0 = searchUsr then ircSearchusrInput set st argv.tail
        else say st []
      else argAt argv 1 fun word =>
        textFrom str word fun msg =>
          say st [.emit (if isRemChan arg0 then .sendRoommsg (ircRoomDecode arg0) (skipColon msg)
            else .sendMsg to_ (skipColon msg))]

/-- `c_ison`, which writes to `argv[0]` before its loop. -/
def cIson : Wrote State :=
  addCommand st str <|
    if 0 < argv.length then
      argAt argv 0 fun arg =>
        let argv := argv.set 0 (skipColon arg)
        st.onConn (argAt argv 0 fun arg =>
          writeFirst [.emit (.reqUsers arg argv.tail)] (forArgs (addNick set.refuses) st.conn argv))
    else say st [errParam st "ISON"]

def cPart : Wrote State :=
  addCommand st str <|
    if argv.length < 1 then say st [errParam st "PART"]
    else argAt argv 0 fun arg => each partOne st (chanTokens arg)

def cJoin : Wrote State :=
  addCommand st str <|
    if argv.length < 1 then say st [errParam st "JOIN"]
    else argAt argv 0 fun arg => say st ((chanTokens arg).flatMap joinOne)

def cWho : Wrote State :=
  let all := whoConsole st ++ whoSearchusr st ++ whoAllchan st ++
    [reply .endWhoReply [serv, st.nick.text, ascii "*"]]
  addCommand st str <|
    if argv.length = 0 then say st all
    else argAt argv 0 fun arg =>
      if arg = ascii "0" then say st all else say st ((strsep (· = 44) arg).flatMap (whoOne st))

def cWhois : Wrote State :=
  addCommand st str <|
    if argv.length < 1 then say st [errParam st "WHOIS"]
    else forArgs (fun st nick =>
      say st [.connect .guiUserInfo .whois, .emit (.reqUserinfo nick)]) st argv

def cMail : Wrote State :=
  addCommand st str <|
    if argv.length < 2 then say st [errParam st "MAIL"]
    else argAt argv 1 fun word =>
      textFrom str word fun msg => argAt argv 0 fun to_ =>
        say st [.emit (.sendOfmsg to_ (skipColon msg))]

end Handlers

/-- The call through the table of `cmd_list`. -/
def run (set : Setup) (st : State) (argv : List (List UInt8)) (str : List UInt8) :
    Command → Wrote State
  | .pass => cPass st argv
  | .nick => cNick st argv
  | .user => cUser st argv
  | .ping => cPing st argv
  | .mode => cMode set st argv str
  | .quit => cQuit st
  | .squit => cSquit st set.canSquit
  | .privmsg => cPrivmsg set st argv str
  | .ison => cIson set st argv str
  | .join => cJoin st argv str
  | .part => cPart st argv str
  | .who => cWho st argv str
  | .away => cAway set st argv str
  | .whois => cWhois st argv str
  | .mail => cMail st argv str
  | .list => cList st

end Comandi

/-- `irc_process_input`. -/
def ircProcessInput (set : Setup) (st : State) (str : List UInt8) : Wrote State :=
  let argv := argsSep str
  if 0 < argv.length then
    argAt argv 0 fun cmd =>
      match lookupWord Irc.Comandi.table cmd with
      | none => say st [reply .unkCmd [serv, st.nick.text, cmd]]
      | some command => Comandi.run set st argv.tail str command
  else say st []

/-! ## The same handlers -/

section Same

theorem argAt_zero {σ : Type} (arg : List UInt8) (argv : List (List UInt8))
    (f : List UInt8 → Wrote σ) : argAt (arg :: argv) 0 f = f arg := rfl

/-- From `i` on the loop works on the words behind `i`. -/
theorem forArgsFrom_eq {σ : Type} (turn : σ → List UInt8 → Wrote σ)
    (argv : List (List UInt8)) (n i : Nat) (s : σ) (h : i + n = argv.length) :
    forArgsFrom turn argv n i s = each turn s (argv.drop i) := by
  induction n generalizing i s with
  | zero =>
      rw [List.drop_eq_nil_of_le (by omega)]
      rfl
  | succ n ih =>
      have hi : i < argv.length := by omega
      rw [List.drop_eq_getElem_cons hi, forArgsFrom, each, argAt, List.getElem?_eq_getElem hi]
      simp only [fun s => ih (i + 1) s (by omega)]

theorem forArgs_eq {σ : Type} (turn : σ → List UInt8 → Wrote σ) (s : σ)
    (argv : List (List UInt8)) : forArgs turn s argv = each turn s argv := by
  rw [forArgs, forArgsFrom_eq turn argv argv.length 0 s (Nat.zero_add _), List.drop_zero]

/-- Turns that only write. -/
theorem each_say (st : State) {β : Type} (f : β → List Out) (bs : List β) :
    each (fun st b => say st (f b)) st bs = say st (bs.flatMap f) := by
  induction bs with
  | nil => rfl
  | cons b bs ih =>
      rw [each, List.flatMap_cons]
      simp only [say, Wrote.andThen]
      rw [show each (fun st b => .ok (st, f b)) st bs = .ok (st, bs.flatMap f) from ih]

variable (set : Setup) (st : State) (argv : List (List UInt8)) (str : List UInt8)

namespace Console

theorem withNicks_eq (c : Conn) (req : List UInt8 → List (List UInt8) → C6.Request)
    (turn : Conn → List UInt8 → Wrote Conn) (arg : List UInt8) :
    withNicks c (arg :: argv) req turn =
      writeFirst [.emit (req arg argv)] (each turn c (arg :: argv)) := by
  rw [withNicks, if_neg (by simp), argAt_zero, forArgs_eq, List.tail_cons]

theorem run_eq (command : Irc.Console.Command) :
    run set st argv str command = Irc.Console.run set st argv str command := by
  cases command with
  | aiuto | cerca => rfl
  | agg =>
      rcases argv with _ | ⟨arg, argv⟩
      · rfl
      · simp only [run, cAdd, withNicks_eq]
        rfl
  | canc =>
      rcases argv with _ | ⟨arg, argv⟩
      · rfl
      · simp only [run, cDel, withNicks_eq]
        rfl
  | lnAgg =>
      rcases argv with _ | ⟨arg, argv⟩
      · rfl
      · simp only [run, cIgnore, withNicks_eq]
        rfl
  | lnCanc =>
      rcases argv with _ | ⟨arg, argv⟩
      · rfl
      · simp only [run, unignore, cUnignore, forArgs_eq]
        rfl
  | profilo =>
      rcases argv with _ | ⟨arg, argv⟩
      · rfl
      · simp only [run, cUserinfo, forArgs_eq, each_say]
        rfl
  | stato =>
      rcases argv with _ | ⟨arg, argv⟩
      · rfl
      · simp only [run, cStatus, Irc.Console.run, Irc.Console.cStatus, argAt_zero]
        rw [if_pos (by simp)]
        split <;> simp_all
  | stile | stanzaCod | stanzaDecod => rcases argv with _ | ⟨arg, argv⟩ <;> rfl
  | creaStanza =>
      rcases argv with _ | ⟨room, _ | ⟨kind, _ | ⟨word, argv⟩⟩⟩ <;> rfl
  | mail => rcases argv with _ | ⟨to_, _ | ⟨word, argv⟩⟩ <;> rfl

end Console

theorem ircConsoleInput_eq :
    ircConsoleInput set st argv str = Irc.ircConsoleInput set st argv str := by
  rcases argv with _ | ⟨arg, argv⟩
  · rfl
  · simp only [ircConsoleInput, Irc.ircConsoleInput, argAt_zero, List.tail_cons, Console.run_eq]
    exact if_pos (by simp)

namespace Searchusr

theorem cCheckword_eq (u : Userinfo) :
    cCheckword u st argv = Irc.Searchusr.cCheckword u st argv := by
  rcases argv with _ | ⟨arg, _ | ⟨sign, _ | ⟨value, argv⟩⟩⟩ <;> rfl

theorem run_eq (command : Irc.Searchusr.Command) :
    run set st argv command = Irc.Searchusr.run set st argv command := by
  cases command with
  | aiuto | mostra | rifai | cerca => rfl
  | lista =>
      rcases argv with _ | ⟨arg, argv⟩
      · rfl
      · simp only [run, cList, forArgs_eq, each_say]
        rfl
  | email =>
      rcases argv with _ | ⟨arg, argv⟩
      · rfl
      · simp only [run, cEmail, forArgs_eq, each_say, ← List.map_eq_flatMap]
        rfl
  | agg =>
      rcases argv with _ | ⟨arg, argv⟩
      · rfl
      · simp only [run, cAdd, forArgs_eq]
        rfl

end Searchusr

theorem ircSearchusrInput_eq :
    ircSearchusrInput set st argv = Irc.ircSearchusrInput set st argv := by
  rcases argv with _ | ⟨arg, argv⟩
  · rfl
  · simp only [ircSearchusrInput, Irc.ircSearchusrInput, argAt_zero, List.tail_cons,
      Searchusr.cCheckword_eq, Searchusr.run_eq]
    exact if_pos (by simp)

namespace Comandi

theorem cMode_eq : cMode set st argv str = Irc.Comandi.cMode set st argv str := by
  rcases argv with _ | ⟨who, _ | ⟨mode, _ | ⟨arg, argv⟩⟩⟩ <;> rfl

theorem cAway_eq : cAway set st argv str = Irc.Comandi.cAway set st argv str := by
  rcases argv with _ | ⟨arg, argv⟩ <;> simp only [cAway, cMode_eq] <;> rfl

theorem cPrivmsg_eq : cPrivmsg set st argv str = Irc.Comandi.cPrivmsg set st argv str := by
  rcases argv with _ | ⟨to_, _ | ⟨word, argv⟩⟩
  · rfl
  · rfl
  · simp only [cPrivmsg, ircConsoleInput_eq, ircSearchusrInput_eq]
    rfl

theorem run_eq (command : Irc.Comandi.Command) :
    run set st argv str command = Irc.Comandi.run set st argv str command := by
  cases command with
  | quit | squit | list => rfl
  | nick | pass | ping | part | join | who => rcases argv with _ | ⟨arg, argv⟩ <;> rfl
  | user => rcases argv with _ | ⟨arg, _ | ⟨_, _ | ⟨_, argv⟩⟩⟩ <;> rfl
  | mode => exact cMode_eq set st argv str
  | away => exact cAway_eq set st argv str
  | privmsg => exact cPrivmsg_eq set st argv str
  | ison =>
      rcases argv with _ | ⟨arg, argv⟩
      · rfl
      · simp only [run, cIson, forArgs_eq]
        rfl
  | whois =>
      rcases argv with _ | ⟨arg, argv⟩
      · rfl
      · simp only [run, cWhois, forArgs_eq, each_say]
        rfl
  | mail => rcases argv with _ | ⟨to_, _ | ⟨word, argv⟩⟩ <;> rfl

end Comandi

theorem ircProcessInput_eq : ircProcessInput set st str = Irc.ircProcessInput set st str := by
  unfold ircProcessInput Irc.ircProcessInput
  dsimp only
  rcases argsSep str with _ | ⟨cmd, argv⟩
  · rfl
  · simp only [argAt_zero, List.tail_cons, Comandi.run_eq]
    exact if_pos (by simp)

end Same

/-! ## Reads below `argc` -/

/-- No read of `argv` is outside. -/
def InBounds {σ : Type} (r : Wrote σ) : Prop := ∀ outs, r ≠ .error (.noArg, outs)

section Rules

variable {σ τ : Type}

theorem inBounds_ok (r : σ × List Out) : InBounds (.ok r : Wrote σ) := nofun

theorem inBounds_say (st : State) (outs : List Out) : InBounds (say st outs) := nofun

theorem inBounds_error {halt : Halt} (h : halt ≠ .noArg) (outs : List Out) :
    InBounds (.error (halt, outs) : Wrote σ) := by
  intro outs' heq
  injection heq with heq
  injection heq with heq
  exact h heq

/-- A comparison is known to both of its branches. -/
theorem inBounds_ite {p : Prop} [Decidable p] {r r' : Wrote σ} (h : p → InBounds r)
    (h' : ¬p → InBounds r') : InBounds (if p then r else r') := by
  by_cases hp : p
  · rw [if_pos hp]
    exact h hp
  · rw [if_neg hp]
    exact h' hp

theorem inBounds_argAt {argv : List (List UInt8)} {i : Nat} {f : List UInt8 → Wrote σ}
    (hi : i < argv.length) (hf : ∀ arg, InBounds (f arg)) : InBounds (argAt argv i f) := by
  rw [argAt, List.getElem?_eq_getElem hi]
  exact hf _

theorem inBounds_argOrNull {argv : List (List UInt8)} {i : Nat}
    {f : Option (List UInt8) → Wrote σ} (hf : ∀ arg, InBounds (f arg)) :
    InBounds (argOrNull argv i f) :=
  inBounds_ite (fun hi => inBounds_argAt hi fun arg => hf (some arg)) fun _ => hf none

theorem inBounds_andThen {r : Wrote σ} {f : σ → Wrote τ} (hr : InBounds r)
    (hf : ∀ s, InBounds (f s)) : InBounds (r.andThen f) := by
  intro outs heq
  rcases r with ⟨halt, outs'⟩ | ⟨s, outs'⟩
  · injection heq with heq
    injection heq with heq _
    exact hr outs' (heq ▸ rfl)
  · unfold Wrote.andThen at heq
    dsimp only at heq
    rcases hs : f s with ⟨halt, outs''⟩ | t
    · rw [hs] at heq
      injection heq with heq
      injection heq with heq _
      exact hf s outs'' (heq ▸ hs)
    · rw [hs] at heq
      nomatch heq

theorem inBounds_each {β : Type} {turn : σ → β → Wrote σ} (h : ∀ s b, InBounds (turn s b))
    (s : σ) (bs : List β) : InBounds (each turn s bs) := by
  induction bs generalizing s with
  | nil => exact inBounds_ok _
  | cons b bs ih => exact inBounds_andThen (h s b) ih

/-- The index of the loop stays below `argc`. -/
theorem inBounds_forArgs {turn : σ → List UInt8 → Wrote σ} (h : ∀ s arg, InBounds (turn s arg))
    (s : σ) (argv : List (List UInt8)) : InBounds (forArgs turn s argv) := by
  suffices ∀ n i s, i + n = argv.length → InBounds (forArgsFrom turn argv n i s) from
    this argv.length 0 s (Nat.zero_add _)
  intro n
  induction n with
  | zero => exact fun i s _ => inBounds_ok _
  | succ n ih =>
      exact fun i s hi => inBounds_andThen (inBounds_argAt (by omega) (h s)) fun s =>
        ih (i + 1) s (by omega)

theorem inBounds_map {f : σ × List Out → τ × List Out} {r : Wrote σ} (h : InBounds r) :
    InBounds (r.map f) := by
  rcases r with ⟨halt, outs⟩ | r
  · intro outs' heq
    injection heq with heq
    exact h outs' (heq ▸ rfl)
  · exact inBounds_ok _

theorem inBounds_textFrom {str word : List UInt8} {f : List UInt8 → Wrote σ}
    (hf : ∀ text, InBounds (f text)) : InBounds (textFrom str word f) := by
  unfold textFrom
  cases strstr str word with
  | none => exact inBounds_error (by nofun) _
  | some text => exact hf text

end Rules

section Handlers

variable (set : Setup) (st : State) (argv : List (List UInt8)) (str : List UInt8)

theorem inBounds_available : InBounds (ircStatusAvailable st) :=
  inBounds_andThen (inBounds_ite (fun _ => inBounds_ok _) fun _ => inBounds_ok _) fun _ =>
    inBounds_ite (fun _ => inBounds_ok _) fun _ => inBounds_ok _

theorem inBounds_nickMode (arg : Option (List UInt8)) (mode : List UInt8) (plus : Bool) :
    InBounds (Irc.Comandi.nickMode arg str mode plus st) := by
  induction mode generalizing st plus with
  | nil => exact inBounds_say st []
  | cons m mode ih =>
      unfold Irc.Comandi.nickMode
      refine inBounds_ite (fun _ => ih st true) fun _ =>
        inBounds_ite (fun _ => ih st false) fun _ => ?_
      refine inBounds_andThen ?_ fun s => ih s plus
      refine inBounds_ite (fun _ => ?_) fun _ => inBounds_ite (fun _ => inBounds_ok _) fun _ =>
        inBounds_ite (fun _ => inBounds_ok _) fun _ =>
          inBounds_ite (fun _ => inBounds_ok _) fun _ => inBounds_ok _
      split
      · exact inBounds_ok _
      · exact inBounds_textFrom fun _ => inBounds_ok _

namespace Console

open Irc.Console

theorem inBounds_ignoreNick (refuses : Refusal) (c : Conn) (nick : List UInt8) :
    InBounds (ignoreNick refuses c nick) := by
  unfold ignoreNick
  dsimp only
  split
  · exact inBounds_error (by nofun) _
  · exact inBounds_ok _

theorem inBounds_unignoreNick (u : Unignore) (nick : List UInt8) :
    InBounds (unignoreNick u nick) := by
  unfold unignoreNick
  dsimp only
  split
  · exact inBounds_error (by nofun) _
  · exact inBounds_ok _

theorem inBounds_withNicks (c : Conn) (req : List UInt8 → List (List UInt8) → C6.Request)
    {turn : Conn → List UInt8 → Wrote Conn} (h : ∀ c nick, InBounds (turn c nick)) :
    InBounds (withNicks c argv req turn) :=
  inBounds_ite (fun _ => inBounds_ok _) fun hargc =>
    inBounds_argAt (by omega) fun _ =>
      inBounds_andThen (inBounds_ok _) fun _ => inBounds_forArgs h c argv

theorem inBounds_translate (f : List UInt8 → List UInt8) : InBounds (translate st argv str f) :=
  inBounds_ite (fun _ => inBounds_say st _) fun hargc =>
    inBounds_argAt (by omega) fun _ => inBounds_textFrom fun _ => inBounds_say st _

theorem inBounds_cNewroom : InBounds (cNewroom st argv str) := by
  refine inBounds_ite (fun _ => inBounds_say st _) fun hargc => ?_
  refine inBounds_argAt (by omega) fun kind => ?_
  cases roomKind kind with
  | none => exact inBounds_say st _
  | some pub =>
      refine inBounds_argAt (by omega) fun room => inBounds_ite (fun htopic => ?_) fun _ =>
        inBounds_say st _
      exact inBounds_argAt htopic fun _ => inBounds_textFrom fun _ => inBounds_say st _

theorem inBounds_cStatus : InBounds (cStatus st argv) := by
  refine inBounds_ite (fun hargc => inBounds_argAt hargc fun arg => ?_) fun _ => inBounds_say st _
  split
  · exact inBounds_available st
  · exact inBounds_ok _
  · exact inBounds_ok _
  · exact inBounds_say st _

theorem inBounds_run (command : Irc.Console.Command) :
    InBounds (run set st argv str command) := by
  cases command with
  | aiuto => exact inBounds_say st _
  | agg | canc => exact inBounds_map (inBounds_withNicks argv st.conn _ fun _ _ => inBounds_ok _)
  | lnAgg =>
      exact inBounds_map (inBounds_withNicks argv st.conn _ (inBounds_ignoreNick set.refuses))
  | lnCanc =>
      refine inBounds_map (inBounds_map (inBounds_ite (fun _ => inBounds_ok _) fun _ => ?_))
      exact inBounds_forArgs inBounds_unignoreNick _ argv
  | profilo =>
      exact inBounds_ite (fun _ => inBounds_say st _) fun _ =>
        inBounds_forArgs (fun st _ => inBounds_say st _) st argv
  | stato => exact inBounds_cStatus st argv
  | stile =>
      exact inBounds_ite (fun _ => inBounds_say st _) fun hargc =>
        inBounds_argAt (by omega) fun _ =>
          inBounds_ite (fun _ => inBounds_error (by nofun) _) fun _ => inBounds_say st _
  | stanzaCod | stanzaDecod => exact inBounds_translate st argv str _
  | creaStanza => exact inBounds_cNewroom st argv str
  | mail =>
      exact inBounds_ite (fun _ => inBounds_say st _) fun hargc =>
        inBounds_argAt (by omega) fun _ => inBounds_textFrom fun _ =>
          inBounds_argAt (by omega) fun _ => inBounds_say st _
  | cerca => exact inBounds_ite (fun _ => inBounds_say st _) fun _ => inBounds_ok _

end Console

theorem inBounds_consoleInput : InBounds (ircConsoleInput set st argv str) := by
  refine inBounds_ite (fun hargc => inBounds_argAt hargc fun arg => ?_) fun _ => inBounds_say st _
  cases lookupWord Irc.Console.table (skipColon arg) with
  | none => exact inBounds_say st _
  | some command => exact Console.inBounds_run set st argv.tail str command

namespace Searchusr

theorem inBounds_cCheckword (u : Userinfo) : InBounds (cCheckword u st argv) :=
  inBounds_ite (fun _ => inBounds_say st _) fun hargc =>
    inBounds_argAt (by omega) fun _ => inBounds_ite (fun _ => inBounds_say st _) fun _ =>
      inBounds_argAt (by omega) fun _ => inBounds_argAt (by omega) fun _ => inBounds_say st _

theorem inBounds_run (command : Irc.Searchusr.Command) : InBounds (run set st argv command) := by
  cases command with
  | aiuto | mostra | rifai | cerca => exact inBounds_say st _
  | lista | email =>
      exact inBounds_ite (fun _ => inBounds_say st _) fun _ =>
        inBounds_forArgs (fun st _ => inBounds_say st _) st argv
  | agg =>
      refine inBounds_ite (fun _ => inBounds_say st _) fun hargc => inBounds_map ?_
      exact inBounds_argAt (by omega) fun _ => inBounds_andThen (inBounds_ok _) fun _ =>
        inBounds_forArgs (fun _ _ => inBounds_ok _) _ argv

end Searchusr

theorem inBounds_searchusrInput : InBounds (ircSearchusrInput set st argv) := by
  refine inBounds_ite (fun hargc => inBounds_argAt hargc fun arg => ?_) fun _ => inBounds_say st _
  cases lookupWord Irc.Searchusr.table (skipColon arg) with
  | none => exact Searchusr.inBounds_cCheckword st argv set.userinfo
  | some command => exact Searchusr.inBounds_run set st argv.tail command

namespace Comandi

open Irc.Comandi

theorem inBounds_addCommand {rest : Wrote State}
    (h : st.connectionCompleted = true → InBounds rest) : InBounds (addCommand st str rest) :=
  inBounds_ite h fun _ => inBounds_ok _

theorem inBounds_doLogin (flag : UInt8) : InBounds (doLogin st flag) :=
  inBounds_ite (fun _ => inBounds_say st _) fun _ => inBounds_say _ _

/-- `c_mode` needs a word as soon as the connection is completed. -/
theorem inBounds_cMode (h : st.connectionCompleted = true → 0 < argv.length) :
    InBounds (cMode set st argv str) := by
  refine inBounds_addCommand st str fun hst => inBounds_ite (fun _ => ?_) fun hargc => ?_
  · exact inBounds_argAt (h hst) fun _ => inBounds_ite (fun _ => inBounds_say st _) fun _ =>
      inBounds_say st _
  · refine inBounds_argAt (by omega) fun who => inBounds_ite (fun _ => ?_) fun _ =>
      inBounds_ite (fun _ => ?_) fun _ => inBounds_say st _
    · exact inBounds_argAt (by omega) fun _ => inBounds_argOrNull fun _ =>
        inBounds_nickMode st str _ _ true
    · exact inBounds_argAt (by omega) fun _ => inBounds_argOrNull fun _ => inBounds_say st _

theorem inBounds_cAway : InBounds (cAway set st argv str) := by
  have hmode : ∀ word words, InBounds (cMode set st (word :: words) str) := fun word words =>
    inBounds_cMode set st _ str fun _ => Nat.succ_pos _
  refine inBounds_addCommand st str fun _ => inBounds_ite (fun hargc => ?_) fun _ => ?_
  · exact inBounds_argAt hargc fun _ => inBounds_andThen (hmode _ _) fun s => inBounds_say s _
  · exact inBounds_andThen (hmode _ _) fun s => inBounds_say s _

theorem inBounds_cPrivmsg : InBounds (cPrivmsg set st argv str) := by
  refine inBounds_addCommand st str fun _ =>
    inBounds_ite (fun _ => inBounds_say st _) fun hargc => ?_
  refine inBounds_argAt (by omega) fun _ => inBounds_ite (fun _ => ?_) fun _ => ?_
  · exact inBounds_ite (fun _ => inBounds_consoleInput set st argv.tail str) fun _ =>
      inBounds_ite (fun _ => inBounds_searchusrInput set st argv.tail) fun _ => inBounds_say st _
  · exact inBounds_argAt (by omega) fun _ => inBounds_textFrom fun _ => inBounds_say st _

theorem inBounds_cIson : InBounds (cIson set st argv str) := by
  refine inBounds_addCommand st str fun _ => inBounds_ite (fun hargc => ?_) fun _ =>
    inBounds_say st _
  refine inBounds_argAt hargc fun arg => inBounds_map ?_
  refine inBounds_argAt (by rwa [List.length_set]) fun _ => ?_
  exact inBounds_andThen (inBounds_ok _) fun _ => inBounds_forArgs (fun _ _ => inBounds_ok _) _ _

theorem inBounds_partOne (p : List UInt8) : InBounds (partOne st p) :=
  inBounds_ite
    (fun _ => inBounds_ite (fun _ => inBounds_say st _) fun _ =>
      inBounds_ite
        (fun _ => inBounds_ite (fun _ => inBounds_say st _) fun _ => inBounds_ok _)
        fun _ => inBounds_say st _)
    fun _ => inBounds_ite (fun _ => inBounds_say st _) fun _ => inBounds_say st _

/-- The handlers of `comandi.c` but `c_mode` read below `argc` whatever they are given. -/
theorem inBounds_run (command : Irc.Comandi.Command)
    (h : st.connectionCompleted = true → command = .mode → 0 < argv.length) :
    InBounds (run set st argv str command) := by
  cases command with
  | nick | pass =>
      exact inBounds_ite (fun _ => inBounds_say st _) fun _ =>
        inBounds_ite (fun hargc => inBounds_argAt hargc fun _ => inBounds_doLogin _ _) fun _ =>
          inBounds_say st _
  | user =>
      exact inBounds_ite (fun _ => inBounds_say st _) fun _ =>
        inBounds_ite (fun _ => inBounds_say st _) fun hargc =>
          inBounds_argAt (by omega) fun _ => inBounds_doLogin _ _
  | ping =>
      exact inBounds_ite (fun _ => inBounds_say st _) fun hargc =>
        inBounds_argAt (by omega) fun _ => inBounds_say st _
  | mode => exact inBounds_cMode set st argv str fun hst => h hst rfl
  | quit => exact inBounds_error (by nofun) _
  | squit => exact inBounds_ite (fun _ => inBounds_error (by nofun) _) fun _ => inBounds_say st _
  | privmsg => exact inBounds_cPrivmsg set st argv str
  | ison => exact inBounds_cIson set st argv str
  | part =>
      exact inBounds_addCommand st str fun _ => inBounds_ite (fun _ => inBounds_say st _)
        fun hargc => inBounds_argAt (by omega) fun _ => inBounds_each inBounds_partOne st _
  | join =>
      exact inBounds_addCommand st str fun _ => inBounds_ite (fun _ => inBounds_say st _)
        fun hargc => inBounds_argAt (by omega) fun _ => inBounds_say st _
  | who =>
      exact inBounds_addCommand st str fun _ => inBounds_ite (fun _ => inBounds_say st _)
        fun hargc => inBounds_argAt (by omega) fun _ =>
          inBounds_ite (fun _ => inBounds_say st _) fun _ => inBounds_say st _
  | away => exact inBounds_cAway set st argv str
  | whois =>
      exact inBounds_addCommand st str fun _ => inBounds_ite (fun _ => inBounds_say st _)
        fun _ => inBounds_forArgs (fun st _ => inBounds_say st _) st argv
  | mail =>
      exact inBounds_addCommand st str fun _ => inBounds_ite (fun _ => inBounds_say st _)
        fun hargc => inBounds_argAt (by omega) fun _ => inBounds_textFrom fun _ =>
          inBounds_argAt (by omega) fun _ => inBounds_say st _
  | list => exact inBounds_say st _

/-- `MODE` without a word reads `argv[0]`. -/
theorem not_inBounds_mode (hst : st.connectionCompleted = true) :
    ¬InBounds (run set st [] str .mode) := by
  intro h
  refine h [] ?_
  rw [run, cMode, addCommand, if_pos hst]
  rfl

end Comandi

/-- The reads of a line are below `argc`, unless it is `MODE` with nothing behind it on a
connection that is completed. -/
theorem inBounds_ircProcessInput_iff :
    InBounds (ircProcessInput set st str) ↔
      ¬(st.connectionCompleted = true ∧ lineCommand str = some (.mode, [])) := by
  rcases hline : lineCommand str with _ | ⟨command, argv⟩
  · rcases ircProcessInput_none set st hline with ⟨lines, heq⟩
    rw [ircProcessInput_eq, heq]
    exact ⟨fun _ => nofun, fun _ => inBounds_say st _⟩
  · rw [ircProcessInput_eq, ircProcessInput_command hline, ← Comandi.run_eq]
    constructor
    · rintro h ⟨hst, heq⟩
      injection heq with heq
      injection heq with hcommand hargv
      rw [hcommand, hargv] at h
      exact Comandi.not_inBounds_mode set st str hst h
    · intro h
      refine Comandi.inBounds_run set st argv str command fun hst hcommand => ?_
      refine List.length_pos_iff.mpr fun hargv => h ⟨hst, ?_⟩
      rw [hcommand, hargv]

end Handlers

theorem mode_reads_outside :
    ircProcessInput noSetup welcomed (ascii "MODE") = .error (.noArg, []) ∧
      ¬InBounds (ircProcessInput noSetup welcomed (ascii "MODE")) := by
  have hread : ircProcessInput noSetup welcomed (ascii "MODE") = .error (.noArg, []) := by
    have hline : lineCommand (ascii "MODE") = some (.mode, []) := rfl
    rw [ircProcessInput_eq, ircProcessInput_command hline]
    rfl
  exact ⟨hread, fun h => h [] hread⟩

end Indexed
end Irc
end IrC6
