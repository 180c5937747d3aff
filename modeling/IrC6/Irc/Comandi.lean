import IrC6.Irc.Input

/-!
# The commands of IRC

`irc_process_input` looks the first word of a line up and calls a handler of `comandi.c`
with the words behind it.  Until the server has welcomed the user most handlers keep their
line for later.
-/

namespace IrC6
namespace Irc

def flagPass : UInt8 := 0x1
def flagNick : UInt8 := 0x2
def flagUser : UInt8 := 0x4
def flagReady : UInt8 := 0x8

/-- `IRC_IS_LOGIN_COMPLETED` and `IRC_IS_CONNECTION_COMPLETED`. -/
def State.loginCompleted (st : State) : Bool :=
  st.connFlags &&& (flagPass ||| flagNick ||| flagUser) = flagPass ||| flagNick ||| flagUser

def State.connectionCompleted (st : State) : Bool :=
  st.connFlags &&& (flagPass ||| flagNick ||| flagUser ||| flagReady) =
    flagPass ||| flagNick ||| flagUser ||| flagReady

namespace Comandi

/-- `IRC_SEND_ERRPARAM`. -/
def errParam (st : State) (command : String) : Out :=
  reply .errParam [serv, st.nick.text, ascii command]

section Login

variable (st : State)

def doLogin (flag : UInt8) : Wrote State :=
  if st.loginCompleted then say st []
  else
    let st := { st with connFlags := st.connFlags ||| flag }
    say st (if st.loginCompleted then [.silent .connect] else [])

def loginDone : Wrote State := say st [ircErrmsg st.nick.text (ascii "login gia' completata")]

def cNick (argv : List (List UInt8)) : Wrote State :=
  if st.loginCompleted then loginDone st
  else match argv with
    | arg :: _ => doLogin { st with nick := strlcpy arg } flagNick
    | [] => say st [errParam st "NICK"]

def cPass (argv : List (List UInt8)) : Wrote State :=
  if st.loginCompleted then loginDone st
  else match argv with
    | arg :: _ => doLogin { st with pass := strlcpy arg } flagPass
    | [] => say st [errParam st "PASS"]

def cUser (argv : List (List UInt8)) : Wrote State :=
  if st.loginCompleted then loginDone st
  else match argv with
    | arg :: _ :: _ :: _ => doLogin { st with user := strlcpy arg } flagUser
    | _ => say st [errParam st "USER"]

def cPing (argv : List (List UInt8)) : Wrote State :=
  match argv with
  | arg :: _ => say st [reply .pong [serv, serv, skipColon arg]]
  | [] => say st [errParam st "PING"]

def cQuit : Wrote State :=
  .error (.closed, [reply .cquit [st.nick.text, st.ip, ascii "Quit: Client exit"]])

def cSquit (canSquit : Bool) : Wrote State :=
  if canSquit then .error (.exited, [])
  else say st [reply .unkCmd [serv, st.nick.text, ascii "SQUIT"]]

/-- `ADD_COMMAND`, and the rest of the handler. -/
def addCommand (str : List UInt8) (rest : Wrote State) : Wrote State :=
  if st.connectionCompleted then rest
  else .ok ({ st with cmdList := st.cmdList ++ [str] }, [])

end Login

/-! ## Modes -/

/-- The loop of `nick_mode`, with the sign before the letter. -/
def nickMode (arg : Option (List UInt8)) (str : List UInt8) :
    List UInt8 → Bool → State → Wrote State
  | [], _, st => say st []
  | m :: mode, plus, st =>
      if m = 43 then nickMode arg str mode true st
      else if m = 45 then nickMode arg str mode false st
      else
        Wrote.andThen
          (if m = 97 then
            match if plus then arg else none with
            | none => ircStatusBusy st plus none
            | some arg => textFrom str (skipColon arg) fun away => ircStatusBusy st plus (some away)
          else if m = 110 then ircStatusOnlyfriends st plus
          else if m = 105 then ircStatusVisibleip st plus
          else if m = 107 then say { st with skipColors := plus } []
          else say st [reply .unkMode [serv, st.nick.text, [m]]])
          (nickMode arg str mode plus)

/-- What `chan_mode` writes for a letter. -/
def chanLetter (st : State) (chan : List UInt8) (hasArg : Bool) (m : UInt8) : Out :=
  let cantChange := reply .cantChange [serv, st.nick.text, chan]
  if m = 98 then if hasArg then cantChange else reply .endBanList [serv, st.nick.text, chan]
  else if m = 101 then
    if hasArg then cantChange else reply .endExcepList [serv, st.nick.text, chan]
  else if m = 73 then if hasArg then cantChange else reply .endInvList [serv, st.nick.text, chan]
  else if m ∈ [111, 118, 79, 107, 115, 116, 108, 105] then cantChange
  else reply .unkMode [serv, chan, [m]]

/-- `chan_mode`, which makes no use of the signs. -/
def chanMode (st : State) (chan mode : List UInt8) (hasArg : Bool) : Wrote State :=
  say st ((mode.filter fun m => m ≠ 43 ∧ m ≠ 45).map (chanLetter st chan hasArg))

/-- `c_mode`, which reads `argv[0]` also when there is none. -/
def cMode (set : Setup) (st : State) (argv : List (List UInt8)) (str : List UInt8) :
    Wrote State :=
  addCommand st str <| match argv with
    | [] => .error (.noArg, [])
    | [chan] =>
        if isChannel chan then
          say st [reply .chanModeIs [serv, st.nick.text, chan, ascii "+", []],
            reply .creationTime [serv, st.nick.text, chan, decimal set.srvTime]]
        else say st [errParam st "MODE"]
    | who :: mode :: rest =>
        if st.nick.text = who then nickMode rest.head? str mode true st
        else if isChannel who then chanMode st who mode rest.head?.isSome
        else say st []

/-- `c_away`, which calls `c_mode` for the user. -/
def cAway (set : Setup) (st : State) (argv : List (List UInt8)) (str : List UInt8) :
    Wrote State :=
  addCommand st str <| match argv with
    | arg :: _ => (cMode set st [st.nick.text, ascii "+a", arg] str).andThen fun st =>
        say st [reply .nowAway [serv, st.nick.text]]
    | [] => (cMode set st [st.nick.text, ascii "-a"] str).andThen fun st =>
        say st [reply .unAway [serv, st.nick.text]]

/-! ## Channels and nicks -/

/-- `irc_join_console`. -/
def ircJoinConsole (st : State) : List Out :=
  let me := st.nick.text
  [.line (.join me me serv console), .line (.topic serv me console (ascii ".: irC6 console :.")),
    .line (.namReply serv me (ascii "@") console (ascii "@") me)] ++
  (hashtableForeachD st.nicks).map (fun nl => .line (.namReply serv me (ascii "@") console
    (if isOnline nl.2.status then ascii "%" else ascii "+") nl.1)) ++
  [.line (.endNamReply serv me console), .line (.chanMode me me serv console (ascii "+o") me),
    ircConsole (ascii ("Questa e' la console di irC6, tramite questa finestra e' " ++
      "possibile gestire tutte le operazioni. Digitare \"aiuto\" per " ++
      "visualizzare i comandi supportati."))]

/-- The tokens of `strsep(&chan, ",")`. -/
def chanTokens (arg : List UInt8) : List (List UInt8) := strsep (· = 44) (skipColon arg)

/-- A turn of the loop of `c_part`. -/
def partOne (st : State) (p : List UInt8) : Wrote State :=
  if isLocChan p then
    if p = console then say st (ircJoinConsole st)
    else if p = searchUsr then
      if !st.isOnSearchusr then say st [.line (.notOnChannel serv st.nick.text searchUsr)]
      else .ok ({ st with isOnSearchusr := false },
        [.line (.part st.nick.text st.user.text st.ip searchUsr)])
    else say st []
  else if isRemChan p then say st [.emit (.roomLeave (ircRoomDecode p))]
  else say st []

/-- What a turn of the loop of `c_join` asks for. -/
def joinOne (p : List UInt8) : List Out :=
  if isRemChan p then [.emit (.roomEnter (ircRoomDecode p))] else []

def whoReply (st : State) (chan nick flags text : List UInt8) : Out :=
  reply .whoReply [serv, st.nick.text, chan, nick, serv, serv, nick, flags, ascii "0", text]

def localOperator (st : State) (chan : List UInt8) : Out :=
  whoReply st chan st.nick.text (ascii "H@") (ascii "local operator")

def whoConsole (st : State) : List Out :=
  localOperator st console ::
    (hashtableForeachD st.nicks).map fun nl => whoReply st console nl.1
      (if isOnline nl.2.status then ascii "H%" else ascii "H+") (ascii "netfriend")

def whoSearchusr (st : State) : List Out :=
  if st.isOnSearchusr then [localOperator st searchUsr] else []

/-- The user and the nicks of a room, under the name of a channel. -/
def whoChan (st : State) (chan : List UInt8) (cl : Chan) : List Out :=
  whoReply st chan st.nick.text (ascii "H") (ascii "local nick") ::
    (hashtableForeachD cl.nicks).map fun key =>
      whoReply st chan key.1.dropLast (ascii "H") (ascii "netfriend")

def whoChannel (st : State) (chan : List UInt8) : List Out :=
  match chanlistGetstruct st.chans (ircRoomDecode chan) with
  | none => []
  | some cl => whoChan st chan cl

def whoAllchan (st : State) : List Out :=
  (hashtableForeachD st.chans).flatMap fun cl => whoChan st cl.2.cname cl.2

/-- What `c_who` writes for one of its arguments. -/
def whoOne (st : State) (arg : List UInt8) : List Out :=
  (if isChannel arg then
      if arg = console then whoConsole st
      else if arg = searchUsr then whoSearchusr st
      else whoChannel st arg
    else [whoReply st (ascii "*") arg (ascii "H") (ascii "netfriend")]) ++
  [reply .endWhoReply [serv, st.nick.text, arg]]

section Handlers

variable (set : Setup) (st : State) (argv : List (List UInt8)) (str : List UInt8)

def cPrivmsg : Wrote State :=
  addCommand st str <| match argv with
    | to_ :: word :: rest =>
        let arg0 := skipColon to_
        if isLocChan arg0 then
          if arg0 = console then ircConsoleInput set st (word :: rest) str
          else if arg0 = searchUsr then ircSearchusrInput set st (word :: rest)
          else say st []
        else
          textFrom str word fun msg =>
            say st [.emit (if isRemChan arg0 then .sendRoommsg (ircRoomDecode arg0) (skipColon msg)
              else .sendMsg to_ (skipColon msg))]
    | _ => say st [errParam st "PRIVMSG"]

def cIson : Wrote State :=
  addCommand st str <| match argv with
    | arg :: rest => st.onConn (cAdd set.refuses st.conn (skipColon arg :: rest))
    | [] => say st [errParam st "ISON"]

def cPart : Wrote State :=
  addCommand st str <| match argv with
    | arg :: _ => each partOne st (chanTokens arg)
    | [] => say st [errParam st "PART"]

def cJoin : Wrote State :=
  addCommand st str <| match argv with
    | arg :: _ => say st ((chanTokens arg).flatMap joinOne)
    | [] => say st [errParam st "JOIN"]

def cWho : Wrote State :=
  let all := whoConsole st ++ whoSearchusr st ++ whoAllchan st ++
    [reply .endWhoReply [serv, st.nick.text, ascii "*"]]
  addCommand st str <| match argv with
    | arg :: _ =>
        if arg = ascii "0" then say st all else say st ((strsep (· = 44) arg).flatMap (whoOne st))
    | [] => say st all

def cWhois : Wrote State :=
  addCommand st str <| match argv with
    | [] => say st [errParam st "WHOIS"]
    | _ => say st (argv.flatMap fun nick =>
        [.connect .guiUserInfo .whois, .emit (.reqUserinfo nick)])

def cMail : Wrote State :=
  addCommand st str <| match argv with
    | to_ :: word :: _ =>
        textFrom str word fun msg => say st [.emit (.sendOfmsg to_ (skipColon msg))]
    | _ => say st [errParam st "MAIL"]

/-- `c_list`, which does not wait for the welcome. -/
def cList : Wrote State := say st [.emit .reqRoomlist]

end Handlers

/-- The commands of `cmd_list`. -/
inductive Command where
  | pass
  | nick
  | user
  | ping
  | mode
  | quit
  | squit
  | privmsg
  | ison
  | join
  | part
  | who
  | away
  | whois
  | mail
  | list
deriving DecidableEq, Repr

def table : List (List UInt8 × Command) :=
  [(ascii "PASS", .pass), (ascii "NICK", .nick), (ascii "USER", .user), (ascii "PING", .ping),
    (ascii "MODE", .mode), (ascii "QUIT", .quit), (ascii "SQUIT", .squit),
    (ascii "PRIVMSG", .privmsg), (ascii "ISON", .ison), (ascii "JOIN", .join),
    (ascii "PART", .part), (ascii "WHO", .who), (ascii "AWAY", .away), (ascii "WHOIS", .whois),
    (ascii "MAIL", .mail), (ascii "LIST", .list)]

/-- The call through the table of `cmd_list`. -/
def run (set : Setup) (st : State) (argv : List (List UInt8)) (str : List UInt8) :
    Command → Wrote State
  | .pass => cPass st argv
  | .nick => cNick st argv
  | .user => cUser st argv
  | .ping => cPing st argv
  | .mode => cMode set st argv str
  | .quit => cQuit st
  | .squit => cSquit st set.canSquit
  | .privmsg => cPrivmsg set st argv str
  | .ison => cIson set st argv str
  | .join => cJoin st argv str
  | .part => cPart st argv str
  | .who => cWho st argv str
  | .away => cAway set st argv str
  | .whois => cWhois st argv str
  | .mail => cMail st argv str
  | .list => cList st

end Comandi

/-- `irc_process_input`. -/
def ircProcessInput (set : Setup) (st : State) (str : List UInt8) : Wrote State :=
  match argsSep str with
  | [] => say st []
  | cmd :: argv =>
      match lookupWord Comandi.table cmd with
      | none => say st [reply .unkCmd [serv, st.nick.text, cmd]]
      | some command => Comandi.run set st argv str command

end Irc
end IrC6
