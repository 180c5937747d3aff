import IrC6.Irc.Status

/-!
# The commands of the local channels

What a user writes to `&irC6` goes to the commands of `console.c`, and what goes to
`&RicercaUtenti` to those of `searchusr.c`.  `gperf` makes a table of the commands of each,
and a word that is not in the second one sets a field of the search.

The order in which `gperf` puts its words is a parameter, as are the answers of
`userinfo.c`.
-/

namespace IrC6
namespace Irc

/-- The answers of `userinfo.c`: the fields with their values, those that are set, and the
numbers of a field and of a value of it. -/
structure Userinfo where
  fields : List (List UInt8)
  values : List UInt8 → List (List UInt8)
  current : List (List UInt8 × List UInt8)
  getid : List UInt8 → Option (Fin 256)
  getval : Fin 256 → List UInt8 → Option UInt8

/-- What the handlers read besides the connection: the two generated tables with the help
for each word, `can_squit` and `srv_time`. -/
structure Setup where
  refuses : Refusal
  consoleWords : List (List UInt8 × List UInt8)
  searchWords : List (List UInt8 × List UInt8)
  canSquit : Bool
  srvTime : Nat
  userinfo : Userinfo

/-- `IRC_SEARCHMSG`. -/
def ircSearchmsg (text : List UInt8) : Out := .line (.notice serv searchUsr text)

/-- The text of the line from a word on.  The word is always there. -/
def textFrom {σ : Type} (str word : List UInt8) (f : List UInt8 → Wrote σ) : Wrote σ :=
  match strstr str word with
  | none => .error (.fatal (ascii "error parsing arguments"), [])
  | some text => f text

/-- A handler that writes and leaves the connection as it is. -/
def say (st : State) (outs : List Out) : Wrote State := .ok (st, outs)

/-! ## `console.c` -/

namespace Console

/-- The commands of `cmd_console`. -/
inductive Command where
  | aiuto
  | agg
  | canc
  | lnAgg
  | lnCanc
  | profilo
  | stato
  | stile
  | stanzaCod
  | stanzaDecod
  | creaStanza
  | mail
  | cerca
deriving DecidableEq, Repr

def table : List (List UInt8 × Command) :=
  [(ascii "aiuto", .aiuto), (ascii "agg", .agg), (ascii "canc", .canc),
    (ascii "ln_agg", .lnAgg), (ascii "ln_canc", .lnCanc), (ascii "profilo", .profilo),
    (ascii "stato", .stato), (ascii "stile", .stile), (ascii "stanza_cod", .stanzaCod),
    (ascii "stanza_decod", .stanzaDecod), (ascii "crea_stanza", .creaStanza),
    (ascii "mail", .mail), (ascii "cerca", .cerca)]

section Handlers

variable (st : State)

/-- `c_unignore`. -/
def unignore (argv : List (List UInt8)) : Wrote State :=
  st.onConn ((cUnignore st.conn argv).map fun r => (r.1.conn, r.2))

/-- What a turn of the loop of `c_userinfo` does. -/
def askInfo (arg : List UInt8) : List Out :=
  if isRemChan arg then
    [.connect .guiRoomInfo .roominfo, .emit (.reqRoominfo (ircRoomDecode arg))]
  else [.connect .guiUserInfo .userInfo, .emit (.reqUserinfo arg)]

def cUserinfo (argv : List (List UInt8)) : Wrote State :=
  match argv with
  | [] => say st noNick
  | _ => say st (argv.flatMap askInfo)

/-- `c_style`.  `get styles` is connected to `c6_set_style`, which reads the number it is
to be given. -/
def cStyle (argv : List (List UInt8)) : Wrote State :=
  match argv with
  | [] => say st [ircConsole (ascii "specificare un argomento; vedere `stile ?'")]
  | arg :: _ =>
      if arg = ascii "?" then .error (.uninitialised, [])
      else
        let style := (strtoul arg).toUInt32
        say st (.silent (.setStyle style) ::
          if style ≠ 4294967295 ∧ style ≤ 12 then []
          else [ircConsole (ascii
            "argomento non valido; usare `stile ?' per la lista di argomenti accettati")])

/-- `c_roomenc` and `c_roomdec`. -/
def translate (f : List UInt8 → List UInt8) (argv : List (List UInt8)) (str : List UInt8) :
    Wrote State :=
  match argv with
  | [] => say st [ircConsole (ascii "specificare una stanza")]
  | arg :: _ =>
      textFrom str arg fun ptr => say st [ircConsole (ptr ++ ascii " ---> " ++ f ptr)]

def cRoomenc (argv : List (List UInt8)) (str : List UInt8) : Wrote State :=
  translate st ircRoomEncode argv str

def cRoomdec (argv : List (List UInt8)) (str : List UInt8) : Wrote State :=
  translate st ircRoomDecode argv str

/-- The second argument of `c_newroom`. -/
def roomKind : List UInt8 → Option Bool
  | 112 :: 117 :: _ => some true
  | 112 :: 114 :: _ => some false
  | _ => none

def newroomUsage : List Out :=
  [ircConsole (ascii "usare: crea_stanza <stanza> <pubblica|privata> <topic>")]

def cNewroom (argv : List (List UInt8)) (str : List UInt8) : Wrote State :=
  match argv with
  | room :: kind :: rest =>
      match roomKind kind with
      | none => say st newroomUsage
      | some pub =>
          let droom := ircRoomDecode room
          match rest with
          | [] => say st [.emit (.createRoom droom pub droom)]
          | word :: _ =>
              textFrom str word fun topic => say st [.emit (.createRoom droom pub topic)]
  | _ => say st newroomUsage

def cMail (argv : List (List UInt8)) (str : List UInt8) : Wrote State :=
  match argv with
  | to_ :: word :: _ =>
      textFrom str word fun msg => say st [.emit (.sendOfmsg to_ (skipColon msg))]
  | _ => say st [ircConsole (ascii "usare: mail <nick> <messaggio>")]

def statusUsage : List Out :=
  [ircConsole (ascii "usare: stato <disponibile|occupato|amici>")]

def cStatus (argv : List (List UInt8)) : Wrote State :=
  match argv with
  | (100 :: _) :: _ => ircStatusAvailable st
  | (111 :: _) :: _ => ircStatusBusy st true none
  | (97 :: _) :: _ => ircStatusOnlyfriends st true
  | _ => say st statusUsage

def cSearchnicks : Wrote State :=
  if st.isOnSearchusr then say st []
  else
    let me := st.nick.text
    .ok ({ st with isOnSearchusr := true },
      [.silent .resetSearch, .line (.join me me serv searchUsr),
        .line (.topic serv me searchUsr (ascii "Ricerca Utenti")),
        .line (.namReply serv me (ascii "@") searchUsr (ascii "@") me),
        .line (.endNamReply serv me searchUsr),
        .line (.chanMode me me serv searchUsr (ascii "+o") me),
        ircSearchmsg (ascii "Digitare \"aiuto\" per visualizzare i comandi supportati.")])

end Handlers

/-- The call through the table of `cmd_console`. -/
def run (set : Setup) (st : State) (argv : List (List UInt8)) (str : List UInt8) :
    Command → Wrote State
  | .aiuto => say st (set.consoleWords.map fun row => ircConsole (row.1 ++ ascii ": " ++ row.2))
  | .agg => st.onConn (cAdd set.refuses st.conn argv)
  | .canc => st.onConn (cDel st.conn argv)
  | .lnAgg => st.onConn (cIgnore set.refuses st.conn argv)
  | .lnCanc => unignore st argv
  | .profilo => cUserinfo st argv
  | .stato => cStatus st argv
  | .stile => cStyle st argv
  | .stanzaCod => cRoomenc st argv str
  | .stanzaDecod => cRoomdec st argv str
  | .creaStanza => cNewroom st argv str
  | .mail => cMail st argv str
  | .cerca => cSearchnicks st

end Console

def ircConsoleInput (set : Setup) (st : State) (argv : List (List UInt8)) (str : List UInt8) :
    Wrote State :=
  match argv with
  | [] => say st []
  | arg :: argv =>
      match lookupWord Console.table (skipColon arg) with
      | none => say st [ircConsole (skipColon arg ++ ascii ": comando sconosciuto")]
      | some command => Console.run set st argv str command

/-! ## `searchusr.c` -/

namespace Searchusr

/-- The commands of `cmd_searchusr`, with `ls` as another name of `lista`. -/
inductive Command where
  | aiuto
  | lista
  | email
  | mostra
  | rifai
  | cerca
  | agg
deriving DecidableEq, Repr

def table : List (List UInt8 × Command) :=
  [(ascii "aiuto", .aiuto), (ascii "lista", .lista), (ascii "ls", .lista),
    (ascii "email", .email), (ascii "mostra", .mostra), (ascii "rifai", .rifai),
    (ascii "cerca", .cerca), (ascii "agg", .agg)]

section Handlers

variable (u : Userinfo) (st : State)

def checkUsage : List Out := [ircSearchmsg (ascii "usare: campo = valore")]

def cCheckword (argv : List (List UInt8)) : Wrote State :=
  match argv with
  | arg :: sign :: value :: _ =>
      if sign ≠ ascii "=" then say st checkUsage
      else
        let field := skipColon arg
        say st (.silent (.setSearch field value) ::
          match u.getid field with
          | none => [ircSearchmsg (field ++ ascii ": campo sconosciuto")]
          | some id =>
              if u.getval id value = none then
                [ircSearchmsg (value ++ ascii ": valore non valido per " ++ field)]
              else [])
  | _ => say st checkUsage

def cShowconf : Wrote State :=
  say st (u.current.map fun row => ircSearchmsg (ascii "  " ++ row.1 ++ ascii " = " ++ row.2))

def cReset : Wrote State := say st [.silent .resetSearch]

def cSearch : Wrote State := say st [.emit .searchNicks]

/-- The values of a field, as `c_list` writes them. -/
def listField (field : List UInt8) : List Out :=
  match u.values field with
  | [] => [ircSearchmsg (ascii "campo non valido: `" ++ field ++ ascii "'")]
  | elist => elist.mapIdx fun k value =>
      ircSearchmsg (field ++ ascii ":     [" ++ decimal k ++ ascii "] " ++ value)

def cList (argv : List (List UInt8)) : Wrote State :=
  match argv with
  | [] => say st (u.fields.mapIdx fun i field =>
      ircSearchmsg (ascii "  [" ++ decimal i ++ ascii "] " ++ field))
  | _ => say st (argv.flatMap (listField u))

def cEmail (argv : List (List UInt8)) : Wrote State :=
  match argv with
  | [] => say st [ircSearchmsg (ascii "specificare almeno un indirizzo email")]
  | _ => say st (argv.map fun arg => .emit (.ufindByEmail arg))

/-- `c_add`, which without a nick says so on its own channel. -/
def cAdd (refuses : Refusal) (argv : List (List UInt8)) : Wrote State :=
  match argv with
  | [] => say st [ircSearchmsg (ascii "specificare almeno un nick")]
  | _ => st.onConn (Irc.cAdd refuses st.conn argv)

end Handlers

def help (words : List (List UInt8 × List UInt8)) : List Out :=
  words.map (fun row => ircSearchmsg (row.1 ++ ascii ": " ++ row.2)) ++
    [ircSearchmsg (ascii "[campo] = [valore]: per settare i parametri")]

/-- The call through the table of `cmd_searchusr`. -/
def run (set : Setup) (st : State) (argv : List (List UInt8)) : Command → Wrote State
  | .aiuto => say st (help set.searchWords)
  | .lista => cList set.userinfo st argv
  | .email => cEmail st argv
  | .mostra => cShowconf set.userinfo st
  | .rifai => cReset st
  | .cerca => cSearch st
  | .agg => cAdd st set.refuses argv

end Searchusr

def ircSearchusrInput (set : Setup) (st : State) (argv : List (List UInt8)) : Wrote State :=
  match argv with
  | [] => say st []
  | arg :: rest =>
      match lookupWord Searchusr.table (skipColon arg) with
      | none => Searchusr.cCheckword set.userinfo st (arg :: rest)
      | some command => Searchusr.run set st rest command

end Irc
end IrC6
