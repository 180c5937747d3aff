import IrC6.C6.Server.Dispatch
import IrC6.C6.Server.Rooms
import IrC6.Irc.Rooms
import IrC6.Signals.Events

/-!
# Room answers

The answer to a request to enter or leave a room comes in a packet.  `c6_process_input` finds
its handler in `cmd_table`, the handler emits an event, and the function that `irc_ev` has for
the event writes to the IRC client.

`server.c` emits the answers under names of its own, and `irc.c` writes down the names that it
waits for.  Nothing compares the two, and an event without a function is not an error.
-/

namespace IrC6
namespace Irc

open Buffer (Item Record Text)
open C6 (Key Client RoomEmit RoomReply RoomRequest RoomChannel RoomStep byteItem headSize nested
  packetEncode cmdTable)
open Signals (Instance Registry Cells cstring)

/-! ## The tables -/

/-- The functions of `c6_ev` and `irc_ev`, and those that `CONNECT` is given. -/
inductive Func where
  | c6Connect | c6Login | c6SendUsername | c6SendPong | c6SendMsg | c6SendOfmsg | c6ReqUsers
  | c6DelUsers | c6SendStatus | c6SetStyle | c6ReqUserinfo | c6ReqRoomlist | c6ReqRoominfo
  | c6RoomEnter | c6RoomLeave | c6SendRoommsg | c6CreateRoom | c6GetUinfoElms | c6ResetUinfo
  | c6SetUinfoVal | c6GetSetUinfoVal | c6UfindByEmail | c6SearchNicks
  | ircOutFatal | ircOutWarning | ircOutQuit | ircOutWelcome | ircOutInvuser | ircOutInvpass
  | ircOutAlrconn | ircOutLogindone | ircOutBanners | ircOutMessage | ircOutPkerror
  | ircOutUsers | ircOutUserOnline | ircOutUserOffline | ircOutUserChgStatus | ircOutRoomlist
  | ircOutRoomUlist | ircOutRoomMessage | ircOutRoomUenter | ircOutRoomUleave
  | ircOutRoomCanleave | ircOutRoomNotexist | ircOutRoomFull | ircOutRoomAlrexist
  | ircOutFoundusers | ircOutSelnick | ircDumpData
  | ircOutWhois | ircOutUserInfo | ircOutRoominfo | ircOutRoomtopic
deriving DecidableEq, Repr

/-- The types in the rows of `marshal.in`. -/
inductive ArgType where
  | conn | charp | charpp | charppp | char | int | uint | uintp | timep | addrp | saddr | ptr
  | size
deriving DecidableEq, Repr

abbrev Marshal := List ArgType

/-- A row of `c6_ev` or `irc_ev`. -/
abbrev EventRow := Signals.Event Marshal Func

def c6Ev : List (EventRow) :=
  [⟨ascii "connect", some .c6Connect, [.conn, .charp, .charp]⟩,
    ⟨ascii "send login", some .c6Login, [.conn, .charp, .charp]⟩,
    ⟨ascii "send username", some .c6SendUsername, [.conn, .charp, .charp]⟩,
    ⟨ascii "send pong", some .c6SendPong, [.conn]⟩,
    ⟨ascii "send message", some .c6SendMsg, [.conn, .charp, .charp]⟩,
    ⟨ascii "send offline message", some .c6SendOfmsg, [.conn, .charp, .charp]⟩,
    ⟨ascii "send users req", some .c6ReqUsers, [.conn, .int, .charpp]⟩,
    ⟨ascii "send users del", some .c6DelUsers, [.conn, .int, .charpp]⟩,
    ⟨ascii "send status", some .c6SendStatus, [.conn]⟩,
    ⟨ascii "get styles", some .c6SetStyle, [.conn, .uintp, .charppp]⟩,
    ⟨ascii "set style", some .c6SetStyle, [.conn, .uintp]⟩,
    ⟨ascii "send userinfo req", some .c6ReqUserinfo, [.conn, .charp]⟩,
    ⟨ascii "send roomlist req", some .c6ReqRoomlist, [.conn]⟩,
    ⟨ascii "send roominfo req", some .c6ReqRoominfo, [.conn, .charp]⟩,
    ⟨ascii "send room enter", some .c6RoomEnter, [.conn, .charp]⟩,
    ⟨ascii "send room leave", some .c6RoomLeave, [.conn, .charp]⟩,
    ⟨ascii "send room message", some .c6SendRoommsg, [.conn, .charp, .charp]⟩,
    ⟨ascii "send room create", some .c6CreateRoom, [.conn, .charp, .char, .charp]⟩,
    ⟨ascii "get search values", some .c6GetUinfoElms, [.conn, .charp, .uintp, .charppp]⟩,
    ⟨ascii "reset search value", some .c6ResetUinfo, [.conn]⟩,
    ⟨ascii "set search value", some .c6SetUinfoVal, [.conn, .charpp, .charpp]⟩,
    ⟨ascii "get set search values", some .c6GetSetUinfoVal, [.conn, .uintp, .charppp, .charppp]⟩,
    ⟨ascii "send search by email", some .c6UfindByEmail, [.conn, .charp]⟩,
    ⟨ascii "send search users", some .c6SearchNicks, [.conn]⟩]

/-- `irc_ev`, with its last row when `IRC6_DEBUG` is defined. -/
def ircEv (debug : Bool) : List (EventRow) :=
  [⟨ascii "gui fatal", some .ircOutFatal, [.conn, .charp]⟩,
    ⟨ascii "gui warning", some .ircOutWarning, [.conn, .charp]⟩,
    ⟨ascii "gui quit", some .ircOutQuit, [.conn, .charp]⟩,
    ⟨ascii "gui welcome", some .ircOutWelcome, [.conn, .charp]⟩,
    ⟨ascii "gui invalid user", some .ircOutInvuser, [.conn]⟩,
    ⟨ascii "gui invalid pass", some .ircOutInvpass, [.conn]⟩,
    ⟨ascii "gui nick already connected", some .ircOutAlrconn, [.conn]⟩,
    ⟨ascii "gui login done", some .ircOutLogindone, [.conn, .saddr]⟩,
    ⟨ascii "gui banners", some .ircOutBanners, [.conn, .uint, .charpp]⟩,
    ⟨ascii "gui bottons", some .ircOutBanners, [.conn, .uint, .charpp]⟩,
    ⟨ascii "gui message", some .ircOutMessage, [.conn, .charp, .charp, .charp, .charp]⟩,
    ⟨ascii "gui packet error", some .ircOutPkerror, [.conn, .uint]⟩,
    ⟨ascii "gui got users", some .ircOutUsers, [.conn, .uint, .charpp]⟩,
    ⟨ascii "gui user online", some .ircOutUserOnline, [.conn, .charp]⟩,
    ⟨ascii "gui user offline", some .ircOutUserOffline, [.conn, .charp]⟩,
    ⟨ascii "gui user change status", some .ircOutUserChgStatus, [.conn, .charp, .uint]⟩,
    ⟨ascii "gui user info", none, [.conn, .charp, .charp, .timep, .addrp, .uint, .charpp]⟩,
    ⟨ascii "gui room list", some .ircOutRoomlist, [.conn, .uint, .charpp, .uintp, .uintp]⟩,
    ⟨ascii "gui room info", none, [.conn, .charp, .charp, .charp, .uint, .uint]⟩,
    ⟨ascii "gui room user list", some .ircOutRoomUlist, [.conn, .charp, .uint, .charpp]⟩,
    ⟨ascii "gui room message", some .ircOutRoomMessage,
      [.conn, .charp, .charp, .charp, .charp, .charp]⟩,
    ⟨ascii "gui room user enter", some .ircOutRoomUenter, [.conn, .charp, .charp]⟩,
    ⟨ascii "gui room user leave", some .ircOutRoomUleave, [.conn, .charp, .charp]⟩,
    ⟨ascii "gui room can leave", some .ircOutRoomCanleave, [.conn, .charp]⟩,
    ⟨ascii "gui room notexist", some .ircOutRoomNotexist, [.conn, .charp]⟩,
    ⟨ascii "gui room is full", some .ircOutRoomFull, [.conn, .charp]⟩,
    ⟨ascii "gui room already exist", some .ircOutRoomAlrexist, [.conn, .charp]⟩,
    ⟨ascii "gui found users", some .ircOutFoundusers, [.conn, .uint, .charpp]⟩,
    ⟨ascii "gui select nick", some .ircOutSelnick, [.conn, .uint, .charpp, .charpp]⟩] ++
  if debug then [⟨ascii "gui dump data", some .ircDumpData, [.conn, .ptr, .size]⟩] else []

/-- The rows in the order in which `c6_init` and `irc_init` come to them. -/
def events (debug : Bool) : List (EventRow) := c6Ev ++ ircEv debug

/-- The names that `CONNECT` is used on. -/
def connects : List (List UInt8) := [ascii "gui user info", ascii "gui room info"]

/-! ## Emissions -/

/-- An argument of an emission, behind the connection. -/
inductive Arg where
  | charp (s : List UInt8)
  | charpp (v : List (List UInt8))
  | uint (n : Nat)
  | ptr (buf : List UInt8)
  | size (n : Nat)
deriving DecidableEq, Repr

/-- `EMIT`, without the connection. -/
structure Emission where
  name : List UInt8
  args : List Arg
deriving DecidableEq, Repr

/-- The emissions of a handler, or nothing where it has left its block. -/
def emissions : RoomEmit → Option (List Emission)
  | .invalid func buf => some
      [⟨ascii "gui warning", [.charp (ascii ("ricevuto un pacchetto non valido: " ++ func))]⟩,
        ⟨ascii "gui dump data", [.ptr buf, .size buf.length]⟩]
  | .roomUserList room users => some
      [⟨ascii "gui room user list", [.charp room, .uint users.length, .charpp users]⟩]
  | .roomIsFull room => some [⟨ascii "gui room is full", [.charp room]⟩]
  | .roomCanLeave room => some [⟨ascii "gui room can leave", [.charp room]⟩]
  | .roomNotExist room => some [⟨ascii "gui room not exist", [.charp room]⟩]
  | .outside => none

section Functions

variable (refuses : Refusal) (others : Func → List Arg → Conn → Wrote Conn)

/-- A function with its arguments.  `others` stands for the functions of other events. -/
def Func.run (args : List Arg) (c : Conn) (f : Func) : Wrote Conn :=
  match f, args with
  | ircOutRoomUlist, [.charp room, .uint _, .charpp usersv] =>
      Irc.ircOutRoomUlist refuses c room usersv
  | ircOutRoomUenter, [.charp room, .charp user] => Irc.ircOutRoomUenter refuses c room user
  | ircOutRoomUleave, [.charp room, .charp user] => Irc.ircOutRoomUleave c room user
  | ircOutRoomCanleave, [.charp room] => Irc.ircOutRoomCanleave c room
  | ircOutRoomNotexist, [.charp room] => Irc.ircOutRoomNotexist c room
  | ircOutRoomFull, [.charp room] => Irc.ircOutRoomFull c room
  | f, args => others f args c

/-- An emission on an instance and its ancestors, with what its functions write. -/
def deliver (chain : List (Instance (List UInt8) Func)) (c : Conn) (e : Emission) : Wrote Conn :=
  each (Func.run refuses others e.args) c (Signals.sigEmit chain e.name).2

/-- `c6_process_input`, with the handler that it comes to and the payload for it. -/
def handled (key : Key) (block : List UInt8) : Option (C6.Handler × List UInt8) :=
  match block[1]? with
  | none => none
  | some cmd =>
      match cmdTable cmd with
      | some .encoded =>
          if _h : block.length < headSize then none
          else handled key (packetEncode (block.drop headSize) key)
      | some h => some (h, block.drop headSize)
      | none => none
termination_by block.length
decreasing_by
  rw [C6.length_packetEncode, List.length_drop]
  unfold headSize at *
  omega

/-- The reply that a handler of `cmd_table` is for. -/
def roomReply : C6.Handler → Option RoomReply
  | .roomuserlist => some .userlist
  | .roomisfull => some .isfull
  | .roomnotexist => some .notexist
  | .roomcanleave => some .canleave
  | _ => none

/-- The instances and the two halves of a connection. -/
structure RoomSession where
  node : Registry Marshal Func
  root : Registry Marshal Func
  channel : RoomChannel
  conn : Conn

namespace RoomSession

/-- One packet, when it is a room reply whose handler stays in it. -/
def processRoomReply (host : Endian) (key : Key) (s : RoomSession) (block : List UInt8) :
    Option (Client × Wrote Conn) := do
  let (h, buf) ← handled key block
  let reply ← roomReply h
  let r := reply.handle host s.channel.client buf
  let es ← r.2.mapM emissions
  some (r.1, each (deliver refuses others [s.node.toInstance, s.root.toInstance]) s.conn es.flatten)

end RoomSession

end Functions

/-! ## The answers of the server -/

/-- The payload of ROOM_USERLIST.  A nick is not empty. -/
structure RoomUsers where
  room : Text
  /-- The two bytes that are passed over. -/
  unknown : List UInt8
  two : unknown.length = 2
  nicks : List Text
  few : nicks.length ≤ 255
  named : ∀ nick ∈ nicks, nick.bytes ≠ []

namespace RoomUsers

def head (u : RoomUsers) : Record :=
  [.text u.room, .skip u.unknown, byteItem (UInt8.ofNat u.nicks.length)]

def records (u : RoomUsers) : List Record := u.nicks.map fun nick => [.text nick]

def payload (host : Endian) (u : RoomUsers) : List UInt8 :=
  u.head.encode host ++ u.records.flatMap (Record.encode host)

end RoomUsers

/-- The answers to a request to enter or leave a room.  Two of them do not name it. -/
inductive RoomAnswer where
  | userlist (u : RoomUsers)
  | isfull (room : Text) (unknown : UInt8)
  | notexist (buf : List UInt8)
  | canleave (buf : List UInt8)

namespace RoomAnswer

def reply : RoomAnswer → RoomReply
  | userlist _ => .userlist
  | isfull _ _ => .isfull
  | notexist _ => .notexist
  | canleave _ => .canleave

def cmd : RoomAnswer → UInt8
  | userlist _ => 0x32
  | isfull _ _ => 0x3b
  | notexist _ => 0x31
  | canleave _ => 0x35

def payload (host : Endian) : RoomAnswer → List UInt8
  | userlist u => u.payload host
  | isfull room unknown => Record.encode host [.text room, .skip [unknown]]
  | notexist buf | canleave buf => buf

/-- The answer is for the room. -/
def For (room : List UInt8) : RoomAnswer → Prop
  | userlist u => u.room.bytes = room
  | isfull name _ => name.bytes = room
  | notexist _ | canleave _ => True

/-- A block with the answer. -/
structure Carried (host : Endian) (a : RoomAnswer) (block : List UInt8) : Prop where
  header : headSize ≤ block.length
  cmd : block[1]? = some a.cmd
  payload : block.drop headSize = a.payload host

/-- A packet with the answer, which may be in TRANSPORT packets. -/
def InPacket (host : Endian) (key : Key) (a : RoomAnswer) (block : List UInt8) : Prop :=
  ∃ depth inner, nested key depth block = some inner ∧ a.Carried host inner

end RoomAnswer

/-! ## Lines that name a channel -/

def Line.args : Line → List (List UInt8)
  | .join nick user host chan => [nick, user, host, chan]
  | .part nick user host chan => [nick, user, host, chan]
  | .chanMode nick user host chan mode arg => [nick, user, host, chan, mode, arg]
  | .topic srv me chan text => [srv, me, chan, text]
  | .namReply srv me kind chan pre nick => [srv, me, kind, chan, pre, nick]
  | .endNamReply srv me chan => [srv, me, chan]
  | .notOnChannel srv me chan => [srv, me, chan]
  | .notice srv target text => [srv, target, text]
  | .other _ args => args

def Line.Names (chan : List UInt8) (l : Line) : Prop := ∃ arg ∈ l.args, chan <:+: arg

/-- A line is written that names the channel. -/
def Tells (chan : List UInt8) (r : Wrote Conn) : Prop := ∃ l, .line l ∈ r.outs ∧ l.Names chan

namespace RoomSession

/-- A state that the connection can be in.  The lists of rooms and nicks are any. -/
structure Reached (host : Endian) (s : RoomSession) : Prop where
  node : Registry.Connected connects s.node
  root : ∃ debug new root, new.map Prod.fst = events debug ∧ Registry.new.AllFresh new ∧
    Registry.new.initEvents new = .ok root ∧ Registry.Rooted root s.root
  channel : ∃ c : Client, c.proom = [] ∧
    Reaches (fun s step => RoomStep.run host s step) RoomStep.Enabled
      { client := c, unanswered := [] } s.channel

/-- The answer in a packet gets through to the user. -/
def Answered (refuses : Refusal) (others : Func → List Arg → Conn → Wrote Conn) (host : Endian)
    (key : Key) (s : RoomSession) (room block : List UInt8) : Prop :=
  ∃ client r, s.processRoomReply refuses others host key block = some (client, r) ∧
    Tells (ircRoomEncode room) r

end RoomSession

/-! ## From the packet to the emission -/

theorem handled_encoded {key : Key} {block : List UInt8} (hcmd : block[1]? = some C6.cmdEncoded)
    (hlen : headSize ≤ block.length) :
    handled key block = handled key (packetEncode (block.drop headSize) key) := by
  rw [handled, hcmd]
  dsimp only
  rw [C6.cmdTable_encoded.mpr rfl]
  dsimp only
  rw [dif_neg (Nat.not_lt.mpr hlen)]

/-- The TRANSPORT packets around a block are taken off it. -/
theorem handled_nested {key : Key} {depth : Nat} {block inner : List UInt8}
    (h : nested key depth block = some inner) (hinner : headSize ≤ inner.length) :
    handled key block = handled key inner := by
  induction depth generalizing block with
  | zero => rw [Option.some.inj h]
  | succ depth ih =>
      rw [nested] at h
      split at h
      · rename_i hcmd
        have hlen : headSize ≤ block.length := by
          by_contra hshort
          -- Nothing is left of a block that is shorter than a header.
          have hnil : packetEncode (block.drop headSize) key = [] := by
            rw [← List.length_eq_zero_iff, C6.length_packetEncode, List.length_drop]
            omega
          rw [hnil] at h
          cases depth with
          | zero =>
              rw [← Option.some.inj h] at hinner
              exact absurd hinner (by decide)
          | succ depth =>
              rw [nested, if_neg (by simp)] at h
              cases h
        rw [handled_encoded hcmd hlen, ih h]
      · cases h

namespace RoomAnswer

variable {host : Endian} {a : RoomAnswer} {room : List UInt8}

/-- The handler for an answer. -/
theorem Carried.handled {block : List UInt8} (h : a.Carried host block) (key : Key) :
    ∃ f, Irc.handled key block = some (f, a.payload host) ∧ roomReply f = some a.reply := by
  rw [Irc.handled, h.cmd, ← h.payload]
  cases a with
  | userlist u => exact ⟨.roomuserlist, rfl, rfl⟩
  | isfull name unknown => exact ⟨.roomisfull, rfl, rfl⟩
  | notexist buf => exact ⟨.roomnotexist, rfl, rfl⟩
  | canleave buf => exact ⟨.roomcanleave, rfl, rfl⟩

/-- What the handler emits. -/
def emit (room : List UInt8) : RoomAnswer → RoomEmit
  | userlist u => .roomUserList room (u.nicks.map Text.bytes)
  | isfull _ _ => .roomIsFull room
  | notexist _ => .roomNotExist room
  | canleave _ => .roomCanLeave room

theorem userlist_emits (c : Client) (u : RoomUsers) (hroom : u.room.bytes ≠ []) :
    (C6.cmdRoomuserlist host c (u.payload host)).2 =
      [.roomUserList u.room.bytes (u.nicks.map Text.bytes)] := by
  have hhead : u.head.fields = C6.Format.roomuserlist.fields := by
    show [Buffer.shortStr, .skip u.unknown.length, C6.u8] = _
    rw [u.two]
    rfl
  have hnonEmpty : u.head.NonEmpty := by
    simp [RoomUsers.head, Record.NonEmpty, Item.NonEmpty, byteItem, hroom]
  have hfirst : C6.c6Unpack host .roomuserlist (u.payload host) =
      .ok ((u.head.encode host).length, u.head.outs) := C6.c6Unpack_encode hhead hnonEmpty _
  have hfields : ∀ r ∈ u.records, r.fields = C6.Format.roomuserlistNick.fields := by
    intro r hr
    obtain ⟨nick, -, rfl⟩ := List.mem_map.mp hr
    rfl
  have hrecords : ∀ r ∈ u.records, r.NonEmpty := by
    intro r hr
    obtain ⟨nick, hnick, rfl⟩ := List.mem_map.mp hr
    simp [Record.NonEmpty, Item.NonEmpty, u.named nick hnick]
  have hbuf : (u.payload host).drop (u.head.encode host).length =
      u.records.flatMap (Record.encode host) ++ [] := by
    rw [RoomUsers.payload, List.drop_left, List.append_nil]
  have hcount : C6.lastNum u.head.outs = u.records.length := by
    have hfew := u.few
    show (UInt8.ofNat u.nicks.length).toNat = _
    rw [UInt8.toNat_ofNat', RoomUsers.records, List.length_map]
    omega
  have hrest := C6.unpackEach_encode hfields hrecords hbuf
  have hnicks : (u.records.map Record.outs).map C6.firstStr = u.nicks.map Text.bytes := by
    rw [RoomUsers.records, List.map_map, List.map_map]
    exact List.map_congr_left fun nick _ => rfl
  unfold C6.cmdRoomuserlist
  dsimp only
  rw [hfirst, C6.checked, hcount, hrest, C6.checked, hnicks]
  rfl

theorem isfull_emits (c : Client) {name : Text} (unknown : UInt8) (hname : name.bytes ≠ []) :
    (C6.cmdRoomisfull host c (Record.encode host [.text name, .skip [unknown]])).2 =
      [.roomIsFull name.bytes] := by
  let r : Record := [.text name, .skip [unknown]]
  have hfields : r.fields = C6.Format.roomIsfull.fields := rfl
  have hnonEmpty : r.NonEmpty := by simp [r, Record.NonEmpty, Item.NonEmpty, hname]
  have hread : C6.c6Unpack host .roomIsfull (r.encode host ++ []) =
      .ok ((r.encode host).length, r.outs) := C6.c6Unpack_encode hfields hnonEmpty []
  rw [List.append_nil] at hread
  show C6.checked _ _ (C6.c6Unpack host .roomIsfull (r.encode host)) _ = _
  rw [hread]
  rfl

/-- The oldest request gives the room to the answers that do not name it. -/
theorem handle_emits {ch : RoomChannel} (hq : ch.Queued) {req : RoomRequest}
    {rest : List RoomRequest} (hreq : ch.unanswered = req :: rest) (hroom : req.room ≠ [])
    (hfor : a.For req.room) :
    (a.reply.handle host ch.client (a.payload host)).2 = [a.emit req.room] := by
  obtain ⟨hcan, hnot⟩ := hq.emits hreq
  cases a with
  | userlist u =>
      rw [emit, ← show u.room.bytes = req.room from hfor]
      exact userlist_emits ch.client u (hfor.symm ▸ hroom)
  | isfull name unknown =>
      rw [emit, ← show name.bytes = req.room from hfor]
      exact isfull_emits ch.client unknown (hfor.symm ▸ hroom)
  | notexist buf => exact hnot
  | canleave buf => exact hcan

/-- The emission for an answer. -/
def emission (room : List UInt8) : RoomAnswer → Emission
  | userlist u =>
      let users := u.nicks.map Text.bytes
      ⟨ascii "gui room user list", [.charp room, .uint users.length, .charpp users]⟩
  | isfull _ _ => ⟨ascii "gui room is full", [.charp room]⟩
  | notexist _ => ⟨ascii "gui room not exist", [.charp room]⟩
  | canleave _ => ⟨ascii "gui room can leave", [.charp room]⟩

theorem emissions_emit (a : RoomAnswer) (room : List UInt8) :
    emissions (a.emit room) = some [a.emission room] := by
  cases a <;> rfl

end RoomAnswer

/-! ## From the emission to the functions -/

theorem events_sublist (debug : Bool) : (events debug).Sublist (events true) := by
  cases debug with
  | false => exact (List.Sublist.append_left (List.Sublist.append_left (List.nil_sublist _) _) _)
  | true => exact List.Sublist.refl _

theorem events_nodup (debug : Bool) :
    (0 :: (events debug).reverse.map Signals.Event.hash).Nodup := by
  have hnames : (events true).map Signals.Event.name = Signals.c6Events ++ Signals.ircEvents := rfl
  have hnodup : (0 :: (events true).map Signals.Event.hash).Nodup := by
    have h := Signals.events_nodup
    rwa [← hnames, List.map_map] at h
  rw [List.map_reverse]
  refine (((List.reverse_perm _).cons 0).nodup_iff).mpr (hnodup.sublist ?_)
  exact (((events_sublist debug).map Signals.Event.hash).cons_cons 0)

/-- The rows for the answers, without that of `irc_out_room_notexist`. -/
def answerRows : List (EventRow) :=
  [⟨ascii "gui room user list", some .ircOutRoomUlist, [.conn, .charp, .uint, .charpp]⟩,
    ⟨ascii "gui room is full", some .ircOutRoomFull, [.conn, .charp]⟩,
    ⟨ascii "gui room can leave", some .ircOutRoomCanleave, [.conn, .charp]⟩]

theorem answerRows_subset (debug : Bool) : answerRows ⊆ events debug := by
  have hrows : answerRows = [43, 49, 47].filterMap fun i => (events false)[i]? := rfl
  intro e he
  rw [hrows] at he
  obtain ⟨i, -, hi⟩ := List.mem_filterMap.mp he
  have hmem : e ∈ events false := List.mem_of_getElem? hi
  cases debug with
  | false => exact hmem
  | true => exact (events_sublist false).subset hmem

/-- No row has the hash of the name that `cmd_roomnotexist` emits. -/
theorem hash_ne_notexist (debug : Bool) :
    ∀ e ∈ events debug, e.hash ≠ Hash.fnvHash (cstring (ascii "gui room not exist")) := by
  have hrows : ∀ e ∈ events true,
      e.hash ≠ Hash.fnvHash (cstring (ascii "gui room not exist")) := by decide +kernel
  exact fun e he => hrows e ((events_sublist debug).subset he)

theorem emission_ne_connects (a : RoomAnswer) (room : List UInt8) :
    (((a.emission room).name :: connects).map fun sig => Hash.fnvHash (cstring sig)).Nodup := by
  cases a with
  | userlist | isfull | notexist | canleave =>
      simp only [RoomAnswer.emission]
      decide +kernel

namespace RoomSession

variable {host : Endian} {s : RoomSession}

/-- `ev_root` has the rows of both tables. -/
theorem Reached.serves (h : s.Reached host) :
    ∃ debug, s.root.Serves (events debug).reverse := by
  obtain ⟨debug, new, root, hnew, hfresh, hinit, hrooted⟩ := h.root
  have hnodup : (0 :: ((new.map Prod.fst).reverse ++ []).map Signals.Event.hash).Nodup := by
    rw [List.append_nil, hnew]
    exact events_nodup debug
  obtain ⟨root', hinit', hserves⟩ := Registry.new_serves.initEvents new hnodup hfresh
  rw [hinit] at hinit'
  obtain rfl := Except.ok.inj hinit'
  rw [List.append_nil, hnew] at hserves
  exact ⟨debug, hrooted.serves hserves⟩

/-- The instance of the connection has no functions for an answer. -/
theorem Reached.node_none (h : s.Reached host) (a : RoomAnswer) (room : List UInt8) :
    s.node.toInstance.signals (a.emission room).name = none :=
  h.node.signals_none (emission_ne_connects a room)

/-- The functions that an emission runs. -/
def ran (s : RoomSession) (e : Emission) : List Func :=
  (Signals.sigEmit [s.node.toInstance, s.root.toInstance] e.name).2

/-- The function of its row is run for an answer. -/
theorem Reached.ran_row (h : s.Reached host) {a : RoomAnswer} {room : List UInt8}
    {e : EventRow} (hname : (a.emission room).name = e.name) (he : e ∈ answerRows) :
    s.ran (a.emission room) = e.cb.toList := by
  obtain ⟨debug, hserves⟩ := h.serves
  have hnode := h.node_none a room
  rw [hname] at hnode
  rw [ran, hname]
  exact hserves.emit (List.mem_reverse.mpr (answerRows_subset debug he)) hnode

/-- No function is run for a room that does not exist. -/
theorem Reached.ran_notexist (h : s.Reached host) (buf room : List UInt8) :
    s.ran ((RoomAnswer.notexist buf).emission room) = [] := by
  obtain ⟨debug, hserves⟩ := h.serves
  have hroot := hserves.signals_none fun e he =>
    hash_ne_notexist debug e (List.mem_reverse.mp he)
  refine Signals.sigEmit_none _ _ fun si hsi => ?_
  rcases List.mem_cons.mp hsi with rfl | hsi
  · exact h.node_none (.notexist buf) room
  · rw [List.mem_singleton.mp hsi]
    exact hroot

end RoomSession


/-! ## From the functions to the lines -/

section Lines

variable {refuses : Refusal} {others : Func → List Arg → Conn → Wrote Conn} {c : Conn}
  {room : List UInt8}

theorem names_of_mem {chan : List UInt8} {l : Line} (h : chan ∈ l.args) : l.Names chan :=
  ⟨chan, h, List.infix_refl chan⟩

/-- A user list is told also when it ends with the room not found again. -/
theorem tells_ulist (hroom : room ≠ []) (usersv : List (List UInt8)) :
    Tells (ircRoomEncode room) (Irc.ircOutRoomUlist refuses c room usersv) := by
  have hjoin : (Line.join c.nick c.nick serv (ircRoomEncode room)).Names (ircRoomEncode room) :=
    names_of_mem (by simp [Line.args])
  have hret : (chanlistAdd refuses c.chans room (ircRoomEncode room)).2 = 1 ∨
      (chanlistAdd refuses c.chans room (ircRoomEncode room)).2 = 0 := by
    unfold chanlistAdd
    rcases hashtableAddD_cases c.chans hroom _ with ⟨-, h⟩ | ⟨-, -, h⟩ | ⟨-, h⟩
    · exact .inr (by rw [h])
    · exact .inl (by rw [h])
    · exact .inl (by rw [h])
  unfold Irc.ircOutRoomUlist
  dsimp only
  rcases hret with hret | hret
  · rw [if_pos hret]
    split
    · exact ⟨_, List.mem_cons_self, hjoin⟩
    · refine ⟨_, ?_, hjoin⟩
      show _ ∈ _ ++ _
      simp
  · rw [if_neg (by rw [hret]; decide), if_pos hret]
    refine ⟨_, List.mem_cons_self, _, List.mem_cons_of_mem _ (List.mem_cons_of_mem _
      List.mem_cons_self), ?_⟩
    exact ⟨ascii "**ERRORE** " ++ ascii "siete gia' in ", ascii " ", by simp⟩

theorem tells_canleave : Tells (ircRoomEncode room) (Irc.ircOutRoomCanleave c room) := by
  unfold Irc.ircOutRoomCanleave
  dsimp only
  split
  · exact ⟨_, List.mem_cons_self, names_of_mem (by simp [Line.args])⟩
  · exact ⟨_, List.mem_cons_self, names_of_mem (by simp [Line.args])⟩

theorem tells_full : Tells (ircRoomEncode room) (Irc.ircOutRoomFull c room) :=
  ⟨_, List.mem_cons_self, names_of_mem (by simp [Line.args])⟩

/-- The outputs of a loop with one turn are those of the turn. -/
theorem outs_each_single {σ β : Type} (turn : σ → β → Wrote σ) (st : σ) (b : β) :
    (each turn st [b]).outs = (turn st b).outs := by
  rw [each]
  cases turn st b with
  | error e => rfl
  | ok r => exact List.append_nil r.2

end Lines

namespace RoomSession

variable {refuses : Refusal} {others : Func → List Arg → Conn → Wrote Conn} {host : Endian}
  {s : RoomSession} {req : RoomRequest} {rest : List RoomRequest} {a : RoomAnswer}

/-- A packet with an answer comes to one emission. -/
theorem processRoomReply_eq (refuses : Refusal) (others : Func → List Arg → Conn → Wrote Conn)
    (hs : s.Reached host) (hreq : s.channel.unanswered = req :: rest)
    (hroom : req.room ≠ []) (hfor : a.For req.room) {key : Key} {block : List UInt8}
    (hpacket : a.InPacket host key block) :
    ∃ client, s.processRoomReply refuses others host key block = some (client,
      each (deliver refuses others [s.node.toInstance, s.root.toInstance]) s.conn
        [a.emission req.room]) := by
  obtain ⟨depth, inner, hnested, hcarried⟩ := hpacket
  obtain ⟨f, hhandled, hreply⟩ := hcarried.handled key
  obtain ⟨c, hc, hchannel⟩ := hs.channel
  have hqueued : s.channel.Queued := C6.RoomChannel.queued_of_reaches hc hchannel
  have hemits : (a.reply.handle host s.channel.client (a.payload host)).2 = [a.emit req.room] :=
    RoomAnswer.handle_emits hqueued hreq hroom hfor
  refine ⟨(a.reply.handle host s.channel.client (a.payload host)).1, ?_⟩
  unfold processRoomReply
  rw [handled_nested hnested hcarried.header, hhandled]
  simp [hreply, hemits, RoomAnswer.emissions_emit]

/-- An answer is told if and only if the functions that its emission runs tell it. -/
theorem answered_iff_run (hs : s.Reached host) (hreq : s.channel.unanswered = req :: rest)
    (hroom : req.room ≠ []) (hfor : a.For req.room) {key : Key} {block : List UInt8}
    (hpacket : a.InPacket host key block) :
    s.Answered refuses others host key req.room block ↔ Tells (ircRoomEncode req.room)
      (each (Func.run refuses others (a.emission req.room).args) s.conn
        (s.ran (a.emission req.room))) := by
  obtain ⟨client, hprocess⟩ := processRoomReply_eq refuses others hs hreq hroom hfor hpacket
  unfold Answered Tells
  rw [hprocess]
  constructor
  · rintro ⟨client', r, hr, l, hl, hnames⟩
    obtain ⟨rfl, rfl⟩ := Prod.mk.inj (Option.some.inj hr)
    rw [outs_each_single] at hl
    exact ⟨l, hl, hnames⟩
  · rintro ⟨l, hl, hnames⟩
    refine ⟨client, _, rfl, l, ?_, hnames⟩
    rw [outs_each_single]
    exact hl

/-- An answer gets through to the user if and only if it is not that the room does not exist. -/
theorem answered_iff (refuses : Refusal) (others : Func → List Arg → Conn → Wrote Conn)
    (host : Endian) (key : Key) {s : RoomSession} (hs : s.Reached host) {req : RoomRequest}
    {rest : List RoomRequest} (hreq : s.channel.unanswered = req :: rest)
    (hroom : req.room ≠ []) {a : RoomAnswer} (hfor : a.For req.room) {block : List UInt8}
    (hpacket : a.InPacket host key block) :
    s.Answered refuses others host key req.room block ↔ a.reply ≠ .notexist := by
  rw [answered_iff_run hs hreq hroom hfor hpacket]
  have htold : ∀ f, s.ran (a.emission req.room) = [f] → Tells (ircRoomEncode req.room)
      (f.run refuses others (a.emission req.room).args s.conn) → Tells (ircRoomEncode req.room)
        (each (Func.run refuses others (a.emission req.room).args) s.conn
          (s.ran (a.emission req.room))) := by
    rintro f hran ⟨l, hl, hnames⟩
    refine ⟨l, ?_, hnames⟩
    rw [hran, outs_each_single]
    exact hl
  cases a with
  | userlist u =>
      refine iff_of_true (htold .ircOutRoomUlist ?_ ?_) nofun
      · exact hs.ran_row rfl List.mem_cons_self
      · exact tells_ulist hroom _
  | isfull name unknown =>
      refine iff_of_true (htold .ircOutRoomFull ?_ tells_full) nofun
      exact hs.ran_row rfl (List.mem_cons_of_mem _ List.mem_cons_self)
  | notexist buf =>
      refine iff_of_false (fun h => ?_) fun h => h rfl
      obtain ⟨l, hl, -⟩ := h
      rw [hs.ran_notexist] at hl
      exact nomatch hl
  | canleave buf =>
      refine iff_of_true (htold .ircOutRoomCanleave ?_ tells_canleave) nofun
      exact hs.ran_row rfl (List.mem_cons_of_mem _ (List.mem_cons_of_mem _ List.mem_cons_self))

/-- The rows with the cells of their numbers. -/
def numbered (rows : List (EventRow)) : List (EventRow × Cells) :=
  rows.zipIdx.map fun r => (r.1, ⟨r.2, r.2, r.2⟩)

/-- The requests of a connection, whatever they are, are those of some state. -/
theorem exists_reached {c : Client} (hc : c.proom = []) {ch : RoomChannel}
    (h : Reaches (fun s step => RoomStep.run host s step) RoomStep.Enabled
      { client := c, unanswered := [] } ch) (conn : Conn) :
    ∃ s : RoomSession, s.Reached host ∧ s.channel = ch ∧ s.conn = conn := by
  have hnew : (numbered (events false)).map Prod.fst = events false := rfl
  have hfresh : Registry.new.AllFresh (numbered (events false)) := by decide +kernel
  have hnodup : (0 :: (((numbered (events false)).map Prod.fst).reverse ++ []).map
      Signals.Event.hash).Nodup := by
    rw [List.append_nil, hnew]
    exact events_nodup false
  obtain ⟨root, hinit, -⟩ := Registry.new_serves.initEvents _ hnodup hfresh
  refine ⟨⟨Registry.new, root, ch, conn⟩, ⟨.new, ?_, c, hc, h⟩, rfl, rfl⟩
  exact ⟨false, _, root, hnew, hfresh, hinit, .init⟩

/-- A user has asked to enter the room `a`. -/
theorem exists_entering (conn : Conn) : ∃ s : RoomSession, s.Reached .little ∧
    s.channel.unanswered = [⟨.enter, [97]⟩] ∧ s.conn = conn := by
  obtain ⟨sent, hsend, -⟩ := C6.RoomCmd.send_proom .enter .little C6.connectionNew [110] [97]
  let ch : RoomChannel := { client := sent.client, unanswered := [⟨.enter, [97]⟩] }
  have hstep : (RoomStep.request .enter [110] [97]).run .little
      { client := C6.connectionNew, unanswered := [] } = .ok (ch, []) := by
    rw [RoomStep.run, hsend]
    rfl
  obtain ⟨s, hs, hch, hconn⟩ := exists_reached (c := C6.connectionNew) rfl
    (Reaches.start.step (.request .enter [110] [97]) trivial hstep) conn
  exact ⟨s, hs, by rw [hch], hconn⟩

/-- The room `a` is full. -/
theorem answered_iff_full : ∃ s : RoomSession, s.Reached .little ∧
    s.channel.unanswered = [⟨.enter, [97]⟩] ∧
      s.Answered exact (fun _ _ c => .ok (c, [])) .little (fun _ => 0) [97]
        [0x20, 0x3b, 0, 1, 0, 3, 1, 97, 0] := by
  obtain ⟨s, hs, hreq, -⟩ := exists_entering (connNew [110])
  let name : Text := ⟨[97], by decide, by decide⟩
  have hpacket : RoomAnswer.InPacket .little (fun _ => 0) (.isfull name 0)
      [0x20, 0x3b, 0, 1, 0, 3, 1, 97, 0] := ⟨0, _, rfl, by decide, rfl, rfl⟩
  exact ⟨s, hs, hreq, (answered_iff exact _ .little _ hs hreq (List.cons_ne_nil _ _)
    (a := .isfull name 0) rfl hpacket).mpr nofun⟩

/-- The user has asked to enter the room `a`, the server answers that there is no such room,
and nothing is written. -/
theorem answered_fails : ∃ s : RoomSession, s.Reached .little ∧
    s.channel.unanswered = [⟨.enter, [97]⟩] ∧
      RoomAnswer.InPacket .little (fun _ => 0) (.notexist []) [0x20, 0x31, 0, 1, 0, 0] ∧
      ¬s.Answered exact (fun _ _ c => .ok (c, [])) .little (fun _ => 0) [97]
        [0x20, 0x31, 0, 1, 0, 0] := by
  obtain ⟨s, hs, hreq, -⟩ := exists_entering (connNew [110])
  have hpacket : RoomAnswer.InPacket .little (fun _ => 0) (.notexist [])
      [0x20, 0x31, 0, 1, 0, 0] := ⟨0, _, rfl, by decide, rfl, rfl⟩
  refine ⟨s, hs, hreq, hpacket, fun h => ?_⟩
  rw [answered_iff_run hs hreq (List.cons_ne_nil _ _) (a := .notexist []) trivial hpacket] at h
  obtain ⟨l, hl, -⟩ := h
  rw [hs.ran_notexist] at hl
  exact nomatch hl

end RoomSession

end Irc
end IrC6
