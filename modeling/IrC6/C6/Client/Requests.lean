import IrC6.C6.Client.Send
import IrC6.Connection

/-!
# The packets of the client

The builders of `client.c`.  Each packs a payload from its arguments and gives it to
`c6_send`.  Lengths are taken with `strlen` and cast to the size of their field.

`c->nick` and `c->status` belong to the connection and come as arguments.
-/

namespace IrC6
namespace C6

open Buffer

/-- The casts to `uint8_t` and `uint16_t`. -/
def uint8 (n : Nat) : Nat := n % 2 ^ 8
def uint16 (n : Nat) : Nat := n % 2 ^ 16

/-- A call of `c6_send`: the payload it was given, the packet it wrote, and the client
after it. -/
structure Sent where
  payload : List UInt8
  packet : List UInt8
  client : Client

/-- The packet of a payload that has room for its header. -/
def Client.sent (c : Client) (payload : List UInt8) : Sent where
  payload := payload
  packet := c.packetFor payload
  client := { c with cltId := c.cltId + 1 }

/-- The end of a builder: what `buf_new_pack` gave goes to `c6_send`. -/
def handOver (host : Endian) (c : Client) (buf : Except Stop (Option (List UInt8))) :
    Except Stop Sent :=
  match buf with
  | .ok (some payload) =>
      (c6Send host c payload).map fun r => { payload := payload, packet := r.1, client := r.2 }
  -- `c6_send` reads the size of a null buffer.
  | .ok none => .error .outside
  | .error e => .error e

theorem handOver_pieces (host : Endian) (c : Client) (ps : List Piece)
    (h : headSize ≤ (layoutBytes host ps).length) :
    handOver host c (bufNewPack host (layoutFormat ps) (layoutArgs ps)) =
      .ok (c.sent (layoutBytes host ps)) := by
  have hpos : 0 < headSize := by decide
  rw [bufNewPack_pieces host ps (by omega)]
  simp only [handOver, c6Send_eq host c h]
  rfl

section Builders

variable (host : Endian) (c : Client)

def c6SendPong : Except Stop Sent :=
  handOver host c (bufNewPack host "\x10\x0b%^hu%^hu".toList [.int c.cltId.toNat, .int 0])

def c6SendMsg (nick to_ msg : List UInt8) : Except Stop Sent :=
  handOver host c (bufNewPack host "\x10\x08%^hu%^hu%bu%s%Z\x01%bu%s%^hu%^hu%s".toList
    [.int c.cltId.toNat, .int 0, .int (uint8 nick.length), .str nick, .int (uint8 to_.length),
      .str to_, .int (uint16 (msg.length + sizeShort)), .int c.style.toNat, .str msg])

def c6SendOfmsg (nick to_ msg : List UInt8) : Except Stop Sent :=
  handOver host c (bufNewPack host "\x10\x09%^hu%^hu%bu%s%Z\x01%bu%s%^hu%s".toList
    [.int c.cltId.toNat, .int 0, .int (uint8 nick.length), .str nick, .int (uint8 to_.length),
      .str to_, .int (uint16 msg.length), .str msg])

/-- The loop of `reqdel_users`. -/
def appendUsers (buf : List UInt8) : List (List UInt8) → Except Stop (List UInt8)
  | [] => .ok buf
  | arg :: argv => do
      let buf ← bufAppendPack host buf "%bu%s".toList [.int (uint8 arg.length), .str arg]
      appendUsers buf argv

/-- `reqdel_users`, which reads `argv[0]` before it looks at `argc`. -/
def reqdelUsers (argv : List (List UInt8)) (cmd : UInt8) : Except Stop Sent :=
  match argv with
  | [] => .error .outside
  | arg :: rest =>
      match bufNewPack host "\x10%bu%^hu%^hu%^hu%bu%s".toList
          [.int cmd.toNat, .int c.cltId.toNat, .int 0, .int (rest.length + 1),
            .int (uint8 arg.length), .str arg] with
      | .ok (some buf) => handOver host c ((appendUsers host buf rest).map some)
      | r => handOver host c r

def c6ReqUsers (argv : List (List UInt8)) : Except Stop Sent := reqdelUsers host c argv 0x03

def c6DelUsers (argv : List (List UInt8)) : Except Stop Sent := reqdelUsers host c argv 0x04

/-- The bits of `c->status` under the numbers they have on the wire. -/
def wireStatus (status : UInt8) : UInt8 :=
  (if status &&& statusAvailable ≠ 0 then 0x04 else 0) |||
  (if status &&& statusBusy ≠ 0 then 0x10 else 0) |||
  (if status &&& statusNetfriends ≠ 0 then 0x08 else 0) |||
  (if status &&& statusOnline ≠ 0 then 0x40 else 0) |||
  (if status &&& statusVisibleIp ≠ 0 then 0x01 else 0)

def c6SendStatus (status : UInt8) : Except Stop Sent :=
  handOver host c (bufNewPack host "\x10\x0A%^hu%^hu%bu".toList
    [.int c.cltId.toNat, .int 0, .int (wireStatus status).toNat])

def c6ReqUserinfo (nick : List UInt8) : Except Stop Sent :=
  handOver host c (bufNewPack host "\x10\x0C%^hu%^hu%bu%s".toList
    [.int c.cltId.toNat, .int 0, .int (uint8 nick.length), .str nick])

def c6ReqRoomlist (nick : List UInt8) : Except Stop Sent :=
  handOver host c (bufNewPack host "\x10\x24%^hu%^hu%bu%s".toList
    [.int c.cltId.toNat, .int 0, .int (uint8 nick.length), .str nick])

def c6ReqRoominfo (room : List UInt8) : Except Stop Sent :=
  handOver host c (bufNewPack host "\x10\x26%^hu%^hu%bu%s".toList
    [.int c.cltId.toNat, .int 0, .int (uint8 room.length), .str room])

/-- `room_leave_enter`, which keeps the room until the server has answered. -/
def roomLeaveEnter (nick room : List UInt8) (cmd : UInt8) : Except Stop Sent :=
  (handOver host c (bufNewPack host "\x10%bu%^hu%^hu%bu%s%bu%s".toList
    [.int cmd.toNat, .int c.cltId.toNat, .int 0, .int (uint8 nick.length), .str nick,
      .int (uint8 room.length), .str room])).map
    fun s => { s with client := { s.client with proom := s.client.proom ++ [room] } }

def c6RoomEnter (nick room : List UInt8) : Except Stop Sent :=
  roomLeaveEnter host c nick room 0x21

def c6RoomLeave (nick room : List UInt8) : Except Stop Sent :=
  roomLeaveEnter host c nick room 0x22

def c6SendRoommsg (nick to_ msg : List UInt8) : Except Stop Sent :=
  handOver host c (bufNewPack host "\x10\x20%^hu%^hu%bu%s%bu%s%^hu%^hu%s".toList
    [.int c.cltId.toNat, .int 0, .int (uint8 nick.length), .str nick, .int (uint8 to_.length),
      .str to_, .int (uint16 (msg.length + sizeShort)), .int c.style.toNat, .str msg])

def c6CreateRoom (nick room : List UInt8) (pub : Bool) (topic : List UInt8) : Except Stop Sent :=
  handOver host c (bufNewPack host "\x10%%%^hu%^hu%bu%s%bu%s%bu%s%bu%Z%Z".toList
    [.int c.cltId.toNat, .int 0, .int (uint8 nick.length), .str nick, .int (uint8 room.length),
      .str room, .int (uint8 topic.length), .str topic, .int (if pub then 1 else 0)])

def c6UfindByEmail (email : List UInt8) : Except Stop Sent :=
  handOver host c (bufNewPack host "\x10\x05%^hu%^hu%bu%s".toList
    [.int c.cltId.toNat, .int 0, .int (uint8 email.length), .str email])

/-- The loop of `c6_search_nicks` over the indices still to come: the values that are
set, and how many of them. -/
def appendSearch (payload : List UInt8) (numVal : Nat) :
    List (Fin 256) → Except Stop (List UInt8 × Nat)
  | [] => .ok (payload, numVal)
  | i :: is =>
      if c.searchId i = 0xff then appendSearch payload numVal is
      else do
        let payload ← bufAppendPack host payload "%bu%bu".toList
          [.int ((i + 1) % 256), .int (c.searchId i).toNat]
        appendSearch payload (numVal + 1) is

/-- `c6_search_nicks`, with the number of entries of the generated table `c6_userinfo`. -/
def c6SearchNicks (userinfoElms : Nat) : Except Stop Sent :=
  match appendSearch host c [] 0 ((List.finRange 256).filter (·.val < userinfoElms)) with
  | .ok (payload, numVal) =>
      handOver host c (bufNewPack host "\x10\x0E%^hu%^hu%^hu%r".toList
        [.int c.cltId.toNat, .int 0, .int (uint16 numVal), .buf (some payload)])
  | .error e => .error e

end Builders

end C6
end IrC6
