import IrC6.C6.Client.Requests

/-!
# The layouts of the client packets

The payload of every request as a list of slots.  A slot is a piece of the format, and a
length slot also knows the length or the number that it is there to tell.
-/

namespace IrC6
namespace C6

open Buffer

/-- A piece of a payload. -/
inductive Slot where
  | plain (p : Piece)
  /-- A number that is packed as `arg` and is to tell `len`. -/
  | length (n : Buffer.Num) (arg len : Nat)

namespace Slot

def piece : Slot → Piece
  | plain p => p
  | length n arg _ => .num n arg

/-- The number in the packet is the length it is there to tell. -/
def Tells (host : Endian) : Slot → Prop
  | plain _ => True
  | length n arg len => (n.order host).value ((n.order host).bytes n.width.size arg) = len

end Slot

def slotBytes (host : Endian) (slots : List Slot) : List UInt8 :=
  layoutBytes host (slots.map Slot.piece)

theorem slotBytes_append (host : Endian) (xs ys : List Slot) :
    slotBytes host (xs ++ ys) = slotBytes host xs ++ slotBytes host ys := by
  simp [slotBytes, layoutBytes]

/-- What the other side asks `client.c` to send. -/
inductive Request where
  | sendMsg (to_ msg : List UInt8)
  | sendOfmsg (to_ msg : List UInt8)
  | reqUsers (arg : List UInt8) (argv : List (List UInt8))
  | delUsers (arg : List UInt8) (argv : List (List UInt8))
  | sendStatus
  | reqUserinfo (nick : List UInt8)
  | reqRoomlist
  | reqRoominfo (room : List UInt8)
  | roomEnter (room : List UInt8)
  | roomLeave (room : List UInt8)
  | sendRoommsg (to_ msg : List UInt8)
  | createRoom (room : List UInt8) (pub : Bool) (topic : List UInt8)
  | ufindByEmail (email : List UInt8)
  | searchNicks
deriving DecidableEq, Repr

/-- What a builder reads besides its arguments: `c->nick`, `c->status` and
`c6_userinfo_elms`. -/
structure Context where
  nick : List UInt8
  status : UInt8
  userinfoElms : Nat

namespace Request

/-- The builder of a request. -/
def send (host : Endian) (x : Context) (c : Client) : Request → Except Stop Sent
  | sendMsg to_ msg => c6SendMsg host c x.nick to_ msg
  | sendOfmsg to_ msg => c6SendOfmsg host c x.nick to_ msg
  | reqUsers arg argv => c6ReqUsers host c (arg :: argv)
  | delUsers arg argv => c6DelUsers host c (arg :: argv)
  | sendStatus => c6SendStatus host c x.status
  | reqUserinfo nick => c6ReqUserinfo host c nick
  | reqRoomlist => c6ReqRoomlist host c x.nick
  | reqRoominfo room => c6ReqRoominfo host c room
  | roomEnter room => c6RoomEnter host c x.nick room
  | roomLeave room => c6RoomLeave host c x.nick room
  | sendRoommsg to_ msg => c6SendRoommsg host c x.nick to_ msg
  | createRoom room pub topic => c6CreateRoom host c x.nick room pub topic
  | ufindByEmail email => c6UfindByEmail host c email
  | searchNicks => c6SearchNicks host c x.userinfoElms

end Request

/-! ## Slots -/

def byteSlot (b : Nat) : Slot := .plain (.num ⟨.byte, false⟩ b)
def shortSlot (v : Nat) : Slot := .plain (.num ⟨.short, true⟩ v)

/-- `%bu%s` with a length cast to `uint8_t`. -/
def textSlots (bs : List UInt8) : List Slot :=
  [.length ⟨.byte, false⟩ (uint8 bs.length) bs.length, .plain (.str bs)]

/-- The header of a payload.  Its length is filled in by `c6_send`. -/
def headSlots (cmd : UInt8) (hcmd : cmd ≠ 0) (c : Client) : List Slot :=
  [.plain (.lit 0x10 (by decide)), .plain (.lit cmd hcmd), shortSlot c.cltId.toNat, shortSlot 0]

/-- The header of `reqdel_users` and `room_leave_enter`, with the command as `%bu`. -/
def cmdSlots (cmd : UInt8) (c : Client) : List Slot :=
  [.plain (.lit 0x10 (by decide)), byteSlot cmd.toNat, shortSlot c.cltId.toNat, shortSlot 0]

def usersSlots (cmd : UInt8) (c : Client) (arg : List UInt8) (argv : List (List UInt8)) :
    List Slot :=
  cmdSlots cmd c ++ .length ⟨.short, true⟩ (argv.length + 1) (argv.length + 1) ::
    (arg :: argv).flatMap textSlots

def roomSlots (cmd : UInt8) (c : Client) (nick room : List UInt8) : List Slot :=
  cmdSlots cmd c ++ textSlots nick ++ textSlots room

/-- The values of `search_id` that are sent. -/
def searchSet (c : Client) (userinfoElms : Nat) : List (Fin 256) :=
  ((List.finRange 256).filter (·.val < userinfoElms)).filter (c.searchId · ≠ 0xff)

def searchSlots (c : Client) (is : List (Fin 256)) : List Slot :=
  is.flatMap fun i => [byteSlot ((i.val + 1) % 256), byteSlot (c.searchId i).toNat]

namespace Request

def slots (x : Context) (c : Client) : Request → List Slot
  | sendMsg to_ msg =>
      headSlots 0x08 (by decide) c ++ textSlots x.nick ++
        [.plain .nul, .plain (.lit 0x01 (by decide))] ++ textSlots to_ ++
        [.length ⟨.short, true⟩ (uint16 (msg.length + sizeShort)) (msg.length + sizeShort),
          shortSlot c.style.toNat, .plain (.str msg)]
  | sendOfmsg to_ msg =>
      headSlots 0x09 (by decide) c ++ textSlots x.nick ++
        [.plain .nul, .plain (.lit 0x01 (by decide))] ++ textSlots to_ ++
        [.length ⟨.short, true⟩ (uint16 msg.length) msg.length, .plain (.str msg)]
  | reqUsers arg argv => usersSlots 0x03 c arg argv
  | delUsers arg argv => usersSlots 0x04 c arg argv
  | sendStatus => headSlots 0x0a (by decide) c ++ [byteSlot (wireStatus x.status).toNat]
  | reqUserinfo nick => headSlots 0x0c (by decide) c ++ textSlots nick
  | reqRoomlist => headSlots 0x24 (by decide) c ++ textSlots x.nick
  | reqRoominfo room => headSlots 0x26 (by decide) c ++ textSlots room
  | roomEnter room => roomSlots 0x21 c x.nick room
  | roomLeave room => roomSlots 0x22 c x.nick room
  | sendRoommsg to_ msg =>
      headSlots 0x20 (by decide) c ++ textSlots x.nick ++ textSlots to_ ++
        [.length ⟨.short, true⟩ (uint16 (msg.length + sizeShort)) (msg.length + sizeShort),
          shortSlot c.style.toNat, .plain (.str msg)]
  | createRoom room pub topic =>
      headSlots 0x25 (by decide) c ++ textSlots x.nick ++ textSlots room ++ textSlots topic ++
        [byteSlot (if pub then 1 else 0), .plain .nul, .plain .nul]
  | ufindByEmail email => headSlots 0x05 (by decide) c ++ textSlots email
  | searchNicks =>
      headSlots 0x0e (by decide) c ++
        [.length ⟨.short, true⟩ (uint16 (searchSet c x.userinfoElms).length)
            (searchSet c x.userinfoElms).length,
          .plain (.buf (slotBytes .big (searchSlots c (searchSet c x.userinfoElms))))]

/-- The rooms that a request adds to `proom`. -/
def rooms : Request → List (List UInt8)
  | roomEnter room => [room]
  | roomLeave room => [room]
  | _ => []

end Request

/-! ## The builders follow the layouts -/

theorem handOver_slots (host : Endian) (c : Client) (slots : List Slot)
    (h : headSize ≤ (slotBytes host slots).length) :
    handOver host c (bufNewPack host (layoutFormat (slots.map Slot.piece))
      (layoutArgs (slots.map Slot.piece))) = .ok (c.sent (slotBytes host slots)) :=
  handOver_pieces host c (slots.map Slot.piece) h

theorem length_headSlots (host : Endian) (cmd : UInt8) (hcmd : cmd ≠ 0) (c : Client) :
    (slotBytes host (headSlots cmd hcmd c)).length = headSize := by
  simp [slotBytes, layoutBytes, headSlots, shortSlot, Slot.piece, Piece.bytes, Width.size,
    sizeShort, headSize]

theorem length_cmdSlots (host : Endian) (cmd : UInt8) (c : Client) :
    (slotBytes host (cmdSlots cmd c)).length = headSize := by
  simp [slotBytes, layoutBytes, cmdSlots, byteSlot, shortSlot, Slot.piece, Piece.bytes, Width.size,
    sizeChar, sizeShort, headSize]

theorem appendUsers_eq (host : Endian) (buf : List UInt8) (argv : List (List UInt8)) :
    appendUsers host buf argv = .ok (buf ++ slotBytes host (argv.flatMap textSlots)) := by
  induction argv generalizing buf with
  | nil => simp [appendUsers, slotBytes, layoutBytes]
  | cons arg argv ih =>
      have hstep : bufAppendPack host buf "%bu%s".toList [.int (uint8 arg.length), .str arg] =
          .ok (buf ++ slotBytes host (textSlots arg)) :=
        bufAppendPack_pieces host buf [.num ⟨.byte, false⟩ (uint8 arg.length), .str arg]
      rw [appendUsers, hstep]
      show appendUsers host _ argv = _
      rw [ih, List.append_assoc, List.flatMap_cons, slotBytes_append]

theorem appendSearch_eq (host : Endian) (c : Client) (payload : List UInt8) (numVal : Nat)
    (is : List (Fin 256)) :
    appendSearch host c payload numVal is =
      .ok (payload ++ slotBytes .big (searchSlots c (is.filter (c.searchId · ≠ 0xff))),
        numVal + (is.filter (c.searchId · ≠ 0xff)).length) := by
  induction is generalizing payload numVal with
  | nil => simp [appendSearch, slotBytes, layoutBytes, searchSlots]
  | cons i is ih =>
      rw [appendSearch]
      by_cases hset : c.searchId i = 0xff
      · rw [if_pos hset, ih, List.filter_cons_of_neg (by simp [hset])]
      · have hstep : bufAppendPack host payload "%bu%bu".toList
              [.int ((i + 1) % 256), .int (c.searchId i).toNat] =
            .ok (payload ++ slotBytes .big [byteSlot ((i + 1) % 256),
              byteSlot (c.searchId i).toNat]) := by
          have hhost := bufAppendPack_pieces host payload
            [.num ⟨.byte, false⟩ ((i + 1) % 256), .num ⟨.byte, false⟩ (c.searchId i).toNat]
          cases host <;> exact hhost
        rw [if_neg hset, hstep, List.filter_cons_of_pos (by simp [hset])]
        show appendSearch host c _ _ is = _
        rw [ih, List.append_assoc, List.length_cons]
        simp only [searchSlots, List.flatMap_cons, slotBytes_append]
        rw [Nat.add_assoc, Nat.add_comm 1]

theorem reqdelUsers_eq (host : Endian) (c : Client) (cmd : UInt8) (arg : List UInt8)
    (argv : List (List UInt8)) :
    reqdelUsers host c (arg :: argv) cmd =
      .ok (c.sent (slotBytes host (usersSlots cmd c arg argv))) := by
  have hsplit : slotBytes host (usersSlots cmd c arg argv) =
      slotBytes host (cmdSlots cmd c ++
        .length ⟨.short, true⟩ (argv.length + 1) (argv.length + 1) :: textSlots arg) ++
        slotBytes host (argv.flatMap textSlots) := by
    rw [← slotBytes_append]
    rfl
  have hlen : headSize ≤ (slotBytes host (cmdSlots cmd c ++
      .length ⟨.short, true⟩ (argv.length + 1) (argv.length + 1) :: textSlots arg)).length := by
    rw [slotBytes_append, List.length_append, length_cmdSlots]
    exact Nat.le_add_right _ _
  have hpos : 0 < headSize := by decide
  have hbuf := bufNewPack_pieces host ((cmdSlots cmd c ++
    .length ⟨.short, true⟩ (argv.length + 1) (argv.length + 1) :: textSlots arg).map Slot.piece)
    (Nat.lt_of_lt_of_le hpos hlen)
  have hnew : bufNewPack host "\x10%bu%^hu%^hu%^hu%bu%s".toList
      [.int cmd.toNat, .int c.cltId.toNat, .int 0, .int (argv.length + 1),
        .int (uint8 arg.length), .str arg] = _ := hbuf
  rw [reqdelUsers, hnew]
  simp only [appendUsers_eq, Except.map, handOver]
  rw [c6Send_eq host c (by rw [List.length_append]; exact Nat.le_trans hlen (Nat.le_add_right _ _))]
  rw [hsplit]
  rfl

theorem length_slots (host : Endian) (x : Context) (c : Client) (req : Request) :
    headSize ≤ (slotBytes host (req.slots x c)).length := by
  cases req <;>
    simp only [Request.slots, usersSlots, roomSlots, slotBytes_append, List.append_assoc,
      List.length_append, length_headSlots, length_cmdSlots, Nat.le_add_right]

/-- Every request sends one packet, with the payload of its layout. -/
theorem Request.send_eq (host : Endian) (x : Context) (c : Client) (req : Request) :
    req.send host x c = .ok { c.sent (slotBytes host (req.slots x c)) with
      client := { c with cltId := c.cltId + 1, proom := c.proom ++ req.rooms } } := by
  have hlen := length_slots host x c req
  have hsame : ∀ payload, Except.ok (ε := Stop) (c.sent payload) = .ok { c.sent payload with
      client := { c with cltId := c.cltId + 1, proom := c.proom ++ [] } } := by
    intro payload
    rw [List.append_nil]
    rfl
  cases req with
  | reqUsers arg argv => exact (reqdelUsers_eq host c 0x03 arg argv).trans (hsame _)
  | delUsers arg argv => exact (reqdelUsers_eq host c 0x04 arg argv).trans (hsame _)
  | roomEnter room =>
      have hsent := handOver_slots host c _ hlen
      exact congrArg (Except.map _) hsent
  | roomLeave room =>
      have hsent := handOver_slots host c _ hlen
      exact congrArg (Except.map _) hsent
  | searchNicks =>
      have hsent := handOver_slots host c _ hlen
      rw [send, c6SearchNicks, appendSearch_eq]
      simp only [List.nil_append, Nat.zero_add]
      exact hsent.trans (hsame _)
  | _ =>
      have hsent := handOver_slots host c _ hlen
      exact hsent.trans (hsame _)

end C6
end IrC6
