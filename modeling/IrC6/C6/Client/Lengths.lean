import IrC6.C6.Client.Layouts

/-!
# The lengths in the client packets

A packet is formed right when each length in it is that of what follows it, in the fields of
the request and in both headers.  The builders cut every length to its field, so that a
request is formed right as long as its names, its text and all of it together are not too
long.
-/

namespace IrC6
namespace C6

open Buffer

/-- A packet of a request that tells all lengths as they are. -/
structure Formed (host : Endian) (x : Context) (c : Client) (req : Request) (s : Sent) : Prop where
  payload : s.payload = slotBytes host (req.slots x c)
  slots : ∀ slot ∈ req.slots x c, slot.Tells host
  outer : lenField s.packet + headSize = s.packet.length
  inner : lenField (patchLen s.payload) + headSize = s.payload.length

namespace Request

/-- The strings of a request that have a length of one byte in front of them. -/
def names (nick : List UInt8) : Request → List (List UInt8)
  | sendMsg to_ _ | sendOfmsg to_ _ | sendRoommsg to_ _ => [nick, to_]
  | reqUsers arg argv | delUsers arg argv => arg :: argv
  | sendStatus | searchNicks => []
  | reqUserinfo name | reqRoominfo name | ufindByEmail name => [name]
  | reqRoomlist => [nick]
  | roomEnter room | roomLeave room => [nick, room]
  | createRoom room _ topic => [nick, room, topic]

def text : Request → List UInt8
  | sendMsg _ msg | sendOfmsg _ msg | sendRoommsg _ msg => msg
  | _ => []

/-- The bytes of a request besides its names with their lengths and its text, and besides
the values of a search. -/
def fixed : Request → Nat
  | sendMsg _ _ => 12
  | sendOfmsg _ _ | sendRoommsg _ _ => 10
  | reqUsers _ _ | delUsers _ _ => 8
  | sendStatus => 7
  | reqUserinfo _ | reqRoominfo _ | ufindByEmail _ | reqRoomlist => 6
  | roomEnter _ | roomLeave _ => 6
  | createRoom _ _ _ => 9
  | searchNicks => 8

/-- How many values of a search a request has. -/
def values (x : Context) (c : Client) : Request → Nat
  | searchNicks => (searchSet c x.userinfoElms).length
  | _ => 0

end Request

/-- The bytes of names with a length in front of each. -/
def namesSize (names : List (List UInt8)) : Nat := (names.map fun name => name.length + 1).sum

theorem namesSize_cons (name : List UInt8) (names : List (List UInt8)) :
    namesSize (name :: names) = name.length + 1 + namesSize names := by
  rw [namesSize, List.map_cons, List.sum_cons]
  rfl

/-! ## The size of a payload -/

theorem length_textSlots (host : Endian) (bs : List UInt8) :
    (slotBytes host (textSlots bs)).length = bs.length + 1 := by
  simp [slotBytes, layoutBytes, textSlots, Slot.piece, Piece.bytes, Width.size, sizeChar,
    Nat.add_comm]

theorem length_flatMap_textSlots (host : Endian) (names : List (List UInt8)) :
    (slotBytes host (names.flatMap textSlots)).length = namesSize names := by
  induction names with
  | nil => rfl
  | cons name names ih =>
      rw [List.flatMap_cons, slotBytes_append, List.length_append, length_textSlots, ih,
        namesSize_cons]

theorem length_searchSlots (c : Client) (is : List (Fin 256)) :
    (slotBytes .big (searchSlots c is)).length = 2 * is.length := by
  induction is with
  | nil => rfl
  | cons i is ih =>
      have hcons : searchSlots c (i :: is) =
          [byteSlot ((i.val + 1) % 256), byteSlot (c.searchId i).toNat] ++ searchSlots c is := rfl
      rw [hcons, slotBytes_append, List.length_append, ih, List.length_cons]
      simp [slotBytes, layoutBytes, byteSlot, Slot.piece, Piece.bytes, Width.size, sizeChar]
      omega

/-- The size of a slot. -/
def Slot.size (host : Endian) (slot : Slot) : Nat := (slot.piece.bytes host).length

theorem length_slotBytes_cons (host : Endian) (slot : Slot) (slots : List Slot) :
    (slotBytes host (slot :: slots)).length = slot.size host + (slotBytes host slots).length :=
  List.length_append

theorem length_slotBytes_nil (host : Endian) : (slotBytes host []).length = 0 := rfl

theorem size_short (host : Endian) (arg len : Nat) :
    (Slot.length ⟨.short, true⟩ arg len).size host = 2 := Endian.length_bytes .big 2 arg

theorem size_shortSlot (host : Endian) (v : Nat) : (shortSlot v).size host = 2 :=
  Endian.length_bytes .big 2 v

theorem size_byteSlot (host : Endian) (v : Nat) : (byteSlot v).size host = 1 :=
  Endian.length_bytes _ _ _

theorem size_str (host : Endian) (bs : List UInt8) :
    (Slot.plain (.str bs)).size host = bs.length := rfl

theorem size_buf (host : Endian) (bs : List UInt8) :
    (Slot.plain (.buf bs)).size host = bs.length := rfl

theorem size_nul (host : Endian) : (Slot.plain .nul).size host = 1 := rfl

theorem size_lit (host : Endian) (b : UInt8) (hb : b ≠ 0) :
    (Slot.plain (.lit b hb)).size host = 1 := rfl

theorem length_payload (host : Endian) (x : Context) (c : Client) (req : Request) :
    (slotBytes host (req.slots x c)).length =
      req.fixed + 2 * req.values x c + namesSize (req.names x.nick) + req.text.length := by
  cases req <;>
    simp only [Request.slots, Request.fixed, Request.values, Request.names, Request.text,
      usersSlots, roomSlots, List.append_assoc, slotBytes_append, List.length_append,
      length_headSlots, length_cmdSlots, length_textSlots, length_flatMap_textSlots,
      length_slotBytes_cons, length_slotBytes_nil, size_short, size_shortSlot, size_byteSlot,
      size_str, size_buf, size_nul, size_lit, length_searchSlots, namesSize_cons,
      List.length_nil, headSize] <;>
    simp only [namesSize, List.map_nil, List.sum_nil] <;>
    omega

/-! ## The lengths in the fields -/

theorem tells_iff (host : Endian) (n : Buffer.Num) (arg len : Nat) :
    (Slot.length n arg len).Tells host ↔ arg % 256 ^ n.width.size = len := by
  have hvalue : (n.order host).value ((n.order host).bytes n.width.size arg) =
      arg % 256 ^ n.width.size := by
    rw [← Endian.bytes_mod]
    exact Endian.value_bytes _ (Nat.mod_lt _ (Nat.pow_pos (by decide)))
  rw [Slot.Tells, hvalue]

theorem tells_byte (host : Endian) (len : Nat) :
    (Slot.length ⟨.byte, false⟩ (uint8 len) len).Tells host ↔ len ≤ 255 := by
  rw [tells_iff]
  show len % 2 ^ 8 % 256 ^ 1 = len ↔ _
  omega

theorem tells_short (host : Endian) (len : Nat) :
    (Slot.length ⟨.short, true⟩ (uint16 len) len).Tells host ↔ len ≤ 65535 := by
  rw [tells_iff]
  show len % 2 ^ 16 % 256 ^ 2 = len ↔ _
  omega

/-- A number that is cut when it is packed. -/
theorem tells_int (host : Endian) (len : Nat) :
    (Slot.length ⟨.short, true⟩ len len).Tells host ↔ len ≤ 65535 := by
  rw [tells_iff]
  show len % 256 ^ 2 = len ↔ _
  omega

/-- All the lengths of some slots are told as they are. -/
def AllTell (host : Endian) (slots : List Slot) : Prop := ∀ slot ∈ slots, slot.Tells host

theorem allTell_nil (host : Endian) : AllTell host [] ↔ True := by
  simp [AllTell]

theorem allTell_cons (host : Endian) (slot : Slot) (slots : List Slot) :
    AllTell host (slot :: slots) ↔ slot.Tells host ∧ AllTell host slots :=
  List.forall_mem_cons

theorem allTell_append (host : Endian) (slots slots' : List Slot) :
    AllTell host (slots ++ slots') ↔ AllTell host slots ∧ AllTell host slots' :=
  List.forall_mem_append

theorem tells_plain (host : Endian) (p : Piece) : (Slot.plain p).Tells host ↔ True := Iff.rfl

theorem allTell_headSlots (host : Endian) (cmd : UInt8) (hcmd : cmd ≠ 0) (c : Client) :
    AllTell host (headSlots cmd hcmd c) ↔ True := by
  simp only [headSlots, shortSlot, allTell_cons, allTell_nil, tells_plain, and_self]

theorem allTell_cmdSlots (host : Endian) (cmd : UInt8) (c : Client) :
    AllTell host (cmdSlots cmd c) ↔ True := by
  simp only [cmdSlots, byteSlot, shortSlot, allTell_cons, allTell_nil, tells_plain, and_self]

theorem allTell_textSlots (host : Endian) (bs : List UInt8) :
    AllTell host (textSlots bs) ↔ bs.length ≤ 255 := by
  simp only [textSlots, allTell_cons, allTell_nil, tells_plain, tells_byte, and_true]

theorem allTell_flatMap (host : Endian) (names : List (List UInt8)) :
    AllTell host (names.flatMap textSlots) ↔ ∀ name ∈ names, name.length ≤ 255 := by
  induction names with
  | nil => simp [AllTell]
  | cons name names ih =>
      rw [List.flatMap_cons, allTell_append, allTell_textSlots, ih, List.forall_mem_cons]

theorem length_le_namesSize (names : List (List UInt8)) : names.length ≤ namesSize names := by
  induction names with
  | nil => exact Nat.le_refl _
  | cons name names ih =>
      rw [namesSize_cons, List.length_cons]
      omega

/-- The names of a request have a length that a byte can tell. -/
def Request.Short (nick : List UInt8) (req : Request) : Prop :=
  ∀ name ∈ req.names nick, name.length ≤ 255

/-- In a payload that is not too long only the names can be. -/
theorem allTell_slots (host : Endian) (x : Context) (c : Client) (req : Request)
    (hsize : (slotBytes host (req.slots x c)).length ≤ 65535) :
    AllTell host (req.slots x c) ↔ req.Short x.nick := by
  rw [length_payload] at hsize
  have hcount := length_le_namesSize (req.names x.nick)
  have hshort : sizeShort = 2 := rfl
  cases req <;>
    simp only [Request.slots, usersSlots, roomSlots, shortSlot, byteSlot, allTell_append,
      allTell_cons, allTell_nil, allTell_headSlots, allTell_cmdSlots, allTell_textSlots,
      allTell_flatMap, tells_plain, tells_short, tells_int, true_and, and_true, Request.Short,
      Request.names, Request.fixed, Request.values, Request.text, List.forall_mem_cons,
      List.not_mem_nil, false_implies, implies_true, namesSize_cons, List.length_cons,
      List.length_nil]
      at hsize hcount ⊢
  case sendMsg | sendOfmsg | sendRoommsg => exact and_iff_left (by omega)
  case reqUsers | delUsers => exact and_iff_right (by omega)
  case createRoom => exact and_assoc
  case searchNicks => exact iff_true_intro (by omega)

/-! ## The headers -/

theorem lenField_bytes (a b d e : UInt8) (n : Nat) (body : List UInt8) :
    lenField ([a, b, d, e] ++ Endian.big.bytes sizeShort n ++ body) = n % 65536 := by
  show (UInt8.ofNat (n / 256)).toNat * 256 + (UInt8.ofNat n).toNat = _
  rw [UInt8.toNat_ofNat', UInt8.toNat_ofNat']
  omega

theorem lenField_outerHead (id size : Nat) (body : List UInt8) :
    lenField (outerHead id size ++ body) = size % 65536 :=
  lenField_bytes 0x10 0x0f (UInt8.ofNat (id / 256)) (UInt8.ofNat id) size body

theorem lenField_patchLen {payload : List UInt8} (h : headSize ≤ payload.length) :
    lenField (patchLen payload) = (payload.length - headSize) % 65536 := by
  match payload with
  | a :: b :: d :: e :: rest => exact lenField_bytes a b d e _ _

theorem length_patchLen {payload : List UInt8} (h : headSize ≤ payload.length) :
    (patchLen payload).length = payload.length := by
  have hhead : headSize = 6 := rfl
  have hshort : sizeShort = 2 := rfl
  rw [patchLen, List.length_append, List.length_append, List.length_take, List.length_drop,
    Endian.length_bytes]
  omega

theorem length_packetFor (c : Client) {payload : List UInt8} (h : headSize ≤ payload.length) :
    (c.packetFor payload).length = headSize + payload.length := by
  rw [Client.packetFor, List.length_append, length_packetEncode, length_patchLen h]
  rfl

namespace Request

/-- The names of a request have at most 255 bytes, and all of it has at most 65535.  The
values of a search are too few to matter. -/
def Fits (nick : List UInt8) (req : Request) : Prop :=
  req.Short nick ∧ req.fixed + namesSize (req.names nick) + req.text.length ≤ 65535

theorem values_le (x : Context) (c : Client) (req : Request) : req.values x c ≤ 256 := by
  cases req with
  | searchNicks =>
      have hlen := List.length_filter_le (c.searchId · ≠ 0xff)
        ((List.finRange 256).filter (·.val < x.userinfoElms))
      have hlen' := List.length_filter_le (·.val < x.userinfoElms) (List.finRange 256)
      rw [List.length_finRange] at hlen'
      exact Nat.le_trans hlen hlen'
  | _ => exact Nat.zero_le _

theorem fits_iff (host : Endian) (x : Context) (c : Client) (req : Request) :
    req.Fits x.nick ↔
      req.Short x.nick ∧ (slotBytes host (req.slots x c)).length ≤ 65535 := by
  have hvalues := values_le x c req
  rw [length_payload, Fits]
  cases req with
  | searchNicks =>
      have hfixed : fixed searchNicks = 8 := rfl
      have htext : (text searchNicks).length = 0 := rfl
      have hnames : namesSize (names x.nick searchNicks) = 0 := rfl
      rw [hfixed, htext, hnames]
      exact and_congr_right fun _ => by omega
  | _ => rfl

end Request

/-- A packet tells its lengths when the request is not too long, and only then. -/
theorem formed_iff (host : Endian) (x : Context) (c : Client) (req : Request) {s : Sent}
    (hs : req.send host x c = .ok s) : Formed host x c req s ↔ req.Fits x.nick := by
  have hhead := length_slots host x c req
  rw [Request.send_eq] at hs
  cases hs
  rw [Request.fits_iff host x c req]
  have houter : lenField (c.packetFor (slotBytes host (req.slots x c))) =
      (slotBytes host (req.slots x c)).length % 65536 := lenField_outerHead _ _ _
  have hinner := lenField_patchLen hhead
  constructor
  · intro h
    have ho : lenField (c.packetFor (slotBytes host (req.slots x c))) + headSize =
        (c.packetFor (slotBytes host (req.slots x c))).length := h.outer
    rw [houter, length_packetFor c hhead] at ho
    have hfit : (slotBytes host (req.slots x c)).length ≤ 65535 := by omega
    exact ⟨(allTell_slots host x c req hfit).mp h.slots, hfit⟩
  · rintro ⟨hshort, hfit⟩
    refine ⟨rfl, (allTell_slots host x c req hfit).mpr hshort, ?_, ?_⟩
    · show lenField (c.packetFor (slotBytes host (req.slots x c))) + headSize =
        (c.packetFor (slotBytes host (req.slots x c))).length
      rw [houter, length_packetFor c hhead, Nat.mod_eq_of_lt (Nat.lt_succ_of_le hfit),
        Nat.add_comm]
    · show lenField (patchLen (slotBytes host (req.slots x c))) + headSize =
        (slotBytes host (req.slots x c)).length
      rw [hinner, Nat.mod_eq_of_lt (by omega), Nat.sub_add_cancel hhead]

end C6
end IrC6
