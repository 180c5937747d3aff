import IrC6.Buffer.Layout
import IrC6.C6.Codifica
import IrC6.C6.Packet

/-!
# Sending to the C6 server

Every builder of `client.c` gives its payload to `c6_send`, which writes one packet:
an outer header of type 10 and command 0F, and the payload coded with the reordered
key.  The payload begins with a header of its own, whose length `c6_send` fills in.

Both headers carry `clt_id`, a 16-bit number that `c6_send` counts up.  A write that
fails ends the connection, and is left out.
-/

namespace IrC6
namespace C6

open Buffer

/-- The part of `c6_t` that the client's side of the protocol uses. -/
structure Client where
  serverKey : Key
  reorderedKey : Key
  cltId : UInt16
  style : UInt16
  /-- `search_id`, with `0xff` for a value that is not set. -/
  searchId : Fin 256 → UInt8
  /-- `proom`, the rooms of `room_leave_enter`, the oldest first. -/
  proom : List (List UInt8)
  /-- `sin_addr` and `sin_port` of `srv_addr`, as they lie in memory. -/
  srvAddr : List UInt8
  srvPort : List UInt8

/-- `c6_connection_new`. -/
def connectionNew : Client where
  serverKey := fun _ => 0
  reorderedKey := fun _ => 0
  cltId := 1
  style := 0
  searchId := fun _ => 0xff
  proom := []
  srvAddr := [0, 0, 0, 0]
  srvPort := [0, 0]

/-- The keys that `cmd_helo` stores. -/
def Client.setServerKey (c : Client) (key : Key) : Client :=
  { c with serverKey := key, reorderedKey := reorderKeyServer key }

/-- What `cmd_redir` does to the client once it has connected to `addr` and `port`. -/
def Client.redirected (c : Client) (addr port : List UInt8) : Client :=
  { c with srvAddr := addr, srvPort := port, cltId := 1, serverKey := fun _ => 0,
           reorderedKey := fun _ => 0 }

/-- `pl_head->len = htons(payload->size - sizeof(struct c6_pkt_head))`. -/
def patchLen (payload : List UInt8) : List UInt8 :=
  payload.take 4 ++ Endian.big.bytes sizeShort (payload.length - headSize) ++ payload.drop headSize

/-- `c6_send`: the packet written, and the client with its counter moved on. -/
def c6Send (host : Endian) (c : Client) (payload : List UInt8) :
    Except Stop (List UInt8 × Client) :=
  match bufNewPack host "\x10\x0F%^hu%^hu".toList [.int c.cltId.toNat, .int payload.length] with
  | .ok (some head) =>
      -- The length field of a shorter payload lies behind its end.
      if payload.length < headSize then .error .outside
      else .ok (head ++ packetEncode (patchLen payload) c.reorderedKey,
        { c with cltId := c.cltId + 1 })
  | .ok none => .error .outside
  | .error e => .error e

/-- The outer header of a packet. -/
def outerHead (id size : Nat) : List UInt8 :=
  [0x10, 0x0f] ++ Endian.big.bytes sizeShort id ++ Endian.big.bytes sizeShort size

theorem bufNewPack_outerHead (host : Endian) (id size : Nat) :
    bufNewPack host "\x10\x0F%^hu%^hu".toList [.int id, .int size] =
      .ok (some (outerHead id size)) :=
  bufNewPack_pieces host [.lit 0x10 (by decide), .lit 0x0f (by decide),
    .num ⟨.short, true⟩ id, .num ⟨.short, true⟩ size] (Nat.succ_pos _)

/-- The packet that a payload is sent in. -/
def Client.packetFor (c : Client) (payload : List UInt8) : List UInt8 :=
  outerHead c.cltId.toNat payload.length ++ packetEncode (patchLen payload) c.reorderedKey

theorem c6Send_eq (host : Endian) (c : Client) {payload : List UInt8}
    (h : headSize ≤ payload.length) :
    c6Send host c payload = .ok (c.packetFor payload, { c with cltId := c.cltId + 1 }) := by
  rw [c6Send, bufNewPack_outerHead]
  simp only [if_neg (Nat.not_lt.mpr h)]
  rfl

/-! ## The outgoing channel -/

/-- `c6_send` once for each payload of a list. -/
def c6Sends (host : Endian) (c : Client) :
    List (List UInt8) → Except Stop (List (List UInt8) × Client)
  | [] => .ok ([], c)
  | payload :: payloads => do
      let r ← c6Send host c payload
      let s ← c6Sends host r.2 payloads
      .ok (r.1 :: s.1, s.2)

/-- The two bytes of a counter in the header at the front of some bytes. -/
def idField (bytes : List UInt8) : List UInt8 := (bytes.drop 2).take sizeShort

/-- A payload that a builder made for the client as it is: with the client's counter
in its header, and of a size that the outer header can tell. -/
structure Built (c : Client) (payload : List UInt8) : Prop where
  head : headSize ≤ payload.length
  fits : payload.length ≤ 65535
  id : idField payload = Endian.big.bytes sizeShort c.cltId.toNat

/-- Each payload of a list was made for the client as the sends before it left it. -/
def BuiltAlong (host : Endian) : Client → List (List UInt8) → Prop
  | _, [] => True
  | c, payload :: payloads =>
      Built c payload ∧ ∀ r, c6Send host c payload = .ok r → BuiltAlong host r.2 payloads

theorem toNat_succ_mod (id : UInt16) (n : Nat) :
    ((id + 1).toNat + n) % 65536 = (id.toNat + (n + 1)) % 65536 := by
  rw [UInt16.toNat_add]
  show ((id.toNat + 1) % 65536 + n) % 65536 = _
  omega

/-- The packets of a run, with the counter going round at 16 bits. -/
theorem c6Sends_packets (host : Endian) {c : Client} {payloads : List (List UInt8)}
    (h : BuiltAlong host c payloads) :
    ∃ packets c', c6Sends host c payloads = .ok (packets, c') ∧
      packets.length = payloads.length ∧
      ∀ (n : Nat) (payload : List UInt8), payloads[n]? = some payload →
        packets[n]? = some (outerHead ((c.cltId.toNat + n) % 65536) payload.length ++
          packetEncode (patchLen payload) c.reorderedKey) ∧
        headSize ≤ payload.length ∧
        idField payload = Endian.big.bytes sizeShort ((c.cltId.toNat + n) % 65536) := by
  induction payloads generalizing c with
  | nil => exact ⟨[], c, rfl, rfl, fun n payload hn => by simp at hn⟩
  | cons payload payloads ih =>
      obtain ⟨hbuilt, hrest⟩ := h
      have hsend := c6Send_eq host c hbuilt.head
      obtain ⟨packets, c', hruns, hlen, hpackets⟩ := ih (hrest _ hsend)
      have hid : (c.cltId.toNat + 0) % 65536 = c.cltId.toNat := Nat.mod_eq_of_lt c.cltId.toNat_lt
      refine ⟨c.packetFor payload :: packets, c', ?_, congrArg Nat.succ hlen, fun n p hn => ?_⟩
      · rw [c6Sends, hsend]
        simp only [bind, Except.bind, hruns]
      · cases n with
        | zero =>
            rw [List.getElem?_cons_zero, Option.some.injEq] at hn
            subst hn
            rw [hid]
            exact ⟨rfl, hbuilt.head, hbuilt.id⟩
        | succ n =>
            rw [List.getElem?_cons_succ] at hn
            have hnext := hpackets n p hn
            rw [toNat_succ_mod] at hnext
            exact hnext

theorem idField_patchLen {payload : List UInt8} (h : headSize ≤ payload.length) :
    idField (patchLen payload) = idField payload := by
  have htake : 4 ≤ payload.length := Nat.le_trans (by decide) h
  have hlen : (payload.take 4).length = 4 := by rw [List.length_take]; omega
  rw [idField, patchLen, List.append_assoc, List.drop_append_of_le_length (by omega),
    List.take_append_of_le_length (by rw [List.length_drop, hlen]; decide), List.drop_take,
    List.take_take]
  rfl

/-- A client that has just connected, or that has just been redirected. -/
def Client.Started (c : Client) : Prop :=
  c = connectionNew ∨ ∃ (old : Client) (addr port : List UInt8), c = old.redirected addr port

theorem Client.Started.cltId {c : Client} (h : c.Started) : c.cltId = 1 := by
  rcases h with rfl | ⟨old, addr, port, rfl⟩ <;> rfl

/-- The server reads what the client sends.  The packets carry the numbers from 1 on, and
the documented receiver finds in each body the payload that was sent, with its length filled
in and with the number of the outer header. -/
theorem c6Sends_received (host : Endian) (key : Key) {c : Client} (hstart : c.Started)
    {payloads : List (List UInt8)} (hbuilt : BuiltAlong host (c.setServerKey key) payloads) :
    ∃ packets c', c6Sends host (c.setServerKey key) payloads = .ok (packets, c') ∧
      packets.length = payloads.length ∧
      ∀ (n : Nat) (payload : List UInt8), payloads[n]? = some payload → ∃ body,
        packets[n]? = some ([0x10, 0x0f] ++ Endian.big.bytes 2 ((n + 1) % 65536) ++
          Endian.big.bytes 2 payload.length ++ body) ∧
        docXorCode (ordinaKeyServer key) body =
          payload.take 4 ++ Endian.big.bytes 2 (payload.length - 6) ++ payload.drop 6 ∧
        idField (docXorCode (ordinaKeyServer key) body) =
          Endian.big.bytes 2 ((n + 1) % 65536) := by
  obtain ⟨packets, c', hruns, hlen, hpackets⟩ := c6Sends_packets host hbuilt
  refine ⟨packets, c', hruns, hlen, fun n payload hn => ?_⟩
  obtain ⟨hpacket, hhead, hid⟩ := hpackets n payload hn
  have hcount : (c.setServerKey key).cltId.toNat + n = n + 1 := by
    show c.cltId.toNat + n = n + 1
    rw [hstart.cltId, Nat.add_comm]
    rfl
  rw [hcount] at hpacket hid
  have hplain : docXorCode (ordinaKeyServer key)
      (packetEncode (patchLen payload) (c.setServerKey key).reorderedKey) = patchLen payload :=
    docXorCode_packetEncode key (patchLen payload)
  refine ⟨_, hpacket, hplain, ?_⟩
  rw [hplain, idField_patchLen hhead]
  exact hid

/-- A PONG and then a status after connecting. -/
theorem c6Sends_received_pong : ∃ packets c' body,
    c6Sends .little (connectionNew.setServerKey fun _ => 5)
      [[0x10, 0x0b, 0, 1, 0, 0], [0x10, 0x0a, 0, 2, 0, 0, 4]] = .ok (packets, c') ∧
    packets[1]? = some ([0x10, 0x0f, 0, 2, 0, 7] ++ body) ∧
    docXorCode (ordinaKeyServer fun _ => 5) body = [0x10, 0x0a, 0, 2, 0, 1, 4] := by
  have hbuilt : BuiltAlong .little (connectionNew.setServerKey fun _ => 5)
      [[0x10, 0x0b, 0, 1, 0, 0], [0x10, 0x0a, 0, 2, 0, 0, 4]] := by
    refine ⟨⟨by decide, by decide, by decide⟩, fun r hr => ?_⟩
    rw [c6Send_eq _ _ (by decide)] at hr
    cases hr
    exact ⟨⟨by decide, by decide, by decide⟩, fun _ _ => trivial⟩
  obtain ⟨packets, c', hruns, -, hpackets⟩ :=
    c6Sends_received .little (fun _ => 5) (Or.inl rfl) hbuilt
  obtain ⟨body, hpacket, hplain, -⟩ := hpackets 1 _ rfl
  exact ⟨packets, c', body, hruns, hpacket, hplain⟩

end C6
end IrC6
