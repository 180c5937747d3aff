import IrC6.C6.Packet
import IrC6.C6.Server.Formats

/-!
# Decoding records

What `cmd_roominfo`, `cmd_snd_users` and `cmd_infologin` take out of their payload,
and how far they get.  A handler that repeats a record unpacks it from the offset
that the one before has reached.

The payloads are written down as the document gives them.  In INFOLOGIN three bytes
stand between the banners and the buttons.  The document puts the number of buttons
first of the three; the handler skips two and takes the third.
-/

namespace IrC6
namespace C6

open Buffer

/-! ## The handlers -/

/-- `C6_UNPACK`: how many bytes were used, and what the handler's variables hold. -/
def c6Unpack (host : Endian) (f : Format) (buf : List UInt8) : Except Stop (Nat × List Out) :=
  (unpackData host f.text buf).map fun r => (r.1, r.2.map Out.seen)

/-- The loops of the handlers: a record unpacked `count` times from an offset on. -/
def unpackEach (host : Endian) (f : Format) (buf : List UInt8) :
    Nat → Nat → Except Stop (Nat × List (List Out))
  | 0, offs => .ok (offs, [])
  | count + 1, offs => do
      let (ret, vs) ← c6Unpack host f (buf.drop offs)
      let (offs', vss) ← unpackEach host f buf count (offs + ret)
      .ok (offs', vs :: vss)

/-- The number that a format ending in `%bu` has stored last. -/
def lastNum (vs : List Out) : Nat :=
  match vs.getLast? with
  | some (.num _ v) => v
  | _ => 0

def cmdRoominfo (host : Endian) (buf : List UInt8) : Except Stop (Nat × List Out) :=
  c6Unpack host .roominfo buf

def cmdSndUsers (host : Endian) (buf : List UInt8) : Except Stop (Nat × List (List Out)) :=
  -- `CHECK_BAD` on the length returns before anything is decoded.
  if buf.length < sizeShort then .error .error
  else unpackEach host .sendUsers buf (ntohs (buf.getD 0 0) (buf.getD 1 0)) sizeShort

/-- `cmd_infologin`: the offset reached, the banners and the buttons. -/
def cmdInfologin (host : Endian) (buf : List UInt8) :
    Except Stop (Nat × List (List Out) × List (List Out)) := do
  let (offs, head) ← c6Unpack host .infologin buf
  let (offs, bannerv) ← unpackEach host .infologinBanner buf (lastNum head) offs
  let (ret, count) ← c6Unpack host .infologin2 (buf.drop offs)
  let (offs, pulsv) ← unpackEach host .infologinBotton buf (lastNum count) (offs + ret)
  .ok (offs, bannerv, pulsv)

/-! ## The payloads -/

def byteItem (b : UInt8) : Item := .num ⟨.byte, false⟩ b.toNat b.toNat_lt

structure RoomInfo where
  room : Text
  chtype : UInt8
  topic : Text
  founder : Text
  users : UInt16

def RoomInfo.record (r : RoomInfo) : Record :=
  [.text r.room, byteItem r.chtype, .text r.topic, .text r.founder,
    .num ⟨.short, true⟩ r.users.toNat r.users.toNat_lt]

def RoomInfo.payload (host : Endian) (r : RoomInfo) : List UInt8 := r.record.encode host

/-- The payload of SND_USERS. -/
structure Users where
  nicks : List Text
  few : nicks.length ≤ 65535

namespace Users

def records (u : Users) : List Record := u.nicks.map fun nick => [.text nick]

def payload (host : Endian) (u : Users) : List UInt8 :=
  Endian.big.bytes sizeShort u.nicks.length ++ u.records.flatMap (Record.encode host)

end Users

structure Banner where
  gif : Text
  link : Text
  nome : Text

/-- A button, with the unknown byte in front of its id. -/
structure Button where
  unknown : UInt8
  id : UInt8
  link : Text
  descr : Text

def Banner.record (b : Banner) : Record := [.text b.gif, .text b.link, .text b.nome]

def Button.record (b : Button) : Record :=
  [.skip [b.unknown], byteItem b.id, .text b.link, .text b.descr]

/-- The payload of INFOLOGIN up to the four unknown bytes at its end. -/
structure Login where
  /-- The four unknown bytes in front. -/
  unknown : List UInt8
  four : unknown.length = 4
  banners : List Banner
  few : banners.length ≤ 255
  /-- The three bytes between the banners and the buttons. -/
  first : UInt8
  second : UInt8
  third : UInt8
  buttons : List Button

namespace Login

/-- The unknown bytes and the number of banners. -/
def head (l : Login) : Record := [.skip l.unknown, byteItem (UInt8.ofNat l.banners.length)]

def bannerRecords (l : Login) : List Record := l.banners.map Banner.record

def middle (l : Login) : Record := [.skip [l.first, l.second], byteItem l.third]

def buttonRecords (l : Login) : List Record := l.buttons.map Button.record

def payload (host : Endian) (l : Login) : List UInt8 :=
  l.head.encode host ++ l.bannerRecords.flatMap (Record.encode host) ++ l.middle.encode host ++
    l.buttonRecords.flatMap (Record.encode host)

end Login

/-! ## Repeated records -/

section Each

variable {host : Endian} {f : Format}

theorem c6Unpack_eq (host : Endian) (f : Format) (buf : List UInt8) :
    c6Unpack host f buf =
      (readFields host f.fields buf).map fun r => (r.1, r.2.map Out.seen) := by
  rw [c6Unpack, ← f.parsed, unpackData_render]

theorem c6Unpack_eq_ok {buf : List UInt8} {n : Nat} {vs : List Out} :
    c6Unpack host f buf = .ok (n, vs) ↔
      ∃ ws, readFields host f.fields buf = .ok (n, ws) ∧ ws.map Out.seen = vs := by
  rw [c6Unpack_eq]
  cases readFields host f.fields buf with
  | error e => simp [Except.map]
  | ok p => simp [Except.map, Prod.ext_iff, and_comm, eq_comm]

theorem c6Unpack_encode {r : Record} (hf : r.fields = f.fields) (hr : r.NonEmpty)
    (tail : List UInt8) :
    c6Unpack host f (r.encode host ++ tail) = .ok ((r.encode host).length, r.outs) := by
  rw [c6Unpack_eq, ← hf, r.read_encode host hr, Except.map, r.outs_seen]

theorem c6Unpack_used {r : Record} (hf : r.fields = f.fields) {buf : List UInt8} {n : Nat}
    (h : c6Unpack host f buf = .ok (n, r.outs)) :
    (r.encode host).length ≤ n ∧ (¬ r.NonEmpty → (r.encode host).length < n) := by
  obtain ⟨ws, hread, hvs⟩ := c6Unpack_eq_ok.mp h
  rw [← hf] at hread
  exact Record.length_le_used hread hvs

/-- The records of a loop without empty strings are read back. -/
theorem unpackEach_encode {rs : List Record} (hf : ∀ r ∈ rs, r.fields = f.fields)
    (hrs : ∀ r ∈ rs, r.NonEmpty) {buf tail : List UInt8} {offs : Nat}
    (hbuf : buf.drop offs = rs.flatMap (Record.encode host) ++ tail) :
    unpackEach host f buf rs.length offs =
      .ok (offs + (rs.flatMap (Record.encode host)).length, rs.map Record.outs) := by
  induction rs generalizing offs with
  | nil => rfl
  | cons r rs ih =>
      have hr := hrs r List.mem_cons_self
      rw [List.flatMap_cons, List.append_assoc] at hbuf
      have hnext : buf.drop (offs + (r.encode host).length) =
          rs.flatMap (Record.encode host) ++ tail := by
        rw [← List.drop_drop, hbuf, List.drop_left]
      have hrest := ih (fun q hq => hf q (List.mem_cons_of_mem r hq))
        (fun q hq => hrs q (List.mem_cons_of_mem r hq)) hnext
      rw [List.length_cons, unpackEach, hbuf, c6Unpack_encode (hf r List.mem_cons_self) hr]
      simp only [bind, Except.bind, hrest]
      simp [Nat.add_assoc]

/-- A loop that gives the records back has used at least their encodings, and more if
one of their strings is empty. -/
theorem unpackEach_used {rs : List Record} (hf : ∀ r ∈ rs, r.fields = f.fields)
    {buf : List UInt8} {count offs offs' : Nat}
    (h : unpackEach host f buf count offs = .ok (offs', rs.map Record.outs)) :
    count = rs.length ∧ offs + (rs.flatMap (Record.encode host)).length ≤ offs' ∧
      (¬ (∀ r ∈ rs, r.NonEmpty) →
        offs + (rs.flatMap (Record.encode host)).length < offs') := by
  induction count generalizing offs rs with
  | zero =>
      simp only [unpackEach, Except.ok.injEq, Prod.mk.injEq] at h
      have hnil : rs = [] := List.map_eq_nil_iff.mp h.2.symm
      subst hnil
      simp [h.1]
  | succ count ih =>
      rw [unpackEach] at h
      obtain ⟨⟨used, vs⟩, hfirst, h⟩ := exists_of_bind_eq_ok h
      obtain ⟨⟨offs₁, vss⟩, hrest, h⟩ := exists_of_bind_eq_ok h
      simp only [Except.ok.injEq, Prod.mk.injEq] at h hfirst hrest
      obtain ⟨rfl, hvss⟩ := h
      cases rs with
      | nil => cases hvss
      | cons r rs =>
          rw [List.map_cons, List.cons.injEq] at hvss
          obtain ⟨rfl, rfl⟩ := hvss
          obtain ⟨hrle, hrlt⟩ := c6Unpack_used (hf r List.mem_cons_self) hfirst
          obtain ⟨hcount, hle, hlt⟩ := ih (fun s hs => hf s (List.mem_cons_of_mem r hs)) hrest
          rw [List.flatMap_cons, List.length_append, List.length_cons]
          refine ⟨by omega, by omega, fun hempty => ?_⟩
          by_cases hr : r.NonEmpty
          · have hrs : ¬ ∀ s ∈ rs, s.NonEmpty :=
              fun hall => hempty (List.forall_mem_cons.mpr ⟨hr, hall⟩)
            have hless := hlt hrs
            omega
          · have hless := hrlt hr
            omega

end Each

/-! ## Exact decoding -/

section Exact

variable {host : Endian}

theorem nonEmpty_singleton_skip (bs : List UInt8) (b : UInt8) :
    Record.NonEmpty [.skip bs, byteItem b] := by
  simp [Record.NonEmpty, Item.NonEmpty, byteItem]

theorem cmdRoominfo_exact (r : RoomInfo) :
    cmdRoominfo host (r.payload host) = .ok ((r.payload host).length, r.record.outs) ↔
      r.record.NonEmpty := by
  have hfields : r.record.fields = Format.roominfo.fields := rfl
  constructor
  · intro h
    by_contra hempty
    have hused := (c6Unpack_used hfields h).2 hempty
    exact Nat.lt_irrefl _ hused
  · intro h
    have henc : c6Unpack host .roominfo (r.record.encode host ++ []) = _ :=
      c6Unpack_encode hfields h []
    rw [List.append_nil] at henc
    exact henc

theorem ntohs_be16 {n : Nat} (h : n ≤ 65535) (tail : List UInt8) :
    ntohs ((Endian.big.bytes sizeShort n ++ tail).getD 0 0)
      ((Endian.big.bytes sizeShort n ++ tail).getD 1 0) = n := by
  simp only [sizeShort, Endian.bytes, Endian.littleBytes, List.reverse_cons, List.reverse_nil,
    List.nil_append, List.cons_append, List.getD_cons_zero, List.getD_cons_succ, ntohs,
    UInt8.toNat_ofNat']
  omega

theorem cmdSndUsers_eq (u : Users) :
    cmdSndUsers host (u.payload host) =
      unpackEach host .sendUsers (u.payload host) u.records.length sizeShort := by
  have hlen : ¬ (u.payload host).length < sizeShort := by simp [Users.payload]
  have hcount := ntohs_be16 u.few (u.records.flatMap (Record.encode host))
  have hrecords : u.records.length = u.nicks.length := by simp [Users.records]
  rw [cmdSndUsers, if_neg hlen, hrecords]
  rw [Users.payload] at *
  rw [hcount]

theorem cmdSndUsers_exact (u : Users) :
    cmdSndUsers host (u.payload host) =
        .ok ((u.payload host).length, u.records.map Record.outs) ↔
      ∀ r ∈ u.records, r.NonEmpty := by
  have hfields : ∀ r ∈ u.records, r.fields = Format.sendUsers.fields := by
    intro r hr
    obtain ⟨nick, -, rfl⟩ := List.mem_map.mp hr
    rfl
  have hlen : (u.payload host).length =
      sizeShort + (u.records.flatMap (Record.encode host)).length := by simp [Users.payload]
  rw [cmdSndUsers_eq]
  constructor
  · intro h
    by_contra hempty
    have hused := (unpackEach_used hfields h).2.2 hempty
    omega
  · intro h
    have hbuf : (u.payload host).drop sizeShort =
        u.records.flatMap (Record.encode host) ++ [] := by
      rw [List.append_nil]
      exact List.drop_left' (Endian.length_bytes ..)
    rw [unpackEach_encode hfields h hbuf, hlen]

theorem Login.length_head (host : Endian) (l : Login) : (l.head.encode host).length = 5 := by
  simp [Login.head, Record.encode, Item.encode, byteItem, l.four, Width.size, sizeChar]

theorem Login.length_middle (host : Endian) (l : Login) : (l.middle.encode host).length = 3 := by
  simp [Login.middle, Record.encode, Item.encode, byteItem, Width.size, sizeChar]

theorem infologin2_used {buf : List UInt8} {n : Nat} {vs : List Out}
    (h : c6Unpack host .infologin2 buf = .ok (n, vs)) : n = 3 := by
  obtain ⟨ws, hread, -⟩ := c6Unpack_eq_ok.mp h
  obtain ⟨p, hskip, hread⟩ := exists_of_bind_eq_ok hread
  obtain ⟨q, htail, hread⟩ := exists_of_bind_eq_ok hread
  obtain ⟨r, hnum, htail⟩ := exists_of_bind_eq_ok htail
  obtain ⟨v, -, rfl⟩ := Field.read_num_inv hnum
  simp only [Field.read] at hskip
  split at hskip
  · cases hskip
  · cases hskip
    cases htail
    cases hread
    rfl

theorem lastNum_byteItem (bs : List UInt8) (b : UInt8) :
    lastNum (Record.outs [.skip bs, byteItem b]) = b.toNat := rfl

/-- The front of INFOLOGIN holds no string, so the banners are always found. -/
theorem cmdInfologin_eq (l : Login) (tail : List UInt8) :
    cmdInfologin host (l.payload host ++ tail) = (do
      let (offs, bannerv) ←
        unpackEach host .infologinBanner (l.payload host ++ tail) l.bannerRecords.length 5
      let (ret, count) ← c6Unpack host .infologin2 ((l.payload host ++ tail).drop offs)
      let (offs, pulsv) ←
        unpackEach host .infologinBotton (l.payload host ++ tail) (lastNum count) (offs + ret)
      .ok (offs, bannerv, pulsv)) := by
  have hfields : l.head.fields = Format.infologin.fields := by
    show [.skip l.unknown.length, u8] = [.skip 4, u8]
    rw [l.four]
  have hsplit : l.payload host ++ tail = l.head.encode host ++
      (l.bannerRecords.flatMap (Record.encode host) ++ (l.middle.encode host ++
        (l.buttonRecords.flatMap (Record.encode host) ++ tail))) := by
    simp [Login.payload, List.append_assoc]
  have hhead : c6Unpack host .infologin (l.payload host ++ tail) = .ok (5, l.head.outs) := by
    rw [hsplit, c6Unpack_encode hfields (nonEmpty_singleton_skip _ _), l.length_head host]
  have hcount : lastNum l.head.outs = l.bannerRecords.length := by
    have hfew := l.few
    rw [Login.head, lastNum_byteItem, UInt8.toNat_ofNat', Login.bannerRecords, List.length_map]
    omega
  rw [cmdInfologin, hhead]
  simp only [bind, Except.bind, hcount]

namespace Login

variable (host : Endian) (l : Login) (tail : List UInt8)

theorem banner_fields : ∀ r ∈ l.bannerRecords, r.fields = Format.infologinBanner.fields := by
  intro r hr
  obtain ⟨b, -, rfl⟩ := List.mem_map.mp hr
  rfl

theorem button_fields : ∀ r ∈ l.buttonRecords, r.fields = Format.infologinBotton.fields := by
  intro r hr
  obtain ⟨b, -, rfl⟩ := List.mem_map.mp hr
  rfl

def bannerBytes : List UInt8 := l.bannerRecords.flatMap (Record.encode host)

def buttonBytes : List UInt8 := l.buttonRecords.flatMap (Record.encode host)

theorem length_payload : (l.payload host).length =
    5 + (l.bannerBytes host).length + 3 + (l.buttonBytes host).length := by
  simp only [payload, bannerBytes, buttonBytes, List.length_append, l.length_head host,
    l.length_middle host]

theorem drop_head : (l.payload host ++ tail).drop 5 =
    l.bannerBytes host ++ (l.middle.encode host ++ (l.buttonBytes host ++ tail)) := by
  have hsplit : l.payload host ++ tail = l.head.encode host ++
      (l.bannerBytes host ++ (l.middle.encode host ++ (l.buttonBytes host ++ tail))) := by
    simp [payload, bannerBytes, buttonBytes, List.append_assoc]
  rw [hsplit]
  exact List.drop_left' (l.length_head host)

theorem drop_banners : (l.payload host ++ tail).drop (5 + (l.bannerBytes host).length) =
    l.middle.encode host ++ (l.buttonBytes host ++ tail) := by
  rw [← List.drop_drop, drop_head host, List.drop_left]

theorem drop_middle : (l.payload host ++ tail).drop (5 + (l.bannerBytes host).length + 3) =
    l.buttonBytes host ++ tail := by
  rw [← List.drop_drop, drop_banners host]
  exact List.drop_left' (l.length_middle host)

theorem unpack_middle :
    c6Unpack host .infologin2 ((l.payload host ++ tail).drop (5 + (l.bannerBytes host).length)) =
      .ok (3, l.middle.outs) := by
  have hfields : l.middle.fields = Format.infologin2.fields := rfl
  rw [drop_banners host, c6Unpack_encode hfields (nonEmpty_singleton_skip _ _),
    l.length_middle host]

end Login

theorem cmdInfologin_exact (l : Login) (tail : List UInt8) :
    cmdInfologin host (l.payload host ++ tail) =
        .ok ((l.payload host).length, l.bannerRecords.map Record.outs,
          l.buttonRecords.map Record.outs) ↔
      (∀ r ∈ l.bannerRecords, r.NonEmpty) ∧ (∀ r ∈ l.buttonRecords, r.NonEmpty) ∧
        l.third.toNat = l.buttons.length := by
  have hbuttons : l.buttonRecords.length = l.buttons.length := List.length_map _
  have hlast : lastNum l.middle.outs = l.third.toNat := rfl
  rw [cmdInfologin_eq]
  constructor
  · intro h
    obtain ⟨⟨offs, bannerv⟩, hb, h⟩ := exists_of_bind_eq_ok h
    obtain ⟨⟨used, count⟩, hm, h⟩ := exists_of_bind_eq_ok h
    obtain ⟨⟨offs₁, pulsv⟩, hp, h⟩ := exists_of_bind_eq_ok h
    simp only [Except.ok.injEq, Prod.mk.injEq] at h hb hm hp
    obtain ⟨rfl, rfl, rfl⟩ := h
    have hthree := infologin2_used hm
    obtain ⟨-, hble, hblt⟩ := unpackEach_used l.banner_fields hb
    obtain ⟨hcount, hple, hplt⟩ := unpackEach_used l.button_fields hp
    have hlen := l.length_payload host
    rw [Login.bannerBytes, Login.buttonBytes] at hlen
    -- No part has used more than its encoding, so every part begins in its place.
    have hnoB : ∀ r ∈ l.bannerRecords, r.NonEmpty := by
      by_contra hempty
      have hless := hblt hempty
      omega
    have hnoP : ∀ r ∈ l.buttonRecords, r.NonEmpty := by
      by_contra hempty
      have hless := hplt hempty
      omega
    have hoffs : offs = 5 + (l.bannerBytes host).length := by
      rw [Login.bannerBytes]
      omega
    rw [hoffs, l.unpack_middle host, Except.ok.injEq, Prod.mk.injEq] at hm
    refine ⟨hnoB, hnoP, ?_⟩
    rw [← hlast, ← hbuttons, ← hcount, ← hm.2]
  · rintro ⟨hnoB, hnoP, hthird⟩
    have hb := unpackEach_encode l.banner_fields hnoB (l.drop_head host tail)
    have hp := unpackEach_encode l.button_fields hnoP (l.drop_middle host tail)
    have hcount : lastNum l.middle.outs = l.buttonRecords.length := by
      rw [hlast, hthird, hbuttons]
    have hm := l.unpack_middle host tail
    have hlen := l.length_payload host
    rw [Login.bannerBytes] at hm hp hlen
    rw [Login.buttonBytes] at hlen
    rw [← hcount] at hp
    simp only [hb, hm, hp, hlen, bind, Except.bind]

/-- ROOMINFO, SND_USERS and INFOLOGIN are decoded exactly when no string is empty and,
for INFOLOGIN, the byte in front of the buttons is their number. -/
theorem decode_exact_iff (host : Endian) :
    (∀ r : RoomInfo,
      cmdRoominfo host (r.payload host) = .ok ((r.payload host).length, r.record.outs) ↔
        r.record.NonEmpty) ∧
    (∀ u : Users,
      cmdSndUsers host (u.payload host) =
          .ok ((u.payload host).length, u.records.map Record.outs) ↔
        ∀ r ∈ u.records, r.NonEmpty) ∧
    (∀ (l : Login) (tail : List UInt8),
      cmdInfologin host (l.payload host ++ tail) =
          .ok ((l.payload host).length, l.bannerRecords.map Record.outs,
            l.buttonRecords.map Record.outs) ↔
        (∀ r ∈ l.bannerRecords, r.NonEmpty) ∧ (∀ r ∈ l.buttonRecords, r.NonEmpty) ∧
          l.third.toNat = l.buttons.length) :=
  ⟨cmdRoominfo_exact, cmdSndUsers_exact, cmdInfologin_exact⟩

def noTopic : RoomInfo where
  room := ⟨[114], by decide, by decide⟩
  chtype := 13
  topic := ⟨[], by decide, by decide⟩
  founder := ⟨[102], by decide, by decide⟩
  users := 5

/-- The founder is taken for the topic, and what follows for the length of a founder
that is not there. -/
theorem decode_exact_fails_noTopic :
    ¬ ∀ r : RoomInfo, cmdRoominfo .little (r.payload .little) =
      .ok ((r.payload .little).length, r.record.outs) := by
  intro h
  have hread : cmdRoominfo .little (noTopic.payload .little) = .error .error := by
    rw [cmdRoominfo, c6Unpack_eq]
    decide
  have htopic := h noTopic
  rw [hread] at htopic
  cases htopic

end Exact

end C6
end IrC6
