import Mathlib.Data.List.Basic
import IrC6.Base.Framing
import IrC6.Base.Memory
import IrC6.C6.Packet
import IrC6.Connection

/-!
# Reading from the C6 server

`c6_read` appends what `read` returned to the bytes kept in `c6_t.buf`, and
`parse_indata` hands every complete packet to `c6_process_input` and moves the
incomplete rest to the front of the buffer.

`parse_indata` reads a length field from stale bytes, and even from behind the
buffer, when a header has arrived only in part.  The results below do not depend
on what lies there.
-/

namespace IrC6
namespace C6

open Memory

/-- What a call of `c6_read` does to the rest of the program, in order. -/
inductive Event where
  /-- `c6_process_input` with the `pklen` bytes at `ptr`. -/
  | input (block : List UInt8)
  /-- `EMIT "gui error"` for a packet that is not of the server's type. -/
  | invalid
  /-- `EMIT "gui fatal"` for a failed `read`. -/
  | fatal
  /-- `EMIT "gui quit"` for a timeout. -/
  | quit
  /-- `irC6_close_connection`. -/
  | close
deriving DecidableEq, Repr

/-- The loop of `parse_indata`.  It ends with the pointer and the byte count left
over, or with nothing when it meets a foreign type byte and returns at once. -/
def parseLoop (buf : Nat → UInt8) (ptr avdata : Nat) : List Event × Option (Nat × Nat) :=
  let pklen := ntohs (buf (ptr + 4)) (buf (ptr + 5)) + headSize
  if buf ptr ≠ serverType then ([.invalid], none)
  else if _h : avdata < pklen then ([], some (ptr, avdata))
  else
    have : 0 < pklen := Nat.succ_pos _
    if avdata - pklen = 0 then ([.input (slice buf ptr pklen)], some (ptr + pklen, 0))
    else
      let r := parseLoop buf (ptr + pklen) (avdata - pklen)
      (.input (slice buf ptr pklen) :: r.1, r.2)
termination_by avdata
decreasing_by omega

/-- `parse_indata`.  The overlapping copy to the front of the buffer is a move. -/
def parseIndata (c : InBuf) (avdata : Nat) : List Event × InBuf :=
  match parseLoop c.buf 0 (avdata + c.oldLen) with
  | (es, none) => (es, { c with oldLen := 0 })
  | (es, some (ptr, left)) => (es, c.keep ptr left)

def c6Read (c : InBuf) : Wake → List Event × InBuf
  | .timeout => ([.quit, .close], c)
  | .eagain => ([], c)
  | .error => ([.fatal, .close], c)
  | .eof => ([.close], c)
  | .data bytes => parseIndata (c.received bytes) bytes.length

/-- `c6_read` once for each read of a list, on a connection that stays open. -/
def c6Reads (c : InBuf) : List (List UInt8) → List Event × InBuf
  | [] => ([], c)
  | bytes :: reads =>
      let r := c6Read c (.data bytes)
      let s := c6Reads r.2 reads
      (r.1 ++ s.1, s.2)

theorem c6Reads_eq_receive (c : InBuf) (reads : List (List UInt8)) :
    c6Reads c reads = Framing.receive (fun c bytes => c6Read c (.data bytes)) c reads := by
  induction reads generalizing c with
  | nil => rfl
  | cons bytes reads ih => simp only [c6Reads, Framing.receive, ih]

/-- Packets laid end to end are taken one by one. -/
theorem run_packets (ps : List Packet) (tail : List UInt8) :
    packets.run ((ps.map Packet.bytes).flatten ++ tail) =
      (ps.map Packet.bytes ++ (packets.run tail).1, (packets.run tail).2) := by
  have hrun := packets.run_flatten id (ps.map Packet.bytes)
    (fun f hf ys => by
      obtain ⟨p, -, rfl⟩ := List.mem_map.mp hf
      exact takePacket_packet p ys) tail
  rwa [List.map_id] at hrun

/-! ## The loop follows the framing -/

/-- The rest of a stream either is empty or begins with the server's type. -/
def RestValid (xs : List UInt8) : Prop :=
  (packets.run xs).2 = [] ∨ (packets.run xs).2[0]? = some serverType

theorem lenField_slice (buf : Nat → UInt8) (ptr : Nat) {n : Nat} (h : headSize ≤ n) :
    lenField (slice buf ptr n) = ntohs (buf (ptr + 4)) (buf (ptr + 5)) := by
  have h' : 6 ≤ n := h
  simp [lenField, List.getD_eq_getElem?_getD, getElem?_slice _ _ _ _ (show 4 < n by omega),
    getElem?_slice _ _ _ _ (show 5 < n by omega)]

theorem takePacket_slice {buf : Nat → UInt8} {ptr n : Nat} (htype : buf ptr = serverType)
    (hlen : ntohs (buf (ptr + 4)) (buf (ptr + 5)) + headSize ≤ n) :
    takePacket (slice buf ptr n) =
      some (slice buf ptr (ntohs (buf (ptr + 4)) (buf (ptr + 5)) + headSize),
        slice buf (ptr + (ntohs (buf (ptr + 4)) (buf (ptr + 5)) + headSize))
          (n - (ntohs (buf (ptr + 4)) (buf (ptr + 5)) + headSize))) := by
  have hhead : headSize ≤ n := by omega
  have h0 : 0 < n := by unfold headSize at hhead; omega
  rw [takePacket, lenField_slice buf ptr hhead, if_pos]
  · rw [slice_split buf ptr hlen]
    congr 2
    · exact List.take_left' (length_slice _ _ _)
    · exact List.drop_left' (length_slice _ _ _)
  · refine ⟨?_, by simpa using hhead, by simpa using hlen⟩
    rw [getElem?_slice _ _ _ _ h0, Nat.add_zero, htype]

/-- When the loop waits for more data, so does the framing: a header that has
arrived only in part is shorter than any length it may announce. -/
theorem takePacket_slice_none {buf : Nat → UInt8} {ptr n : Nat}
    (hlen : n < ntohs (buf (ptr + 4)) (buf (ptr + 5)) + headSize) :
    takePacket (slice buf ptr n) = none := by
  unfold takePacket
  refine if_neg (fun h => ?_)
  obtain ⟨-, hhead, hfull⟩ := h
  rw [length_slice] at hhead hfull
  rw [lenField_slice buf ptr hhead] at hfull
  omega

/-- The loop delivers the packets of the received bytes and stops in front of the
incomplete rest. -/
theorem parseLoop_eq_run (buf : Nat → UInt8) (ptr avdata : Nat) (hpos : 0 < avdata)
    (hvalid : RestValid (slice buf ptr avdata)) :
    ∃ ptr' left, parseLoop buf ptr avdata =
        ((packets.run (slice buf ptr avdata)).1.map Event.input, some (ptr', left)) ∧
      left ≤ avdata ∧ slice buf ptr' left = (packets.run (slice buf ptr avdata)).2 := by
  induction avdata using Nat.strong_induction_on generalizing ptr with
  | _ avdata ih =>
      rw [parseLoop]
      by_cases htype : buf ptr = serverType
      · rw [if_neg (not_not_intro htype)]
        by_cases hlen : avdata < ntohs (buf (ptr + 4)) (buf (ptr + 5)) + headSize
        · rw [dif_pos hlen]
          have hnone := takePacket_slice_none hlen
          rw [packets.run_of_none hnone]
          exact ⟨ptr, avdata, rfl, Nat.le_refl _, rfl⟩
        · rw [dif_neg hlen]
          have hsome := takePacket_slice htype (Nat.le_of_not_lt hlen)
          simp only [RestValid, packets.run_of_some hsome] at hvalid ⊢
          have hpk : 0 < ntohs (buf (ptr + 4)) (buf (ptr + 5)) + headSize := Nat.succ_pos _
          by_cases hzero : avdata - (ntohs (buf (ptr + 4)) (buf (ptr + 5)) + headSize) = 0
          · rw [if_pos hzero, hzero, slice_zero, packets.run_nil]
            exact ⟨_, 0, rfl, Nat.zero_le _, rfl⟩
          · rw [if_neg hzero]
            obtain ⟨ptr', left, hloop, hleft, hslice⟩ :=
              ih _ (by omega) _ (Nat.pos_of_ne_zero hzero) hvalid
            refine ⟨ptr', left, ?_, by omega, hslice⟩
            simp only [hloop, List.map_cons]
      · -- The framing takes nothing here, so the rest is the whole slice.
        exfalso
        have h0 : (slice buf ptr avdata)[0]? = some (buf ptr) := by
          rw [getElem?_slice _ _ _ _ hpos, Nat.add_zero]
        have hnone : takePacket (slice buf ptr avdata) = none := by
          unfold takePacket
          refine if_neg (fun h => htype ?_)
          have h1 := h.1
          rw [h0] at h1
          exact Option.some.inj h1
        have hrun := packets.run_of_none hnone
        rw [RestValid, hrun] at hvalid
        rcases hvalid with h | h
        · have hzero := congrArg List.length h
          simp only [length_slice, List.length_nil] at hzero
          omega
        · simp only [h0, Option.some.injEq] at h
          exact htype h

/-- Where the packets of the received bytes end in front of a foreign type byte, the loop
gives up there. -/
theorem parseLoop_eq_skip (buf : Nat → UInt8) (ptr avdata : Nat)
    (hskip : ¬ RestValid (slice buf ptr avdata)) :
    parseLoop buf ptr avdata =
      ((packets.run (slice buf ptr avdata)).1.map Event.input ++ [.invalid], none) := by
  induction avdata using Nat.strong_induction_on generalizing ptr with
  | _ avdata ih =>
      rw [parseLoop]
      by_cases htype : buf ptr = serverType
      · have hlen : ¬ avdata < ntohs (buf (ptr + 4)) (buf (ptr + 5)) + headSize := by
          intro hlt
          refine hskip ?_
          rw [RestValid, packets.run_of_none (takePacket_slice_none hlt)]
          by_cases hzero : avdata = 0
          · exact Or.inl (by rw [hzero, slice_zero])
          · exact Or.inr (by rw [getElem?_slice _ _ _ _ (by omega), Nat.add_zero, htype])
        have hsome := takePacket_slice htype (Nat.le_of_not_lt hlen)
        rw [if_neg (not_not_intro htype), dif_neg hlen]
        simp only [RestValid, packets.run_of_some hsome] at hskip ⊢
        have hpk : 0 < ntohs (buf (ptr + 4)) (buf (ptr + 5)) + headSize := Nat.succ_pos _
        by_cases hzero : avdata - (ntohs (buf (ptr + 4)) (buf (ptr + 5)) + headSize) = 0
        · rw [hzero, slice_zero, packets.run_nil] at hskip
          exact absurd (Or.inl rfl) hskip
        · rw [if_neg hzero, ih _ (by omega) _ hskip, List.map_cons, List.cons_append]
      · have hnone : takePacket (slice buf ptr avdata) = none := by
          unfold takePacket
          refine if_neg (fun h => htype ?_)
          have h0 : 0 < avdata := by
            have hhead := h.2.1
            rw [length_slice] at hhead
            unfold headSize at hhead
            omega
          have hfirst := h.1
          rw [getElem?_slice _ _ _ _ h0, Nat.add_zero] at hfirst
          exact Option.some.inj hfirst
        rw [if_pos htype, packets.run_of_none hnone]
        rfl

/-- One read delivers the packets that the kept bytes and the new ones complete,
and keeps the incomplete rest. -/
theorem c6Read_eq_run (c : InBuf) {bytes : List UInt8} (hne : bytes ≠ [])
    (hvalid : RestValid (c.pending ++ bytes))
    (hrest : (packets.run (c.pending ++ bytes)).2.length < bufSize) :
    (c6Read c (.data bytes)).1 = (packets.run (c.pending ++ bytes)).1.map Event.input ∧
      (c6Read c (.data bytes)).2.pending = (packets.run (c.pending ++ bytes)).2 := by
  have hbytes : 0 < bytes.length := List.length_pos_of_ne_nil hne
  rw [← c.slice_received bytes] at hvalid hrest ⊢
  obtain ⟨ptr, left, hloop, -, hleft⟩ :=
    parseLoop_eq_run (c.received bytes).buf 0 (bytes.length + c.oldLen) (by omega) hvalid
  have hlen : (packets.run (slice (c.received bytes).buf 0
      (bytes.length + c.oldLen))).2.length = left := by rw [← hleft, length_slice]
  have hpend := (c.received bytes).pending_keep ptr (hlen ▸ hrest)
  have hloop' : parseLoop (c.received bytes).buf 0 (bytes.length + (c.received bytes).oldLen) = _ :=
    hloop
  simp only [c6Read, parseIndata, hloop']
  exact ⟨trivial, hpend.trans hleft⟩

/-! ## Any cut of a packet stream -/

/-- What is left of a part of a packet stream: whole packets, then a proper part
of the next one. -/
theorem run_prefix {ps : List Packet} {xs : List UInt8}
    (hxs : xs <+: (ps.map Packet.bytes).flatten) :
    ∃ k tail, xs = ((ps.take k).map Packet.bytes).flatten ++ tail ∧
      ((k = ps.length ∧ tail = []) ∨
        ∃ p, ps[k]? = some p ∧ tail <+: p.bytes ∧ tail.length < p.bytes.length) ∧
      packets.run xs = ((ps.take k).map Packet.bytes, tail) := by
  obtain ⟨k, tail, hcut, hnext⟩ := exists_cut_of_prefix (ps.map Packet.bytes) xs hxs
  rw [← List.map_take] at hcut
  have hnext' : (k = ps.length ∧ tail = []) ∨
      ∃ p, ps[k]? = some p ∧ tail <+: p.bytes ∧ tail.length < p.bytes.length := by
    rcases hnext with ⟨hk, htail⟩ | ⟨block, hblock, hpre, hlt⟩
    · exact Or.inl ⟨by simpa using hk, htail⟩
    · rw [List.getElem?_map, Option.map_eq_some_iff] at hblock
      obtain ⟨p, hp, rfl⟩ := hblock
      exact Or.inr ⟨p, hp, hpre, hlt⟩
  have hnone : packets.take tail = none := by
    rcases hnext' with ⟨-, rfl⟩ | ⟨p, -, hpre, hlt⟩
    · rfl
    · exact takePacket_part hpre hlt
  refine ⟨k, tail, hcut, hnext', ?_⟩
  rw [hcut, run_packets, packets.run_of_none hnone, List.append_nil]

/-- A part of a packet stream leaves a rest that `parse_indata` does not reject
and that its 16-bit counter can hold. -/
theorem rest_of_prefix {ps : List Packet} {xs : List UInt8}
    (hxs : xs <+: (ps.map Packet.bytes).flatten) :
    RestValid xs ∧ (packets.run xs).2.length < bufSize := by
  obtain ⟨k, tail, -, hnext, hrun⟩ := run_prefix hxs
  rw [RestValid, hrun]
  rcases hnext with ⟨-, rfl⟩ | ⟨p, -, hpre, hlt⟩
  · exact ⟨Or.inl rfl, show 0 < bufSize by decide⟩
  · refine ⟨?_, Nat.lt_of_lt_of_le hlt p.fits⟩
    by_cases hnil : tail = []
    · exact Or.inl hnil
    · exact Or.inr (head_of_part hpre hnil)

/-- Over any reads that make up a part of a packet stream, the calls and the kept
bytes are those of the framing. -/
theorem c6Reads_eq_run {c : InBuf} (hc : c.oldLen = 0) {ps : List Packet}
    {reads : List (List UInt8)} (hcut : reads.flatten <+: (ps.map Packet.bytes).flatten)
    (hne : ∀ bytes ∈ reads, bytes ≠ []) :
    (c6Reads c reads).1 = (packets.run reads.flatten).1.map Event.input ∧
      (c6Reads c reads).2.pending = (packets.run reads.flatten).2 := by
  rw [c6Reads_eq_receive]
  refine packets.receive_eq_run _ (InBuf.pending_eq_nil hc) (fun pre bytes hpre q hq => ?_)
  obtain ⟨post, rfl⟩ := hpre
  have hpart : pre.flatten ++ bytes <+: (ps.map Packet.bytes).flatten := by
    refine List.IsPrefix.trans ⟨post.flatten, ?_⟩ hcut
    simp
  obtain ⟨hvalid, hsmall⟩ := rest_of_prefix hpart
  have hrest : (packets.run (q.pending ++ bytes)).2 =
      (packets.run (pre.flatten ++ bytes)).2 := by
    rw [hq, packets.run_append pre.flatten]
  refine c6Read_eq_run q (hne bytes (by simp)) ?_ (by rwa [hrest])
  rw [RestValid, hrest]
  exact hvalid

/-- The calls of `c6_process_input` do not depend on how a stream of well-formed
packets is cut into reads.  Over all of the reads they are the packets in order,
and after each prefix of the reads they are the packets that have arrived whole,
with the received part of the next one kept in the buffer.  A read never returns
more than the free part of the buffer, which is not needed here. -/
theorem parseIndata_framing {c : InBuf} (hc : c.oldLen = 0) (ps : List Packet)
    (reads : List (List UInt8)) (hcut : reads.flatten = (ps.map Packet.bytes).flatten)
    (hne : ∀ bytes ∈ reads, bytes ≠ []) :
    (c6Reads c reads).1 = ps.map (fun p => Event.input p.bytes) ∧
    ∀ pre post, reads = pre ++ post → ∃ k tail,
      pre.flatten = ((ps.take k).map Packet.bytes).flatten ++ tail ∧
      ((k = ps.length ∧ tail = []) ∨
        ∃ p, ps[k]? = some p ∧ tail <+: p.bytes ∧ tail.length < p.bytes.length) ∧
      (c6Reads c pre).1 = (ps.take k).map (fun p => Event.input p.bytes) ∧
      (c6Reads c pre).2.pending = tail ∧ (c6Reads c pre).2.oldLen = tail.length := by
  constructor
  · have hwhole := run_packets ps []
    rw [packets.run_nil, List.append_nil, List.append_nil] at hwhole
    have hrun := c6Reads_eq_run hc (by rw [hcut]) hne
    rw [hrun.1, hcut, hwhole, List.map_map]
    rfl
  · intro pre post hsplit
    have hpre : pre.flatten <+: (ps.map Packet.bytes).flatten := by
      rw [← hcut, hsplit, List.flatten_append]
      exact List.prefix_append _ _
    obtain ⟨k, tail, hk, hnext, hrun⟩ := run_prefix hpre
    obtain ⟨hev, hpend⟩ := c6Reads_eq_run hc hpre
      (fun b hb => hne b (by rw [hsplit]; exact List.mem_append_left _ hb))
    rw [hrun] at hev hpend
    refine ⟨k, tail, hk, hnext, ?_, hpend, ?_⟩
    · rw [hev, List.map_map]
      rfl
    · rw [← InBuf.length_pending, hpend]

def ping : Packet where
  bytes := [0x20, 0x11, 0x00, 0x01, 0x00, 0x00]
  head := by decide
  type := by decide
  len := by decide
  fits := by decide

/-- A PING that arrives in three reads, the first of them inside the header. -/
theorem parseIndata_framing_ping :
    (c6Reads ⟨fun _ => 0xff, 0⟩ [[0x20, 0x11], [0x00, 0x01, 0x00], [0x00]]).1 =
      [Event.input [0x20, 0x11, 0x00, 0x01, 0x00, 0x00]] :=
  (parseIndata_framing rfl [ping] [[0x20, 0x11], [0x00, 0x01, 0x00], [0x00]]
    (by decide) (by decide)).1

end C6
end IrC6
