import IrC6.C6.Client.Send
import IrC6.C6.Server.Decode
import IrC6.C6.Server.Dispatch
import IrC6.Pending

/-!
# Redirection to another server

`cmd_redir` connects to the server that the packet names, and puts the keys and the
counters back to where they were before the first packet.  It runs inside the loop of
`parse_indata`, and neither it nor the loop gives up the bytes that are still in the
buffer: what the old server sent behind the packet is parsed on, and an unfinished rest
of it stands in front of what the new server sends.

A connection that fails ends the program's work for the user and is left out.
-/

namespace IrC6
namespace C6

open Buffer

/-- Both sides of `c6_t`. -/
structure Conn where
  input : InBuf
  client : Client

/-- `cmd_redir`.  A packet that cannot be unpacked changes nothing. -/
def cmdRedir (host : Endian) (c : Client) (buf : List UInt8) : Client :=
  match c6Unpack host .redir buf with
  | .ok (_, [.ptr ip, .num _ port]) => c.redirected ip (host.bytes sizeShort port)
  | _ => c

/-- What `c6_process_input` does to the client.  The other handlers are a parameter: what
is said below holds whatever they do. -/
def processBlock (host : Endian) (other : Handler → Client → List UInt8 → Client) (c : Client)
    (block : List UInt8) : Client :=
  match block[1]?.bind cmdTable with
  | some .redir => cmdRedir host c (block.drop headSize)
  | some h => other h c (block.drop headSize)
  | none => c

/-- The packets among the events of a read. -/
def blocks (es : List Event) : List (List UInt8) :=
  es.filterMap fun
    | .input block => some block
    | _ => none

section Conn

variable (host : Endian) (other : Handler → Client → List UInt8 → Client)

/-- `c6_read` with some bytes: the packets processed, and the connection after it. -/
def Conn.read (c : Conn) (bytes : List UInt8) : List (List UInt8) × Conn :=
  let r := c6Read c.input (.data bytes)
  (blocks r.1, { input := r.2, client := (blocks r.1).foldl (processBlock host other) c.client })

/-- `c6_read` once for each read of a list. -/
def Conn.reads (c : Conn) : List (List UInt8) → List (List UInt8) × Conn
  | [] => ([], c)
  | bytes :: rest =>
      let r := c.read host other bytes
      let s := r.2.reads rest
      (r.1 ++ s.1, s.2)

end Conn

/-- A packet that `cmd_redir` accepts. -/
structure IsRedirect (r : Packet) : Prop where
  cmd : r.bytes[1]? = some 0x02
  whole : headSize + 8 ≤ r.bytes.length

/-! ## The packets of a read -/

theorem blocks_append (xs ys : List Event) : blocks (xs ++ ys) = blocks xs ++ blocks ys :=
  List.filterMap_append

theorem blocks_input (fs : List (List UInt8)) : blocks (fs.map Event.input) = fs := by
  rw [blocks, List.filterMap_map]
  exact List.filterMap_some

/-- Whether or not the rest is skipped, the packets processed are those of the framing. -/
theorem blocks_c6Read (c : InBuf) {bytes : List UInt8} (hne : bytes ≠ []) :
    blocks (c6Read c (.data bytes)).1 = (packets.run (c.pending ++ bytes)).1 := by
  have hbytes : 0 < bytes.length := List.length_pos_of_ne_nil hne
  rw [← c.slice_received bytes]
  by_cases hvalid : RestValid (Memory.slice (c.received bytes).buf 0 (bytes.length + c.oldLen))
  · obtain ⟨ptr, left, hloop, -, -⟩ :=
      parseLoop_eq_run (c.received bytes).buf 0 (bytes.length + c.oldLen) (by omega) hvalid
    have hloop' : parseLoop (c.received bytes).buf 0
        (bytes.length + (c.received bytes).oldLen) = _ := hloop
    simp only [c6Read, parseIndata, hloop', blocks_input]
  · have hloop := parseLoop_eq_skip (c.received bytes).buf 0 (bytes.length + c.oldLen) hvalid
    have hloop' : parseLoop (c.received bytes).buf 0
        (bytes.length + (c.received bytes).oldLen) = _ := hloop
    simp only [c6Read, parseIndata, hloop', blocks_append, blocks_input]
    exact List.append_nil _

/-! ## Behind a redirect -/

/-- What is processed depends on the kept bytes only, and not on the stale ones. -/
theorem reads_congr (host : Endian) (other : Handler → Client → List UInt8 → Client) {c d : Conn}
    (hpend : c.input.pending = d.input.pending) {reads : List (List UInt8)}
    (hfits : reader.Fits c.input reads) :
    (c.reads host other reads).1 = (d.reads host other reads).1 := by
  induction reads generalizing c d with
  | nil => rfl
  | cons bytes reads ih =>
      obtain ⟨⟨hne, hroom⟩, hrest⟩ := Reader.fits_cons.mp hfits
      have hnext : (c6Read c.input (.data bytes)).2.pending =
          (c6Read d.input (.data bytes)).2.pending :=
        Reader.pending_recv_congr (r := reader) hpend hne hroom trivial
      have hblocks : (c.read host other bytes).1 = (d.read host other bytes).1 := by
        show blocks (c6Read c.input _).1 = blocks (c6Read d.input _).1
        rw [blocks_c6Read _ hne, blocks_c6Read _ hne, hpend]
      show (c.read host other bytes).1 ++ _ = (d.read host other bytes).1 ++ _
      rw [hblocks, ih (c := (c.read host other bytes).2) (d := (d.read host other bytes).2)
        hnext hrest]

/-- The packets processed behind the first `n` of a read, and over the reads after it. -/
def processedAfter (host : Endian) (other : Handler → Client → List UInt8 → Client) (c : Conn)
    (bytes : List UInt8) (n : Nat) (reads : List (List UInt8)) : List (List UInt8) :=
  let r := c.read host other bytes
  (r.1 ++ (r.2.reads host other reads).1).drop n

/-- A read in which whole packets and a redirect stand in front of some bytes. -/
structure RedirectRead (c : Conn) (bytes : List UInt8) (ps : List Packet) (r : Packet)
    (t : List UInt8) : Prop where
  ne : bytes ≠ []
  fits : c.input.oldLen + bytes.length ≤ bufSize
  split : c.input.pending ++ bytes = (ps.map Packet.bytes).flatten ++ (r.bytes ++ t)
  redirect : IsRedirect r

namespace RedirectRead

variable {host : Endian} {other : Handler → Client → List UInt8 → Client} {c : Conn}
  {bytes t : List UInt8} {ps : List Packet} {r : Packet}

theorem run_eq (h : RedirectRead c bytes ps r t) :
    packets.run (c.input.pending ++ bytes) =
      ((ps ++ [r]).map Packet.bytes ++ (packets.run t).1, (packets.run t).2) := by
  have hsplit : c.input.pending ++ bytes = ((ps ++ [r]).map Packet.bytes).flatten ++ t := by
    rw [h.split]
    simp
  rw [hsplit, run_packets]

/-- The bytes behind the redirect are framed like any others. -/
theorem processedAfter_eq (h : RedirectRead c bytes ps r t) (reads : List (List UInt8)) :
    processedAfter host other c bytes (ps.length + 1) reads =
      (packets.run t).1 ++ ((c.read host other bytes).2.reads host other reads).1 := by
  have hread : (c.read host other bytes).1 =
      (ps ++ [r]).map Packet.bytes ++ (packets.run t).1 := by
    show blocks (c6Read c.input _).1 = _
    rw [blocks_c6Read _ h.ne, h.run_eq]
  show ((c.read host other bytes).1 ++ _).drop _ = _
  rw [hread, List.append_assoc]
  exact List.drop_left' (by simp)

theorem length_lt (h : RedirectRead c bytes ps r t) : t.length + 14 ≤ bufSize := by
  have hlen := congrArg List.length h.split
  have hwhole := h.redirect.whole
  have hfits := h.fits
  rw [List.length_append, List.length_append, List.length_append, InBuf.length_pending] at hlen
  unfold headSize at hwhole
  omega

/-- They are also kept like any others. -/
theorem pending_eq (h : RedirectRead c bytes ps r t) :
    (c.read host other bytes).2.input.pending = packetRest t := by
  have hrest : packetRest (c.input.pending ++ bytes) = packetRest t := by
    rw [packetRest, h.run_eq]
    rfl
  have hlt : (packetRest t).length < bufSize := by
    have hle := length_packetRest_le t
    have hroom := h.length_lt
    omega
  have hkept := c6Read_pending c.input h.ne (by rw [hrest]; exact hlt)
  exact hkept.trans hrest

end RedirectRead

/-- Bytes that the loop would read as the start of a packet. -/
def StartsPacket (t : List UInt8) : Prop := t[0]? = some serverType

theorem packetRest_of_not_starts {t : List UInt8} (h : ¬ StartsPacket t) :
    (packets.run t).1 = [] ∧ packetRest t = [] := by
  have hnone : packets.take t = none := by
    rw [packets_take, takePacket, if_neg (fun hc => h hc.1)]
  rw [packetRest, packets.run_of_none hnone]
  exact ⟨rfl, if_neg h⟩

/-- No start of a packet goes with a PING behind it as if it were not there. -/
theorem run_append_ping {t : List UInt8} (hstart : StartsPacket t) (hnone : takePacket t = none) :
    (packets.run (t ++ ping.bytes)).1 ≠ [ping.bytes] := by
  intro hrun
  have hpos : 0 < t.length := by
    by_contra hzero
    have hnil : t = [] := List.length_eq_zero_iff.mp (by omega)
    subst hnil
    cases hstart
  cases htake : packets.take (t ++ ping.bytes) with
  | none =>
      rw [packets.run_of_none htake] at hrun
      cases hrun
  | some p =>
      obtain ⟨f, rest⟩ := p
      rw [packets.run_of_some htake, List.cons.injEq] at hrun
      obtain ⟨-, -, hlen, hf, -⟩ := takePacket_eq_some htake
      rw [hrun.1] at hf
      have hsize : lenField (t ++ ping.bytes) + headSize = 6 := by
        have hflen := congrArg List.length hf
        rw [List.length_take] at hflen
        have hping : ping.bytes.length = 6 := rfl
        omega
      rw [hsize] at hf
      by_cases hlong : 6 ≤ t.length
      · -- The whole PING is in `t`, which then has a packet of its own.
        rw [List.take_append_of_le_length hlong] at hf
        have hsplit : t = ping.bytes ++ t.drop 6 := by
          conv_lhs => rw [← List.take_append_drop 6 t]
          rw [← hf]
        rw [hsplit, takePacket_packet] at hnone
        cases hnone
      · -- The type byte of the PING behind `t` would be one of its later bytes.
        have hat : (t ++ ping.bytes)[t.length]? = some serverType := by
          rw [List.getElem?_append_right (Nat.le_refl _), Nat.sub_self]
          rfl
        have hbyte : ping.bytes[t.length]? = some serverType := by
          rw [hf, List.getElem?_take_of_lt (by omega)]
          exact hat
        have hcases : t.length = 1 ∨ t.length = 2 ∨ t.length = 3 ∨ t.length = 4 ∨ t.length = 5 := by
          omega
        rcases hcases with hl | hl | hl | hl | hl <;> rw [hl] at hbyte <;> revert hbyte <;> decide

section Leaks

variable (host : Endian) (other : Handler → Client → List UInt8 → Client)
variable {c : Conn} {bytes t : List UInt8} {ps : List Packet} {r : Packet}

/-- A PING to a connection that has kept nothing. -/
theorem reads_ping {fresh : Conn} (hfresh : fresh.input.oldLen = 0) :
    (fresh.reads host other [ping.bytes]).1 = [ping.bytes] := by
  have hping : ping.bytes ≠ [] := List.cons_ne_nil _ _
  show blocks (c6Read fresh.input _).1 ++ [] = _
  rw [List.append_nil, blocks_c6Read _ hping, InBuf.pending_eq_nil hfresh, List.nil_append]
  have hrun := run_packets [ping] []
  rw [packets.run_nil] at hrun
  exact congrArg Prod.fst hrun

/-- An unfinished packet behind the redirect swallows the front of the next stream. -/
theorem RedirectRead.swallows (h : RedirectRead c bytes ps r t) (hstart : StartsPacket t)
    (hnone : takePacket t = none) {fresh : Conn} (hfresh : fresh.input.oldLen = 0) :
    reader.Fits (c.read host other bytes).2.input [ping.bytes] ∧
      processedAfter host other c bytes (ps.length + 1) [ping.bytes] ≠
        (fresh.reads host other [ping.bytes]).1 := by
  have hpend : (c.read host other bytes).2.input.pending = packetRest t := h.pending_eq
  have hrest : packetRest t = t := by
    rw [packetRest, packets.run_of_none hnone]
    exact if_pos hstart
  have hping : ping.bytes ≠ [] := List.cons_ne_nil _ _
  constructor
  · have hroom := h.length_lt
    have hold : (c.read host other bytes).2.input.oldLen = t.length := by
      rw [← InBuf.length_pending, hpend, hrest]
    have hsix : ping.bytes.length = 6 := rfl
    rw [Reader.fits_cons]
    exact ⟨⟨hping, by omega⟩, Reader.fits_nil _⟩
  · intro heq
    have hleft : ((c.read host other bytes).2.reads host other [ping.bytes]).1 =
        (packets.run (t ++ ping.bytes)).1 := by
      show blocks (c6Read _ _).1 ++ [] = _
      rw [List.append_nil, blocks_c6Read _ hping, hpend, hrest]
    rw [h.processedAfter_eq, packets.run_of_none hnone, hleft, reads_ping host other hfresh] at heq
    exact run_append_ping hstart hnone heq

/-- A whole packet behind the redirect is processed, although nothing has been read since. -/
theorem RedirectRead.carries_on (h : RedirectRead c bytes ps r t) {p : List UInt8 × List UInt8}
    (hsome : takePacket t = some p) (fresh : Conn) :
    processedAfter host other c bytes (ps.length + 1) [] ≠ (fresh.reads host other []).1 := by
  intro heq
  rw [h.processedAfter_eq, packets.run_of_some hsome] at heq
  cases heq

end Leaks

/-- Behind a redirect the packets processed are those of the new server's stream alone, for
every stream and every cut of it, if and only if the bytes that follow the redirect in its
read do not begin like a packet. -/
theorem redirect_isolates_iff (host : Endian) (other : Handler → Client → List UInt8 → Client)
    {c : Conn} {bytes t : List UInt8} {ps : List Packet} {r : Packet}
    (h : RedirectRead c bytes ps r t) :
    (∀ reads, reader.Fits (c.read host other bytes).2.input reads →
      ∀ fresh : Conn, fresh.input.oldLen = 0 →
        processedAfter host other c bytes (ps.length + 1) reads =
          (fresh.reads host other reads).1) ↔
      ¬ StartsPacket t := by
  constructor
  · intro hall hstart
    let fresh : Conn := { input := ⟨fun _ => 0, 0⟩, client := connectionNew }
    have hfresh : fresh.input.oldLen = 0 := rfl
    cases htake : takePacket t with
    | none =>
        rcases h.swallows host other hstart htake hfresh with ⟨hfits, hne⟩
        exact hne (hall [ping.bytes] hfits fresh hfresh)
    | some p =>
        exact h.carries_on host other htake fresh (hall [] (Reader.fits_nil _) fresh hfresh)
  · intro hstart reads hfits fresh hfresh
    rcases packetRest_of_not_starts hstart with ⟨hframes, hrest⟩
    have hpend : (c.read host other bytes).2.input.pending = fresh.input.pending := by
      rw [h.pending_eq, hrest, InBuf.pending_eq_nil hfresh]
    rw [h.processedAfter_eq, hframes, List.nil_append]
    exact reads_congr host other hpend hfits

/-- A redirect to port 5000 of the local host. -/
def localRedirect : Packet where
  bytes := [0x20, 0x02, 0x00, 0x01, 0x00, 0x08, 127, 0, 0, 1, 0x00, 0x00, 0x13, 0x88]
  head := by decide
  type := by decide
  len := by decide
  fits := by decide

def freshConn : Conn := { input := ⟨fun _ => 0, 0⟩, client := connectionNew }

theorem redirectRead_fresh {t : List UInt8} (h : t.length ≤ 6) :
    RedirectRead freshConn (localRedirect.bytes ++ t) [] localRedirect t where
  ne := List.cons_ne_nil _ _
  fits := by
    rw [List.length_append]
    show 0 + (14 + t.length) ≤ bufSize
    unfold bufSize
    omega
  split := rfl
  redirect := ⟨rfl, by decide⟩

/-- A redirect that is the last packet of its read and one with bytes behind it that are no
packet, and a PING of the new server. -/
theorem redirect_isolates_iff_junk :
    processedAfter .little (fun _ c _ => c) freshConn (localRedirect.bytes ++ []) 1 [ping.bytes] =
        (freshConn.reads .little (fun _ c _ => c) [ping.bytes]).1 ∧
      processedAfter .little (fun _ c _ => c) freshConn (localRedirect.bytes ++ [0x41, 0x20]) 1
        [ping.bytes] = (freshConn.reads .little (fun _ c _ => c) [ping.bytes]).1 := by
  constructor
  · have hfits : reader.Fits (freshConn.read .little (fun _ c _ => c)
        (localRedirect.bytes ++ [])).2.input [ping.bytes] := by
      rw [Reader.fits_cons]
      exact ⟨⟨by decide, by decide +kernel⟩, Reader.fits_nil _⟩
    have hnot : ¬ StartsPacket [] := by simp [StartsPacket]
    exact (redirect_isolates_iff .little (fun _ c _ => c) (redirectRead_fresh (by decide))).mpr hnot
      [ping.bytes] hfits freshConn rfl
  · have hfits : reader.Fits (freshConn.read .little (fun _ c _ => c)
        (localRedirect.bytes ++ [0x41, 0x20])).2.input [ping.bytes] := by
      rw [Reader.fits_cons]
      exact ⟨⟨by decide, by decide +kernel⟩, Reader.fits_nil _⟩
    have hnot : ¬ StartsPacket [0x41, 0x20] := by simp [StartsPacket, serverType]
    exact (redirect_isolates_iff .little (fun _ c _ => c) (redirectRead_fresh (by decide))).mpr hnot
      [ping.bytes] hfits freshConn rfl

/-- A PING behind the redirect is processed although the new server has sent nothing. -/
theorem redirect_leaks_ping :
    ¬ ∀ (c : Conn) (bytes t : List UInt8) (ps : List Packet) (r : Packet),
      RedirectRead c bytes ps r t →
      ∀ reads, reader.Fits (c.read .little (fun _ c _ => c) bytes).2.input reads →
        ∀ fresh : Conn, fresh.input.oldLen = 0 →
          processedAfter .little (fun _ c _ => c) c bytes (ps.length + 1) reads =
            (fresh.reads .little (fun _ c _ => c) reads).1 := by
  intro h
  have hread : RedirectRead freshConn (localRedirect.bytes ++ ping.bytes) [] localRedirect
      ping.bytes := redirectRead_fresh (by decide)
  have heq := h _ _ _ _ _ hread [] (Reader.fits_nil _) freshConn rfl
  have hrun := run_packets [ping] []
  simp only [List.map_cons, List.map_nil, List.flatten_cons, List.flatten_nil, List.append_nil]
    at hrun
  rw [hread.processedAfter_eq, hrun] at heq
  cases heq

end C6
end IrC6
