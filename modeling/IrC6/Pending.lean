import IrC6.C6.Read
import IrC6.Irc.Read

/-!
# What a reader keeps

Both readers leave an unfinished line or packet in the buffer and note its length in
`old_len`.  The buffer has 65536 bytes and the counter 16 bits, so a buffer that is full
of one unfinished line or packet is noted as empty.

A reader is described by the bytes that it is to leave unconsumed.  The sections on the
two sides give those bytes, and say when they can fill the buffer.
-/

namespace IrC6

/-- A read callback, and the part of the kept and new bytes that it leaves for later. -/
structure Reader (ε : Type) where
  recv : InBuf → List UInt8 → List ε × InBuf
  rest : List UInt8 → List UInt8
  /-- What has been seen of the kept bytes. -/
  Scanned : List UInt8 → Prop
  scanned_nil : Scanned []
  scanned_rest : ∀ xs, Scanned (rest xs)
  length_rest_le : ∀ xs, (rest xs).length ≤ xs.length
  counted : ∀ (c : InBuf) (bytes : List UInt8), bytes ≠ [] → Scanned c.pending →
    (recv c bytes).2.oldLen = (rest (c.pending ++ bytes)).length % 2 ^ 16
  kept : ∀ (c : InBuf) (bytes : List UInt8), bytes ≠ [] → Scanned c.pending →
    (rest (c.pending ++ bytes)).length < bufSize →
    (recv c bytes).2.pending = rest (c.pending ++ bytes)

namespace Reader

variable {ε : Type} (r : Reader ε)

/-- The connection after some reads. -/
def after (c : InBuf) (reads : List (List UInt8)) : InBuf := (Framing.receive r.recv c reads).2

/-- The received bytes that some reads have left unconsumed. -/
def owed (reads : List (List UInt8)) : List UInt8 :=
  reads.foldl (fun kept bytes => r.rest (kept ++ bytes)) []

/-- No byte is lost: `old_len` counts the unconsumed bytes, and the buffer has them. -/
def Keeps (c : InBuf) (reads : List (List UInt8)) : Prop :=
  (r.after c reads).oldLen = (r.owed reads).length ∧ (r.after c reads).pending = r.owed reads

/-- What `read` returns: at least one byte, and not more than there is room for. -/
def Fits (c : InBuf) (reads : List (List UInt8)) : Prop :=
  ∀ pre bytes, pre ++ [bytes] <+: reads →
    bytes ≠ [] ∧ (r.after c pre).oldLen + bytes.length ≤ bufSize

/-- After no read is everything in the buffer unconsumed, with no room for more. -/
def NeverFull (c : InBuf) (reads : List (List UInt8)) : Prop :=
  ∀ pre bytes, pre ++ [bytes] <+: reads →
    (r.rest ((r.after c pre).pending ++ bytes)).length ≠ bufSize

theorem after_concat (c : InBuf) (reads : List (List UInt8)) (bytes : List UInt8) :
    r.after c (reads ++ [bytes]) = (r.recv (r.after c reads) bytes).2 := by
  rw [after, Framing.receive_append]
  rfl

theorem owed_concat (reads : List (List UInt8)) (bytes : List UInt8) :
    r.owed (reads ++ [bytes]) = r.rest (r.owed reads ++ bytes) := by
  rw [owed, List.foldl_append]
  rfl

theorem scanned_owed (reads : List (List UInt8)) : r.Scanned (r.owed reads) := by
  induction reads using List.reverseRecOn with
  | nil => exact r.scanned_nil
  | append_singleton reads bytes _ =>
      rw [r.owed_concat]
      exact r.scanned_rest _

variable {r} {c : InBuf}

/-- What is kept after a read depends on what was kept before it, and not on the stale bytes. -/
theorem pending_recv_congr {d : InBuf} {bytes : List UInt8} (hpend : c.pending = d.pending)
    (hne : bytes ≠ []) (hroom : c.oldLen + bytes.length ≤ bufSize) (hscan : r.Scanned c.pending) :
    (r.recv c bytes).2.pending = (r.recv d bytes).2.pending := by
  have hle := r.length_rest_le (c.pending ++ bytes)
  rw [List.length_append, InBuf.length_pending] at hle
  by_cases hlt : (r.rest (c.pending ++ bytes)).length < bufSize
  · rw [r.kept c bytes hne hscan hlt, r.kept d bytes hne (hpend ▸ hscan) (hpend ▸ hlt), hpend]
  · have hfull : (r.rest (c.pending ++ bytes)).length = bufSize := by omega
    have hc := r.counted c bytes hne hscan
    have hd := r.counted d bytes hne (hpend ▸ hscan)
    rw [hfull] at hc
    rw [← hpend, hfull] at hd
    rw [InBuf.pending_eq_nil hc, InBuf.pending_eq_nil hd]

theorem fits_nil (c : InBuf) : r.Fits c [] := by
  intro pre bytes hpre
  have hlen := hpre.length_le
  rw [List.length_append, List.length_singleton, List.length_nil] at hlen
  omega

theorem fits_cons {bytes : List UInt8} {reads : List (List UInt8)} :
    r.Fits c (bytes :: reads) ↔ (bytes ≠ [] ∧ c.oldLen + bytes.length ≤ bufSize) ∧
      r.Fits (r.recv c bytes).2 reads := by
  constructor
  · intro h
    refine ⟨h [] bytes ⟨reads, rfl⟩, fun pre b hpre => ?_⟩
    exact h (bytes :: pre) b (List.cons_prefix_cons.mpr ⟨rfl, hpre⟩)
  · rintro ⟨hfirst, hrest⟩ pre b hpre
    cases pre with
    | nil =>
        obtain ⟨rest, heq⟩ := hpre
        simp only [List.nil_append, List.singleton_append, List.cons.injEq] at heq
        rw [heq.1]
        exact hfirst
    | cons first pre =>
        obtain ⟨rfl, htail⟩ := List.cons_prefix_cons.mp hpre
        exact hrest pre b htail

/-- From a connection on which nothing was lost, one read loses nothing exactly when it
does not leave the buffer full. -/
theorem keeps_concat_iff {reads : List (List UInt8)} {bytes : List UInt8}
    (hkeeps : r.Keeps c reads) (hne : bytes ≠ [])
    (hroom : (r.after c reads).oldLen + bytes.length ≤ bufSize) :
    r.Keeps c (reads ++ [bytes]) ↔
      (r.rest ((r.after c reads).pending ++ bytes)).length ≠ bufSize := by
  obtain ⟨hcount, hpend⟩ := hkeeps
  have hscan : r.Scanned (r.after c reads).pending := hpend ▸ r.scanned_owed reads
  have hold := r.counted _ bytes hne hscan
  have hle := r.length_rest_le ((r.after c reads).pending ++ bytes)
  rw [List.length_append, InBuf.length_pending] at hle
  have hbuf : bufSize = 2 ^ 16 := rfl
  rw [Keeps, r.after_concat, r.owed_concat, ← hpend]
  constructor
  · rintro ⟨hlen, -⟩ hfull
    rw [hold, hfull, hbuf] at hlen
    exact absurd hlen (by decide)
  · intro hnot
    have hlt : (r.rest ((r.after c reads).pending ++ bytes)).length < bufSize := by omega
    exact ⟨by rw [hold]; exact Nat.mod_eq_of_lt hlt, r.kept _ bytes hne hscan hlt⟩

/-- A run loses nothing exactly when no read of it leaves the buffer full. -/
theorem keeps_iff (hc : c.oldLen = 0) {reads : List (List UInt8)} (hfits : r.Fits c reads) :
    (∀ pre, pre <+: reads → r.Keeps c pre) ↔ r.NeverFull c reads := by
  constructor
  · intro h pre bytes hpre
    obtain ⟨hne, hroom⟩ := hfits pre bytes hpre
    have hbefore := h pre ((List.prefix_append pre [bytes]).trans hpre)
    exact (keeps_concat_iff hbefore hne hroom).mp (h _ hpre)
  · intro h pre
    induction pre using List.reverseRecOn with
    | nil =>
        intro _
        exact ⟨hc, InBuf.pending_eq_nil hc⟩
    | append_singleton pre bytes ih =>
        intro hpre
        obtain ⟨hne, hroom⟩ := hfits pre bytes hpre
        have hbefore := ih ((List.prefix_append pre [bytes]).trans hpre)
        exact (keeps_concat_iff hbefore hne hroom).mpr (h pre bytes hpre)

end Reader

/-! ## The IRC side -/

namespace Irc

open Memory

theorem ircRead_kept (c : InBuf) (bytes : List UInt8)
    (hscan : ∀ b ∈ c.pending, isTerm b = false) :
    (ircRead c (.data bytes)).2.oldLen = (lines.run (c.pending ++ bytes)).2.length % 2 ^ 16 := by
  have hkept : slice (c.received bytes).buf 0 c.oldLen = c.pending :=
    slice_store_below c.buf bytes (by omega)
  obtain ⟨-, htail⟩ := lineLoop_eq_run (c.received bytes).buf 0 c.oldLen
    (bytes.length + c.oldLen) (by omega) (by rw [hkept]; exact hscan)
  rw [c.slice_received bytes] at htail
  rw [← htail, length_slice]
  exact InBuf.oldLen_keep _ _ _

/-- `irc_read`. -/
def reader : Reader Event where
  recv c bytes := ircRead c (.data bytes)
  rest xs := (lines.run xs).2
  Scanned xs := ∀ b ∈ xs, isTerm b = false
  scanned_nil := by simp
  scanned_rest xs := (run_lines_rest xs).2
  length_rest_le := lines.length_run_le
  counted c bytes _ hscan := ircRead_kept c bytes hscan
  kept c bytes _ hscan hlt := (ircRead_eq_run c bytes hscan hlt).2

/-- 65536 bytes of one line. -/
def LineFull (xs : List UInt8) : Prop := xs.length = bufSize ∧ ∀ b ∈ xs, isTerm b = false

theorem rest_full_iff {xs : List UInt8} (hle : xs.length ≤ bufSize) :
    (lines.run xs).2.length = bufSize ↔ LineFull xs := by
  constructor
  · intro h
    have hnone : lines.take xs = none := lines.take_eq_none_of_length (by omega)
    rw [lines.run_of_none hnone] at h
    exact ⟨h, takeLine_eq_none hnone⟩
  · rintro ⟨hlen, hterm⟩
    rw [lines.run_of_none (takeLine_none hterm)]
    exact hlen

end Irc

/-! ## The C6 side -/

namespace C6

/-- What is left of a stream: an incomplete packet.  What begins with a foreign type byte
is skipped. -/
def packetRest (xs : List UInt8) : List UInt8 :=
  if (packets.run xs).2[0]? = some serverType then (packets.run xs).2 else []

theorem packetRest_of_valid {xs : List UInt8} (h : RestValid xs) :
    packetRest xs = (packets.run xs).2 := by
  unfold packetRest
  rcases h with hnil | htype
  · rw [hnil]
    rfl
  · rw [if_pos htype]

theorem packetRest_of_skip {xs : List UInt8} (h : ¬ RestValid xs) : packetRest xs = [] := by
  rw [packetRest, if_neg (fun htype => h (Or.inr htype))]

theorem c6Read_skip (c : InBuf) {bytes : List UInt8} (hskip : ¬ RestValid (c.pending ++ bytes)) :
    (c6Read c (.data bytes)).2 = { c.received bytes with oldLen := 0 } := by
  rw [← c.slice_received bytes] at hskip
  have hloop := parseLoop_eq_skip (c.received bytes).buf 0 (bytes.length + c.oldLen) hskip
  have hloop' : parseLoop (c.received bytes).buf 0
      (bytes.length + (c.received bytes).oldLen) = _ := hloop
  simp only [c6Read, parseIndata, hloop']

theorem c6Read_kept (c : InBuf) {bytes : List UInt8} (hne : bytes ≠ []) :
    (c6Read c (.data bytes)).2.oldLen = (packetRest (c.pending ++ bytes)).length % 2 ^ 16 := by
  by_cases hvalid : RestValid (c.pending ++ bytes)
  · have hbytes : 0 < bytes.length := List.length_pos_of_ne_nil hne
    rw [packetRest_of_valid hvalid]
    rw [← c.slice_received bytes] at hvalid ⊢
    obtain ⟨ptr, left, hloop, -, hleft⟩ :=
      parseLoop_eq_run (c.received bytes).buf 0 (bytes.length + c.oldLen) (by omega) hvalid
    have hloop' : parseLoop (c.received bytes).buf 0
        (bytes.length + (c.received bytes).oldLen) = _ := hloop
    rw [← hleft, Memory.length_slice]
    simp only [c6Read, parseIndata, hloop']
    exact InBuf.oldLen_keep _ _ _
  · rw [c6Read_skip c hvalid, packetRest_of_skip hvalid]
    rfl

theorem c6Read_pending (c : InBuf) {bytes : List UInt8} (hne : bytes ≠ [])
    (hlt : (packetRest (c.pending ++ bytes)).length < bufSize) :
    (c6Read c (.data bytes)).2.pending = packetRest (c.pending ++ bytes) := by
  by_cases hvalid : RestValid (c.pending ++ bytes)
  · rw [packetRest_of_valid hvalid] at hlt ⊢
    exact (c6Read_eq_run c hne hvalid hlt).2
  · rw [c6Read_skip c hvalid, packetRest_of_skip hvalid]
    rfl

theorem length_packetRest_le (xs : List UInt8) : (packetRest xs).length ≤ xs.length := by
  unfold packetRest
  split
  · exact packets.length_run_le xs
  · exact Nat.zero_le _

/-- `c6_read`. -/
def reader : Reader Event where
  recv c bytes := c6Read c (.data bytes)
  rest := packetRest
  Scanned _ := True
  scanned_nil := trivial
  scanned_rest _ := trivial
  length_rest_le := length_packetRest_le
  counted c _ hne _ := c6Read_kept c hne
  kept c _ hne _ hlt := c6Read_pending c hne hlt

/-- 65536 bytes of one packet that is longer still. -/
def PacketFull (xs : List UInt8) : Prop :=
  xs.length = bufSize ∧ xs[0]? = some serverType ∧ bufSize < lenField xs + headSize

theorem packetRest_full_iff {xs : List UInt8} (hle : xs.length ≤ bufSize) :
    (packetRest xs).length = bufSize ↔ PacketFull xs := by
  constructor
  · intro h
    have hpos : 0 < bufSize := by decide
    have hvalid : RestValid xs := by
      by_contra hskip
      rw [packetRest_of_skip hskip] at h
      exact absurd h (by decide)
    rw [packetRest_of_valid hvalid] at h
    have hnone : packets.take xs = none := packets.take_eq_none_of_length (by omega)
    rw [RestValid, packets.run_of_none hnone] at hvalid
    rw [packets.run_of_none hnone] at h
    have htype : xs[0]? = some serverType := by
      rcases hvalid with rfl | htype
      · exact absurd h (by decide)
      · exact htype
    have hlen : xs.length = bufSize := h
    refine ⟨hlen, htype, ?_⟩
    have hhead : headSize ≤ xs.length := by rw [hlen]; decide
    by_contra hfield
    have hsome : takePacket xs ≠ none := by
      rw [takePacket, if_pos ⟨htype, hhead, by omega⟩]
      simp
    exact hsome hnone
  · rintro ⟨hlen, htype, hfield⟩
    have hnone : packets.take xs = none := by
      rw [packets_take, takePacket, if_neg (by omega)]
    rw [packetRest, packets.run_of_none hnone, if_pos htype]
    exact hlen

end C6

/-! ## Both sides -/

namespace Reader

variable {ε : Type} {r : Reader ε} {c : InBuf}

theorem length_buffered_le {reads : List (List UInt8)} (hfits : r.Fits c reads)
    {pre : List (List UInt8)} {bytes : List UInt8} (hpre : pre ++ [bytes] <+: reads) :
    ((r.after c pre).pending ++ bytes).length ≤ bufSize := by
  rw [List.length_append, InBuf.length_pending]
  exact (hfits pre bytes hpre).2

theorem fits_single (hc : c.oldLen = 0) {bytes : List UInt8} (hne : bytes ≠ [])
    (hle : bytes.length ≤ bufSize) : r.Fits c [bytes] :=
  fits_cons.mpr ⟨⟨hne, by omega⟩, fits_nil _⟩

theorem not_keeps_single (hc : c.oldLen = 0) {bytes : List UInt8} (hne : bytes ≠ [])
    (hfull : (r.rest bytes).length = bufSize) : ¬ r.Keeps c [bytes] := by
  intro hkeeps
  have hle := r.length_rest_le bytes
  have hpend := InBuf.pending_eq_nil hc
  have hstart : r.Keeps c [] := ⟨hc, hpend⟩
  have hroom : (r.after c []).oldLen + bytes.length = bytes.length := by
    show c.oldLen + bytes.length = _
    omega
  have hcount := hkeeps.1
  have hold := r.counted c bytes hne (hpend ▸ r.scanned_nil)
  rw [hpend, List.nil_append, hfull] at hold
  have howed : (r.owed [bytes]).length = bufSize := hfull
  have hafter : (r.after c [bytes]).oldLen = bufSize % 2 ^ 16 := hold
  rw [howed, hafter] at hcount
  exact absurd hcount (by decide)

end Reader

/-- Over any reads of either side, every received byte that was neither consumed nor skipped
is in the buffer and counted by `old_len`, if and only if no read fills the buffer with one
line or packet that is still unfinished. -/
theorem old_len_counts_iff {c : InBuf} (hc : c.oldLen = 0) (reads : List (List UInt8)) :
    (Irc.reader.Fits c reads →
      ((∀ pre, pre <+: reads → Irc.reader.Keeps c pre) ↔
        ∀ pre bytes, pre ++ [bytes] <+: reads →
          ¬ Irc.LineFull ((Irc.reader.after c pre).pending ++ bytes))) ∧
    (C6.reader.Fits c reads →
      ((∀ pre, pre <+: reads → C6.reader.Keeps c pre) ↔
        ∀ pre bytes, pre ++ [bytes] <+: reads →
          ¬ C6.PacketFull ((C6.reader.after c pre).pending ++ bytes))) := by
  constructor
  · intro hfits
    rw [Reader.keeps_iff hc hfits]
    refine forall_congr' fun pre => forall_congr' fun bytes => forall_congr' fun hpre => ?_
    exact not_congr (Irc.rest_full_iff (Reader.length_buffered_le hfits hpre))
  · intro hfits
    rw [Reader.keeps_iff hc hfits]
    refine forall_congr' fun pre => forall_congr' fun bytes => forall_congr' fun hpre => ?_
    exact not_congr (C6.packetRest_full_iff (Reader.length_buffered_le hfits hpre))

/-- A line and the start of another one, and a packet and the start of another one. -/
theorem old_len_counts_iff_unit :
    Irc.reader.Keeps ⟨fun _ => 0, 0⟩ [[0x61, 0x0a, 0x62]] ∧
      C6.reader.Keeps ⟨fun _ => 0, 0⟩ [[0x20, 0x08, 0x00, 0x01, 0x00, 0x00, 0x20]] := by
  have honly : ∀ {pre : List (List UInt8)} {bytes read : List UInt8}, pre ++ [bytes] <+: [read] →
      pre = [] ∧ bytes = read := by
    intro pre bytes read hpre
    have hlen := hpre.length_le
    rw [List.length_append, List.length_singleton, List.length_singleton] at hlen
    have hnil : pre = [] := List.length_eq_zero_iff.mp (by omega)
    subst hnil
    obtain ⟨rest, hrest⟩ := hpre
    exact ⟨rfl, (List.cons.inj hrest).1⟩
  constructor
  · have hfits : Irc.reader.Fits ⟨fun _ => 0, 0⟩ [[0x61, 0x0a, 0x62]] :=
      Reader.fits_single rfl (by decide) (by decide)
    refine ((old_len_counts_iff (c := ⟨fun _ => 0, 0⟩) rfl _).1 hfits).mpr
      (fun pre bytes hpre hfull => ?_) _ (List.prefix_refl _)
    -- The newline is in the buffer that the one read fills.
    obtain ⟨rfl, rfl⟩ := honly hpre
    exact absurd (hfull.2 0x0a (by simp)) (by decide)
  · have hfits : C6.reader.Fits ⟨fun _ => 0, 0⟩ [[0x20, 0x08, 0x00, 0x01, 0x00, 0x00, 0x20]] :=
      Reader.fits_single rfl (by decide) (by decide)
    refine ((old_len_counts_iff (c := ⟨fun _ => 0, 0⟩) rfl _).2 hfits).mpr
      (fun pre bytes hpre hfull => ?_) _ (List.prefix_refl _)
    obtain ⟨rfl, rfl⟩ := honly hpre
    exact absurd hfull.1 (by decide)

/-- A read of 65536 bytes without a newline, and one that begins a packet of 65541 bytes. -/
theorem old_len_loses_full :
    (¬ ∀ c : InBuf, c.oldLen = 0 → ∀ reads, Irc.reader.Fits c reads → Irc.reader.Keeps c reads) ∧
    ¬ ∀ c : InBuf, c.oldLen = 0 → ∀ reads, C6.reader.Fits c reads → C6.reader.Keeps c reads := by
  constructor
  · intro h
    obtain ⟨line, hline⟩ : ∃ line : List UInt8, line = List.replicate bufSize 0x61 := ⟨_, rfl⟩
    have hlen : line.length = bufSize := by rw [hline, List.length_replicate]
    have hne : line ≠ [] := by
      rintro rfl
      exact absurd hlen (by decide)
    have hterm : ∀ b ∈ line, Irc.isTerm b = false := by
      intro b hb
      rw [hline] at hb
      rw [List.eq_of_mem_replicate hb]
      rfl
    have hfull := (Irc.rest_full_iff hlen.le).mpr ⟨hlen, hterm⟩
    exact Reader.not_keeps_single (r := Irc.reader) rfl hne hfull
      (h ⟨fun _ => 0, 0⟩ rfl [line] (Reader.fits_single rfl hne hlen.le))
  · intro h
    obtain ⟨part, hpart⟩ : ∃ part : List UInt8,
        part = [0x20, 0x08, 0x00, 0x01, 0xff, 0xff] ++ List.replicate 65530 0 := ⟨_, rfl⟩
    have hlen : part.length = bufSize := by
      rw [hpart, List.length_append, List.length_replicate]
      rfl
    have hne : part ≠ [] := by
      rintro rfl
      exact absurd hlen (by decide)
    have htype : part[0]? = some C6.serverType := by
      rw [hpart, List.getElem?_append_left (by decide)]
      rfl
    have hfield : C6.lenField part = 65535 := by
      rw [hpart, C6.lenField_append (by decide)]
      rfl
    have hfull := (C6.packetRest_full_iff hlen.le).mpr ⟨hlen, htype, by rw [hfield]; decide⟩
    exact Reader.not_keeps_single (r := C6.reader) rfl hne hfull
      (h ⟨fun _ => 0, 0⟩ rfl [part] (Reader.fits_single rfl hne hlen.le))

end IrC6
