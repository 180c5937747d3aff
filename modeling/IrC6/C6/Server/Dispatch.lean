import Mathlib.Data.List.Basic
import IrC6.Base.SizeT
import IrC6.C6.Codifica
import IrC6.C6.Packet
import IrC6.C6.Read

/-!
# Dispatch of server packets

`c6_process_input` reads the command byte of a block and calls the handler that
`cmd_table` names with the block behind its header.  The length given to the
handler is a `size_t` difference that nothing compares with the header size.

`cmd_encoded` decodes its payload and gives it to `c6_process_input` as a block of
its own, so a TRANSPORT packet may carry another one to any depth.  The length of
the inner block is the payload length of the outer one.

A block with a command that has no handler is dumped from behind its header on, with
the length of the whole block.  `gui dump data` has a callback in a build with
`IRC6_DEBUG`, which is the default of the Makefile, and none in another.
-/

namespace IrC6
namespace C6

/-- The functions of `cmd_table`. -/
inductive Handler where
  | infologin | redir | invpass | alrcon | exitOk | sndUsers | foundemail | statusUser
  | errpkt | nouser | message | wlcome | ping | helo | userInfo | foundnicks | encoded
  | userchgstatus | roommsg | roomnotexist | roomuserlist | roomuenter | roomuleave
  | roomcanleave | roominfo | roomalrexist | roomisfull | roomlist | nicks
deriving DecidableEq, Repr

/-- `CMD_ENCODED`, the command byte of a TRANSPORT packet. -/
def cmdEncoded : UInt8 := 0x18

def cmdTable (cmd : UInt8) : Option Handler :=
  match cmd.toNat with
  | 0x01 => some .infologin
  | 0x02 => some .redir
  | 0x03 => some .invpass
  | 0x04 => some .alrcon
  | 0x05 => some .exitOk
  | 0x06 => some .sndUsers
  | 0x07 => some .foundemail
  | 0x0a => some .statusUser
  | 0x0d => some .errpkt
  | 0x0e => some .nouser
  | 0x0f => some .message
  | 0x10 => some .wlcome
  | 0x11 => some .ping
  | 0x12 => some .helo
  | 0x14 => some .userInfo
  | 0x16 => some .foundnicks
  | 0x18 => some .encoded
  | 0x1c => some .userchgstatus
  | 0x30 => some .roommsg
  | 0x31 => some .roomnotexist
  | 0x32 => some .roomuserlist
  | 0x33 => some .roomuenter
  | 0x34 => some .roomuleave
  | 0x35 => some .roomcanleave
  | 0x37 => some .roominfo
  | 0x39 => some .roomalrexist
  | 0x3b => some .roomisfull
  | 0x3c => some .roomlist
  | 0x45 => some .nicks
  | _ => none

/-- The calls made while one packet is dispatched. -/
inductive Call where
  /-- `c6_process_input` on a block of `len` bytes. -/
  | input (len : Nat)
  /-- A handler of `cmd_table`, with the length of its block and the length of the
  payload as the handler sees it. -/
  | handler (h : Handler) (blockLen payloadLen : Nat)
  /-- `gui warning` and `gui dump data` for a command without a handler, with the
  length of its block and how many bytes behind the header the dump is to show. -/
  | unknown (cmd : UInt8) (blockLen dumpLen : Nat)
deriving DecidableEq, Repr

/-- How a dispatch ends: as the code says, or at an access outside the block. -/
inductive Outcome where
  | done
  | outside
deriving DecidableEq, Repr

/-- `c6_process_input`, with `cmd_encoded` inlined, in a build with `IRC6_DEBUG` or
without.  `srv_id`, which only a debug print reads, is left out. -/
def c6ProcessInput (debug : Bool) (key : Key) (block : List UInt8) : List Call × Outcome :=
  match block[1]? with
  -- `sp->cmd` lies behind the end of the block.
  | none => ([.input block.length], .outside)
  | some cmd =>
      let len := sizeSub block.length headSize
      match cmdTable cmd with
      | some .encoded =>
          if _h : block.length < headSize then
            -- `c6_packet_encode` is given a wrapped length.
            ([.input block.length, .handler .encoded block.length len], .outside)
          else
            let r := c6ProcessInput debug key (packetEncode (block.drop headSize) key)
            (.input block.length :: .handler .encoded block.length len :: r.1, r.2)
      | some h => ([.input block.length, .handler h block.length len], .done)
      | none =>
          -- `irc_dump_data` reads on behind the block.
          ([.input block.length, .unknown cmd block.length block.length],
            if debug then .outside else .done)
termination_by block.length
decreasing_by
  rw [length_packetEncode, List.length_drop]
  unfold headSize at *
  omega

theorem cmdTable_encoded {cmd : UInt8} : cmdTable cmd = some .encoded ↔ cmd = cmdEncoded := by
  constructor
  · intro h
    unfold cmdTable at h
    split at h <;> cases h
    rename_i hcmd
    exact UInt8.toNat_inj.mp hcmd
  · rintro rfl
    rfl

/-! ## What a dispatch may do -/

/-- Every block is at least a header long, every handler sees the payload of its
block without wrap-around and inside the received packet, what is dumped lies in its
block, and the dispatch ends without leaving a block. -/
structure StaysInside (debug : Bool) (key : Key) (block : List UInt8) : Prop where
  input : ∀ n, .input n ∈ (c6ProcessInput debug key block).1 → headSize ≤ n
  handler : ∀ h b n, .handler h b n ∈ (c6ProcessInput debug key block).1 →
    n + headSize = b ∧ b ≤ block.length
  dump : debug = true → ∀ cmd b n, .unknown cmd b n ∈ (c6ProcessInput debug key block).1 →
    headSize + n ≤ b ∧ b ≤ block.length
  done : (c6ProcessInput debug key block).2 = .done

/-- The blocks nested in TRANSPORT packets, by depth. -/
def nested (key : Key) : Nat → List UInt8 → Option (List UInt8)
  | 0, block => some block
  | depth + 1, block =>
      if block[1]? = some cmdEncoded then
        nested key depth (packetEncode (block.drop headSize) key)
      else none

/-- Every TRANSPORT packet of the nest has room for a header in its payload. -/
def TransportsFilled (key : Key) (block : List UInt8) : Prop :=
  ∀ depth inner, nested key depth block = some inner → inner[1]? = some cmdEncoded →
    2 * headSize ≤ inner.length

/-- Every command of the nest has a handler. -/
def CommandsKnown (key : Key) (block : List UInt8) : Prop :=
  ∀ depth inner cmd, nested key depth block = some inner → inner[1]? = some cmd →
    (cmdTable cmd).isSome

theorem commandsKnown_encoded {key : Key} {block : List UInt8}
    (hcmd : block[1]? = some cmdEncoded) :
    CommandsKnown key block ↔ CommandsKnown key (packetEncode (block.drop headSize) key) := by
  constructor
  · intro h depth inner cmd hinner hin
    refine h (depth + 1) inner cmd ?_ hin
    rw [nested, if_pos hcmd]
    exact hinner
  · intro h depth inner cmd hinner hin
    cases depth with
    | zero =>
        rw [nested, Option.some.injEq] at hinner
        rw [← hinner, hcmd] at hin
        cases hin
        rfl
    | succ depth =>
        rw [nested, if_pos hcmd] at hinner
        exact h depth inner cmd hinner hin

theorem commandsKnown_other {key : Key} {block : List UInt8} {cmd : UInt8}
    (hget : block[1]? = some cmd) (hcmd : cmd ≠ cmdEncoded) :
    CommandsKnown key block ↔ (cmdTable cmd).isSome := by
  refine ⟨fun h => h 0 block cmd rfl hget, fun h depth inner cmd' hinner hin => ?_⟩
  cases depth with
  | zero =>
      rw [nested, Option.some.injEq] at hinner
      rw [← hinner, hget] at hin
      cases hin
      exact h
  | succ depth =>
      rw [nested, hget, if_neg (fun heq => hcmd (Option.some.inj heq))] at hinner
      cases hinner

theorem transportsFilled_encoded {key : Key} {block : List UInt8}
    (hcmd : block[1]? = some cmdEncoded) :
    TransportsFilled key block ↔ 2 * headSize ≤ block.length ∧
      TransportsFilled key (packetEncode (block.drop headSize) key) := by
  constructor
  · intro h
    refine ⟨h 0 block rfl hcmd, fun depth inner hinner => h (depth + 1) inner ?_⟩
    rw [nested, if_pos hcmd]
    exact hinner
  · rintro ⟨hlen, h⟩ depth inner hinner hin
    cases depth with
    | zero =>
        rw [nested, Option.some.injEq] at hinner
        rw [← hinner]
        exact hlen
    | succ depth =>
        rw [nested, if_pos hcmd] at hinner
        exact h depth inner hinner hin

theorem transportsFilled_other {key : Key} {block : List UInt8}
    (hcmd : block[1]? ≠ some cmdEncoded) : TransportsFilled key block := by
  intro depth inner hinner hin
  cases depth with
  | zero =>
      rw [nested, Option.some.injEq] at hinner
      rw [← hinner] at hin
      exact absurd hin hcmd
  | succ depth =>
      rw [nested, if_neg hcmd] at hinner
      cases hinner

theorem c6ProcessInput_encoded (debug : Bool) (key : Key) {block : List UInt8}
    (hlen : headSize ≤ block.length) (hcmd : block[1]? = some cmdEncoded) :
    c6ProcessInput debug key block =
      (.input block.length :: .handler .encoded block.length (sizeSub block.length headSize) ::
          (c6ProcessInput debug key (packetEncode (block.drop headSize) key)).1,
        (c6ProcessInput debug key (packetEncode (block.drop headSize) key)).2) := by
  rw [c6ProcessInput, hcmd]
  dsimp only
  rw [cmdTable_encoded.mpr rfl]
  dsimp only
  rw [dif_neg (Nat.not_lt.mpr hlen)]

theorem not_staysInside_short {debug : Bool} {key : Key} {block : List UInt8}
    (h : block.length < headSize) : ¬ StaysInside debug key block := by
  intro hs
  have hmem : Call.input block.length ∈ (c6ProcessInput debug key block).1 := by
    rw [c6ProcessInput]
    split
    · exact List.mem_cons_self
    · split
      · split <;> exact List.mem_cons_self
      · exact List.mem_cons_self
      · exact List.mem_cons_self
  have hle := hs.input _ hmem
  omega

/-- A block with a handler is given to it, and one without is dumped. -/
theorem staysInside_other {debug : Bool} {key : Key} {block : List UInt8} {cmd : UInt8}
    (hlen : headSize ≤ block.length) (hbig : block.length < 2 ^ 64)
    (hget : block[1]? = some cmd) (hcmd : cmd ≠ cmdEncoded) :
    StaysInside debug key block ↔ (debug = true → (cmdTable cmd).isSome) := by
  have hsub := sizeSub_of_le hbig hlen
  cases ht : cmdTable cmd with
  | none =>
      have hrun : c6ProcessInput debug key block =
          ([.input block.length, .unknown cmd block.length block.length],
            if debug then .outside else .done) := by
        rw [c6ProcessInput, hget]
        dsimp only
        rw [ht]
      cases debug with
      | true =>
          refine iff_of_false (fun hs => ?_) (fun h => nomatch h rfl)
          have hdone := hs.done
          rw [hrun] at hdone
          cases hdone
      | false =>
          refine iff_of_true ⟨fun n hn => ?_, fun h b n hn => ?_, fun hd => (nomatch hd), ?_⟩
            fun hd => (nomatch hd)
          · rw [hrun] at hn
            simp only [List.mem_cons, Call.input.injEq, List.not_mem_nil, or_false,
              reduceCtorEq] at hn
            rw [hn]
            exact hlen
          · rw [hrun] at hn
            simp at hn
          · rw [hrun]
            rfl
  | some f =>
      have hf : f ≠ .encoded := fun e => hcmd (cmdTable_encoded.mp (e ▸ ht))
      have hrun : c6ProcessInput debug key block =
          ([.input block.length, .handler f block.length (block.length - headSize)], .done) := by
        rw [c6ProcessInput, hget]
        dsimp only
        rw [ht, hsub]
        cases f <;> first | rfl | exact absurd rfl hf
      refine iff_of_true ⟨fun n hn => ?_, fun h b n hn => ?_, fun _ c b n hn => ?_, by rw [hrun]⟩
        fun _ => rfl
      · rw [hrun] at hn
        simp only [List.mem_cons, Call.input.injEq, List.not_mem_nil, or_false, reduceCtorEq] at hn
        rw [hn]
        exact hlen
      · rw [hrun] at hn
        simp only [List.mem_cons, Call.handler.injEq, List.not_mem_nil, or_false, reduceCtorEq,
          false_or] at hn
        obtain ⟨-, rfl, rfl⟩ := hn
        exact ⟨Nat.sub_add_cancel hlen, Nat.le_refl _⟩
      · rw [hrun] at hn
        simp at hn

/-- What is called on a block is not longer than the packet: what a TRANSPORT packet
nests is shorter than the packet itself. -/
theorem handler_block_le {debug : Bool} {key : Key} {block : List UInt8} :
    (∀ h b n, .handler h b n ∈ (c6ProcessInput debug key block).1 → b ≤ block.length) ∧
    ∀ cmd b n, .unknown cmd b n ∈ (c6ProcessInput debug key block).1 → b ≤ block.length := by
  fun_induction c6ProcessInput debug key block with
  | case1 block hcmd => simp
  | case2 block cmd hcmd len ht hshort =>
      refine ⟨fun h b n hmem => ?_, by simp⟩
      simp only [List.mem_cons, Call.handler.injEq, List.not_mem_nil, or_false, reduceCtorEq,
        false_or] at hmem
      omega
  | case3 block cmd hcmd len ht hshort r ih =>
      rw [length_packetEncode, List.length_drop] at ih
      refine ⟨fun h b n hmem => ?_, fun cmd' b n hmem => ?_⟩
      · simp only [List.mem_cons, Call.handler.injEq, reduceCtorEq, false_or] at hmem
        rcases hmem with ⟨-, rfl, -⟩ | hmem
        · exact Nat.le_refl _
        · have hle := ih.1 h b n hmem
          omega
      · simp only [List.mem_cons, reduceCtorEq, false_or] at hmem
        have hle := ih.2 cmd' b n hmem
        omega
  | case4 block cmd hcmd len f ht hf =>
      refine ⟨fun h b n hmem => ?_, by simp⟩
      simp only [List.mem_cons, Call.handler.injEq, List.not_mem_nil, or_false, reduceCtorEq,
        false_or] at hmem
      omega
  | case5 block cmd hcmd ht =>
      refine ⟨by simp, fun cmd' b n hmem => ?_⟩
      simp only [List.mem_cons, Call.unknown.injEq, List.not_mem_nil, or_false, reduceCtorEq,
        false_or] at hmem
      omega

/-- A TRANSPORT packet is dispatched inside exactly when the packet in it is. -/
theorem staysInside_encoded {debug : Bool} {key : Key} {block : List UInt8}
    (hlen : headSize ≤ block.length) (hbig : block.length < 2 ^ 64)
    (hcmd : block[1]? = some cmdEncoded) :
    StaysInside debug key block ↔
      StaysInside debug key (packetEncode (block.drop headSize) key) := by
  have hrun := c6ProcessInput_encoded debug key hlen hcmd
  rw [sizeSub_of_le hbig hlen] at hrun
  have hinner : (packetEncode (block.drop headSize) key).length = block.length - headSize := by
    rw [length_packetEncode, List.length_drop]
  have hmem : ∀ {c}, c ∈ (c6ProcessInput debug key (packetEncode (block.drop headSize) key)).1 →
      c ∈ (c6ProcessInput debug key block).1 := by
    intro c hc
    rw [hrun]
    exact List.mem_cons_of_mem _ (List.mem_cons_of_mem _ hc)
  constructor
  · intro hs
    -- The inner blocks are the inner packet and what it nests, so none is longer.
    refine ⟨fun n hn => hs.input n (hmem hn), fun h b n hn => ?_, fun hd cmd b n hn => ?_, ?_⟩
    · exact ⟨(hs.handler h b n (hmem hn)).1, handler_block_le.1 h b n hn⟩
    · exact ⟨(hs.dump hd cmd b n (hmem hn)).1, handler_block_le.2 cmd b n hn⟩
    · have hdone := hs.done
      rw [hrun] at hdone
      exact hdone
  · intro hs
    refine ⟨fun n hn => ?_, fun h b n hn => ?_, fun hd cmd b n hn => ?_, ?_⟩
    · rw [hrun] at hn
      simp only [List.mem_cons, Call.input.injEq, reduceCtorEq, false_or] at hn
      rcases hn with rfl | hn
      · exact hlen
      · exact hs.input n hn
    · rw [hrun] at hn
      simp only [List.mem_cons, Call.handler.injEq, reduceCtorEq, false_or] at hn
      rcases hn with ⟨-, rfl, rfl⟩ | hn
      · exact ⟨Nat.sub_add_cancel hlen, Nat.le_refl _⟩
      · have hin := hs.handler h b n hn
        exact ⟨hin.1, by omega⟩
    · rw [hrun] at hn
      simp only [List.mem_cons, reduceCtorEq, false_or] at hn
      have hin := hs.dump hd cmd b n hn
      exact ⟨hin.1, by omega⟩
    · rw [hrun]
      exact hs.done

/-- Dispatch stays inside a packet exactly when no TRANSPORT packet in it carries
less than a header, and there is nothing to dump in it. -/
theorem staysInside_iff {debug : Bool} {key : Key} {block : List UInt8}
    (hlen : headSize ≤ block.length) (hbig : block.length < 2 ^ 64) :
    StaysInside debug key block ↔
      TransportsFilled key block ∧ (debug = true → CommandsKnown key block) := by
  induction hn : block.length using Nat.strong_induction_on generalizing block with
  | _ n ih =>
      have h1 : 1 < block.length := by unfold headSize at hlen; omega
      have hget : block[1]? = some block[1] := List.getElem?_eq_getElem h1
      by_cases hcmd : block[1]? = some cmdEncoded
      · have hinner : (packetEncode (block.drop headSize) key).length =
            block.length - headSize := by
          rw [length_packetEncode, List.length_drop]
        rw [staysInside_encoded hlen hbig hcmd, transportsFilled_encoded hcmd,
          commandsKnown_encoded hcmd]
        by_cases hroom : 2 * headSize ≤ block.length
        · have hpos : 0 < headSize := by decide
          rw [ih _ (by omega) (by omega) (by omega) rfl, and_iff_right hroom]
        · exact iff_of_false (not_staysInside_short (by omega)) (fun h => hroom h.1.1)
      · have hne : block[1] ≠ cmdEncoded := fun heq => hcmd (hget.trans (congrArg some heq))
        rw [staysInside_other hlen hbig hget hne, commandsKnown_other hget hne,
          and_iff_right (transportsFilled_other hcmd)]

/-! ## Packets accepted by `parse_indata` -/

/-- Every block given to `c6_process_input` lies in the received bytes, begins with
the server's type, and is as long as its header says. -/
theorem parseLoop_input {buf : Nat → UInt8} {ptr avdata : Nat} {block : List UInt8}
    (h : .input block ∈ (parseLoop buf ptr avdata).1) :
    ∃ at_ pklen, block = Memory.slice buf at_ pklen ∧ ptr ≤ at_ ∧ at_ + pklen ≤ ptr + avdata ∧
      buf at_ = serverType ∧ pklen = ntohs (buf (at_ + 4)) (buf (at_ + 5)) + headSize := by
  induction avdata using Nat.strong_induction_on generalizing ptr with
  | _ avdata ih =>
      rw [parseLoop] at h
      by_cases htype : buf ptr = serverType
      · rw [if_neg (not_not_intro htype)] at h
        by_cases hlen : avdata < ntohs (buf (ptr + 4)) (buf (ptr + 5)) + headSize
        · rw [dif_pos hlen] at h
          cases h
        · rw [dif_neg hlen] at h
          have hpk : 0 < ntohs (buf (ptr + 4)) (buf (ptr + 5)) + headSize := Nat.succ_pos _
          have hhere : ∃ at_ pklen, Memory.slice buf ptr
              (ntohs (buf (ptr + 4)) (buf (ptr + 5)) + headSize) = Memory.slice buf at_ pklen ∧
              ptr ≤ at_ ∧ at_ + pklen ≤ ptr + avdata ∧ buf at_ = serverType ∧
              pklen = ntohs (buf (at_ + 4)) (buf (at_ + 5)) + headSize :=
            ⟨ptr, _, rfl, Nat.le_refl _, by omega, htype, rfl⟩
          by_cases hzero : avdata - (ntohs (buf (ptr + 4)) (buf (ptr + 5)) + headSize) = 0
          · rw [if_pos hzero] at h
            simp only [List.mem_singleton, Event.input.injEq] at h
            rw [h]
            exact hhere
          · rw [if_neg hzero] at h
            simp only [List.mem_cons, Event.input.injEq] at h
            rcases h with rfl | h
            · exact hhere
            · obtain ⟨at_, pklen, hblock, hge, hle, hat, hpklen⟩ := ih _ (by omega) h
              exact ⟨at_, pklen, hblock, by omega, by omega, hat, hpklen⟩
      · rw [if_pos htype] at h
        simp at h

/-- For every packet that `parse_indata` accepts, dispatch reads only the packet, gives
each handler the payload of its block, and ends, if and only if every TRANSPORT packet
of the nest carries at least a header and, in a build with `IRC6_DEBUG`, every command
has a handler. -/
theorem dispatch_staysInside_iff (debug : Bool) (c : InBuf) (avdata : Nat) (key : Key)
    (block : List UInt8) (h : .input block ∈ (parseIndata c avdata).1) :
    StaysInside debug key block ↔
      TransportsFilled key block ∧ (debug = true → CommandsKnown key block) := by
  have hmem : Event.input block ∈ (parseLoop c.buf 0 (avdata + c.oldLen)).1 := by
    unfold parseIndata at h
    split at h <;> rename_i hloop <;> rw [hloop] <;> exact h
  obtain ⟨at_, pklen, rfl, -, -, -, hpklen⟩ := parseLoop_input hmem
  have hlt := ntohs_lt (c.buf (at_ + 4)) (c.buf (at_ + 5))
  apply staysInside_iff
  · rw [Memory.length_slice]
    omega
  · rw [Memory.length_slice]
    unfold headSize at hpklen
    omega

/-- A PING in a TRANSPORT packet is dispatched inside it. -/
theorem dispatch_staysInside_iff_ping :
    StaysInside true (fun _ => 0)
      [0x20, 0x18, 0x00, 0x01, 0x00, 0x06, 0x20, 0x11, 0x00, 0x02, 0x00, 0x00] :=
  (dispatch_staysInside_iff true
    ⟨fun i => [0x20, 0x18, 0x00, 0x01, 0x00, 0x06, 0x20, 0x11, 0x00, 0x02, 0x00, 0x00].getD i 0, 0⟩
    12 (fun _ => 0) _
    (by simp [parseIndata, parseLoop, ntohs, headSize, serverType, Memory.slice_succ])).mpr
    ⟨(transportsFilled_encoded rfl).mpr ⟨by decide, transportsFilled_other (by decide)⟩,
      fun _ => (commandsKnown_encoded rfl).mpr
        ((commandsKnown_other rfl (show (0x11 : UInt8) ≠ cmdEncoded by decide)).mpr rfl)⟩

/-- A packet of six bytes, with the given command. -/
def emptyPacket (cmd : UInt8) : InBuf where
  buf := fun i => [0x20, cmd, 0x00, 0x01, 0x00, 0x00].getD i 0
  oldLen := 0

theorem emptyPacket_accepted (cmd : UInt8) :
    .input [0x20, cmd, 0x00, 0x01, 0x00, 0x00] ∈ (parseIndata (emptyPacket cmd) 6).1 := by
  simp [parseIndata, parseLoop, emptyPacket, ntohs, headSize, serverType, Memory.slice_succ]

/-- An empty TRANSPORT packet is accepted, and its dispatch leaves it, in any build.  With
`IRC6_DEBUG` so does that of a packet with a command that has no handler. -/
theorem dispatch_leaves_emptyTransport :
    (∀ debug, ¬ ∀ (c : InBuf) (avdata : Nat) (key : Key) (block : List UInt8),
      .input block ∈ (parseIndata c avdata).1 → StaysInside debug key block) ∧
    ¬ StaysInside true (fun _ => 0) [0x20, 0x08, 0x00, 0x01, 0x00, 0x00] := by
  constructor
  · intro debug hall
    have hin := hall (emptyPacket 0x18) 6 (fun _ => 0) _ (emptyPacket_accepted 0x18)
    rw [staysInside_encoded (by decide) (by decide) rfl] at hin
    exact not_staysInside_short (by decide) hin
  · intro hin
    have hknown := (staysInside_other (by decide) (by decide) rfl (by decide)).mp hin rfl
    exact absurd hknown (by decide)

end C6
end IrC6
