import Mathlib.Data.List.Basic
import Mathlib.Data.List.TakeWhile
import IrC6.Base.Framing
import IrC6.Base.Memory
import IrC6.Connection

/-!
# Reading from the IRC client

`irc_read` looks for a newline or a NUL behind the bytes it has already scanned,
hands the line to `irc_process_input` without its terminator and without one
trailing carriage return, and moves the unterminated tail to the front of the
buffer.  `irc_process_input` writes a NUL behind the line before anything else,
so the buffer changes while it is scanned.
-/

namespace IrC6
namespace Irc

open Memory

/-- What a call of `irc_read` does to the rest of the program, in order. -/
inductive Event where
  /-- `irc_process_input` with the bytes of a line. -/
  | line (cmd : List UInt8)
  /-- `EMIT "gui fatal"` for a failed `read`. -/
  | fatal
  /-- `EMIT "gui quit"` for a timeout. -/
  | quit
  /-- `irC6_close_connection`. -/
  | close
deriving DecidableEq, Repr

/-- The `case` labels that end a line. -/
def isTerm (b : UInt8) : Bool := b == 0x0a || b == 0x00

def cr : UInt8 := 0x0d

/-- The size given to `irc_process_input` for the `sz` bytes at `offs`. -/
def lineSize (buf : Nat → UInt8) (offs sz : Nat) : Nat :=
  if 0 < sz ∧ buf (sz + offs - 1) = cr then sz - 1 else sz

/-- The scanning loop of `irc_read`: the lines found, the buffer left behind, and
the final `offs` and `res`. -/
def lineLoop (buf : Nat → UInt8) (offs sz res : Nat) :
    List (List UInt8) × (Nat → UInt8) × Nat × Nat :=
  if _h : sz < res then
    if isTerm (buf (sz + offs)) then
      let size := lineSize buf offs sz
      -- `irc_process_input` ends the line in place: `cmd[size] = '\0'`.
      let r := lineLoop (store buf (offs + size) [0]) (offs + sz + 1) 0 (res - (sz + 1))
      (slice buf offs size :: r.1, r.2)
    else lineLoop buf offs (sz + 1) res
  else ([], buf, offs, res)
termination_by res - sz
decreasing_by all_goals omega

def ircRead (c : InBuf) : Wake → List Event × InBuf
  | .timeout => ([.quit, .close], c)
  | .eagain => ([], c)
  | .error => ([.fatal, .close], c)
  | .eof => ([.close], c)
  | .data bytes =>
      let r := lineLoop (c.received bytes).buf 0 c.oldLen (bytes.length + c.oldLen)
      (r.1.map .line, { c with buf := r.2.1 }.keep r.2.2.1 r.2.2.2)

/-- `irc_read` once for each read of a list, on a connection that stays open. -/
def ircReads (c : InBuf) : List (List UInt8) → List Event × InBuf
  | [] => ([], c)
  | bytes :: reads =>
      let r := ircRead c (.data bytes)
      let s := ircReads r.2 reads
      (r.1 ++ s.1, s.2)

theorem ircReads_eq_receive (c : InBuf) (reads : List (List UInt8)) :
    ircReads c reads = Framing.receive (fun c bytes => ircRead c (.data bytes)) c reads := by
  induction reads generalizing c with
  | nil => rfl
  | cons bytes reads ih => simp only [ircReads, Framing.receive, ih]

/-! ## Lines as frames -/

/-- A line without one trailing carriage return. -/
def stripCr (seg : List UInt8) : List UInt8 :=
  if seg.getLast? = some cr then seg.dropLast else seg

def takeLine (xs : List UInt8) : Option (List UInt8 × List UInt8) :=
  match xs.dropWhile (fun b => !isTerm b) with
  | [] => none
  | _ :: rest => some (stripCr (xs.takeWhile (fun b => !isTerm b)), rest)

theorem takeLine_none {xs : List UInt8} (h : ∀ b ∈ xs, isTerm b = false) : takeLine xs = none := by
  have hdrop : xs.dropWhile (fun b => !isTerm b) = [] :=
    List.dropWhile_eq_nil_iff.mpr (fun b hb => by simp [h b hb])
  rw [takeLine, hdrop]

theorem takeLine_some {seg : List UInt8} {t : UInt8} (hseg : ∀ b ∈ seg, isTerm b = false)
    (ht : isTerm t = true) (rest : List UInt8) :
    takeLine (seg ++ t :: rest) = some (stripCr seg, rest) := by
  have hall : ∀ b ∈ seg, (!isTerm b) = true := fun b hb => by simp [hseg b hb]
  have hdrop : (seg ++ t :: rest).dropWhile (fun b => !isTerm b) = t :: rest := by
    rw [List.dropWhile_append_of_pos hall, List.dropWhile_cons_of_neg (by simp [ht])]
  have htake : (seg ++ t :: rest).takeWhile (fun b => !isTerm b) = seg := by
    rw [List.takeWhile_append_of_pos hall, List.takeWhile_cons_of_neg (by simp [ht]),
      List.append_nil]
  rw [takeLine, hdrop, htake]

/-- A stream either has no terminator or is a line and what follows it. -/
theorem line_cases (xs : List UInt8) :
    (∀ b ∈ xs, isTerm b = false) ∨
      ∃ seg t rest, xs = seg ++ t :: rest ∧ (∀ b ∈ seg, isTerm b = false) ∧ isTerm t = true := by
  induction xs with
  | nil => exact Or.inl (by simp)
  | cons b xs ih =>
      by_cases hb : isTerm b = true
      · exact Or.inr ⟨[], b, xs, rfl, by simp, hb⟩
      · have hb' : isTerm b = false := by simpa using hb
        rcases ih with h | ⟨seg, t, rest, rfl, hseg, ht⟩
        · exact Or.inl (by simpa [hb'] using h)
        · exact Or.inr ⟨b :: seg, t, rest, rfl, by simpa [hb'] using hseg, ht⟩

theorem takeLine_eq_none {xs : List UInt8} (h : takeLine xs = none) :
    ∀ b ∈ xs, isTerm b = false := by
  rcases line_cases xs with hnone | ⟨seg, t, rest, rfl, hseg, ht⟩
  · exact hnone
  · rw [takeLine_some hseg ht rest] at h
    cases h

theorem takeLine_eq_some {xs f rest : List UInt8} (h : takeLine xs = some (f, rest)) :
    ∃ seg t, xs = seg ++ t :: rest ∧ (∀ b ∈ seg, isTerm b = false) ∧ isTerm t = true ∧
      f = stripCr seg := by
  rcases line_cases xs with hnone | ⟨seg, t, rest', rfl, hseg, ht⟩
  · rw [takeLine_none hnone] at h
    cases h
  · rw [takeLine_some hseg ht _, Option.some.injEq, Prod.mk.injEq] at h
    obtain ⟨rfl, rfl⟩ := h
    exact ⟨seg, t, rfl, hseg, ht, rfl⟩

/-- The lines of a client stream. -/
def lines : Framing UInt8 (List UInt8) where
  take := takeLine
  shorter := by
    intro xs f rest h
    obtain ⟨seg, t, rfl, -, -, -⟩ := takeLine_eq_some h
    simp only [List.length_append, List.length_cons]
    omega
  stable := by
    intro xs f rest ys h
    obtain ⟨seg, t, rfl, hseg, ht, rfl⟩ := takeLine_eq_some h
    rw [List.append_assoc, List.cons_append, takeLine_some hseg ht _]

/-- The frames are the terminated segments of the stream, and the rest is its
last segment. -/
theorem run_lines_eq_split (xs : List UInt8) :
    (lines.run xs).1 = ((xs.splitOnP isTerm).dropLast).map stripCr ∧
      (lines.run xs).2 = (xs.splitOnP isTerm).getLast (List.splitOnP_ne_nil _ _) := by
  induction xs using lines.run_induction with
  | none xs h =>
      rw [lines.run_of_none h]
      simp [List.splitOnP_eq_singleton (takeLine_eq_none h)]
  | some xs f rest h ih =>
      rw [lines.run_of_some h]
      obtain ⟨seg, t, rfl, hseg, ht, rfl⟩ := takeLine_eq_some h
      have hsplit : (seg ++ t :: rest).splitOnP isTerm = seg :: rest.splitOnP isTerm :=
        List.splitOnP_append_cons_of_forall_mem hseg t ht rest
      have hne := List.splitOnP_ne_nil isTerm rest
      constructor
      · simp only [hsplit, List.dropLast_cons_of_ne_nil hne, List.map_cons, ih.1]
      · simp only [hsplit, List.getLast_cons hne, ih.2]

theorem run_lines_rest (xs : List UInt8) :
    (lines.run xs).2 <:+ xs ∧ ∀ b ∈ (lines.run xs).2, isTerm b = false := by
  induction xs using lines.run_induction with
  | none xs h =>
      rw [lines.run_of_none h]
      exact ⟨List.suffix_refl _, takeLine_eq_none h⟩
  | some xs f rest h ih =>
      rw [lines.run_of_some h]
      obtain ⟨seg, t, rfl, -, -, -⟩ := takeLine_eq_some h
      refine ⟨ih.1.trans ?_, ih.2⟩
      exact (List.suffix_cons t rest).trans (List.suffix_append seg (t :: rest))

/-! ## The loop follows the framing -/

theorem slice_lineSize (buf : Nat → UInt8) (offs sz : Nat) :
    slice buf offs (lineSize buf offs sz) = stripCr (slice buf offs sz) := by
  unfold lineSize stripCr
  cases sz with
  | zero => simp
  | succ sz =>
      have hlast : slice buf offs (sz + 1) = slice buf offs sz ++ [buf (offs + sz)] := by
        rw [slice_add]
        rfl
      have hidx : sz + 1 + offs - 1 = offs + sz := by omega
      rw [hlast, hidx, List.getLast?_concat, List.dropLast_concat]
      by_cases h : buf (offs + sz) = cr
      · rw [if_pos ⟨Nat.succ_pos _, h⟩, if_pos (by rw [h]), Nat.add_sub_cancel]
      · rw [if_neg (fun hc => h hc.2), if_neg (fun hc => h (Option.some.inj hc)), hlast]

theorem lineSize_le (buf : Nat → UInt8) (offs sz : Nat) : lineSize buf offs sz ≤ sz := by
  unfold lineSize
  split <;> omega

/-- From any point with `sz` bytes scanned and free of terminators, the loop finds
the lines of the bytes from `offs` on and stops at their tail. -/
theorem lineLoop_eq_run (buf : Nat → UInt8) (offs sz res : Nat) (hsz : sz ≤ res)
    (hscan : ∀ b ∈ slice buf offs sz, isTerm b = false) :
    (lineLoop buf offs sz res).1 = (lines.run (slice buf offs res)).1 ∧
      slice (lineLoop buf offs sz res).2.1 (lineLoop buf offs sz res).2.2.1
          (lineLoop buf offs sz res).2.2.2 = (lines.run (slice buf offs res)).2 := by
  induction hn : res - sz using Nat.strong_induction_on generalizing buf offs sz res with
  | _ n ih =>
      rw [lineLoop]
      by_cases hlt : sz < res
      · rw [dif_pos hlt]
        have hat : slice buf offs (sz + 1) = slice buf offs sz ++ [buf (sz + offs)] := by
          rw [slice_add, Nat.add_comm sz offs]
          rfl
        by_cases hterm : isTerm (buf (sz + offs)) = true
        · rw [if_pos hterm]
          have hsplit : slice buf offs res = slice buf offs sz ++ buf (sz + offs) ::
              slice buf (offs + sz + 1) (res - (sz + 1)) := by
            rw [slice_split buf offs (show sz + 1 ≤ res by omega), hat, List.append_assoc]
            rfl
          -- The NUL lands inside the line just taken, in front of what is scanned next.
          have hframe : slice (store buf (offs + lineSize buf offs sz) [0]) (offs + sz + 1)
              (res - (sz + 1)) = slice buf (offs + sz + 1) (res - (sz + 1)) := by
            apply slice_store_above
            have hsize := lineSize_le buf offs sz
            simp only [List.length_singleton]
            omega
          obtain ⟨hlines, hrest⟩ := ih (res - (sz + 1) - 0) (by omega)
            (store buf (offs + lineSize buf offs sz) [0]) (offs + sz + 1) 0 (res - (sz + 1))
            (Nat.zero_le _) (by simp) rfl
          rw [hframe] at hlines hrest
          have hrun := lines.run_of_some (takeLine_some hscan hterm
            (slice buf (offs + sz + 1) (res - (sz + 1))))
          rw [← hsplit] at hrun
          dsimp only
          rw [hrun]
          exact ⟨by rw [hlines, slice_lineSize], hrest⟩
        · rw [if_neg hterm]
          have hscan' : ∀ b ∈ slice buf offs (sz + 1), isTerm b = false := by
            intro b hb
            rw [hat, List.mem_append, List.mem_singleton] at hb
            rcases hb with hb | rfl
            · exact hscan b hb
            · simpa using hterm
          exact ih (res - (sz + 1)) (by omega) buf offs (sz + 1) res hlt hscan' rfl
      · rw [dif_neg hlt]
        have heq : sz = res := by omega
        subst heq
        rw [lines.run_of_none (takeLine_none hscan)]
        exact ⟨rfl, rfl⟩

/-- One read delivers the lines that the kept bytes and the new ones complete,
and keeps the unterminated tail. -/
theorem ircRead_eq_run (c : InBuf) (bytes : List UInt8)
    (hscan : ∀ b ∈ c.pending, isTerm b = false)
    (hrest : (lines.run (c.pending ++ bytes)).2.length < bufSize) :
    (ircRead c (.data bytes)).1 = (lines.run (c.pending ++ bytes)).1.map Event.line ∧
      (ircRead c (.data bytes)).2.pending = (lines.run (c.pending ++ bytes)).2 := by
  have hkept : slice (c.received bytes).buf 0 c.oldLen = c.pending :=
    slice_store_below c.buf bytes (by omega)
  obtain ⟨hlines, htail⟩ := lineLoop_eq_run (c.received bytes).buf 0 c.oldLen
    (bytes.length + c.oldLen) (by omega) (by rw [hkept]; exact hscan)
  rw [c.slice_received bytes] at hlines htail
  have hlen := congrArg List.length htail
  rw [length_slice] at hlen
  have hpend := InBuf.pending_keep
    { c with buf := (lineLoop (c.received bytes).buf 0 c.oldLen (bytes.length + c.oldLen)).2.1 }
    (lineLoop (c.received bytes).buf 0 c.oldLen (bytes.length + c.oldLen)).2.2.1
    (hlen ▸ hrest)
  simp only [ircRead, hlines]
  exact ⟨trivial, hpend.trans htail⟩

/-! ## Any cut of a client stream -/

/-- No terminator-free run of the stream fills the buffer. -/
def RunsFit (stream : List UInt8) : Prop :=
  ∀ seg, seg <:+: stream → (∀ b ∈ seg, isTerm b = false) → seg.length ≤ 65535

/-- Over any reads, the lines and the kept bytes are those of the framing. -/
theorem ircReads_eq_run {c : InBuf} (hc : c.oldLen = 0) (reads : List (List UInt8))
    (hfit : RunsFit reads.flatten) :
    (ircReads c reads).1 = (lines.run reads.flatten).1.map Event.line ∧
      (ircReads c reads).2.pending = (lines.run reads.flatten).2 := by
  rw [ircReads_eq_receive]
  refine lines.receive_eq_run _ (InBuf.pending_eq_nil hc) (fun pre bytes hpre q hq => ?_)
  obtain ⟨post, rfl⟩ := hpre
  have hrest : (lines.run (q.pending ++ bytes)).2 = (lines.run (pre.flatten ++ bytes)).2 := by
    rw [hq, lines.run_append pre.flatten]
  have hpart : pre.flatten ++ bytes <+: (pre ++ [bytes] ++ post).flatten :=
    ⟨post.flatten, by simp⟩
  obtain ⟨hsuffix, hfree⟩ := run_lines_rest (pre.flatten ++ bytes)
  have hsmall := hfit _ (hsuffix.isInfix.trans hpart.isInfix) hfree
  refine ircRead_eq_run q bytes ?_ (by rw [hrest]; exact Nat.lt_succ_of_le hsmall)
  rw [hq]
  exact (run_lines_rest pre.flatten).2

/-- The calls of `irc_process_input` do not depend on how the client's bytes are
cut into reads.  They are the terminated segments of the stream in order, each
without one trailing carriage return, and the unterminated tail is kept.  Neither
the size of a read nor its being non-empty is used. -/
theorem ircRead_lines {c : InBuf} (hc : c.oldLen = 0) (reads : List (List UInt8))
    (hfit : RunsFit reads.flatten) :
    (ircReads c reads).1 =
        (((reads.flatten.splitOnP isTerm).dropLast).map stripCr).map Event.line ∧
      (ircReads c reads).2.pending =
        (reads.flatten.splitOnP isTerm).getLast (List.splitOnP_ne_nil _ _) ∧
      (ircReads c reads).2.oldLen =
        ((reads.flatten.splitOnP isTerm).getLast (List.splitOnP_ne_nil _ _)).length := by
  obtain ⟨hev, hpend⟩ := ircReads_eq_run hc reads hfit
  obtain ⟨hsegs, htail⟩ := run_lines_eq_split reads.flatten
  rw [← InBuf.length_pending, hev, hpend, hsegs, htail]
  exact ⟨rfl, rfl, rfl⟩

/-- A carriage return and its newline in different reads end one line. -/
theorem ircRead_lines_crlf :
    (ircReads ⟨fun _ => 0x0a, 0⟩ [[0x61, 0x0d], [0x0a, 0x62]]).1 = [Event.line [0x61]] :=
  (ircRead_lines rfl [[0x61, 0x0d], [0x0a, 0x62]]
    (fun _ hseg _ => hseg.length_le.trans (by decide))).1.trans
    (by simp [isTerm, stripCr, cr, List.splitOnP_cons_eq_if_modifyHead])

end Irc
end IrC6
