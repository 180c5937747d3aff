import Mathlib.Algebra.Group.Nat.Defs
import IrC6.Base.Memory

/-!
# Connections

A connection has a status, and two sides that read.  `c6_t` and `irc_t` hold the same
pair: a 64 KiB `buf` and a 16-bit `old_len` that counts the bytes kept from earlier
reads.  Bytes behind the kept ones are stale, and those behind `buf` belong to other
fields, so `buf` is a memory without an end and a result about it holds for any
content there.
-/

namespace IrC6

/-- The bits of `c->status` and of the status of a nick, `STATUS_ONLINE` and so on. -/
def statusOnline : UInt8 := 0x01
def statusBusy : UInt8 := 0x02
def statusNetfriends : UInt8 := 0x04
def statusAvailable : UInt8 := 0x08
def statusVisibleIp : UInt8 := 0x10

/-- `STATUS_MASK`. -/
def statusMask : UInt8 := statusBusy ||| statusNetfriends ||| statusAvailable

/-- `sizeof(buf)`. -/
def bufSize : Nat := 65536

/-- `buf` with whatever follows it, and `old_len`. -/
structure InBuf where
  buf : Nat → UInt8
  oldLen : Nat

/-- The bytes kept for the next read, `buf[0..old_len)`. -/
def InBuf.pending (c : InBuf) : List UInt8 := Memory.slice c.buf 0 c.oldLen

/-- The bytes of one `read` stored behind the kept ones. -/
def InBuf.received (c : InBuf) (bytes : List UInt8) : InBuf :=
  { c with buf := Memory.store c.buf c.oldLen bytes }

/-- The end of both read functions: `left` bytes from `offs` on are moved to the
front.  `old_len` is 16 bits wide. -/
def InBuf.keep (c : InBuf) (offs left : Nat) : InBuf :=
  if 0 < left then { buf := Memory.move c.buf 0 offs left, oldLen := left % 2 ^ 16 }
  else { c with oldLen := 0 }

/-- What wakes a read callback up, with the outcome of its call of `read`. -/
inductive Wake where
  | timeout
  | eagain
  | error
  | eof
  | data (bytes : List UInt8)

namespace InBuf

theorem length_pending (c : InBuf) : c.pending.length = c.oldLen :=
  Memory.length_slice _ _ _

theorem pending_eq_nil {c : InBuf} (h : c.oldLen = 0) : c.pending = [] := by
  rw [pending, h, Memory.slice_zero]

theorem slice_received (c : InBuf) (bytes : List UInt8) :
    Memory.slice (c.received bytes).buf 0 (bytes.length + c.oldLen) = c.pending ++ bytes := by
  rw [Nat.add_comm]
  exact Memory.slice_store_append c.buf c.oldLen bytes

/-- What `old_len` says of the bytes kept. -/
theorem oldLen_keep (c : InBuf) (offs left : Nat) : (c.keep offs left).oldLen = left % 2 ^ 16 := by
  unfold keep
  by_cases hpos : 0 < left
  · rw [if_pos hpos]
  · rw [if_neg hpos]
    have hzero : left = 0 := by omega
    subst hzero
    rfl

/-- Less than a full buffer is kept without loss. -/
theorem pending_keep (c : InBuf) (offs : Nat) {left : Nat} (h : left < bufSize) :
    (c.keep offs left).pending = Memory.slice c.buf offs left := by
  have hfit : left % 2 ^ 16 = left := Nat.mod_eq_of_lt h
  unfold keep pending
  by_cases hpos : 0 < left
  · rw [if_pos hpos]
    simp only [hfit]
    exact Memory.slice_move c.buf 0 offs left
  · rw [if_neg hpos]
    have hzero : left = 0 := by omega
    subst hzero
    rfl

end InBuf
end IrC6
