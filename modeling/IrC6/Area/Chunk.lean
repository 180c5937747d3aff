import Mathlib.Algebra.Group.Nat.Defs
import IrC6.Base.Memory
import IrC6.Base.Runs

/-!
# The chunks of an area

A chunk is a block of the C library with a header, which records a size.  Everything that
resizes a chunk goes by that size.  `a_malloc` records the bytes that were asked for, and
`a_calloc` the size of one element, so a chunk may be longer than its header says.

The library is taken to find every block it is asked for, and `realloc` to keep the bytes
that the old and the new block have in common.  The other bytes of a block are arbitrary,
and come as an argument.
-/

namespace IrC6
namespace Area

/-- A write outside a block, a pointer to a block that is not there, an area that does not
have the chunk, and a recursion that has not come to its end. -/
inductive Fault where
  | outside
  | dangling
  | foreign
  | depth
deriving DecidableEq, Repr

/-- `struct A_chunk`, with the bytes behind it and how many of them the block has. -/
structure Chunk where
  size : UInt64
  len : Nat
  data : Nat → UInt8

/-- `sizeof(struct A_chunk)`. -/
def headSize : UInt64 := 24

/-- The bytes behind the header in a block of so many bytes. -/
def room (bytes : UInt64) : Except Fault Nat :=
  if bytes < headSize then .error .outside else .ok (bytes - headSize).toNat

section Functions

variable (junk : Nat → UInt8)

def aMalloc (size : UInt64) : Except Fault Chunk :=
  (room (size + headSize)).map fun len => { size := size, len := len, data := junk }

def aCalloc (nmemb size : UInt64) : Except Fault Chunk :=
  (room (size * nmemb + headSize)).map fun len => { size := size, len := len, data := fun _ => 0 }

def realRealloc (size : UInt64) (old : Chunk) : Except Fault Chunk :=
  (room (size + headSize)).map fun len =>
    { size := size, len := len, data := fun i => if i < old.len then old.data i else junk i }

/-- `memset((char *)ret + osize, 0, size - osize)`. -/
def clear (osize size : UInt64) (c : Chunk) : Except Fault Chunk :=
  if size.toNat ≤ c.len then
    .ok { c with data := fun i => if osize.toNat ≤ i ∧ i < size.toNat then 0 else c.data i }
  else .error .outside

/-- `a_realloc` of a chunk: what it has become, or nothing when it stays as it is. -/
def aRealloc (size : UInt64) (old : Chunk) : Except Fault (Option Chunk) :=
  if old.size ≠ size then (realRealloc junk size old).map some else .ok none

def aRealloc0 (size : UInt64) (old : Chunk) : Except Fault (Option Chunk) :=
  if old.size = size then .ok none
  else do
    let ret ← realRealloc junk size old
    if old.size < size then (clear old.size size ret).map some else .ok (some ret)

def aExpand (size : UInt64) (old : Chunk) : Except Fault (Option Chunk) :=
  if old.size < size then (realRealloc junk size old).map some else .ok none

def aExpand0 (size : UInt64) (old : Chunk) : Except Fault (Option Chunk) :=
  if old.size < size then do
    let ret ← realRealloc junk size old
    if old.size < size then (clear old.size size ret).map some else .ok (some ret)
  else .ok none

end Functions

/-- The functions that resize a chunk. -/
inductive Resize where
  | realloc
  | realloc0
  | expand
  | expand0
deriving DecidableEq, Repr

namespace Resize

def run (junk : Nat → UInt8) (size : UInt64) (old : Chunk) :
    Resize → Except Fault (Option Chunk)
  | realloc => aRealloc junk size old
  | realloc0 => aRealloc0 junk size old
  | expand => aExpand junk size old
  | expand0 => aExpand0 junk size old

/-- The bytes that a chunk of `n` is to hold behind the call. -/
def wanted (n m : Nat) : Resize → Nat
  | realloc | realloc0 => m
  | expand | expand0 => max n m

def Zeroing : Resize → Prop
  | realloc | expand => False
  | realloc0 | expand0 => True

end Resize

/-! ## Runs on one chunk -/

/-- A chunk, and how many bytes its owner has asked for. -/
structure Held where
  chunk : Chunk
  n : Nat

/-- The owner writes into its bytes, or resizes the chunk. -/
inductive Step where
  | write (offs : Nat) (bytes : List UInt8)
  | resize (kind : Resize) (m : UInt64) (junk : Nat → UInt8)

def Step.run (s : Held) : Step → Except Fault (Held × Unit)
  | write offs bytes =>
      if offs + bytes.length ≤ s.n then
        .ok ({ s with chunk := { s.chunk with data := Memory.store s.chunk.data offs bytes } }, ())
      else .error .outside
  | resize kind m junk =>
      (kind.run junk m s.chunk).map fun c =>
        ({ chunk := c.getD s.chunk, n := kind.wanted s.n m.toNat }, ())

/-- What a call leaves to the owner: room for the bytes that it wants, the bytes that it had
as far as it keeps them, and zeros behind them if it asks for zeros. -/
def Kept (kind : Resize) (s s' : Held) : Prop :=
  s'.n ≤ s'.chunk.len ∧
  (∀ i < min s.n s'.n, s'.chunk.data i = s.chunk.data i) ∧
  (kind.Zeroing → ∀ i, s.n ≤ i → i < s'.n → s'.chunk.data i = 0)

/-- The call is right whatever the new bytes of the block are. -/
def Right (s : Held) (kind : Resize) (m : UInt64) : Prop :=
  ∀ junk, ∃ c, kind.run junk m s.chunk = .ok c ∧
    Kept kind s { chunk := c.getD s.chunk, n := kind.wanted s.n m.toNat }

/-! ## When a call is right -/

/-- The header and the bytes behind it have a size. -/
def Fits (n : Nat) : Prop := n + 24 < 2 ^ 64

/-- The bytes of a chunk from one offset to another are zero. -/
def Blank (c : Chunk) (i j : Nat) : Prop := ∀ k, i ≤ k → k < j → c.data k = 0

/-- The calls that are right for a chunk of `n` bytes with another size in its header.  A
call up to the size of the header leaves the chunk as it is, and then may ask for no more
than it holds.  A call beyond it moves the chunk, and then may not ask for less than is to
stay.  The bytes that a zeroing call clears, those behind the size of the header, are to be
blank where the chunk has them. -/
def Meets (s : Held) (kind : Resize) (m : UInt64) : Prop :=
  let r := s.chunk.size.toNat
  match kind with
  | .realloc => (m.toNat ≠ r → Fits m.toNat) ∧ (m.toNat = r → r ≤ s.n)
  | .realloc0 =>
      (m.toNat ≠ r → Fits m.toNat) ∧ (m.toNat ≤ r → m.toNat ≤ s.n) ∧
        (r < m.toNat → r ≤ s.n ∧ Blank s.chunk r (min s.n m.toNat))
  | .expand => (m.toNat ≤ r → m.toNat ≤ s.n) ∧ (r < m.toNat → Fits m.toNat ∧ s.n ≤ m.toNat)
  | .expand0 =>
      (m.toNat ≤ r → m.toNat ≤ s.n) ∧
        (r < m.toNat → Fits m.toNat ∧ s.n ≤ m.toNat ∧ r ≤ s.n ∧ Blank s.chunk r s.n)

/-- A chunk has the bytes that its owner asked for, and its header says no more than that
unless it has no more than that. -/
structure Sound (s : Held) : Prop where
  holds : s.n ≤ s.chunk.len
  header : s.chunk.size.toNat ≤ s.n ∨ s.chunk.len = s.n

theorem room_of_fits {size : UInt64} (h : Fits size.toNat) :
    room (size + headSize) = .ok size.toNat := by
  have hsum : (size + headSize).toNat = size.toNat + 24 := by
    rw [UInt64.toNat_add]
    exact Nat.mod_eq_of_lt h
  have hle : headSize ≤ size + headSize := by
    rw [UInt64.le_iff_toNat_le, hsum]
    exact Nat.le_add_left _ _
  rw [room, if_neg (UInt64.not_lt.mpr hle), UInt64.toNat_sub_of_le _ _ hle, hsum]
  exact congrArg Except.ok (Nat.add_sub_cancel size.toNat 24)

theorem room_of_not_fits {size : UInt64} (h : ¬Fits size.toNat) :
    room (size + headSize) = .error .outside := by
  have hlt := size.toNat_lt
  have hsum : (size + headSize).toNat = (size.toNat + 24) % 2 ^ 64 := UInt64.toNat_add _ _
  have hhead : headSize.toNat = 24 := rfl
  unfold Fits at h
  have hwrap : size + headSize < headSize := by
    rw [UInt64.lt_iff_toNat_lt, hsum, hhead]
    omega
  rw [room, if_pos hwrap]

variable {s : Held} {m : UInt64} (junk : Nat → UInt8)

theorem realRealloc_of_fits {c : Chunk} (h : Fits m.toNat) :
    realRealloc junk m c = .ok
      { size := m, len := m.toNat, data := fun i => if i < c.len then c.data i else junk i } := by
  rw [realRealloc, room_of_fits h]
  rfl

theorem realRealloc_of_not_fits {c : Chunk} (h : ¬Fits m.toNat) :
    realRealloc junk m c = .error .outside := by
  rw [realRealloc, room_of_not_fits h]
  rfl

theorem right_same_iff {kind : Resize} (hrun : ∀ junk, kind.run junk m s.chunk = .ok none) :
    Right s kind m ↔ kind.wanted s.n m.toNat ≤ s.chunk.len ∧
      (kind.Zeroing → Blank s.chunk s.n (kind.wanted s.n m.toNat)) := by
  constructor
  · intro hr
    rcases hr (fun _ => 0) with ⟨c, hc, hkept⟩
    rw [hrun] at hc
    cases hc
    exact ⟨hkept.1, hkept.2.2⟩
  · rintro ⟨hlen, hblank⟩ junk
    exact ⟨none, hrun junk, hlen, fun _ _ => rfl, hblank⟩

/-- A call that moves the chunk.  A byte that is to be zero and is not cleared has to be
among the old ones. -/
theorem right_moved_iff {kind : Resize} (hs : Sound s)
    (hrun : ∀ junk, kind.run junk m s.chunk = (realRealloc junk m s.chunk).map some) :
    Right s kind m ↔ Fits m.toNat ∧ kind.wanted s.n m.toNat ≤ m.toNat ∧
      (kind.Zeroing → ∀ i, s.n ≤ i → i < kind.wanted s.n m.toNat →
        i < s.chunk.len ∧ s.chunk.data i = 0) := by
  have hmoved : ∀ junk, Fits m.toNat → kind.run junk m s.chunk = .ok (some
      { size := m, len := m.toNat,
        data := fun i => if i < s.chunk.len then s.chunk.data i else junk i }) := by
    intro junk hfits
    rw [hrun, realRealloc_of_fits junk hfits]
    rfl
  by_cases hfits : Fits m.toNat
  · constructor
    · intro hr
      rcases hr (fun _ => 1) with ⟨c, hc, hlen, -, hzero⟩
      rw [hmoved _ hfits] at hc
      cases hc
      refine ⟨hfits, hlen, fun hz i hi hlt => ?_⟩
      have hbyte : (if i < s.chunk.len then s.chunk.data i else 1) = 0 := hzero hz i hi hlt
      by_cases hin : i < s.chunk.len
      · rw [if_pos hin] at hbyte
        exact ⟨hin, hbyte⟩
      · rw [if_neg hin] at hbyte
        exact absurd hbyte (by decide)
    · rintro ⟨-, hlen, hzero⟩ junk
      refine ⟨_, hmoved junk hfits, hlen, fun i hi => ?_, ?_⟩
      · have hlen := hs.holds
        have hi' : i < s.n := Nat.lt_of_lt_of_le hi (Nat.min_le_left _ _)
        exact if_pos (by omega)
      · intro hz i hi hlt
        rcases hzero hz i hi hlt with ⟨hin, hbyte⟩
        exact (if_pos hin).trans hbyte
  · refine iff_of_false (fun hr => ?_) fun h => hfits h.1
    rcases hr (fun _ => 0) with ⟨c, hc, -⟩
    rw [hrun, realRealloc_of_not_fits _ hfits] at hc
    exact absurd hc (by simp [Except.map])

/-- A call that moves the chunk and clears it behind the size of the header. -/
theorem right_cleared_iff {kind : Resize} (hs : Sound s)
    (hrun : ∀ junk, kind.run junk m s.chunk =
      (realRealloc junk m s.chunk >>= fun ret => (clear s.chunk.size m ret).map some)) :
    Right s kind m ↔ Fits m.toNat ∧ kind.wanted s.n m.toNat ≤ m.toNat ∧
      Blank s.chunk s.chunk.size.toNat (min s.n (kind.wanted s.n m.toNat)) ∧
      (kind.Zeroing → ∀ i, s.n ≤ i → i < min s.chunk.size.toNat (kind.wanted s.n m.toNat) →
        i < s.chunk.len ∧ s.chunk.data i = 0) := by
  have hclear : ∀ junk, Fits m.toNat → kind.run junk m s.chunk = .ok (some
      { size := m, len := m.toNat,
        data := fun i => if s.chunk.size.toNat ≤ i ∧ i < m.toNat then 0
          else if i < s.chunk.len then s.chunk.data i else junk i }) := by
    intro junk hfits
    rw [hrun, realRealloc_of_fits junk hfits]
    exact congrArg (Except.map some) (if_pos (Nat.le_refl _))
  by_cases hfits : Fits m.toNat
  · constructor
    · intro hright
      rcases hright (fun _ => 1) with ⟨c, hc, hlen, hsame, hzero⟩
      rw [hclear _ hfits] at hc
      cases hc
      refine ⟨hfits, hlen, fun i hi hlt => ?_, fun hz i hi hlt => ?_⟩
      · have hbyte := hsame i hlt
        simp only [Option.getD_some] at hbyte hlen
        rw [if_pos ⟨hi, by omega⟩] at hbyte
        exact hbyte.symm
      · have hbyte := hzero hz i hi (by simp only; omega)
        simp only [Option.getD_some] at hbyte
        rw [if_neg (by omega)] at hbyte
        by_cases hin : i < s.chunk.len
        · rw [if_pos hin] at hbyte
          exact ⟨hin, hbyte⟩
        · rw [if_neg hin] at hbyte
          exact absurd hbyte (by decide)
    · rintro ⟨-, hlen, hblank, hzero⟩ junk
      refine ⟨_, hclear junk hfits, hlen, fun i hi => ?_, fun hz i hi hlt => ?_⟩
      · have hlen := hs.holds
        simp only [Option.getD_some] at hi ⊢
        by_cases hhead : s.chunk.size.toNat ≤ i ∧ i < m.toNat
        · rw [if_pos hhead, hblank i hhead.1 hi]
        · rw [if_neg hhead, if_pos (by omega)]
      · simp only [Option.getD_some] at hlt ⊢
        by_cases hhead : s.chunk.size.toNat ≤ i ∧ i < m.toNat
        · rw [if_pos hhead]
        · rcases hzero hz i hi (by omega) with ⟨hin, hbyte⟩
          rw [if_neg hhead, if_pos hin, hbyte]
  · refine iff_of_false (fun hright => ?_) fun h => hfits h.1
    rcases hright (fun _ => 0) with ⟨c, hc, -⟩
    rw [hrun, realRealloc_of_not_fits _ hfits] at hc
    exact absurd hc (by simp [bind, Except.bind])

theorem toNat_eq_size : m.toNat = s.chunk.size.toNat ↔ s.chunk.size = m := by
  rw [eq_comm, UInt64.toNat_inj]

theorem size_lt_iff : s.chunk.size < m ↔ s.chunk.size.toNat < m.toNat := UInt64.lt_iff_toNat_lt

theorem right_realloc_iff (hs : Sound s) : Right s .realloc m ↔ Meets s .realloc m := by
  have hlen := hs.holds
  have hhead := hs.header
  by_cases heq : m.toNat = s.chunk.size.toNat
  · rw [right_same_iff fun junk => by
      rw [Resize.run, aRealloc, if_neg (not_not.mpr (toNat_eq_size.mp heq))]]
    simp only [Meets, Resize.wanted, Resize.Zeroing]
    constructor
    · rintro ⟨hm, -⟩
      exact ⟨fun hne => absurd heq hne, fun _ => by omega⟩
    · rintro ⟨-, hr⟩
      have hrn := hr heq
      exact ⟨by omega, False.elim⟩
  · rw [right_moved_iff hs fun junk => by
      rw [Resize.run, aRealloc, if_pos (fun h => heq (toNat_eq_size.mpr h))]]
    simp only [Meets, Resize.wanted, Resize.Zeroing]
    constructor
    · rintro ⟨hfits, -, -⟩
      exact ⟨fun _ => hfits, fun h => absurd h heq⟩
    · rintro ⟨hfits, -⟩
      exact ⟨hfits heq, Nat.le_refl _, False.elim⟩

theorem right_realloc0_iff (hs : Sound s) : Right s .realloc0 m ↔ Meets s .realloc0 m := by
  have hlen := hs.holds
  have hhead := hs.header
  by_cases heq : m.toNat = s.chunk.size.toNat
  · rw [right_same_iff fun junk => by
      rw [Resize.run, aRealloc0, if_pos (toNat_eq_size.mp heq)]]
    simp only [Meets, Resize.wanted, Resize.Zeroing]
    constructor
    · rintro ⟨hm, -⟩
      exact ⟨fun hne => absurd heq hne, fun _ => by omega, fun hlt => by omega⟩
    · rintro ⟨-, hr, -⟩
      have hmn := hr (by omega)
      exact ⟨by omega, fun _ i hi hlt => by omega⟩
  · have hne : ¬s.chunk.size = m := fun h => heq (toNat_eq_size.mpr h)
    by_cases hlt : s.chunk.size.toNat < m.toNat
    · rw [right_cleared_iff hs fun junk => by
        rw [Resize.run, aRealloc0, if_neg hne]
        simp only [if_pos (size_lt_iff.mpr hlt)]]
      simp only [Meets, Resize.wanted, Resize.Zeroing]
      constructor
      · rintro ⟨hfits, -, hblank, hzero⟩
        refine ⟨fun _ => hfits, fun hle => by omega, fun _ => ⟨?_, hblank⟩⟩
        -- The first byte behind the old ones is neither old nor cleared.
        by_contra hrn
        have hbyte := (hzero trivial s.n (Nat.le_refl _) (by omega)).1
        omega
      · rintro ⟨hfits, -, hr⟩
        rcases hr hlt with ⟨hrn, hblank⟩
        exact ⟨hfits heq, Nat.le_refl _, hblank, fun _ i hi hi' => by omega⟩
    · rw [right_moved_iff hs fun junk => by
        rw [Resize.run, aRealloc0, if_neg hne]
        simp only [if_neg (fun h => hlt (size_lt_iff.mp h))]
        cases realRealloc junk m s.chunk <;> rfl]
      simp only [Meets, Resize.wanted, Resize.Zeroing]
      constructor
      · rintro ⟨hfits, -, hzero⟩
        refine ⟨fun _ => hfits, fun _ => ?_, fun h => absurd h hlt⟩
        by_contra hmn
        have hbyte := (hzero trivial s.n (Nat.le_refl _) (by omega)).1
        omega
      · rintro ⟨hfits, hmn, -⟩
        have hmn := hmn (by omega)
        exact ⟨hfits heq, Nat.le_refl _, fun _ i hi hi' => by omega⟩

theorem right_expand_iff (hs : Sound s) : Right s .expand m ↔ Meets s .expand m := by
  have hlen := hs.holds
  have hhead := hs.header
  by_cases hlt : s.chunk.size.toNat < m.toNat
  · rw [right_moved_iff hs fun junk => by
      rw [Resize.run, aExpand, if_pos (size_lt_iff.mpr hlt)]]
    simp only [Meets, Resize.wanted, Resize.Zeroing]
    constructor
    · rintro ⟨hfits, hmax, -⟩
      exact ⟨fun hle => by omega, fun _ => ⟨hfits, by omega⟩⟩
    · rintro ⟨-, hm⟩
      rcases hm hlt with ⟨hfits, hnm⟩
      exact ⟨hfits, by omega, False.elim⟩
  · rw [right_same_iff fun junk => by
      rw [Resize.run, aExpand, if_neg (fun h => hlt (size_lt_iff.mp h))]]
    simp only [Meets, Resize.wanted, Resize.Zeroing]
    constructor
    · rintro ⟨hmax, -⟩
      exact ⟨fun _ => by omega, fun h => absurd h hlt⟩
    · rintro ⟨hm, -⟩
      have hmn := hm (by omega)
      exact ⟨by omega, False.elim⟩

theorem right_expand0_iff (hs : Sound s) : Right s .expand0 m ↔ Meets s .expand0 m := by
  have hlen := hs.holds
  have hhead := hs.header
  by_cases hlt : s.chunk.size.toNat < m.toNat
  · rw [right_cleared_iff hs fun junk => by
      rw [Resize.run, aExpand0]
      simp only [if_pos (size_lt_iff.mpr hlt)]]
    simp only [Meets, Resize.wanted, Resize.Zeroing]
    constructor
    · rintro ⟨hfits, hmax, hblank, hzero⟩
      have hnm : s.n ≤ m.toNat := by omega
      rw [Nat.min_eq_left (Nat.le_max_left _ _)] at hblank
      refine ⟨fun hle => by omega, fun _ => ⟨hfits, hnm, ?_, hblank⟩⟩
      by_contra hrn
      have hbyte := (hzero trivial s.n (Nat.le_refl _) (by omega)).1
      omega
    · rintro ⟨-, hm⟩
      rcases hm hlt with ⟨hfits, hnm, hrn, hblank⟩
      rw [Nat.min_eq_left (Nat.le_max_left _ _)]
      exact ⟨hfits, by omega, hblank, fun _ i hi hi' => by omega⟩
  · rw [right_same_iff fun junk => by
      rw [Resize.run, aExpand0, if_neg (fun h => hlt (size_lt_iff.mp h))]]
    simp only [Meets, Resize.wanted, Resize.Zeroing]
    constructor
    · rintro ⟨hmax, -⟩
      exact ⟨fun _ => by omega, fun h => absurd h hlt⟩
    · rintro ⟨hm, -⟩
      have hmn := hm (by omega)
      exact ⟨by omega, fun _ i hi hi' => by omega⟩

theorem right_iff_meets (hs : Sound s) (kind : Resize) : Right s kind m ↔ Meets s kind m := by
  cases kind with
  | realloc => exact right_realloc_iff hs
  | realloc0 => exact right_realloc0_iff hs
  | expand => exact right_expand_iff hs
  | expand0 => exact right_expand0_iff hs

/-! ## Runs -/

theorem realRealloc_size {size : UInt64} {old c : Chunk}
    (h : realRealloc junk size old = .ok c) : c.size = size := by
  rw [realRealloc] at h
  cases hroom : room (size + headSize) with
  | error e =>
      rw [hroom] at h
      exact absurd h (by simp [Except.map])
  | ok len =>
      rw [hroom] at h
      cases h
      rfl

theorem clear_size {osize size : UInt64} {c c' : Chunk} (h : clear osize size c = .ok c') :
    c'.size = c.size := by
  rw [clear] at h
  split at h
  · cases h
    rfl
  · exact absurd h (by simp)

/-- A call that goes through and leaves a chunk of the new size. -/
theorem size_of_map {r : Except Fault Chunk} {c : Option Chunk}
    (hr : ∀ c', r = .ok c' → c'.size = m) (h : r.map some = .ok c) :
    ∃ c', c = some c' ∧ c'.size = m := by
  cases r with
  | error e => exact absurd h (by simp [Except.map])
  | ok c' =>
      cases h
      exact ⟨c', rfl, hr c' rfl⟩

theorem size_of_cleared {old : Chunk} {c : Option Chunk}
    (h : (realRealloc junk m old >>= fun ret => if old.size < m then
      (clear old.size m ret).map some else .ok (some ret)) = .ok c) :
    ∃ c', c = some c' ∧ c'.size = m := by
  cases hrun : realRealloc junk m old with
  | error e =>
      rw [hrun] at h
      exact absurd h (by simp [bind, Except.bind])
  | ok ret =>
      rw [hrun] at h
      have hsize := realRealloc_size junk hrun
      have hret : (if old.size < m then (clear old.size m ret).map some else .ok (some ret)) =
        Except.ok c := h
      split at hret
      · exact size_of_map (fun c' hc => (clear_size hc).trans hsize) hret
      · cases hret
        exact ⟨ret, rfl, hsize⟩

/-- A call leaves the chunk as it is or records the new size. -/
theorem run_cases {kind : Resize} {old : Chunk} {c : Option Chunk}
    (h : kind.run junk m old = .ok c) :
    (c = none ∧ (old.size = m ∨ ((kind = .expand ∨ kind = .expand0) ∧ ¬old.size < m))) ∨
      ∃ c', c = some c' ∧ c'.size = m := by
  cases kind with
  | realloc =>
      rw [Resize.run, aRealloc] at h
      split at h
      · exact Or.inr (size_of_map (fun _ => realRealloc_size junk) h)
      · rename_i hsame
        cases h
        exact Or.inl ⟨rfl, Or.inl (not_not.mp hsame)⟩
  | realloc0 =>
      rw [Resize.run, aRealloc0] at h
      split at h
      · rename_i hsame
        cases h
        exact Or.inl ⟨rfl, Or.inl hsame⟩
      · exact Or.inr (size_of_cleared junk h)
  | expand =>
      rw [Resize.run, aExpand] at h
      split at h
      · exact Or.inr (size_of_map (fun _ => realRealloc_size junk) h)
      · rename_i hsame
        cases h
        exact Or.inl ⟨rfl, Or.inr ⟨Or.inl rfl, hsame⟩⟩
  | expand0 =>
      rw [Resize.run, aExpand0] at h
      split at h
      · rename_i hlt
        have hcleared : (realRealloc junk m old >>= fun ret => if old.size < m then
            (clear old.size m ret).map some else .ok (some ret)) = .ok c := by
          simpa only [if_pos hlt] using h
        exact Or.inr (size_of_cleared junk hcleared)
      · rename_i hsame
        cases h
        exact Or.inl ⟨rfl, Or.inr ⟨Or.inr rfl, hsame⟩⟩

/-- A call that keeps what it is to keep leaves a header that is sound. -/
theorem Sound.resize (hs : Sound s) {kind : Resize} (hm : Meets s kind m) {s' : Held}
    (hrun : Step.run s (.resize kind m junk) = .ok (s', ())) : Sound s' := by
  rcases (right_iff_meets hs kind).mpr hm junk with ⟨c, hc, hkept⟩
  rw [Step.run, hc] at hrun
  cases hrun
  refine ⟨hkept.1, ?_⟩
  have hhead := hs.header
  rcases run_cases junk hc with ⟨rfl, heq | ⟨hkind, hlt⟩⟩ | ⟨c', rfl, hsize⟩
  · have hsize := toNat_eq_size.mpr heq
    simp only [Option.getD_none]
    cases kind <;> simp only [Resize.wanted] <;> omega
  · have hle : m.toNat ≤ s.chunk.size.toNat := Nat.le_of_not_lt fun h => hlt (size_lt_iff.mpr h)
    have hmn : m.toNat ≤ s.n := by
      rcases hkind with rfl | rfl
      · exact hm.1 hle
      · exact hm.1 hle
    have hwanted : kind.wanted s.n m.toNat = s.n := by
      rcases hkind with rfl | rfl
      · exact Nat.max_eq_left hmn
      · exact Nat.max_eq_left hmn
    simp only [Option.getD_none]
    rw [hwanted]
    exact hhead
  · refine Or.inl ?_
    simp only [Option.getD_some, hsize]
    cases kind <;> simp only [Resize.wanted] <;> omega

/-- A chunk of `a_malloc` or `a_calloc` whose bytes have a size with those of the header. -/
inductive Fresh : Held → Prop where
  | malloc {junk : Nat → UInt8} {size : UInt64} {c : Chunk} : Fits size.toNat →
      aMalloc junk size = .ok c → Fresh { chunk := c, n := size.toNat }
  | calloc {nmemb size : UInt64} {c : Chunk} : Fits (nmemb.toNat * size.toNat) →
      aCalloc nmemb size = .ok c → Fresh { chunk := c, n := nmemb.toNat * size.toNat }

theorem Fresh.sound (h : Fresh s) : Sound s := by
  cases h with
  | malloc hfits hc =>
      rw [aMalloc, room_of_fits hfits] at hc
      cases hc
      exact ⟨Nat.le_refl _, Or.inr rfl⟩
  | @calloc nmemb size c hfits hc =>
      have hmul : (size * nmemb).toNat = nmemb.toNat * size.toNat := by
        rw [UInt64.toNat_mul, Nat.mul_comm]
        unfold Fits at hfits
        exact Nat.mod_eq_of_lt (by omega)
      have hroom : room (size * nmemb + headSize) = .ok (size * nmemb).toNat :=
        room_of_fits (by rwa [hmul])
      rw [aCalloc, hroom, hmul] at hc
      cases hc
      exact ⟨Nat.le_refl _, Or.inr rfl⟩

/-- The steps that the condition lets through. -/
def Allowed (s : Held) : Step → Prop
  | .write _ _ => True
  | .resize kind m _ => Meets s kind m

/-- From any chunk, through any calls that meet their condition and with any writes of the
owner between them, the chunk has the bytes that were asked for.  The next call is right if
it meets its condition, and only then. -/
theorem resize_right_iff {s₀ : Held} (hfresh : Fresh s₀) (h : Reaches Step.run Allowed s₀ s)
    (kind : Resize) (m : UInt64) : s.n ≤ s.chunk.len ∧ (Right s kind m ↔ Meets s kind m) := by
  have hs : Sound s := by
    refine Reaches.invariant hfresh.sound ?_ h
    rintro s s' (⟨offs, bytes⟩ | ⟨kind, m, junk⟩) r hs hallowed hrun
    · rw [Step.run] at hrun
      split at hrun
      · cases hrun
        exact ⟨hs.holds, hs.header⟩
      · exact absurd hrun (by simp)
    · exact hs.resize junk hallowed hrun
  exact ⟨hs.holds, right_iff_meets hs kind⟩

/-- A chunk of eight bytes is written to and made twice as long with `a_expand0`. -/
theorem resize_right_iff_expanded :
    ∃ s : Held, s.n = 16 ∧ s.chunk.data 1 = 7 ∧ s.n ≤ s.chunk.len ∧
      (Right s .realloc 4 ↔ Meets s .realloc 4) := by
  have hfresh : Fresh { chunk := { size := 8, len := 8, data := fun _ => 255 }, n := 8 } :=
    .malloc (show Fits (8 : UInt64).toNat by unfold Fits; decide) rfl
  have hwrite := Reaches.step (p := Allowed) (Step.write 1 [7]) .start trivial
    (rfl : Step.run { chunk := { size := 8, len := 8, data := fun _ => 255 }, n := 8 } _ = _)
  have hmeets : Meets
      { chunk := { size := 8, len := 8, data := Memory.store (fun _ => 255) 1 [7] }, n := 8 }
      .expand0 16 := by
    refine ⟨fun h => absurd h (by decide), fun _ => ⟨?_, ?_, ?_, ?_⟩⟩
    · unfold Fits
      decide
    · decide
    · decide
    · exact fun k hk hlt => absurd hlt (by simp at hk ⊢; omega)
  have hexpand := Reaches.step (Step.resize .expand0 16 fun _ => 255) hwrite hmeets rfl
  exact ⟨_, rfl, rfl, resize_right_iff hfresh hexpand .realloc 4⟩

/-- Sixteen bytes from `a_alloc0`, with their owner's bytes in them: the header says one, and
`a_realloc0` to 32 clears all but the first. -/
theorem realloc0_clears_contents :
    ∃ s₀ s : Held, Fresh s₀ ∧ Reaches Step.run (fun _ _ => True) s₀ s ∧ s.n = 16 ∧
      ¬Right s .realloc0 32 := by
  refine ⟨{ chunk := { size := 1, len := 16, data := fun _ => 0 }, n := 16 }, _,
    .calloc (show Fits ((16 : UInt64).toNat * (1 : UInt64).toNat) by unfold Fits; decide) rfl,
    Reaches.step (Step.write 0 (List.replicate 16 9)) .start trivial rfl, rfl, fun hr => ?_⟩
  rcases hr (fun _ => 0) with ⟨c, hc, -, hsame, -⟩
  cases hc
  exact absurd (hsame 1 (by decide)) (by decide)

end Area
end IrC6
