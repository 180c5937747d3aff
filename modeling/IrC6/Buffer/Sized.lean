import IrC6.Area.Chunk
import IrC6.Base.Faults
import IrC6.Base.Padded

/-!
# Buffers and sizes

A buffer is a chunk with a size in it, and its bytes come behind.  A chunk may be longer than
the buffer needs, and the size in its own header may be less than it has.  Offsets and sizes
are of `size_t`.  A write outside the chunk is a fault, also when an offset below zero has
wrapped around.

`buf_dup_size`, `buf_append_size` and `buf_copy` read a source as if zeros followed it.
-/

namespace IrC6
namespace Buffer

open Area (Chunk Fault)

/-! ## The macros -/

namespace Macros

def bufSize (size : UInt64) : UInt64 := 16 + size

def bufExpand (junk : Nat → UInt8) (size : UInt64) (c : Chunk) : Except Fault Chunk :=
  (Area.aExpand junk (bufSize size) c).map (·.getD c)

/-- What the C library writes into the data of a buffer. -/
def put (offs size : UInt64) (src : Nat → UInt8) (c : Chunk) : Except Fault Chunk :=
  if 16 + offs.toNat + size.toNat ≤ c.len then
    .ok { c with data := fun i =>
      if 16 + offs.toNat ≤ i ∧ i < 16 + offs.toNat + size.toNat then src (i - (16 + offs.toNat))
      else c.data i }
  else .error .outside

/-- What it reads there. -/
def get (offs size : UInt64) (c : Chunk) : Except Fault (Nat → UInt8) :=
  if 16 + offs.toNat + size.toNat ≤ c.len then .ok fun i => c.data (16 + offs.toNat + i)
  else .error .outside

def bufZero (c : Chunk) (offs size : UInt64) : Except Fault Chunk := put offs size (fun _ => 0) c

def bufCopy (src : Chunk) (soffs : UInt64) (dst : Chunk) (doffs size : UInt64) :
    Except Fault Chunk := do put soffs size (← get doffs size dst) src

def bufMove (c : Chunk) (offs doffs size : UInt64) : Except Fault Chunk := do
  put (offs + doffs) size (← get offs size c) c

end Macros

/-! ## The functions -/

/-- A `buffer_t`, in the chunk that it is in. -/
structure Raw where
  chunk : Chunk
  size : UInt64

section Functions

variable (junk : Nat → UInt8)

def aMemdup (src : Chunk) (size : UInt64) : Except Fault Chunk := do
  let ret ← Area.aMalloc junk size
  if size.toNat ≤ src.len ∧ size.toNat ≤ ret.len then
    .ok { ret with data := fun i => if i < size.toNat then src.data i else ret.data i }
  else .error .outside

def bufDupSize (from_ : Raw) (size : UInt64) : Except Fault Raw :=
  if from_.size < size then do
    let to_ ← Area.aMalloc junk (Macros.bufSize size)
    let to_ ← Macros.bufCopy to_ 0 from_.chunk 0 from_.size
    let to_ ← Macros.bufZero to_ from_.size (size - from_.size)
    .ok { chunk := to_, size := size }
  else do
    let to_ ← aMemdup junk from_.chunk (Macros.bufSize size)
    .ok { chunk := to_, size := size }

def bufAppendSize (to_ : Option Raw) (from_ : Raw) (size : UInt64) :
    Except Fault (Raw × Bool) :=
  match to_ with
  | none => do .ok (← bufDupSize junk from_ size, true)
  | some to_ => do
      let c ← Macros.bufExpand junk (to_.size + from_.size) to_.chunk
      let c ← Macros.bufCopy c to_.size from_.chunk 0 from_.size
      .ok ({ chunk := c, size := to_.size + from_.size }, true)

/-- `buf_copy` up to the point where the target has room. -/
def bufCopyRoom (to_ : Option Raw) (toffs size : UInt64) : Except Fault Raw :=
  match to_ with
  | none => do
      let c ← Area.aCalloc (Macros.bufSize (size + toffs)) 1
      .ok { chunk := c, size := size + toffs }
  | some to_ =>
      if to_.size < toffs + size then do
        let c ← Macros.bufExpand junk (toffs + size) to_.chunk
        let c ← (if to_.size < toffs then Macros.bufZero c to_.size (toffs - to_.size) else .ok c)
        .ok { chunk := c, size := toffs + size }
      else .ok to_

/-- The rest of it. -/
def bufCopyFill (to_ from_ : Raw) (toffs foffs size : UInt64) : Except Fault (Raw × Bool) :=
  if from_.size < foffs + size then do
    let c ← (if foffs < from_.size then
        Macros.bufCopy to_.chunk toffs from_.chunk foffs (from_.size - foffs)
      else .ok to_.chunk)
    let c ← Macros.bufZero c (toffs + (from_.size - foffs)) (size - (from_.size - foffs))
    .ok ({ to_ with chunk := c }, true)
  else do
    let c ← Macros.bufCopy to_.chunk toffs from_.chunk foffs size
    .ok ({ to_ with chunk := c }, true)

def bufCopy (to_ : Option Raw) (from_ : Raw) (toffs foffs size : UInt64) :
    Except Fault (Raw × Bool) := do
  bufCopyFill (← bufCopyRoom junk to_ toffs size) from_ toffs foffs size

end Functions

/-! ## What a buffer holds -/

/-- A buffer that can be used: its bytes are in its chunk, and the size in the header of the
chunk is not more than the chunk has. -/
structure Buf extends Raw where
  room : 16 + size.toNat ≤ chunk.len
  header : chunk.size.toNat ≤ chunk.len
  block : chunk.len < 2 ^ 64

def Buf.bytes (b : Buf) : List UInt8 := Memory.slice b.chunk.data 16 b.size.toNat

/-- `NULL` counts as a buffer of no bytes. -/
def contents : Option Buf → List UInt8
  | none => []
  | some b => b.bytes

/-- The call leaves a buffer with these bytes. -/
def Leaves {ε : Type} (r : Except ε (Raw × Bool)) (xs : List UInt8) : Prop :=
  ∃ b : Buf, r = .ok (b.toRaw, true) ∧ b.bytes = xs

def DupRight (from_ : Buf) (n : UInt64) : Prop :=
  ∀ junk, ∃ b : Buf, bufDupSize junk from_.toRaw n = .ok b.toRaw ∧
    b.bytes = from_.bytes.takeD n.toNat 0

def AppendRight (to_ : Option Buf) (from_ : Buf) (n : UInt64) : Prop :=
  ∀ junk, Leaves (bufAppendSize junk (to_.map Buf.toRaw) from_.toRaw n)
    (contents to_ ++ from_.bytes.takeD n.toNat 0)

def CopyRight (to_ : Option Buf) (from_ : Buf) (toffs foffs n : UInt64) : Prop :=
  ∀ junk, Leaves (bufCopy junk (to_.map Buf.toRaw) from_.toRaw toffs foffs n)
    (Padded.overwrite 0 (contents to_) toffs.toNat
      ((from_.bytes.drop foffs.toNat).takeD n.toNat 0))

/-- The `d` bytes in front of an offset are there and are zeros. -/
def ZerosBefore (xs : List UInt8) (offs d : Nat) : Prop :=
  d ≤ offs ∧ ∀ i, offs - d ≤ i → i < offs → xs.getD i 0 = 0

/-- The first `n` bytes of the data of a chunk. -/
structure Holds (c : Chunk) (n : Nat) (f : Nat → UInt8) : Prop where
  room : 16 + n ≤ c.len
  header : c.size.toNat ≤ c.len
  block : c.len < 2 ^ 64
  data : ∀ i < n, c.data (16 + i) = f i

@[simp] theorem Buf.length_bytes (b : Buf) : b.bytes.length = b.size.toNat :=
  Memory.length_slice _ _ _

theorem Buf.holds (b : Buf) : Holds b.chunk b.size.toNat (b.bytes.getD · 0) where
  room := b.room
  header := b.header
  block := b.block
  data := fun i hi => by
    rw [List.getD_eq_getElem?_getD, Buf.bytes, Memory.getElem?_slice _ _ _ _ hi]
    rfl

theorem Buf.getD_of_le (b : Buf) {i : Nat} (h : b.size.toNat ≤ i) : b.bytes.getD i 0 = 0 :=
  List.getD_eq_default _ _ (b.length_bytes.le.trans h)

/-- A chunk that holds so many bytes is a buffer of them. -/
theorem Holds.buf {c : Chunk} {size : UInt64} {f : Nat → UInt8} (h : Holds c size.toNat f)
    {xs : List UInt8} (hlen : xs.length = size.toNat)
    (hdata : ∀ i < size.toNat, xs.getD i 0 = f i) :
    ∃ b : Buf, b.toRaw = { chunk := c, size := size } ∧ b.bytes = xs := by
  let b : Buf := ⟨⟨c, size⟩, h.room, h.header, h.block⟩
  have hsize : b.bytes.length = size.toNat := b.length_bytes
  refine ⟨b, rfl, Padded.ext_getD (z := 0) (hsize.trans hlen.symm) fun i hi => ?_⟩
  rw [hsize] at hi
  rw [hdata i hi, ← h.data i hi]
  exact (b.holds.data i hi).symm

/-- What a call leaves, when it is known what the chunk holds. -/
theorem leaves_iff {c : Chunk} {size : UInt64} {f : Nat → UInt8} (h : Holds c size.toNat f)
    (xs : List UInt8) :
    Leaves (.ok ({ chunk := c, size := size }, true) : Except Fault (Raw × Bool)) xs ↔
      xs.length = size.toNat ∧ ∀ i < size.toNat, xs.getD i 0 = f i := by
  constructor
  · rintro ⟨b, hb, rfl⟩
    injection hb with hb
    injection hb with hraw
    have hchunk : b.chunk = c := congrArg Raw.chunk hraw.symm
    have hsize : b.size = size := congrArg Raw.size hraw.symm
    refine ⟨by rw [b.length_bytes, hsize], fun i hi => ?_⟩
    rw [← h.data i hi, ← b.holds.data i (hsize ▸ hi), hchunk]
  · rintro ⟨hlen, hdata⟩
    rcases h.buf hlen hdata with ⟨b, hb, hbytes⟩
    exact ⟨b, by rw [hb], hbytes⟩

/-! ## The macros on what a chunk holds -/

section Macros

variable {c src : Chunk} {n m : Nat} {f g : Nat → UInt8} {offs size : UInt64}

theorem Holds.congr (h : Holds c n f) (hfg : ∀ i < n, f i = g i) : Holds c n g :=
  ⟨h.room, h.header, h.block, fun i hi => (h.data i hi).trans (hfg i hi)⟩

theorem toNat_bufSize (h : Area.Fits (16 + size.toNat)) :
    (Macros.bufSize size).toNat = 16 + size.toNat := by
  unfold Area.Fits at h
  have hhead : (16 : UInt64).toNat = 16 := rfl
  rw [Macros.bufSize, UInt64.toNat_add, hhead]
  omega

theorem holds_put (h : Holds c n f) (hle : offs.toNat + size.toNat ≤ n) (bytes : Nat → UInt8) :
    ∃ c', Macros.put offs size bytes c = .ok c' ∧ Holds c' n fun i =>
      if offs.toNat ≤ i ∧ i < offs.toNat + size.toNat then bytes (i - offs.toNat) else f i := by
  have hroom := h.room
  refine ⟨_, if_pos (by omega), hroom, h.header, h.block, fun i hi => ?_⟩
  by_cases hin : offs.toNat ≤ i ∧ i < offs.toNat + size.toNat
  · have hoffs : 16 + i - (16 + offs.toNat) = i - offs.toNat := by omega
    simp only [if_pos hin]
    rw [if_pos (by omega), hoffs]
  · simp only [if_neg hin]
    rw [if_neg (by omega), h.data i hi]

/-- A write that begins below zero does not fit any chunk. -/
theorem put_outside (h : Holds c n f) (hwrap : 2 ^ 64 ≤ offs.toNat + size.toNat)
    (bytes : Nat → UInt8) : Macros.put offs size bytes c = .error .outside := by
  have hblock := h.block
  exact if_neg (by omega)

theorem get_holds (h : Holds c n f) (hle : offs.toNat + size.toNat ≤ n) :
    ∃ bytes, Macros.get offs size c = .ok bytes ∧
      ∀ i < size.toNat, bytes i = f (offs.toNat + i) := by
  have hroom := h.room
  refine ⟨_, if_pos (by omega), fun i hi => ?_⟩
  rw [Nat.add_assoc, h.data _ (by omega)]

theorem holds_bufZero (h : Holds c n f) (offs size : UInt64)
    (hle : offs.toNat + size.toNat ≤ n) :
    ∃ c', Macros.bufZero c offs size = .ok c' ∧ Holds c' n fun i =>
      if offs.toNat ≤ i ∧ i < offs.toNat + size.toNat then 0 else f i :=
  holds_put h hle fun _ => 0

theorem holds_bufCopy (h : Holds c n f) (hsrc : Holds src m g) (offs doffs size : UInt64)
    (hle : offs.toNat + size.toNat ≤ n) (hread : doffs.toNat + size.toNat ≤ m) :
    ∃ c', Macros.bufCopy c offs src doffs size = .ok c' ∧ Holds c' n fun i =>
      if offs.toNat ≤ i ∧ i < offs.toNat + size.toNat then g (doffs.toNat + (i - offs.toNat))
      else f i := by
  rcases get_holds hsrc hread with ⟨bytes, hget, hbytes⟩
  rcases holds_put h hle bytes with ⟨c', hput, hc'⟩
  refine ⟨c', by rw [Macros.bufCopy, hget]; exact hput, hc'.congr fun i _ => ?_⟩
  by_cases hin : offs.toNat ≤ i ∧ i < offs.toNat + size.toNat
  · rw [if_pos hin, if_pos hin, hbytes _ (by omega)]
  · rw [if_neg hin, if_neg hin]

theorem toNat_add_of_lt {a b : UInt64} (h : a.toNat + b.toNat < 2 ^ 64) :
    (a + b).toNat = a.toNat + b.toNat := by
  rw [UInt64.toNat_add]
  exact Nat.mod_eq_of_lt h

theorem toNat_sub_of_lt {a b : UInt64} (h : a.toNat < b.toNat) :
    (b - a).toNat = b.toNat - a.toNat :=
  UInt64.toNat_sub_of_le _ _ (UInt64.le_iff_toNat_le.mpr (Nat.le_of_lt h))

/-- The zeros from where one thing ends to where another one does, if it ends behind it. -/
theorem holds_zeroBetween (h : Holds c n f) {a b : UInt64} {p : Nat}
    (hoffs : a.toNat < b.toNat → offs.toNat = p + a.toNat) (hle : p + b.toNat ≤ n) :
    ∃ c', (if a < b then Macros.bufZero c offs (b - a) else .ok c) = .ok c' ∧ Holds c' n fun i =>
      if p + a.toNat ≤ i ∧ i < p + b.toNat then 0 else f i := by
  by_cases hlt : a < b
  · have hlt' := UInt64.lt_iff_toNat_lt.mp hlt
    have hsub := toNat_sub_of_lt hlt'
    have hoffs := hoffs hlt'
    rcases holds_bufZero h offs (b - a) (by omega) with ⟨c', hclear, hc'⟩
    refine ⟨c', by rw [if_pos hlt, hclear], hc'.congr fun i _ => ?_⟩
    have hend : offs.toNat + (b - a).toNat = p + b.toNat := by omega
    rw [hend, hoffs]
  · refine ⟨c, if_neg hlt, h.congr fun i _ => ?_⟩
    rw [UInt64.lt_iff_toNat_lt] at hlt
    rw [if_neg (by omega)]

variable (junk : Nat → UInt8)

theorem holds_aMalloc (h : Area.Fits (16 + size.toNat)) :
    ∃ c' g, Area.aMalloc junk (Macros.bufSize size) = .ok c' ∧ Holds c' size.toNat g ∧
      c'.len = 16 + size.toNat := by
  have hsize := toNat_bufSize h
  rw [← hsize] at h
  refine ⟨{ size := Macros.bufSize size, len := (Macros.bufSize size).toNat, data := junk },
    fun i => junk (16 + i), ?_,
    ⟨hsize.ge, Nat.le_refl _, (Macros.bufSize size).toNat_lt, fun i _ => rfl⟩, hsize⟩
  rw [Area.aMalloc, Area.room_of_fits h]
  rfl

/-- `a_memdup` of the front of a buffer. -/
theorem holds_aMemdup (hsrc : Holds src n f) (hle : size.toNat ≤ n)
    (h : Area.Fits (16 + size.toNat)) :
    ∃ c', aMemdup junk src (Macros.bufSize size) = .ok c' ∧ Holds c' size.toNat f := by
  rcases holds_aMalloc junk h with ⟨c, g, hmalloc, hc, hlen⟩
  have hsize := toNat_bufSize h
  have hroom := hsrc.room
  let c' : Chunk := { c with data := fun i =>
    if i < (Macros.bufSize size).toNat then src.data i else c.data i }
  have hdata : ∀ i < size.toNat, c'.data (16 + i) = f i := by
    intro i hi
    rw [← hsrc.data i (by omega)]
    exact if_pos (by omega)
  refine ⟨c', ?_, hc.room, hc.header, hc.block, hdata⟩
  have hboth : (Macros.bufSize size).toNat ≤ src.len ∧ (Macros.bufSize size).toNat ≤ c.len := by
    omega
  rw [aMemdup, hmalloc]
  exact if_pos hboth

theorem holds_bufExpand (hc : Holds c n f) (h : Area.Fits (16 + size.toNat)) :
    ∃ c' g, Macros.bufExpand junk size c = .ok c' ∧ Holds c' size.toNat g ∧
      ∀ i < n, g i = f i := by
  have hsize := toNat_bufSize h
  have hroom := hc.room
  rw [← hsize] at h
  by_cases hlt : c.size < Macros.bufSize size
  · refine ⟨
      { size := Macros.bufSize size, len := (Macros.bufSize size).toNat,
        data := fun i => if i < c.len then c.data i else junk i },
      fun i => if 16 + i < c.len then c.data (16 + i) else junk (16 + i), ?_,
      ⟨hsize.ge, Nat.le_refl _, (Macros.bufSize size).toNat_lt, fun i _ => rfl⟩, fun i hi => ?_⟩
    · rw [Macros.bufExpand, Area.aExpand, if_pos hlt, Area.realRealloc_of_fits junk h]
      rfl
    · rw [← hc.data i hi]
      exact if_pos (by omega)
  · have hheader := hc.header
    rw [UInt64.lt_iff_toNat_lt, hsize] at hlt
    refine ⟨c, fun i => c.data (16 + i), ?_, ⟨by omega, hheader, hc.block, fun _ _ => rfl⟩,
      hc.data⟩
    rw [Macros.bufExpand, Area.aExpand, if_neg (by rwa [UInt64.lt_iff_toNat_lt, hsize])]
    rfl

end Macros

/-! ## `buf_dup_size` -/

section Calls

variable (from_ : Buf) {n : UInt64}

theorem dupRight (h : Area.Fits (16 + n.toNat)) : DupRight from_ n := by
  intro junk
  have hlen : (from_.bytes.takeD n.toNat 0).length = n.toNat := List.takeD_length _ _ _
  have hwant : ∀ i < n.toNat, (from_.bytes.takeD n.toNat 0).getD i 0 = from_.bytes.getD i 0 :=
    fun i hi => (Padded.getD_takeD _ _ _).trans (if_pos hi)
  by_cases hlt : from_.size < n
  · have hlt' := UInt64.lt_iff_toNat_lt.mp hlt
    have hsub := toNat_sub_of_lt hlt'
    have hzero : (0 : UInt64).toNat = 0 := rfl
    rcases holds_aMalloc junk h with ⟨c, g, hmalloc, hc, -⟩
    rcases holds_bufCopy hc from_.holds 0 0 from_.size
      (by omega) (by omega) with ⟨c₁, hcopy, hc₁⟩
    rcases holds_bufZero hc₁ from_.size (n - from_.size) (by omega) with ⟨c₂, hclear, hc₂⟩
    have hc₃ : Holds c₂ n.toNat (from_.bytes.getD · 0) := by
      refine hc₂.congr fun i hi => ?_
      by_cases hi' : from_.size.toNat ≤ i
      · rw [if_pos (by omega), from_.getD_of_le hi']
      · rw [if_neg (by omega), if_pos (by omega), hzero, Nat.sub_zero, Nat.zero_add]
    rcases hc₃.buf hlen hwant with ⟨b, hb, hbytes⟩
    refine ⟨b, ?_, hbytes⟩
    rw [bufDupSize, if_pos hlt, hmalloc, hb]
    simp only [bind, Except.bind, hcopy, hclear]
  · have hle : n.toNat ≤ from_.size.toNat :=
      UInt64.le_iff_toNat_le.mp (UInt64.not_lt.mp hlt)
    rcases holds_aMemdup junk from_.holds hle h with ⟨c, hdup, hc⟩
    rcases hc.buf hlen hwant with ⟨b, hb, hbytes⟩
    refine ⟨b, ?_, hbytes⟩
    rw [bufDupSize, if_neg hlt, hdup, hb]
    rfl

/-! ## `buf_append_size` -/

theorem appendRight_none (h : Area.Fits (16 + n.toNat)) : AppendRight none from_ n := by
  intro junk
  rcases dupRight from_ h junk with ⟨b, hdup, hbytes⟩
  refine ⟨b, ?_, hbytes⟩
  simp only [Option.map_none, bufAppendSize, hdup, bind, Except.bind]

/-- What `buf_append_size` appends is the whole source. -/
theorem appendRight_all (to_ : Buf)
    (h : Area.Fits (16 + (to_.size.toNat + from_.size.toNat))) :
    AppendRight (some to_) from_ from_.size := by
  intro junk
  have hsum : (to_.size + from_.size).toNat = to_.size.toNat + from_.size.toNat := by
    unfold Area.Fits at h
    exact toNat_add_of_lt (by omega)
  have hzero : (0 : UInt64).toNat = 0 := rfl
  rw [← hsum] at h
  rcases holds_bufExpand junk to_.holds h with ⟨c, g, hexpand, hc, hg⟩
  rcases holds_bufCopy hc from_.holds to_.size 0 from_.size (by omega) (by omega)
    with ⟨c', hcopy, hc'⟩
  have hrun : bufAppendSize junk (some to_.toRaw) from_.toRaw from_.size =
      .ok ({ chunk := c', size := to_.size + from_.size }, true) := by
    simp only [bufAppendSize, hexpand, hcopy, bind, Except.bind]
  rw [Option.map_some, hrun, leaves_iff hc']
  refine ⟨?_, fun i hi => ?_⟩
  · rw [contents, List.length_append, List.takeD_length, to_.length_bytes, hsum]
  · rw [contents, Padded.getD_append, Padded.getD_takeD, to_.length_bytes]
    by_cases hlow : i < to_.size.toNat
    · rw [if_pos hlow, if_neg (by omega), hg i hlow]
    · rw [if_neg hlow, if_pos (by omega), if_pos (by omega), hzero, Nat.zero_add]

theorem appendRight_iff (to_ : Option Buf)
    (h : Area.Fits (16 + ((contents to_).length + n.toNat))) :
    AppendRight to_ from_ n ↔ to_ = none ∨ n = from_.size := by
  cases to_ with
  | none =>
      have h : Area.Fits (16 + n.toNat) := by rwa [contents, List.length_nil, Nat.zero_add] at h
      exact ⟨fun _ => .inl rfl, fun _ => appendRight_none from_ h⟩
  | some to_ =>
      rw [contents, to_.length_bytes] at h
      constructor
      · intro hright
        rcases hright fun _ => 0 with ⟨b, hrun, hbytes⟩
        rcases exists_of_bind_eq_ok hrun with ⟨c, -, hrun⟩
        rcases exists_of_bind_eq_ok hrun with ⟨c', -, hrun⟩
        injection hrun with hrun
        have hsize : to_.size + from_.size = b.size := congrArg (Raw.size ∘ Prod.fst) hrun
        have hlen := congrArg List.length hbytes
        rw [b.length_bytes, ← hsize, contents, List.length_append, List.takeD_length,
          to_.length_bytes, UInt64.toNat_add] at hlen
        have hn := n.toNat_lt
        have hfrom := from_.size.toNat_lt
        unfold Area.Fits at h
        exact .inr (UInt64.toNat_inj.mp (by omega))
      · intro hn
        rcases hn with hn | rfl
        · nomatch hn
        · exact appendRight_all from_ to_ h

/-! ## `buf_copy` -/

variable {toffs foffs : UInt64}

theorem bufCopyRoom_ok (junk : Nat → UInt8) (to_ : Option Buf)
    (h : Area.Fits (16 + (toffs.toNat + n.toNat))) :
    ∃ raw f, bufCopyRoom junk (to_.map Buf.toRaw) toffs n = .ok raw ∧
      raw.size.toNat = max (contents to_).length (toffs.toNat + n.toNat) ∧
      Holds raw.chunk raw.size.toNat f ∧
      ∀ i < raw.size.toNat, i < toffs.toNat ∨ toffs.toNat + n.toNat ≤ i →
        f i = (contents to_).getD i 0 := by
  have hfits := h
  unfold Area.Fits at hfits
  have hsum : (toffs + n).toNat = toffs.toNat + n.toNat := toNat_add_of_lt (by omega)
  rw [← hsum] at h
  cases to_ with
  | none =>
      rw [UInt64.add_comm] at h hsum
      have hsize := toNat_bufSize h
      refine ⟨{ chunk := { size := 1, len := (Macros.bufSize (n + toffs)).toNat,
                           data := fun _ => 0 }, size := n + toffs }, fun _ => 0, ?_, ?_,
        ⟨hsize.ge, ?_, (Macros.bufSize (n + toffs)).toNat_lt, fun _ _ => rfl⟩, fun _ _ _ => rfl⟩
      · rw [← hsize] at h
        rw [Option.map_none, bufCopyRoom, Area.aCalloc, UInt64.one_mul, Area.room_of_fits h]
        rfl
      · rw [hsum, contents, List.length_nil, Nat.zero_max]
      · rw [hsize]
        have hone : (1 : UInt64).toNat ≤ 16 := by decide
        exact hone.trans (Nat.le_add_right _ _)
  | some to_ =>
      rw [contents, to_.length_bytes, Option.map_some, bufCopyRoom]
      by_cases hlt : to_.size < toffs + n
      · have hlt' := UInt64.lt_iff_toNat_lt.mp hlt
        rcases holds_bufExpand junk to_.holds h with ⟨c, g, hexpand, hc, hg⟩
        rcases holds_zeroBetween hc (fun _ => (Nat.zero_add to_.size.toNat).symm)
          (by omega : 0 + toffs.toNat ≤ (toffs + n).toNat) with ⟨c', hclear, hc'⟩
        refine ⟨{ chunk := c', size := toffs + n }, _, ?_, hsum.trans (by omega), hc',
          fun i hi hout => ?_⟩
        · simp only [if_pos hlt, hexpand, hclear, bind, Except.bind]
        · rw [hsum] at hi
          by_cases hlow : i < to_.size.toNat
          · rw [if_neg (by omega), hg i hlow]
          · rw [to_.getD_of_le (Nat.le_of_not_lt hlow), if_pos (by omega)]
      · have hle := UInt64.le_iff_toNat_le.mp (UInt64.not_lt.mp hlt)
        simp only [if_neg hlt]
        exact ⟨_, _, rfl, by omega, to_.holds, fun i _ _ => rfl⟩

/-- An offset behind the source, added to another one as a difference that wraps around. -/
theorem toNat_behind (toffs n : UInt64) {a b : UInt64} (h : a.toNat ≤ b.toNat) :
    (b.toNat - a.toNat ≤ toffs.toNat →
      (toffs + (a - b)).toNat = toffs.toNat - (b.toNat - a.toNat)) ∧
    (toffs.toNat < b.toNat - a.toNat →
      (toffs + (a - b)).toNat = 2 ^ 64 + toffs.toNat - (b.toNat - a.toNat)) ∧
    (n.toNat + (b.toNat - a.toNat) < 2 ^ 64 →
      (n - (a - b)).toNat = n.toNat + (b.toNat - a.toNat)) := by
  have ha := a.toNat_lt
  have hb := b.toNat_lt
  have ht := toffs.toNat_lt
  have hn := n.toNat_lt
  simp only [UInt64.toNat_add, UInt64.toNat_sub]
  omega

/-- The bytes `f` of a target when `buf_copy` has put a part of the source at `toffs`.  Where
the part begins behind the source, as many bytes in front of `toffs` are zeroed. -/
def filled (from_ : Buf) (toffs foffs n : Nat) (f : Nat → UInt8) (i : Nat) : UInt8 :=
  if toffs ≤ i ∧ i < toffs + n then from_.bytes.getD (foffs + (i - toffs)) 0
  else if toffs - (foffs - from_.size.toNat) ≤ i ∧ i < toffs then 0
  else f i

section Fill

variable {from_} {to_ : Raw} {m : Nat} {f : Nat → UInt8}

/-- The source has all of the part. -/
theorem bufCopyFill_whole (hc : Holds to_.chunk m f) (hle : toffs.toNat + n.toNat ≤ m)
    (hshort : ¬from_.size < foffs + n) (hend : foffs.toNat + n.toNat ≤ from_.size.toNat) :
    ∃ c', bufCopyFill to_ from_.toRaw toffs foffs n = .ok ({ to_ with chunk := c' }, true) ∧
      Holds c' m (filled from_ toffs.toNat foffs.toNat n.toNat f) := by
  rcases holds_bufCopy hc from_.holds toffs foffs n (by omega) (by omega) with ⟨c', hcopy, hc'⟩
  refine ⟨c', ?_, hc'.congr fun i hi => ?_⟩
  · simp only [bufCopyFill, if_neg hshort, hcopy, bind, Except.bind]
  · rw [filled]
    by_cases hrange : toffs.toNat ≤ i ∧ i < toffs.toNat + n.toNat
    · rw [if_pos hrange, if_pos hrange]
    · rw [if_neg hrange, if_neg hrange, if_neg (by omega)]

/-- The source ends inside the part. -/
theorem bufCopyFill_short (hc : Holds to_.chunk m f) (hle : toffs.toNat + n.toNat ≤ m)
    (hshort : from_.size < foffs + n) (hend : from_.size.toNat < foffs.toNat + n.toNat)
    (hin : foffs < from_.size) :
    ∃ c', bufCopyFill to_ from_.toRaw toffs foffs n = .ok ({ to_ with chunk := c' }, true) ∧
      Holds c' m (filled from_ toffs.toNat foffs.toNat n.toNat f) := by
  have hin' := UInt64.lt_iff_toNat_lt.mp hin
  have hsub := toNat_sub_of_lt hin'
  have hn : (n - (from_.size - foffs)).toNat = n.toNat - (from_.size.toNat - foffs.toNat) := by
    rw [toNat_sub_of_lt (by omega), hsub]
  have hoffs : (toffs + (from_.size - foffs)).toNat =
      toffs.toNat + (from_.size.toNat - foffs.toNat) := by
    have hblock := hc.block
    have hroom := hc.room
    rw [toNat_add_of_lt (by omega), hsub]
  rcases holds_bufCopy hc from_.holds toffs foffs (from_.size - foffs) (by omega) (by omega)
    with ⟨c₁, hcopy, hc₁⟩
  rcases holds_bufZero hc₁ (toffs + (from_.size - foffs)) (n - (from_.size - foffs))
    (by omega) with ⟨c₂, hclear, hc₂⟩
  refine ⟨c₂, ?_, hc₂.congr fun i hi => ?_⟩
  · simp only [bufCopyFill, if_pos hshort, if_pos hin, hcopy, hclear, bind, Except.bind]
  · rw [filled, hoffs, hn, hsub]
    by_cases hrange : toffs.toNat ≤ i ∧ i < toffs.toNat + n.toNat
    · rw [if_pos hrange]
      by_cases hread : foffs.toNat + (i - toffs.toNat) < from_.size.toNat
      · rw [if_neg (by omega), if_pos (by omega)]
      · rw [if_pos (by omega), from_.getD_of_le (Nat.le_of_not_lt hread)]
    · rw [if_neg hrange, if_neg (by omega), if_neg (by omega), if_neg (by omega)]

/-- The part begins behind the source. -/
theorem bufCopyFill_behind (hc : Holds to_.chunk m f) (hle : toffs.toNat + n.toNat ≤ m)
    (hsrc : foffs.toNat + n.toNat < 2 ^ 64) (hshort : from_.size < foffs + n)
    (hin : ¬foffs < from_.size) (hd : foffs.toNat - from_.size.toNat ≤ toffs.toNat) :
    ∃ c', bufCopyFill to_ from_.toRaw toffs foffs n = .ok ({ to_ with chunk := c' }, true) ∧
      Holds c' m (filled from_ toffs.toNat foffs.toNat n.toNat f) := by
  have hin' := UInt64.le_iff_toNat_le.mp (UInt64.not_lt.mp hin)
  rcases toNat_behind toffs n hin' with ⟨hoffs, -, hn⟩
  have hoffs := hoffs hd
  have hn := hn (by omega)
  rcases holds_bufZero hc (toffs + (from_.size - foffs)) (n - (from_.size - foffs))
    (by omega) with ⟨c₁, hclear, hc₁⟩
  refine ⟨c₁, ?_, hc₁.congr fun i hi => ?_⟩
  · simp only [bufCopyFill, if_pos hshort, if_neg hin, hclear, bind, Except.bind]
  · rw [filled, hoffs, hn]
    by_cases hrange : toffs.toNat ≤ i ∧ i < toffs.toNat + n.toNat
    · rw [if_pos hrange, if_pos (by omega), from_.getD_of_le (by omega)]
    · rw [if_neg hrange]
      by_cases hbefore : toffs.toNat - (foffs.toNat - from_.size.toNat) ≤ i ∧ i < toffs.toNat
      · rw [if_pos hbefore, if_pos (by omega)]
      · rw [if_neg hbefore, if_neg (by omega)]

end Fill

theorem bufCopyFill_ok {to_ : Raw} {m : Nat} {f : Nat → UInt8} (hc : Holds to_.chunk m f)
    (hle : toffs.toNat + n.toNat ≤ m) (hsrc : foffs.toNat + n.toNat < 2 ^ 64)
    (hd : foffs.toNat - from_.size.toNat ≤ toffs.toNat) :
    ∃ c', bufCopyFill to_ from_.toRaw toffs foffs n = .ok ({ to_ with chunk := c' }, true) ∧
      Holds c' m (filled from_ toffs.toNat foffs.toNat n.toNat f) := by
  have hsum : (foffs + n).toNat = foffs.toNat + n.toNat := toNat_add_of_lt hsrc
  by_cases hshort : from_.size < foffs + n
  · have hend := UInt64.lt_iff_toNat_lt.mp hshort
    rw [hsum] at hend
    by_cases hin : foffs < from_.size
    · exact bufCopyFill_short hc hle hshort hend hin
    · exact bufCopyFill_behind hc hle hsrc hshort hin hd
  · have hend := UInt64.le_iff_toNat_le.mp (UInt64.not_lt.mp hshort)
    rw [hsum] at hend
    exact bufCopyFill_whole hc hle hshort hend

theorem bufCopyFill_outside {to_ : Raw} {m : Nat} {f : Nat → UInt8} (hc : Holds to_.chunk m f)
    (hsrc : foffs.toNat + n.toNat < 2 ^ 64)
    (hd : toffs.toNat < foffs.toNat - from_.size.toNat) :
    bufCopyFill to_ from_.toRaw toffs foffs n = .error .outside := by
  have hsum : (foffs + n).toNat = foffs.toNat + n.toNat := toNat_add_of_lt hsrc
  have hshort : from_.size < foffs + n := UInt64.lt_iff_toNat_lt.mpr (by omega)
  have hin : ¬foffs < from_.size := fun h => by
    have := UInt64.lt_iff_toNat_lt.mp h
    omega
  have hle : from_.size.toNat ≤ foffs.toNat := by omega
  rcases toNat_behind toffs n hle with ⟨-, hoffs, hn⟩
  have hoffs := hoffs hd
  have hn := hn (by omega)
  have hfoffs := foffs.toNat_lt
  have hclear : Macros.bufZero to_.chunk (toffs + (from_.size - foffs))
      (n - (from_.size - foffs)) = .error .outside := put_outside hc (by omega) _
  simp only [bufCopyFill, if_pos hshort, if_neg hin, hclear, bind, Except.bind]

/-- What the target holds after `buf_copy`. -/
theorem bufCopy_ok (junk : Nat → UInt8) (to_ : Option Buf)
    (h : Area.Fits (16 + (toffs.toNat + n.toNat))) (hsrc : foffs.toNat + n.toNat < 2 ^ 64)
    (hd : foffs.toNat - from_.size.toNat ≤ toffs.toNat) :
    ∃ (size : UInt64) (c : Chunk) (f : Nat → UInt8),
      Holds c size.toNat f ∧ size.toNat = max (contents to_).length (toffs.toNat + n.toNat) ∧
      bufCopy junk (to_.map Buf.toRaw) from_.toRaw toffs foffs n =
        .ok ({ chunk := c, size := size }, true) ∧
      ∀ i < size.toNat,
        f i = filled from_ toffs.toNat foffs.toNat n.toNat ((contents to_).getD · 0) i := by
  rcases bufCopyRoom_ok junk to_ h with ⟨raw, f, hroom, hsize, hc, hf⟩
  rcases bufCopyFill_ok from_ hc (by omega) hsrc hd with ⟨c, hfill, hc'⟩
  refine ⟨raw.size, c, _, hc', hsize, ?_, fun i hi => ?_⟩
  · simp only [bufCopy, hroom, hfill, bind, Except.bind]
  · rw [filled, filled]
    by_cases hin : toffs.toNat ≤ i ∧ i < toffs.toNat + n.toNat
    · rw [if_pos hin, if_pos hin]
    · rw [if_neg hin, if_neg hin, hf i hi (by omega)]

/-- What the target should hold. -/
theorem getD_overwrite_bytes (xs : List UInt8) (i : Nat) :
    (Padded.overwrite 0 xs toffs.toNat
      ((from_.bytes.drop foffs.toNat).takeD n.toNat 0)).getD i 0 =
        if toffs.toNat ≤ i ∧ i < toffs.toNat + n.toNat then
          from_.bytes.getD (foffs.toNat + (i - toffs.toNat)) 0
        else xs.getD i 0 := by
  rw [Padded.getD_overwrite, List.takeD_length]
  split
  · rw [Padded.getD_takeD, if_pos (by omega), Padded.getD_drop]
  · rfl

/-- `buf_copy` from behind the end of the source zeroes the target from as far in front of
the offset. -/
theorem copyRight_iff (to_ : Option Buf) (h : Area.Fits (16 + (toffs.toNat + n.toNat)))
    (hsrc : foffs.toNat + n.toNat < 2 ^ 64) :
    CopyRight to_ from_ toffs foffs n ↔
      ZerosBefore (contents to_) toffs.toNat (foffs.toNat - from_.size.toNat) := by
  by_cases hd : foffs.toNat - from_.size.toNat ≤ toffs.toNat
  · constructor
    · intro hright
      refine ⟨hd, fun i hlow hhigh => ?_⟩
      rcases bufCopy_ok from_ (fun _ => 0) to_ h hsrc hd with ⟨size, c, f, hc, hsize, hrun, hf⟩
      have hbytes := hright fun _ => 0
      rw [hrun, leaves_iff hc] at hbytes
      have hi := hbytes.2 i (by omega)
      rw [getD_overwrite_bytes, if_neg (by omega), hf i (by omega), filled, if_neg (by omega),
        if_pos ⟨hlow, hhigh⟩] at hi
      exact hi
    · rintro ⟨-, hzeros⟩ junk
      rcases bufCopy_ok from_ junk to_ h hsrc hd with ⟨size, c, f, hc, hsize, hrun, hf⟩
      rw [hrun, leaves_iff hc]
      refine ⟨?_, fun i hi => ?_⟩
      · rw [Padded.length_overwrite, List.takeD_length, hsize]
      · rw [getD_overwrite_bytes, hf i hi, filled]
        by_cases hin : toffs.toNat ≤ i ∧ i < toffs.toNat + n.toNat
        · rw [if_pos hin, if_pos hin]
        · rw [if_neg hin, if_neg hin]
          split
          · rename_i hbefore
            exact hzeros i hbefore.1 hbefore.2
          · rfl
  · refine iff_of_false (fun hright => ?_) fun h => hd h.1
    rcases bufCopyRoom_ok (fun _ => 0) to_ h with ⟨raw, f, hroom, -, hc, -⟩
    rcases hright fun _ => 0 with ⟨b, hrun, -⟩
    have hfill := bufCopyFill_outside from_ hc hsrc (Nat.lt_of_not_le hd)
    rw [bufCopy, hroom] at hrun
    exact absurd (hfill.symm.trans hrun) nofun

end Calls

/-- `buf_dup_size` is right.  `buf_append_size` is where its size is that of the source, or
there is no target.  `buf_copy` is where it does not begin behind the end of the source, or
the target has as many zeros in front of the offset. -/
theorem sizedRight_iff (to_ : Option Buf) (from_ : Buf) (n toffs foffs : UInt64)
    (happend : Area.Fits (16 + ((contents to_).length + n.toNat)))
    (hcopy : Area.Fits (16 + (toffs.toNat + n.toNat)))
    (hsrc : foffs.toNat + n.toNat < 2 ^ 64) :
    DupRight from_ n ∧ (AppendRight to_ from_ n ↔ to_ = none ∨ n = from_.size) ∧
      (CopyRight to_ from_ toffs foffs n ↔
        ZerosBefore (contents to_) toffs.toNat (foffs.toNat - from_.size.toNat)) := by
  refine ⟨dupRight from_ ?_, appendRight_iff from_ to_ happend, copyRight_iff from_ to_ hcopy hsrc⟩
  unfold Area.Fits at hcopy ⊢
  omega

/-- A buffer of one byte and a buffer of two, each in a chunk of its size. -/
def bufA : Buf where
  chunk := { size := 17, len := 17, data := fun i => if i = 16 then 97 else 0 }
  size := 1
  room := by decide
  header := by decide
  block := by decide

def bufBC : Buf where
  chunk := { size := 18, len := 18, data := fun i => if i = 16 then 98 else 99 }
  size := 2
  room := by decide
  header := by decide
  block := by decide

theorem sizedRight_iff_a :
    DupRight bufBC 3 ∧ (AppendRight (some bufA) bufBC 3 ↔ some bufA = none ∨ 3 = bufBC.size) ∧
      (CopyRight (some bufA) bufBC 2 1 3 ↔
        ZerosBefore (contents (some bufA)) (2 : UInt64).toNat
          ((1 : UInt64).toNat - bufBC.size.toNat)) :=
  sizedRight_iff (some bufA) bufBC 3 2 1 (show _ < _ by decide) (show _ < _ by decide) (by decide)

/-- One byte of `bc` is appended to `a`, and one byte is copied behind `a` from behind `bc`. -/
theorem sizedRight_fails :
    ¬AppendRight (some bufA) bufBC 1 ∧ ¬CopyRight (some bufA) bufBC 1 3 1 := by
  constructor
  · rw [appendRight_iff bufBC (some bufA) (show _ < _ by decide)]
    rintro (h | h)
    · nomatch h
    · exact absurd h (by decide)
  · rw [copyRight_iff bufBC (some bufA) (show _ < _ by decide) (by decide)]
    intro h
    exact absurd (h.2 0 (by decide) (by decide)) (by decide)

end Buffer
end IrC6
