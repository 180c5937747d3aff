import IrC6.Buffer.Pack
import IrC6.Buffer.Sized

/-!
# Insertion

`buf_insert_size` and `buf_insert_pack` make room in a buffer: what is behind the position
moves up, and a gap in front of it is filled with zeros.  They differ in the order of their
steps, and in that a pack of no bytes is not inserted at all.
-/

namespace IrC6
namespace Buffer

open Area (Chunk Fault)

def Macros.max (a b : UInt64) : UInt64 := if b < a then a else b
def Macros.min (a b : UInt64) : UInt64 := if a < b then a else b

section Functions

variable (junk : Nat → UInt8)

def bufInsertSize (to_ : Option Raw) (from_ : Raw) (pos size : UInt64) :
    Except Fault (Raw × Bool) :=
  match to_ with
  | none => bufCopy junk none from_ pos 0 size
  | some to_ => do
      let old_s := to_.size
      let new_s := Macros.max pos old_s + size
      let c ← Macros.bufExpand junk new_s to_.chunk
      let c ← (if pos < old_s then Macros.bufMove c pos size (old_s - pos) else .ok c)
      let c ← Macros.bufCopy c pos from_.chunk 0 (Macros.min from_.size size)
      let c ← (if old_s < pos then Macros.bufZero c old_s (pos - old_s) else .ok c)
      let c ← (if from_.size < size then
        Macros.bufZero c (pos + from_.size) (size - from_.size) else .ok c)
      .ok ({ chunk := c, size := new_s }, true)

/-- `_dequeue_pack`, which writes the blocks of a queue. -/
def dequeuePack (c : Chunk) (data : UInt64) : List (List UInt8) → Except Fault Chunk
  | [] => .ok c
  | q :: queue => do
      let size := UInt64.ofNat q.length
      dequeuePack (← Macros.put data size (q.getD · 0) c) (data + size) queue

/-- `buf_insert_pack` with the queue that has been built. -/
def bufInsertQueue (buf : Raw) (pos size : UInt64) (queue : List (List UInt8)) :
    Except Fault (Raw × Bool) := do
  let old_s := buf.size
  let new_s := Macros.max pos old_s + size
  let c ← Macros.bufExpand junk new_s buf.chunk
  let c ← (if pos < old_s then Macros.bufMove c pos size (old_s - pos)
    else if old_s < pos then Macros.bufZero c old_s (pos - old_s) else .ok c)
  let c ← dequeuePack c pos queue
  .ok ({ chunk := c, size := new_s }, true)

/-- `buf_insert_pack` of a buffer that is there.  Its size is zero when the format is wrong. -/
def bufInsertPack (host : Endian) (buf : Raw) (pos : UInt64) (fmt : List Char)
    (args : List PackArg) : Except Stop (Raw × Bool) :=
  match packLoop host fmt (idle [] 0 args) with
  | .error .error => .ok (buf, false)
  | .error e => .error e
  | .ok s =>
      let size := UInt64.ofNat s.totsize
      if size = 0 then .ok (buf, false)
      else (bufInsertQueue junk buf pos size s.queue).mapError fun _ => .outside

end Functions

def InsertRight (to_ : Option Buf) (from_ : Buf) (pos n : UInt64) : Prop :=
  ∀ junk, Leaves (bufInsertSize junk (to_.map Buf.toRaw) from_.toRaw pos n)
    (Padded.insertAt 0 (contents to_) pos.toNat (from_.bytes.takeD n.toNat 0))

/-- The call leaves the buffer with these bytes inserted, whatever it returns. -/
def InsertPackRight (host : Endian) (buf : Buf) (pos : UInt64) (fmt : List Char)
    (args : List PackArg) (packed : List UInt8) : Prop :=
  ∀ junk, ∃ (b : Buf) (v : Bool),
    bufInsertPack junk host buf.toRaw pos fmt args = .ok (b.toRaw, v) ∧
      b.bytes = Padded.insertAt 0 buf.bytes pos.toNat packed

section Steps

variable {c src : Chunk} {n m : Nat} {f g : Nat → UInt8}

theorem toNat_max (a b : UInt64) : (Macros.max a b).toNat = max a.toNat b.toNat := by
  unfold Macros.max
  split
  · rename_i h
    rw [UInt64.lt_iff_toNat_lt] at h
    omega
  · rename_i h
    rw [UInt64.lt_iff_toNat_lt] at h
    omega

theorem toNat_min (a b : UInt64) : (Macros.min a b).toNat = min a.toNat b.toNat := by
  unfold Macros.min
  split
  · rename_i h
    rw [UInt64.lt_iff_toNat_lt] at h
    omega
  · rename_i h
    rw [UInt64.lt_iff_toNat_lt] at h
    omega

/-- What is behind `pos` moves up, if there is anything. -/
theorem holds_moveUp (h : Holds c n f) {pos size old : UInt64}
    (hle : max pos.toNat old.toNat + size.toNat ≤ n) (hn : n < 2 ^ 64) :
    ∃ c', (if pos < old then Macros.bufMove c pos size (old - pos) else .ok c) = .ok c' ∧
      Holds c' n fun i =>
        if pos.toNat + size.toNat ≤ i ∧ i < old.toNat + size.toNat then f (i - size.toNat)
        else f i := by
  by_cases hlt : pos < old
  · have hsub := toNat_sub_of_lt (UInt64.lt_iff_toNat_lt.mp hlt)
    rw [if_pos hlt]
    rw [UInt64.lt_iff_toNat_lt] at hlt
    have hdest : (pos + size).toNat = pos.toNat + size.toNat := toNat_add_of_lt (by omega)
    rcases get_holds h (by omega : pos.toNat + (old - pos).toNat ≤ n) with ⟨bytes, hget, hbytes⟩
    rcases holds_put h (by omega : (pos + size).toNat + (old - pos).toNat ≤ n) bytes
      with ⟨c', hput, hc'⟩
    refine ⟨c', by rw [Macros.bufMove, hget]; exact hput, hc'.congr fun i _ => ?_⟩
    have hend : (pos + size).toNat + (old - pos).toNat = old.toNat + size.toNat := by omega
    rw [hend, hdest]
    by_cases hin : pos.toNat + size.toNat ≤ i ∧ i < old.toNat + size.toNat
    · have hfrom : pos.toNat + (i - (pos.toNat + size.toNat)) = i - size.toNat := by omega
      rw [if_pos hin, if_pos hin, hbytes _ (by omega), hfrom]
    · rw [if_neg hin, if_neg hin]
  · refine ⟨c, if_neg hlt, h.congr fun i _ => ?_⟩
    rw [UInt64.lt_iff_toNat_lt] at hlt
    rw [if_neg (by omega)]

theorem holds_dequeuePack (hn : n < 2 ^ 64) {queue : List (List UInt8)} {data : UInt64}
    (h : Holds c n f) (hle : data.toNat + queue.flatten.length ≤ n) :
    ∃ c', dequeuePack c data queue = .ok c' ∧ Holds c' n fun i =>
      if data.toNat ≤ i ∧ i < data.toNat + queue.flatten.length then
        queue.flatten.getD (i - data.toNat) 0
      else f i := by
  induction queue generalizing c f data with
  | nil =>
      refine ⟨c, rfl, h.congr fun i _ => ?_⟩
      rw [List.flatten_nil, List.length_nil, if_neg (by omega)]
  | cons q queue ih =>
      rw [List.flatten_cons, List.length_append] at hle
      have hsize : (UInt64.ofNat q.length).toNat = q.length := by
        rw [UInt64.toNat_ofNat']
        exact Nat.mod_eq_of_lt (by omega)
      have hdata : (data + UInt64.ofNat q.length).toNat = data.toNat + q.length := by
        rw [toNat_add_of_lt (by omega), hsize]
      rcases holds_put h (by omega : data.toNat + (UInt64.ofNat q.length).toNat ≤ n) (q.getD · 0)
        with ⟨c₁, hput, hc₁⟩
      have hnext : (data + UInt64.ofNat q.length).toNat + queue.flatten.length ≤ n := by omega
      rcases ih hc₁ hnext with ⟨c₂, hrest, hc₂⟩
      refine ⟨c₂, by rw [dequeuePack, hput]; exact hrest, hc₂.congr fun i _ => ?_⟩
      rw [hdata, hsize, List.flatten_cons, List.length_append, Padded.getD_append]
      by_cases hq : data.toNat ≤ i ∧ i < data.toNat + q.length
      · rw [if_neg (by omega), if_pos hq, if_pos (by omega), if_pos (by omega)]
      · by_cases hin : data.toNat + q.length ≤ i ∧
            i < data.toNat + q.length + queue.flatten.length
        · have hoffs : i - (data.toNat + q.length) = i - data.toNat - q.length := by omega
          rw [if_pos hin, if_pos (by omega), if_neg (by omega), hoffs]
        · rw [if_neg hin, if_neg hq, if_neg (by omega)]

end Steps

/-! ## `buf_insert_size` -/

section Calls

variable {pos n : UInt64}

/-- The cells of an insertion, in the terms of the code. -/
theorem getD_insertAt_bytes (t xs : List UInt8) (pos i : Nat) :
    (Padded.insertAt 0 t pos xs).getD i 0 =
      if pos ≤ i ∧ i < pos + xs.length then xs.getD (i - pos) 0
      else if pos + xs.length ≤ i ∧ i < t.length + xs.length then t.getD (i - xs.length) 0
      else if i < pos then t.getD i 0 else 0 := by
  rw [Padded.getD_insertAt]
  by_cases hlow : i < pos
  · rw [if_pos hlow, if_neg (by omega), if_neg (by omega), if_pos hlow]
  · rw [if_neg hlow]
    by_cases hin : i < pos + xs.length
    · rw [if_pos hin, if_pos (by omega)]
    · rw [if_neg hin, if_neg (by omega)]
      by_cases hback : i < t.length + xs.length
      · rw [if_pos (by omega)]
      · rw [if_neg (by omega), if_neg hlow, List.getD_eq_default _ _ (by omega)]

theorem insertRight_none (from_ : Buf) (h : Area.Fits (16 + (pos.toNat + n.toNat))) :
    InsertRight none from_ pos n := by
  have hcopy : CopyRight none from_ pos 0 n := by
    rw [copyRight_iff from_ none h (by rw [UInt64.toNat_zero, Nat.zero_add]; exact n.toNat_lt)]
    exact ⟨by rw [UInt64.toNat_zero, Nat.zero_sub]; exact Nat.zero_le _, fun _ _ _ => rfl⟩
  intro junk
  have hbytes := hcopy junk
  rw [UInt64.toNat_zero, List.drop_zero] at hbytes
  show Leaves (bufCopy junk none from_.toRaw pos 0 n) _
  simpa only [Padded.overwrite, Padded.insertAt, contents, List.drop_nil, Option.map_none]
    using hbytes

theorem insertRight_some (to_ from_ : Buf)
    (h : Area.Fits (16 + (max pos.toNat to_.size.toNat + n.toNat))) :
    InsertRight (some to_) from_ pos n := by
  intro junk
  have hpart : (from_.bytes.takeD n.toNat 0).length = n.toNat := List.takeD_length _ _ _
  have hfits := h
  unfold Area.Fits at hfits
  have hsize : (Macros.max pos to_.size + n).toNat = max pos.toNat to_.size.toNat + n.toNat := by
    rw [toNat_add_of_lt (by rw [toNat_max]; omega), toNat_max]
  have hmin := toNat_min from_.size n
  have hzero : (0 : UInt64).toNat = 0 := rfl
  rw [← hsize] at h
  rcases holds_bufExpand junk to_.holds h with ⟨c₀, g, hexpand, hc₀, hg⟩
  rcases holds_moveUp hc₀ hsize.ge (by omega) with ⟨c₁, hmove, hc₁⟩
  rcases holds_bufCopy hc₁ from_.holds pos 0 (Macros.min from_.size n) (by omega) (by omega)
    with ⟨c₂, hcopy, hc₂⟩
  rcases holds_zeroBetween hc₂ (fun _ => (Nat.zero_add to_.size.toNat).symm)
    (by omega : 0 + pos.toNat ≤ _) with ⟨c₃, hgap, hc₃⟩
  have hend : from_.size.toNat < n.toNat →
      (pos + from_.size).toNat = pos.toNat + from_.size.toNat :=
    fun hlt => toNat_add_of_lt (by omega)
  rcases holds_zeroBetween hc₃ hend (by omega : pos.toNat + n.toNat ≤ _)
    with ⟨c₄, hfill, hc₄⟩
  have hrun : bufInsertSize junk (some to_.toRaw) from_.toRaw pos n =
      .ok ({ chunk := c₄, size := Macros.max pos to_.size + n }, true) := by
    simp only [bufInsertSize, hexpand, hmove, hcopy, hgap, hfill, bind, Except.bind]
  rw [Option.map_some, hrun, leaves_iff hc₄]
  refine ⟨?_, fun i hi => ?_⟩
  · rw [Padded.length_insertAt, contents, to_.length_bytes, hpart, hsize]
  · rw [getD_insertAt_bytes, contents, to_.length_bytes, hpart]
    by_cases hin : pos.toNat ≤ i ∧ i < pos.toNat + n.toNat
    · rw [if_pos hin, Padded.getD_takeD, if_pos (by omega)]
      by_cases hread : i - pos.toNat < from_.size.toNat
      · rw [if_neg (by omega), if_neg (by omega), if_pos (by omega), hzero, Nat.zero_add]
      · rw [if_pos (by omega), from_.getD_of_le (by omega)]
    · have hfilled : ¬(pos.toNat + from_.size.toNat ≤ i ∧ i < pos.toNat + n.toNat) := by omega
      have hcopied : ¬(pos.toNat ≤ i ∧ i < pos.toNat + (Macros.min from_.size n).toNat) := by omega
      rw [if_neg hin, if_neg hfilled, if_neg hcopied]
      by_cases hback : pos.toNat + n.toNat ≤ i ∧ i < to_.size.toNat + n.toNat
      · rw [if_pos hback, if_neg (by omega), if_pos hback, hg _ (by omega)]
      · rw [if_neg hback, if_neg hback, if_pos (by omega : i < pos.toNat)]
        by_cases hlow : i < to_.size.toNat
        · rw [if_neg (by omega), hg i hlow]
        · rw [if_pos (by omega), to_.getD_of_le (by omega)]

end Calls

/-! ## `buf_insert_pack` -/

section Packs

variable {host : Endian}

/-- The size that the packer counts is that of its queue. -/
def PackState.Counted (s : PackState) : Prop := s.totsize = s.queue.flatten.length

theorem PackState.Counted.add {s : PackState} (h : s.Counted) (bs : List UInt8)
    (args : List PackArg) : (s.add bs args).Counted := by
  unfold PackState.Counted PackState.add idle at *
  by_cases hbs : bs = []
  · subst hbs
    simpa using h
  · simp only [if_neg hbs, List.flatten_append, List.length_append, h]
    simp

/-- A directive queues a block and takes arguments, if it does anything. -/
theorem packDirective_cases {s s' : PackState} {c : Char}
    (hd : packDirective host s c = some (.ok s')) : ∃ bs args, s' = s.add bs args := by
  have hadd : ∀ (bs : List UInt8) (args : List PackArg),
      some (Except.ok (s.add bs args)) = some (Except.ok s' : Except Stop PackState) →
      ∃ bs args, s' = s.add bs args := by
    intro bs args heq
    injection heq with heq
    injection heq with heq
    exact ⟨bs, args, heq.symm⟩
  unfold packDirective at hd
  split at hd
  · split at hd
    · exact hadd _ _ hd
    · split at hd
      · exact hadd _ _ hd
      · nomatch hd
    · nomatch hd
  · split at hd
    · exact hadd _ _ hd
    · nomatch hd
  · split at hd
    · exact hadd _ _ hd
    · exact hadd _ _ hd
    · nomatch hd
  · dsimp only at hd
    split at hd
    · split at hd
      · exact hadd _ _ hd
      · nomatch hd
    · nomatch hd
  · dsimp only at hd
    split at hd
    · split at hd
      · exact hadd _ _ hd
      · nomatch hd
    · nomatch hd
  · exact hadd _ _ hd
  · nomatch hd

theorem counted_packLoop {fmt : List Char} {s s' : PackState} (h : s.Counted)
    (hp : packLoop host fmt s = .ok s') : s'.Counted := by
  fun_induction packLoop host fmt s with
  | case1 s =>
      injection hp with hp
      exact hp ▸ h
  | case2 _ _ _ _ ih => exact ih h hp
  | case3 _ _ _ _ _ ih => exact ih (h.add _ _) hp
  | case4 _ _ _ _ _ r hr ih =>
      rcases exists_of_bind_eq_ok hp with ⟨s₁, rfl, hp⟩
      rcases packDirective_cases hr with ⟨bs, args, rfl⟩
      exact ih _ (h.add bs args) hp
  | case5 => nomatch hp
  | case6 _ _ _ _ _ _ ih => exact ih h hp
  | case7 _ _ _ _ _ _ _ _ _ ih => exact ih h hp
  | case8 _ _ _ _ _ _ _ _ ih => exact ih h hp
  | case9 _ _ _ _ _ _ _ _ _ ih => exact ih h hp
  | case10 _ _ _ _ _ _ _ _ _ _ ih => exact ih h hp
  | case11 _ _ _ _ _ _ _ _ _ _ _ _ ih => exact ih (h.add _ _) hp

variable {c : Chunk} {n : Nat} {f : Nat → UInt8} {buf : Buf} {pos size : UInt64}

theorem holds_makeRoom (h : Holds c n f) {old : UInt64}
    (hle : max pos.toNat old.toNat + size.toNat ≤ n) (hn : n < 2 ^ 64) :
    ∃ c', (if pos < old then Macros.bufMove c pos size (old - pos)
        else if old < pos then Macros.bufZero c old (pos - old) else .ok c) = .ok c' ∧
      Holds c' n fun i =>
        if pos.toNat + size.toNat ≤ i ∧ i < old.toNat + size.toNat then f (i - size.toNat)
        else if old.toNat ≤ i ∧ i < pos.toNat then 0 else f i := by
  by_cases hlt : pos < old
  · rcases holds_moveUp h hle hn with ⟨c', hmove, hc'⟩
    rw [if_pos hlt] at hmove ⊢
    rw [UInt64.lt_iff_toNat_lt] at hlt
    refine ⟨c', hmove, hc'.congr fun i _ => ?_⟩
    split
    · rfl
    · rw [if_neg (by omega)]
  · rcases holds_zeroBetween h (fun _ => (Nat.zero_add old.toNat).symm)
      (by omega : 0 + pos.toNat ≤ n) with ⟨c', hzero, hc'⟩
    rw [if_neg hlt]
    rw [UInt64.lt_iff_toNat_lt] at hlt
    refine ⟨c', hzero, hc'.congr fun i _ => ?_⟩
    rw [if_neg (by omega : ¬(pos.toNat + size.toNat ≤ i ∧ i < old.toNat + size.toNat)),
      Nat.zero_add, Nat.zero_add]

theorem bufInsertQueue_leaves (junk : Nat → UInt8) {queue : List (List UInt8)}
    (hqueue : size.toNat = queue.flatten.length)
    (h : Area.Fits (16 + (max pos.toNat buf.size.toNat + size.toNat))) :
    Leaves (bufInsertQueue junk buf.toRaw pos size queue)
      (Padded.insertAt 0 buf.bytes pos.toNat queue.flatten) := by
  have hfits := h
  unfold Area.Fits at hfits
  have hsize : (Macros.max pos buf.size + size).toNat =
      max pos.toNat buf.size.toNat + size.toNat := by
    rw [toNat_add_of_lt (by rw [toNat_max]; omega), toNat_max]
  rw [← hsize] at h
  rcases holds_bufExpand junk buf.holds h with ⟨c₀, g, hexpand, hc₀, hg⟩
  rcases holds_makeRoom hc₀ hsize.ge (by omega) with ⟨c₁, hroom, hc₁⟩
  rcases holds_dequeuePack (by omega) hc₁
    (by omega : pos.toNat + queue.flatten.length ≤ _) with ⟨c₂, hwrite, hc₂⟩
  have hrun : bufInsertQueue junk buf.toRaw pos size queue =
      .ok ({ chunk := c₂, size := Macros.max pos buf.size + size }, true) := by
    simp only [bufInsertQueue, hexpand, hroom, hwrite, bind, Except.bind]
  rw [hrun, leaves_iff hc₂]
  refine ⟨?_, fun i hi => ?_⟩
  · rw [Padded.length_insertAt, buf.length_bytes, hsize, hqueue]
  · rw [getD_insertAt_bytes, buf.length_bytes, hqueue]
    by_cases hin : pos.toNat ≤ i ∧ i < pos.toNat + queue.flatten.length
    · rw [if_pos hin, if_pos hin]
    · rw [if_neg hin, if_neg hin]
      by_cases hback : pos.toNat + queue.flatten.length ≤ i ∧
          i < buf.size.toNat + queue.flatten.length
      · rw [if_pos hback, if_pos hback, hg _ (by omega)]
      · rw [if_neg hback, if_neg hback, if_pos (by omega : i < pos.toNat)]
        by_cases hlow : i < buf.size.toNat
        · rw [if_neg (by omega), hg i hlow]
        · rw [if_pos (by omega), buf.getD_of_le (by omega)]

variable {fmt : List Char} {args : List PackArg}

theorem bufInsertPack_some {packed : List UInt8}
    (hpack : bufNewPack host fmt args = .ok (some packed))
    (h : Area.Fits (16 + (max pos.toNat buf.size.toNat + packed.length))) (junk : Nat → UInt8) :
    Leaves (bufInsertPack junk host buf.toRaw pos fmt args)
      (Padded.insertAt 0 buf.bytes pos.toNat packed) := by
  unfold bufNewPack at hpack
  cases hloop : packLoop host fmt (idle [] 0 args) with
  | error e =>
      rw [hloop] at hpack
      cases e <;> nomatch hpack
  | ok s =>
      rw [hloop] at hpack
      injection hpack with hpack
      by_cases hpos : 0 < s.totsize
      · rw [if_pos hpos] at hpack
        injection hpack with hpack
        have hstart : (idle [] 0 args).Counted := rfl
        have hcount : s.totsize = s.queue.flatten.length := counted_packLoop hstart hloop
        unfold Area.Fits at h
        have hsize : (UInt64.ofNat s.totsize).toNat = s.queue.flatten.length := by
          rw [UInt64.toNat_ofNat', ← hcount]
          exact Nat.mod_eq_of_lt (by rw [hcount, hpack]; omega)
        have hne : UInt64.ofNat s.totsize ≠ 0 := fun hz => by
          rw [hz, UInt64.toNat_zero] at hsize
          omega
        have hfits : Area.Fits (16 + (max pos.toNat buf.size.toNat +
            (UInt64.ofNat s.totsize).toNat)) := by rwa [hsize, hpack]
        rcases bufInsertQueue_leaves junk hsize hfits with ⟨b, hrun, hbytes⟩
        refine ⟨b, ?_, by rw [hbytes, hpack]⟩
        simp only [bufInsertPack, hloop, if_neg hne, hrun]
        rfl
      · rw [if_neg hpos] at hpack
        nomatch hpack

/-- A pack of no bytes and a wrong format leave the buffer as it is. -/
theorem bufInsertPack_none (hpack : bufNewPack host fmt args = .ok none) (junk : Nat → UInt8) :
    bufInsertPack junk host buf.toRaw pos fmt args = .ok (buf.toRaw, false) := by
  unfold bufNewPack at hpack
  unfold bufInsertPack
  cases hloop : packLoop host fmt (idle [] 0 args) with
  | error e =>
      rw [hloop] at hpack
      cases e <;> first | rfl | nomatch hpack
  | ok s =>
      rw [hloop] at hpack
      injection hpack with hpack
      by_cases hpos : 0 < s.totsize
      · rw [if_pos hpos] at hpack
        nomatch hpack
      · have hzero : UInt64.ofNat s.totsize = 0 := by
          rw [Nat.eq_zero_of_not_pos hpos]
          rfl
        simp only [if_pos hzero]

end Packs

/-- `buf_insert_size` inserts, and `buf_insert_pack` inserts what has been packed if there is
any of it. -/
theorem insertRight (to_ : Option Buf) (from_ buf : Buf) (pos n : UInt64) (host : Endian)
    (fmt : List Char) (args : List PackArg)
    (hsize : Area.Fits (16 + (max pos.toNat (contents to_).length + n.toNat))) :
    InsertRight to_ from_ pos n ∧
      (∀ packed, bufNewPack host fmt args = .ok (some packed) →
        Area.Fits (16 + (max pos.toNat buf.bytes.length + packed.length)) → ∀ junk,
          Leaves (bufInsertPack junk host buf.toRaw pos fmt args)
            (Padded.insertAt 0 buf.bytes pos.toNat packed)) ∧
      (bufNewPack host fmt args = .ok none → ∀ junk,
        bufInsertPack junk host buf.toRaw pos fmt args = .ok (buf.toRaw, false)) := by
  refine ⟨?_, fun packed hpack hfits => ?_, bufInsertPack_none⟩
  · cases to_ with
    | none =>
        rw [contents, List.length_nil, Nat.max_zero] at hsize
        exact insertRight_none from_ hsize
    | some to_ =>
        rw [contents, to_.length_bytes] at hsize
        exact insertRight_some to_ from_ hsize
  · rw [buf.length_bytes] at hfits
    exact bufInsertPack_some hpack hfits

theorem bufNewPack_str (bs : List UInt8) :
    bufNewPack .little ['%', 's'] [.str bs] = .ok (if 0 < bs.length then some bs else none) := by
  have hloop : packLoop .little ['%', 's'] (idle [] 0 [.str bs]) =
      .ok ((idle [] 0 [.str bs]).add bs []) := by
    rw [pack_percent rfl, pack_directive (by decide) rfl rfl, packLoop]
    rfl
  rw [bufNewPack, hloop]
  cases bs <;> simp [PackState.add, idle]

/-- Behind `a` the string `XY` is packed with a gap, and of an empty string nothing is packed. -/
theorem insertRight_gap :
    InsertRight (some bufA) bufBC 0 1 ∧
      (∀ junk, Leaves (bufInsertPack junk .little bufA.toRaw 3 ['%', 's'] [.str [88, 89]])
        [97, 0, 0, 88, 89]) ∧
      ∀ junk, bufInsertPack junk .little bufA.toRaw 3 ['%', 's'] [.str []] =
        .ok (bufA.toRaw, false) := by
  obtain ⟨hinsert, -, -⟩ := insertRight (some bufA) bufBC bufA 0 1 .little ['%', 's'] []
    (show _ < _ by decide)
  obtain ⟨-, hpacked, -⟩ := insertRight (some bufA) bufBC bufA 3 1 .little ['%', 's']
    [.str [88, 89]] (show _ < _ by decide)
  obtain ⟨-, -, hnone⟩ := insertRight (some bufA) bufBC bufA 3 1 .little ['%', 's'] [.str []]
    (show _ < _ by decide)
  exact ⟨hinsert, hpacked [88, 89] (bufNewPack_str _) (show _ < _ by decide),
    hnone (bufNewPack_str _)⟩

/-- An empty string behind the end of `a`: no bytes are packed, and the gap is not filled. -/
theorem emptyPack_not_inserted :
    packLoop .little ['%', 's'] (idle [] 0 [.str []]) = .ok (idle [] 0 []) ∧
      ¬InsertPackRight .little bufA 3 ['%', 's'] [.str []] (idle [] 0 []).queue.flatten := by
  have hloop : packLoop .little ['%', 's'] (idle [] 0 [.str []]) = .ok (idle [] 0 []) := by
    rw [pack_percent rfl, pack_directive (by decide) rfl rfl, packLoop]
    rfl
  refine ⟨hloop, fun h => ?_⟩
  rcases h fun _ => 0 with ⟨b, v, hrun, hbytes⟩
  rw [bufInsertPack_none (by rw [bufNewPack, hloop]; rfl)] at hrun
  injection hrun with hrun
  have hsize : bufA.size = b.size := congrArg (Raw.size ∘ Prod.fst) hrun
  have hlen := congrArg List.length hbytes
  rw [b.length_bytes, ← hsize] at hlen
  exact absurd hlen (by decide)

end Buffer
end IrC6
