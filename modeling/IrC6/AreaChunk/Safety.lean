import IrC6.Base.Runs
import IrC6.AreaChunk.Walk

/-!
# Safety of the chunk allocator

`Inv` relates a chunk to the atoms that are in use.  The areas lie apart and are
filled from their start, the atoms in use and those in the free list are different
slots of areas in the tree, `free_chunk` counts the free atoms of an area, and a
deleted area has no atom in use.

Giving an atom back keeps the invariant.  An allocation keeps it as long as
`ac_clean` frees neither `ac->cur` nor, on its way, an area with another free atom, and
as long as the index of the area that it cuts an atom from does not wrap.
-/

namespace IrC6
namespace AreaChunk

/-- The atoms that have been cut from an area. -/
def Chunk.Atom (c : Chunk) (a : Area) (p : Nat) : Prop :=
  ∃ i, p = a.offs (i * c.atomSize) ∧ i * c.atomSize < a.index

/-- An address of the block of an area. -/
abbrev Chunk.InBlock (c : Chunk) (a : Area) (p : Nat) : Prop := Within Area.base c.blockSize a p

/-- An area that is filled with whole atoms, within its block. -/
structure Area.Filled (atomSize nmemb blockSize : Nat) (a : Area) : Prop where
  index_lt : a.index < 2 ^ 32
  fits : areaSize + a.index ≤ blockSize
  atoms : ∃ k ≤ nmemb, a.index = k * atomSize

abbrev Chunk.Filled (c : Chunk) : Area → Prop := Area.Filled c.atomSize c.nmemb c.blockSize

/-- An atom can be cut off at an index: the next index does not wrap, and the atom ends within
the block. -/
structure AtomFits (atomSize blockSize index : Nat) : Prop where
  index_lt : index + atomSize < 2 ^ 32
  block : areaSize + (index + atomSize) ≤ blockSize

abbrev Chunk.Fits (c : Chunk) : Nat → Prop := AtomFits c.atomSize c.blockSize

instance (atomSize blockSize index : Nat) : Decidable (AtomFits atomSize blockSize index) :=
  decidable_of_iff (index + atomSize < 2 ^ 32 ∧ areaSize + (index + atomSize) ≤ blockSize)
    ⟨fun h => ⟨h.1, h.2⟩, fun h => ⟨h.index_lt, h.block⟩⟩

structure Inv (c : Chunk) (live : List Nat) : Prop where
  atom : freeAtomSize ≤ c.atomSize
  apart : Apart Area.base c.blockSize c.tree
  filled : ∀ a ∈ c.tree, c.Filled a
  nodup : (live ++ c.freeAtoms).Nodup
  placed : ∀ p ∈ live ++ c.freeAtoms, ∃ a ∈ c.tree, c.Atom a p
  counted : ∀ a ∈ c.tree, a.isDeleted = false →
    a.freeChunk = (c.freeAtoms.filter (c.InBlock a)).length
  deleted : ∀ a ∈ c.tree, a.isDeleted = true →
    (∃ p ∈ c.freeAtoms, c.InBlock a p) ∧ ∀ p ∈ live, ¬ c.InBlock a p
  cur : ∃ a ∈ c.tree, c.cur = some a.base

variable {c : Chunk} {live : List Nat}

theorem Chunk.Atom.holds {a : Area} {p : Nat} (h : c.Atom a p) : a.Holds p := by
  obtain ⟨i, rfl, hi⟩ := h
  simp only [Area.Holds, Area.offs]
  omega

theorem Chunk.blockSize_le (c : Chunk) : c.blockSize ≤ areaSize + c.room := by
  rw [Chunk.blockSize]
  omega

theorem mem_update {tree : List Area} {b : Nat} {f : Area → Area} {x : Area} :
    x ∈ update b f tree ↔ ∃ a ∈ tree, x = if a.base = b then f a else a := by
  simp only [update, List.mem_map]
  exact exists_congr fun a => and_congr_right fun _ => eq_comm

namespace Inv

theorem areaSize_le (h : Inv c live) : areaSize ≤ c.blockSize := by
  obtain ⟨a, ha, -⟩ := h.cur
  exact Nat.le_trans (Nat.le_add_right _ _) (h.filled a ha).fits

theorem blockSize_pos (h : Inv c live) : 0 < c.blockSize :=
  Nat.lt_of_lt_of_le (by decide) h.areaSize_le

theorem tidy (h : Inv c live) : Tidy c.blockSize c.tree where
  apart := h.apart
  fits := fun a ha => (h.filled a ha).fits

/-- An area that is used from its start. -/
theorem filled_zero (h : Inv c live) {a : Area} (hindex : a.index = 0) : c.Filled a where
  index_lt := by omega
  fits := by
    rw [hindex]
    exact h.areaSize_le
  atoms := ⟨0, Nat.zero_le _, by rw [hindex, Nat.zero_mul]⟩

theorem atomSize_pos (h : Inv c live) : 0 < c.atomSize :=
  Nat.lt_of_lt_of_le (by decide) h.atom

theorem inBlock (h : Inv c live) {a : Area} (ha : a ∈ c.tree) {p : Nat} (hp : c.Atom a p) :
    c.InBlock a p :=
  h.tidy.within_of_holds ha hp.holds

theorem eq_of_inBlock (h : Inv c live) {a b : Area} (ha : a ∈ c.tree) (hb : b ∈ c.tree) {p : Nat}
    (hpa : c.InBlock a p) (hpb : c.InBlock b p) : a = b :=
  h.apart.eq_of_within ha hb hpa hpb

theorem eq_of_base (h : Inv c live) {a b : Area} (ha : a ∈ c.tree) (hb : b ∈ c.tree)
    (hab : a.base = b.base) : a = b :=
  h.apart.eq_of_base h.blockSize_pos ha hb hab

theorem slot (h : Inv c live) {a : Area} (ha : a ∈ c.tree) {k : Nat}
    (hk : a.index = k * c.atomSize) {p : Nat} (hp : p ∈ live ++ c.freeAtoms)
    (hin : c.InBlock a p) : ∃ i < k, p = a.base + areaSize + i * c.atomSize := by
  obtain ⟨b, hb, hatom⟩ := h.placed p hp
  rw [h.eq_of_inBlock hb ha (h.inBlock hb hatom) hin] at hatom
  obtain ⟨i, rfl, hi⟩ := hatom
  rw [hk] at hi
  refine ⟨i, Nat.lt_of_mul_lt_mul_right hi, ?_⟩
  rw [Area.offs]
  omega

/-- An atom of one area does not count for another. -/
theorem filter_cons_other (h : Inv c live) {a : Area} (ha : a ∈ c.tree) {p : Nat}
    (hin : c.InBlock a p) (ps : List Nat) :
    ∀ x ∈ c.tree, x ≠ a → (p :: ps).filter (c.InBlock x) = ps.filter (c.InBlock x) := by
  intro x hx hxa
  rw [List.filter_cons, if_neg]
  rw [decide_eq_true_eq]
  exact fun hpx => hxa (h.eq_of_inBlock hx ha hpx hin)

/-- One area is changed, and the atoms of the others stay as they are. -/
theorem update (h : Inv c live) {a : Area} (ha : a ∈ c.tree) {f : Area → Area}
    (hbase : ∀ x, (f x).base = x.base) {live' free' : List Nat}
    (hfilled : c.Filled (f a)) (hgrows : a.index ≤ (f a).index)
    (hnodup : (live' ++ free').Nodup)
    (hplaced : ∀ p ∈ live' ++ free', p ∈ live ++ c.freeAtoms ∨ c.Atom (f a) p)
    (hfree : ∀ x ∈ c.tree, x ≠ a →
      free'.filter (c.InBlock x) = c.freeAtoms.filter (c.InBlock x))
    (hlive : ∀ x ∈ c.tree, x ≠ a → ∀ p ∈ live', c.InBlock x p → p ∈ live)
    (hcounted : (f a).isDeleted = false →
      (f a).freeChunk = (free'.filter (c.InBlock a)).length)
    (hdeleted : (f a).isDeleted = true →
      (∃ p ∈ free', c.InBlock a p) ∧ ∀ p ∈ live', ¬ c.InBlock a p) :
    Inv { c with tree := AreaChunk.update a.base f c.tree, freeAtoms := free' } live' := by
  have himage : f a ∈ AreaChunk.update a.base f c.tree :=
    mem_update.mpr ⟨a, ha, by rw [if_pos rfl]⟩
  -- Each node is the image of the area, or another one that is as it was.
  have hcases : ∀ x ∈ AreaChunk.update a.base f c.tree, x = f a ∨ (x ∈ c.tree ∧ x ≠ a) := by
    intro x hx
    obtain ⟨y, hy, rfl⟩ := mem_update.mp hx
    split
    · rename_i hya
      exact Or.inl (by rw [h.eq_of_base hy ha hya])
    · rename_i hya
      exact Or.inr ⟨hy, fun heq => hya (by rw [heq])⟩
  have hblock : ∀ p, c.InBlock (f a) p ↔ c.InBlock a p := by
    intro p
    simp only [Chunk.InBlock, Within, hbase]
  refine ⟨h.atom, ?_, ?_, hnodup, ?_, ?_, ?_, ?_⟩
  · show Apart Area.base c.blockSize (AreaChunk.update a.base f c.tree)
    rw [Apart, AreaChunk.update, List.pairwise_map]
    refine h.apart.imp (fun hxy => ?_)
    split <;> split <;> simpa only [hbase] using hxy
  · intro x hx
    rcases hcases x hx with rfl | ⟨hx, -⟩
    · exact hfilled
    · exact h.filled x hx
  · intro p hp
    rcases hplaced p hp with hold | hnew
    · obtain ⟨x, hx, i, hpi, hi⟩ := h.placed p hold
      by_cases hxa : x = a
      · subst hxa
        refine ⟨f x, himage, i, ?_, Nat.lt_of_lt_of_le hi hgrows⟩
        rw [Area.offs, hbase]
        exact hpi
      · refine ⟨x, mem_update.mpr ⟨x, hx, ?_⟩, i, hpi, hi⟩
        rw [if_neg (fun hb => hxa (h.eq_of_base hx ha hb))]
    · exact ⟨f a, himage, hnew⟩
  · intro x hx hdel
    rcases hcases x hx with rfl | ⟨hx, hxa⟩
    · rw [hcounted hdel]
      refine congrArg List.length (List.filter_congr (fun q _ => ?_))
      exact decide_eq_decide.mpr (hblock q).symm
    · rw [h.counted x hx hdel, ← hfree x hx hxa]
      rfl
  · intro x hx hdel
    rcases hcases x hx with rfl | ⟨hx, hxa⟩
    · obtain ⟨⟨p, hp, hpa⟩, hnone⟩ := hdeleted hdel
      exact ⟨⟨p, hp, (hblock p).mpr hpa⟩, fun q hq hqa => hnone q hq ((hblock q).mp hqa)⟩
    · obtain ⟨⟨p, hp, hpx⟩, hnone⟩ := h.deleted x hx hdel
      have hmem : p ∈ free'.filter (c.InBlock x) := by
        rw [hfree x hx hxa]
        exact List.mem_filter.mpr ⟨hp, by simpa using hpx⟩
      exact ⟨⟨p, (List.mem_filter.mp hmem).1, hpx⟩,
        fun q hq hqx => hnone q (hlive x hx hxa q hq hqx) hqx⟩
  · obtain ⟨x, hx, hcur⟩ := h.cur
    refine ⟨if x.base = a.base then f x else x, mem_update.mpr ⟨x, hx, rfl⟩, ?_⟩
    rw [hcur]
    split <;> simp [hbase]

/-! ## Giving an atom back -/

section Count

variable {a : Area} {k : Nat} {taken : List Nat}

theorem length_le (h : Inv c live) (ha : a ∈ c.tree) (hindex : a.index = k * c.atomSize)
    (hnodup : taken.Nodup) (htaken : ∀ p ∈ taken, p ∈ live ++ c.freeAtoms ∧ c.InBlock a p) :
    taken.length ≤ k :=
  length_le_of_slots hnodup (fun p hp => h.slot ha hindex (htaken p hp).1 (htaken p hp).2)

/-- No area has more atoms than fit into it, so the counter does not wrap. -/
theorem count_lt (h : Inv c live) (ha : a ∈ c.tree) (hnodup : taken.Nodup)
    (htaken : ∀ p ∈ taken, p ∈ live ++ c.freeAtoms ∧ c.InBlock a p) :
    taken.length < deletedMark := by
  obtain ⟨k, hk, hindex⟩ := (h.filled a ha).atoms
  have hle := h.length_le ha hindex hnodup htaken
  have hmul : k * 8 ≤ k * c.atomSize := Nat.mul_le_mul_left k h.atom
  have hlt := (h.filled a ha).index_lt
  rw [deletedMark]
  omega

theorem le_of_full (h : Inv c live) (ha : a ∈ c.tree) (hk : k ≤ c.nmemb)
    (hindex : a.index = k * c.atomSize) (hnodup : taken.Nodup)
    (htaken : ∀ p ∈ taken, p ∈ live ++ c.freeAtoms ∧ c.InBlock a p)
    (hfull : taken.length = c.nmemb ∨ (taken.length * c.atomSize) % 2 ^ 64 = a.index) :
    k ≤ taken.length := by
  rcases hfull with hall | hcut
  · rwa [hall]
  · have hle : taken.length * c.atomSize ≤ k * c.atomSize :=
      Nat.mul_le_mul_right _ (h.length_le ha hindex hnodup htaken)
    have hlt := (h.filled a ha).index_lt
    rw [Nat.mod_eq_of_lt (by omega), hindex] at hcut
    exact Nat.le_of_eq (Nat.eq_of_mul_eq_mul_right h.atomSize_pos hcut).symm

end Count

theorem del (h : Inv c live) {p : Nat} (hp : p ∈ live) :
    (achunkDel c p).2 = 1 ∧ Inv (achunkDel c p).1 (live.erase p) := by
  obtain ⟨a, ha, hatom⟩ := h.placed p (List.mem_append_left _ hp)
  have hblock := h.inBlock ha hatom
  have hdel : a.isDeleted = false := by
    by_contra hdel
    exact (h.deleted a ha (by simpa using hdel)).2 p hp hblock
  have hfind : rbFind c.tree p = some a := h.tidy.rbFind ha hatom.holds
  have hcount := h.counted a ha hdel
  obtain ⟨k, hk, hindex⟩ := (h.filled a ha).atoms
  -- The atoms in use and the free ones are the same as before, in another order.
  have hperm : (live.erase p ++ p :: c.freeAtoms).Perm (live ++ c.freeAtoms) :=
    List.perm_middle.trans ((List.perm_cons_erase hp).symm.append_right _)
  have hnodup : (live.erase p ++ p :: c.freeAtoms).Nodup := hperm.nodup_iff.mpr h.nodup
  have hmem : ∀ q ∈ p :: c.freeAtoms, q ∈ live ++ c.freeAtoms := fun q hq =>
    hperm.mem_iff.mp (List.mem_append_right _ hq)
  set taken := (p :: c.freeAtoms).filter (c.InBlock a) with htaken
  have htakenNodup : taken.Nodup :=
    (List.Nodup.of_append_right hnodup).sublist List.filter_sublist
  have hlength : taken.length = a.freeChunk + 1 := by
    rw [htaken, List.filter_cons, if_pos (by simpa using hblock), hcount, List.length_cons]
  have hslots : ∀ q ∈ taken, q ∈ live ++ c.freeAtoms ∧ c.InBlock a q := by
    intro q hq
    obtain ⟨hq, hqa⟩ := List.mem_filter.mp hq
    exact ⟨hmem q hq, by simpa using hqa⟩
  have hmod : (a.freeChunk + 1) % 2 ^ 32 = taken.length := by
    have hlt := h.count_lt ha htakenNodup hslots
    rw [deletedMark] at hlt
    omega
  rw [achunkDel, hfind]
  simp only [hdel, Bool.false_eq_true, if_false, hmod]
  have hlive : ∀ q ∈ live.erase p, q ∈ live := fun q hq => List.mem_of_mem_erase hq
  refine ⟨trivial, h.update ha (fun x => by split <;> rfl) ?_ (by split <;> exact Nat.le_refl _)
    hnodup (fun q hq => Or.inl (hperm.mem_iff.mp hq)) (h.filter_cons_other ha hblock _)
    (fun _ _ _ q hq _ => hlive q hq) ?_ ?_⟩
  · have hfilled := h.filled a ha
    split <;> exact ⟨hfilled.index_lt, hfilled.fits, hfilled.atoms⟩
  · split
    · intro hmark
      simp [Area.delete, Area.isDeleted] at hmark
    · exact fun _ => rfl
  · split
    · rename_i hfull
      refine fun _ => ⟨⟨p, List.mem_cons_self, hblock⟩, fun q hq hqa => ?_⟩
      obtain ⟨i, hi, rfl⟩ := h.slot ha hindex (List.mem_append_left _ (hlive q hq)) hqa
      have hle := h.le_of_full ha hk hindex htakenNodup hslots hfull
      have hmem := mem_of_slots_taken htakenNodup
        (fun q hq => h.slot ha hindex (hslots q hq).1 (hslots q hq).2) hle hi
      exact List.disjoint_of_nodup_append hnodup hq (List.mem_filter.mp hmem).1
    · intro hmark
      have hlt := h.count_lt ha htakenNodup hslots
      have hmark' : taken.length = deletedMark := by simpa [Area.isDeleted] using hmark
      omega

/-! ## Cutting off an atom -/

/-- A free atom goes back into use. -/
theorem reuse (h : Inv c live) {p : Nat} {ps : List Nat} (hfree : c.freeAtoms = p :: ps)
    {a : Area} (ha : a ∈ c.tree) (hdel : a.isDeleted = false) (hin : c.InBlock a p) :
    Inv { c with tree := AreaChunk.update a.base Area.reuse c.tree, freeAtoms := ps }
      (p :: live) := by
  have hperm : (p :: live ++ ps).Perm (live ++ c.freeAtoms) := by
    rw [hfree]
    exact List.perm_middle.symm
  have hlt : a.freeChunk < deletedMark := by
    rw [h.counted a ha hdel]
    refine h.count_lt ha ((List.Nodup.of_append_right h.nodup).sublist List.filter_sublist) ?_
    intro q hq
    obtain ⟨hq, hqa⟩ := List.mem_filter.mp hq
    exact ⟨List.mem_append_right _ hq, by simpa using hqa⟩
  have hcount := h.counted a ha hdel
  rw [hfree, List.filter_cons, if_pos (by simpa using hin), List.length_cons] at hcount
  have hchunk : a.reuse.freeChunk = (ps.filter (c.InBlock a)).length := by
    have hreuse : a.reuse.freeChunk =
        if a.freeChunk = 0 then 2 ^ 32 - 1 else a.freeChunk - 1 := rfl
    rw [hreuse, if_neg (by omega)]
    omega
  have hfilled := h.filled a ha
  refine h.update ha (f := Area.reuse) Area.base_reuse
    ⟨hfilled.index_lt, hfilled.fits, hfilled.atoms⟩ (Nat.le_refl _)
    (hperm.nodup_iff.mpr h.nodup) (fun q hq => Or.inl (hperm.mem_iff.mp hq)) ?_ ?_
    (fun _ => hchunk) ?_
  · intro x hx hxa
    rw [hfree, h.filter_cons_other ha hin ps x hx hxa]
  · intro x hx hxa q hq hqx
    rcases List.mem_cons.mp hq with rfl | hq
    · exact absurd (h.eq_of_inBlock hx ha hqx hin) hxa
    · exact hq
  · intro hmark
    have hmark' : a.reuse.freeChunk = deletedMark := of_decide_eq_true hmark
    omega

/-- The next atom of an area comes into use, when no atom is free. -/
theorem take (h : Inv c live) (hfree : c.freeAtoms = []) {a : Area} (ha : a ∈ c.tree)
    (hdel : a.isDeleted = false) (hfits : c.Fits a.index) :
    Inv (takeAtom c a).1 (a.offs a.index :: live) := by
  obtain ⟨k, -, hindex⟩ := (h.filled a ha).atoms
  obtain ⟨hlt, hblockEnd⟩ := hfits
  have hpos := h.atomSize_pos
  have hnext : (a.advance c.atomSize).index = a.index + c.atomSize := Nat.mod_eq_of_lt hlt
  have hsucc : (a.advance c.atomSize).index = (k + 1) * c.atomSize := by
    rw [hnext, hindex, Nat.succ_mul]
  have hmemb : k + 1 ≤ c.nmemb := by
    have hblockSize := c.blockSize_le
    have hroom : c.room ≤ c.nmemb * c.atomSize := Nat.mod_le _ _
    refine Nat.le_of_mul_le_mul_right ?_ hpos
    rw [← hsucc, hnext]
    omega
  have hatom : c.Atom (a.advance c.atomSize) (a.offs a.index) :=
    ⟨k, by rw [hindex]; rfl, by rw [hnext, ← hindex]; omega⟩
  have hblock : c.InBlock a (a.offs a.index) := by
    rw [Chunk.InBlock, Within, Area.offs]
    omega
  have hnew : a.offs a.index ∉ live := by
    intro hmem
    obtain ⟨i, hi, hslot⟩ := h.slot ha hindex (List.mem_append_left _ hmem) hblock
    have hlt := Nat.mul_lt_mul_of_pos_right hi hpos
    rw [Area.offs, hindex] at hslot
    omega
  refine h.update ha (f := Area.advance c.atomSize) (Area.base_advance _)
    ⟨by omega, by omega, k + 1, hmemb, hsucc⟩ (by omega) ?_ ?_ (fun _ _ _ => rfl) ?_
    (fun _ => h.counted a ha hdel) (fun hmark => ?_)
  · have hnodup := h.nodup
    rw [hfree, List.append_nil] at hnodup ⊢
    exact List.nodup_cons.mpr ⟨hnew, hnodup⟩
  · intro p hp
    rw [List.cons_append, List.mem_cons] at hp
    rcases hp with rfl | hp
    · exact Or.inr hatom
    · exact Or.inl hp
  · intro x hx hxa p hp hpx
    rcases List.mem_cons.mp hp with rfl | hp
    · exact absurd (h.eq_of_inBlock hx ha hpx hblock) hxa
    · exact hp
  · rw [show (a.advance c.atomSize).isDeleted = a.isDeleted from rfl, hdel] at hmark
    cases hmark

/-! ## Cleaning -/

theorem exists_holds (h : Inv c live) {p : Nat} (hp : p ∈ live ++ c.freeAtoms) :
    ∃ a ∈ c.tree, a.Holds p ∧ c.InBlock a p ∧ rbFind c.tree p = some a := by
  obtain ⟨a, ha, hatom⟩ := h.placed p hp
  exact ⟨a, ha, hatom.holds, h.inBlock ha hatom, h.tidy.rbFind ha hatom.holds⟩

theorem find_of_inBlock (h : Inv c live) {p : Nat} (hp : p ∈ live ++ c.freeAtoms) {a : Area}
    (ha : a ∈ c.tree) (hin : c.InBlock a p) : rbFind c.tree p = some a := by
  obtain ⟨b, hb, -, hbin, hfind⟩ := h.exists_holds hp
  rw [hfind, h.eq_of_inBlock hb ha hbin hin]

/-- The deleted areas are those that the walk meets. -/
theorem isDeleted_iff (h : Inv c live) {a : Area} (ha : a ∈ c.tree) :
    a.isDeleted = true ↔ a.base ∈ retired c.tree c.freeAtoms := by
  constructor
  · intro hdel
    obtain ⟨⟨p, hp, hin⟩, -⟩ := h.deleted a ha hdel
    have hfind := h.find_of_inBlock (List.mem_append_right _ hp) ha hin
    exact mem_retired.mpr ⟨p, hp, a, hfind, hdel, rfl⟩
  · intro hmem
    obtain ⟨p, -, b, hfind, hdel, hba⟩ := mem_retired.mp hmem
    rw [← h.eq_of_base (List.mem_of_find?_eq_some hfind) ha hba]
    exact hdel

/-- What stays in a tree without its deleted areas is not deleted, and was in it or is the one
that is reset. -/
theorem pruned_cases {d : Option Nat} {gone : List Nat}
    (hgone : ∀ a ∈ c.tree, a.isDeleted = true ↔ a.base ∈ gone ∨ d = some a.base) {x : Area}
    (hx : x ∈ pruned c.tree d gone) :
    x.isDeleted = false ∧ ((x ∈ c.tree) ∨ ∃ a ∈ c.tree, a.isDeleted = true ∧ x = a.reset) := by
  obtain ⟨a, ha, hag, rfl⟩ := mem_pruned.mp hx
  split
  · rename_i hd
    exact ⟨rfl, Or.inr ⟨a, ha, (hgone a ha).mpr (Or.inr hd), rfl⟩⟩
  · rename_i hd
    have hdel : ¬ a.isDeleted = true := fun hdel => ((hgone a ha).mp hdel).elim hag hd
    exact ⟨by simpa using hdel, Or.inl ha⟩

/-- The free atoms that stay are those of areas that are not deleted. -/
theorem mem_active (h : Inv c live) {p : Nat} : p ∈ active c.tree c.freeAtoms ↔
    p ∈ c.freeAtoms ∧ ∃ a ∈ c.tree, c.InBlock a p ∧ a.isDeleted = false := by
  rw [active, List.mem_filter]
  refine and_congr_right fun hp => ?_
  obtain ⟨a, ha, -, hin, hfind⟩ := h.exists_holds (List.mem_append_right _ hp)
  rw [hfind]
  constructor
  · intro hdel
    exact ⟨a, ha, hin, by simpa using hdel⟩
  · rintro ⟨b, hb, hbin, hdel⟩
    rw [h.eq_of_inBlock hb ha hbin hin] at hdel
    simp [hdel]

/-- A tree without the deleted areas, apart from one that is reset. -/
theorem prune (h : Inv c live) (d : Option Nat) (gone : List Nat)
    (hgone : ∀ a ∈ c.tree, a.isDeleted = true ↔ a.base ∈ gone ∨ d = some a.base)
    (hcur : ∀ b, c.cur = some b → b ∉ gone) :
    Inv { c with tree := pruned c.tree d gone, freeAtoms := active c.tree c.freeAtoms } live ∧
      ∀ a ∈ pruned c.tree d gone, a.isDeleted = false := by
  have hstays : ∀ a ∈ c.tree, a.isDeleted = false → a ∈ pruned c.tree d gone := by
    intro a ha hdel
    have hkept := mt (hgone a ha).mpr (by simp [hdel])
    rw [not_or] at hkept
    exact mem_pruned.mpr ⟨a, ha, hkept.1, by rw [if_neg hkept.2]⟩
  have hsub : (active c.tree c.freeAtoms).Sublist c.freeAtoms := List.filter_sublist
  refine ⟨⟨h.atom, (h.tidy.pruned d gone).apart, ?_,
    h.nodup.sublist (hsub.append_left live), ?_, ?_, ?_, ?_⟩, fun a ha => (pruned_cases hgone ha).1⟩
  · intro x hx
    rcases (pruned_cases hgone hx).2 with hx | ⟨a, -, -, rfl⟩
    · exact h.filled x hx
    · exact h.filled_zero rfl
  · intro p hp
    rcases List.mem_append.mp hp with hp | hp
    · obtain ⟨a, ha, hatom⟩ := h.placed p (List.mem_append_left _ hp)
      refine ⟨a, hstays a ha ?_, hatom⟩
      by_contra hdel
      exact (h.deleted a ha (by simpa using hdel)).2 p hp (h.inBlock ha hatom)
    · obtain ⟨hfree, b, hb, hbin, hdel⟩ := h.mem_active.mp hp
      obtain ⟨a, ha, hatom⟩ := h.placed p (List.mem_append_right _ hfree)
      rw [h.eq_of_inBlock hb ha hbin (h.inBlock ha hatom)] at hdel
      exact ⟨a, hstays a ha hdel, hatom⟩
  · intro x hx hdel
    rcases (pruned_cases hgone hx).2 with hxt | ⟨a, ha, hadel, rfl⟩
    · -- The free atoms of an area that stays are all kept.
      rw [h.counted x hxt hdel]
      refine congrArg List.length ?_
      show _ = (active c.tree c.freeAtoms).filter (c.InBlock x)
      rw [active, List.filter_filter]
      refine List.filter_congr (fun p hp => ?_)
      by_cases hin : c.InBlock x p
      · rw [h.find_of_inBlock (List.mem_append_right _ hp) hxt hin]
        simp [hin, hdel]
      · simp [hin]
    · have hnil : (active c.tree c.freeAtoms).filter (c.InBlock a.reset) = [] := by
        refine List.filter_eq_nil_iff.mpr (fun p hp => ?_)
        obtain ⟨-, b, hb, hbin, hbdel⟩ := h.mem_active.mp hp
        rw [decide_eq_true_eq]
        intro hin
        rw [h.eq_of_inBlock hb ha hbin hin, hadel] at hbdel
        cases hbdel
      exact (congrArg List.length hnil).symm
  · intro x hx hdel
    rw [(pruned_cases hgone hx).1] at hdel
    cases hdel
  · obtain ⟨a, ha, hc⟩ := h.cur
    refine ⟨_, mem_pruned.mpr ⟨a, ha, hcur a.base hc, rfl⟩, ?_⟩
    rw [AreaChunk.base_spared]
    exact hc

/-! ## A new area -/

/-- A new area in memory that is not in use, when no atom is free. -/
theorem insert (h : Inv c live) (hfree : c.freeAtoms = []) {b : Nat}
    (hfresh : ∀ a ∈ c.tree, b + c.blockSize ≤ a.base ∨ a.base + c.blockSize ≤ b) :
    Inv { c with cur := some b, tree := rbInsert ⟨b, 0, 0⟩ c.tree } live ∧
      ⟨b, 0, 0⟩ ∈ rbInsert ⟨b, 0, 0⟩ c.tree := by
  have hpos := h.blockSize_pos
  have hnone : rbFind c.tree b = none := by
    refine List.find?_eq_none.mpr (fun a ha => ?_)
    rw [decide_eq_true_eq]
    intro heq
    obtain ⟨hlow, hhigh⟩ := h.tidy.within_of_compare hpos ha heq
    have hapart := hfresh a ha
    omega
  have hinsert : rbInsert ⟨b, 0, 0⟩ c.tree = rbPlace ⟨b, 0, 0⟩ c.tree := by
    rw [rbInsert, hnone]
    rfl
  rw [hinsert]
  have hmem : ∀ x, x ∈ rbPlace ⟨b, 0, 0⟩ c.tree ↔ x = ⟨b, 0, 0⟩ ∨ x ∈ c.tree := fun x =>
    (rbPlace_perm _ _).mem_iff.trans List.mem_cons
  refine ⟨⟨h.atom, rbPlace_apart hpos h.apart hfresh, ?_, h.nodup, ?_, ?_, ?_, ?_⟩,
    (hmem _).mpr (Or.inl rfl)⟩
  · intro x hx
    rcases (hmem x).mp hx with rfl | hx
    · exact h.filled_zero rfl
    · exact h.filled x hx
  · intro p hp
    obtain ⟨a, ha, hatom⟩ := h.placed p hp
    exact ⟨a, (hmem a).mpr (Or.inr ha), hatom⟩
  · intro x hx hdel
    rcases (hmem x).mp hx with rfl | hx
    · show 0 = (c.freeAtoms.filter _).length
      rw [hfree]
      rfl
    · exact h.counted x hx hdel
  · intro x hx hdel
    rcases (hmem x).mp hx with rfl | hx
    · cases hdel
    · exact h.deleted x hx hdel
  · exact ⟨⟨b, 0, 0⟩, (hmem _).mpr (Or.inl rfl), rfl⟩

end Inv

/-! ## One allocation -/

/-- Where an atom is cut off: at the index of `ac->cur`, and at the start of another area or of
one that is reset. -/
def Chunk.cutIndex (c : Chunk) (cur : Area) : Nat :=
  if c.room ≤ cur.index ∨ spared c.tree none c.freeAtoms = some cur.base then 0 else cur.index

/-- No atom is free, and `ac->cur` is full. -/
def Chunk.NeedsArea (c : Chunk) : Prop :=
  c.freeAtoms = [] ∧ ∀ a ∈ c.tree, c.cur = some a.base → c.room ≤ a.index

/-- `ac_clean` frees an area on its way at most once, and never `ac->cur`: the first
deleted area that it meets is freed, too, when an atom can be used again.  When none can
there is room for one where it is cut off. -/
structure Chunk.Careful (c : Chunk) : Prop where
  once : (freed c.tree none c.freeAtoms).Nodup
  keeps_cur : ∀ b ∈ freed c.tree none c.freeAtoms, c.cur ≠ some b
  spares_cur : active c.tree c.freeAtoms ≠ [] → c.cur ≠ spared c.tree none c.freeAtoms
  cut : active c.tree c.freeAtoms = [] →
    ∀ a ∈ c.tree, c.cur = some a.base → c.Fits (c.cutIndex a)

instance (c : Chunk) : Decidable c.NeedsArea := inferInstanceAs (Decidable (_ ∧ _))

instance (c : Chunk) : Decidable c.Careful :=
  decidable_of_iff ((freed c.tree none c.freeAtoms).Nodup ∧
      (∀ b ∈ freed c.tree none c.freeAtoms, c.cur ≠ some b) ∧
      (active c.tree c.freeAtoms ≠ [] → c.cur ≠ spared c.tree none c.freeAtoms) ∧
      (active c.tree c.freeAtoms = [] →
        ∀ a ∈ c.tree, c.cur = some a.base → c.Fits (c.cutIndex a)))
    ⟨fun h => ⟨h.1, h.2.1, h.2.2.1, h.2.2.2⟩, fun h => ⟨h.once, h.keeps_cur, h.spares_cur, h.cut⟩⟩

namespace Inv

theorem exists_base (h : Inv c live) {a : Area} (ha : a ∈ c.tree) :
    c.tree.find? (·.base = a.base) = some a :=
  find?_eq_some_of_unique ha (by simp)
    (fun x hx hxa => h.eq_of_base hx ha (by simpa using hxa))

/-- Without free atoms an atom is cut off, from an area that is empty if there is one. -/
theorem cutAtom (h : Inv c live) (hfree : c.freeAtoms = [])
    (hlive : ∀ a ∈ c.tree, a.isDeleted = false) {freeArea : Option Nat}
    (hempty : ∀ b, freeArea = some b → ∃ a ∈ c.tree, a.base = b ∧ a.index = 0)
    {block : Option Nat}
    (hfresh : ∀ b, block = some b →
      ∀ a ∈ c.tree, b + c.blockSize ≤ a.base ∨ a.base + c.blockSize ≤ b)
    (hfits : ∀ a ∈ c.tree, c.cur = some a.base →
      c.Fits (if a.index < c.room then a.index else 0))
    (hblock : freeArea = none → block = none → ¬ c.NeedsArea) :
    ∃ c' p, AreaChunk.cutAtom c freeArea block = .ok (c', some p) ∧ Inv c' (p :: live) := by
  obtain ⟨cur, hcur, hcb⟩ := h.cur
  have hcut := hfits cur hcur hcb
  unfold AreaChunk.cutAtom
  simp only [hcb, h.exists_base hcur]
  by_cases hfull : cur.index < c.room
  · rw [if_pos hfull] at hcut ⊢
    exact ⟨_, _, rfl, h.take hfree hcur (hlive cur hcur) hcut⟩
  · rw [if_neg hfull] at hcut ⊢
    cases freeArea with
    | some b =>
        obtain ⟨a, ha, rfl, hindex⟩ := hempty b rfl
        simp only [h.exists_base ha]
        rw [← hindex] at hcut
        exact ⟨_, _, rfl, h.take hfree ha (hlive a ha) hcut⟩
    | none =>
        cases block with
        | none =>
            refine absurd ⟨hfree, fun a ha hab => ?_⟩ (hblock rfl rfl)
            rw [hcb] at hab
            rw [h.eq_of_base ha hcur (Option.some.inj hab).symm]
            omega
        | some b =>
            obtain ⟨hinv, hmem⟩ := h.insert hfree (hfresh b rfl)
            exact ⟨_, _, rfl, hinv.take hfree hmem rfl hcut⟩

theorem spared_empty {b : Nat} (hspared : spared c.tree none c.freeAtoms = some b) :
    ∃ a ∈ pruned c.tree (spared c.tree none c.freeAtoms) (freed c.tree none c.freeAtoms),
      a.base = b ∧ a.index = 0 := by
  obtain ⟨p, -, a, hfind, -, rfl⟩ := mem_retired.mp (mem_retired_iff.mpr (Or.inr hspared))
  refine ⟨a.reset, mem_pruned.mpr ⟨a, List.mem_of_find?_eq_some hfind, ?_, ?_⟩, rfl, rfl⟩
  · exact fun hmem => of_decide_eq_true (List.mem_filter.mp hmem).2 hspared
  · rw [if_pos hspared]

/-- When the walk has found nothing to use again there was nothing to find. -/
theorem needsArea_of_clean (h : Inv c live) (hactive : active c.tree c.freeAtoms = [])
    (hspared : spared c.tree none c.freeAtoms = none)
    (hneeds : Chunk.NeedsArea { c with
      tree := pruned c.tree (spared c.tree none c.freeAtoms) (freed c.tree none c.freeAtoms),
      freeAtoms := [] }) : c.NeedsArea := by
  have hretired : retired c.tree c.freeAtoms = [] := by
    rw [spared, Option.none_or] at hspared
    exact List.head?_eq_none_iff.mp hspared
  have hfreed : freed c.tree none c.freeAtoms = [] := by
    rw [freed, hretired]
    rfl
  have hnone : c.freeAtoms = [] := by
    refine List.eq_nil_iff_forall_not_mem.mpr (fun p hp => ?_)
    obtain ⟨a, ha, -, -, hfind⟩ := h.exists_holds (List.mem_append_right live hp)
    cases hdel : a.isDeleted with
    | true =>
        have hmem := (h.isDeleted_iff ha).mp hdel
        rw [hretired] at hmem
        exact List.not_mem_nil hmem
    | false =>
        have hmem : p ∈ active c.tree c.freeAtoms :=
          List.mem_filter.mpr ⟨hp, by rw [hfind]; simp [hdel]⟩
        rw [hactive] at hmem
        exact List.not_mem_nil hmem
  rw [hspared, hfreed, pruned_nil] at hneeds
  exact ⟨hnone, hneeds.2⟩

/-- The index of `ac->cur` behind the walk, which may have reset it. -/
theorem cutIndex_clean (hcut : ∀ a ∈ c.tree, c.cur = some a.base → c.Fits (c.cutIndex a)) :
    ∀ a ∈ pruned c.tree (spared c.tree none c.freeAtoms) (freed c.tree none c.freeAtoms),
      c.cur = some a.base → c.Fits (if a.index < c.room then a.index else 0) := by
  intro a ha hcur
  obtain ⟨y, hy, -, rfl⟩ := mem_pruned.mp ha
  rw [base_spared] at hcur
  have hfits := hcut y hy hcur
  rw [Chunk.cutIndex] at hfits
  by_cases hspared : spared c.tree none c.freeAtoms = some y.base
  · rw [if_pos (Or.inr hspared)] at hfits
    rw [if_pos hspared]
    show c.Fits (if 0 < c.room then 0 else 0)
    rwa [ite_self]
  · rw [if_neg hspared]
    by_cases hroom : y.index < c.room
    · rw [if_neg (by simpa [hspared] using hroom)] at hfits
      rwa [if_pos hroom]
    · rw [if_pos (Or.inl (by omega))] at hfits
      rwa [if_neg hroom]

theorem achunkNew (h : Inv c live) (hcare : c.Careful) {block : Option Nat}
    (hfresh : ∀ b, block = some b →
      ∀ a ∈ c.tree, b + c.blockSize ≤ a.base ∨ a.base + c.blockSize ≤ b)
    (hblock : block = none → ¬ c.NeedsArea) :
    ∃ c' p, AreaChunk.achunkNew c block = .ok (c', some p) ∧ Inv c' (p :: live) := by
  obtain ⟨hnodup, hcurFreed, hcurSpared, hcut⟩ := hcare
  have hatoms : ∀ p ∈ c.freeAtoms, ∃ a ∈ c.tree, a.Holds p := by
    intro p hp
    obtain ⟨a, ha, hap, -⟩ := h.exists_holds (List.mem_append_right live hp)
    exact ⟨a, ha, hap⟩
  cases hactive : active c.tree c.freeAtoms with
  | cons p ps =>
      -- A free atom is used again, and the area that was reset is freed.
      obtain ⟨hinv, hlive⟩ := h.prune (spared c.tree none c.freeAtoms)
        (freed c.tree none c.freeAtoms ++ (spared c.tree none c.freeAtoms).toList)
        (fun a ha => by
          rw [h.isDeleted_iff ha, mem_retired_iff, List.mem_append, Option.mem_toList]
          exact ⟨fun hr => Or.inl hr, fun hr => hr.elim id Or.inr⟩)
        (fun b hb => by
          rw [List.mem_append, Option.mem_toList, not_or]
          exact ⟨fun hmem => hcurFreed b hmem hb,
            fun hs => hcurSpared (by simp [hactive]) (hb.trans hs.symm)⟩)
      rw [hactive] at hinv
      obtain ⟨a, ha, -, hin, -⟩ :=
        hinv.exists_holds (List.mem_append_right live (List.mem_cons_self (l := ps)))
      have harea : areaOf c.tree p = some a.base := by
        obtain ⟨y, hy, -, rfl⟩ := mem_pruned.mp ha
        rw [Chunk.InBlock, Within, base_spared] at hin
        have hp : p ∈ active c.tree c.freeAtoms := by rw [hactive]; exact List.mem_cons_self
        rw [areaOf, h.find_of_inBlock (List.mem_append_right _ (List.mem_of_mem_filter hp)) hy hin,
          base_spared]
        rfl
      have hclean := acClean_cons h.tidy hatoms hnodup hactive
      rw [AreaChunk.achunkNew, hclean]
      simp only [bind, Except.bind, harea]
      exact ⟨_, p, rfl, hinv.reuse rfl ha (hlive a ha) hin⟩
  | nil =>
      obtain ⟨hinv, hlive⟩ := h.prune (spared c.tree none c.freeAtoms)
        (freed c.tree none c.freeAtoms)
        (fun a ha => (h.isDeleted_iff ha).trans mem_retired_iff)
        (fun b hb hmem => hcurFreed b hmem hb)
      rw [hactive] at hinv
      have hclean := acClean_nil h.tidy hatoms hnodup hactive
      have hfresh' : ∀ b, block = some b → ∀ a ∈ pruned c.tree (spared c.tree none c.freeAtoms)
          (freed c.tree none c.freeAtoms), b + c.blockSize ≤ a.base ∨ a.base + c.blockSize ≤ b := by
        intro b hb a ha
        obtain ⟨y, hy, -, rfl⟩ := mem_pruned.mp ha
        rw [base_spared]
        exact hfresh b hb y hy
      rw [AreaChunk.achunkNew, hclean]
      exact hinv.cutAtom rfl hlive (fun b hb => spared_empty hb) hfresh'
        (cutIndex_clean (hcut hactive))
        (fun hspared hb hneeds => hblock hb (h.needsArea_of_clean hactive hspared hneeds))

end Inv

/-! ## Runs -/

/-- A chunk and the atoms in use. -/
structure State where
  chunk : Chunk
  live : List Nat
deriving DecidableEq, Repr

/-- An allocation, with the block that a new area would get, or an atom given back. -/
inductive Op where
  | new (block : Option Nat)
  | del (p : Nat)

/-- The atoms in use are apart and are slots in the blocks of areas in the tree, and `ac->cur`
is one of these areas. -/
structure State.Safe (s : State) : Prop where
  cur : ∃ a ∈ s.chunk.tree, s.chunk.cur = some a.base
  slots : ∀ p ∈ s.live, ∃ a ∈ s.chunk.tree, ∃ i < s.chunk.nmemb,
    p = a.offs (i * s.chunk.atomSize) ∧ p + s.chunk.atomSize ≤ a.base + s.chunk.blockSize
  apart : s.live.Pairwise fun p q =>
    p + s.chunk.atomSize ≤ q ∨ q + s.chunk.atomSize ≤ p

namespace Op

def run (s : State) : Op → Except Fault (State × Option Nat)
  | new block => do
      let (c, p) ← achunkNew s.chunk block
      .ok ({ chunk := c, live := p.toList ++ s.live }, p)
  | del p => .ok ({ chunk := (achunkDel s.chunk p).1, live := s.live.erase p }, none)

/-- The block of a new area is not in use, and an atom that is given back is. -/
def Allowed (s : State) : Op → Prop
  | new block => ∀ b, block = some b → ∀ a ∈ s.chunk.tree,
      b + s.chunk.blockSize ≤ a.base ∨ a.base + s.chunk.blockSize ≤ b
  | del p => p ∈ s.live

/-- The condition on an operation: an allocation frees no area that it still needs, has room
for an atom that it cuts off, and gets a block when it needs one. -/
def Careful (s : State) : Op → Prop
  | new block => s.chunk.Careful ∧ (block = none → ¬ s.chunk.NeedsArea)
  | del _ => True

instance (s : State) : (op : Op) → Decidable (op.Allowed s)
  | new none => .isTrue fun _ hb => absurd hb.symm (Option.some_ne_none _)
  | new (some b) => decidable_of_iff
      (∀ a ∈ s.chunk.tree, b + s.chunk.blockSize ≤ a.base ∨ a.base + s.chunk.blockSize ≤ b)
      ⟨fun h _ hb => Option.some.inj hb ▸ h, fun h => h b rfl⟩
  | del p => inferInstanceAs (Decidable (p ∈ s.live))

instance (s : State) : (op : Op) → Decidable (op.Careful s)
  | new block => inferInstanceAs (Decidable (_ ∧ (block = none → _)))
  | del _ => .isTrue trivial

end Op

namespace Inv

theorem atom_end (h : Inv c live) {a : Area} (ha : a ∈ c.tree) {p : Nat} (hp : c.Atom a p) :
    a.base ≤ p ∧ p + c.atomSize ≤ a.base + c.blockSize := by
  obtain ⟨i, rfl, hi⟩ := hp
  obtain ⟨k, -, hindex⟩ := (h.filled a ha).atoms
  have hfits := (h.filled a ha).fits
  rw [hindex] at hi hfits
  have hle : (i + 1) * c.atomSize ≤ k * c.atomSize :=
    Nat.mul_le_mul_right _ (Nat.lt_of_mul_lt_mul_right hi)
  rw [Nat.succ_mul] at hle
  rw [Area.offs]
  exact ⟨by omega, by omega⟩

theorem atoms_apart (h : Inv c live) {p q : Nat} (hp : p ∈ live) (hq : q ∈ live) (hpq : p ≠ q) :
    p + c.atomSize ≤ q ∨ q + c.atomSize ≤ p := by
  obtain ⟨a, ha, hpa⟩ := h.placed p (List.mem_append_left _ hp)
  obtain ⟨b, hb, hqb⟩ := h.placed q (List.mem_append_left _ hq)
  rcases h.apart.apart_or_eq ha hb with rfl | hab | hba
  · obtain ⟨i, rfl, -⟩ := hpa
    obtain ⟨j, rfl, -⟩ := hqb
    have hij : i ≠ j := fun hij => hpq (by rw [hij])
    have hslots := slots_disjoint hij (a.base + areaSize) c.atomSize
    simp only [Area.offs]
    omega
  · have hpe := h.atom_end ha hpa
    have hqe := h.atom_end hb hqb
    exact Or.inl (by omega)
  · have hpe := h.atom_end ha hpa
    have hqe := h.atom_end hb hqb
    exact Or.inr (by omega)

theorem safe {s : State} (h : Inv s.chunk s.live) : s.Safe where
  cur := h.cur
  slots := by
    intro p hp
    obtain ⟨a, ha, hatom⟩ := h.placed p (List.mem_append_left _ hp)
    have hend := (h.atom_end ha hatom).2
    obtain ⟨i, hpi, hi⟩ := hatom
    obtain ⟨k, hk, hindex⟩ := (h.filled a ha).atoms
    rw [hindex] at hi
    exact ⟨a, ha, i, Nat.lt_of_lt_of_le (Nat.lt_of_mul_lt_mul_right hi) hk, hpi, hend⟩
  apart := by
    have hne := List.nodup_iff_pairwise_ne.mp (List.Nodup.of_append_left h.nodup)
    exact hne.imp_of_mem (fun hp hq hpq => h.atoms_apart hp hq hpq)

/-- An operation that meets the condition does not fault, and keeps the invariant. -/
theorem step {s : State} (h : Inv s.chunk s.live) {op : Op} (hallowed : op.Allowed s)
    (hcare : op.Careful s) : ∃ s' r, op.run s = .ok (s', r) ∧ Inv s'.chunk s'.live := by
  cases op with
  | new block =>
      obtain ⟨c, p, hnew, hinv⟩ := h.achunkNew hcare.1 hallowed hcare.2
      refine ⟨{ chunk := c, live := p :: s.live }, some p, ?_, hinv⟩
      rw [Op.run, hnew]
      rfl
  | del p => exact ⟨_, _, rfl, (h.del hallowed).2⟩

end Inv

theorem areaChunkNew_eq {atomSize nmemb : Nat} {block : Option Nat} {c : Chunk}
    (hnew : areaChunkNew atomSize nmemb block = some c) : freeAtomSize ≤ atomSize ∧
      ∃ b, c = ⟨atomSize, nmemb, some b, [⟨b, 0, 0⟩], []⟩ := by
  unfold areaChunkNew at hnew
  split at hnew
  · cases hnew
  · rename_i hatom
    obtain ⟨b, -, rfl⟩ := Option.map_eq_some_iff.mp hnew
    exact ⟨Nat.not_lt.mp hatom, b, rfl⟩

section Start

variable {atomSize nmemb b : Nat}

theorem inv_start (hatom : freeAtomSize ≤ atomSize) {c : Chunk}
    (hc : c = ⟨atomSize, nmemb, some b, [⟨b, 0, 0⟩], []⟩) (hsize : areaSize ≤ c.blockSize) :
    Inv c [] := by
  subst hc
  refine ⟨hatom, List.pairwise_singleton _ _, ?_, List.nodup_nil,
    fun p hp => absurd hp List.not_mem_nil, ?_, ?_, ⟨_, List.mem_cons_self, rfl⟩⟩
  · intro a ha
    rw [List.mem_singleton.mp ha]
    exact ⟨Nat.two_pow_pos 32, hsize, 0, Nat.zero_le _, (Nat.zero_mul _).symm⟩
  · intro a ha _
    rw [List.mem_singleton.mp ha]
    rfl
  · intro a ha hdel
    rw [List.mem_singleton.mp ha] at hdel
    cases hdel

/-- A block without room for the header of an area, since its size has wrapped, has none for an
atom. -/
theorem start_idle {c : Chunk} (hc : c = ⟨atomSize, nmemb, some b, [⟨b, 0, 0⟩], []⟩)
    (hsize : ¬ areaSize ≤ c.blockSize) (op : Op) :
    ¬ (op.Allowed ⟨c, []⟩ ∧ op.Careful ⟨c, []⟩) := by
  subst hc
  rintro ⟨hallowed, hcare⟩
  cases op with
  | new block =>
      have hblock := (hcare.1.cut rfl _ List.mem_cons_self rfl).block
      exact hsize (Nat.le_trans (Nat.le_add_right _ _) hblock)
  | del p => exact List.not_mem_nil hallowed

theorem safe_start {c : Chunk} (hc : c = ⟨atomSize, nmemb, some b, [⟨b, 0, 0⟩], []⟩) :
    State.Safe ⟨c, []⟩ := by
  subst hc
  exact ⟨⟨_, List.mem_cons_self, rfl⟩, fun p hp => absurd hp List.not_mem_nil, List.Pairwise.nil⟩

end Start

/-- In every run whose operations meet the condition the atoms in use are different
slots of areas in the tree, `ac->cur` is in the tree, and the next such operation does
not fault. -/
theorem achunk_safe (atomSize nmemb : Nat) (block : Option Nat) {c : Chunk}
    (hnew : areaChunkNew atomSize nmemb block = some c) {s : State}
    (h : Reaches Op.run (fun s op => op.Allowed s ∧ op.Careful s) ⟨c, []⟩ s) :
    s.Safe ∧ ∀ op : Op, op.Allowed s → op.Careful s →
      ∃ s' r, op.run s = .ok (s', r) ∧ s'.Safe := by
  obtain ⟨hatom, b, hc⟩ := areaChunkNew_eq hnew
  by_cases hsize : areaSize ≤ c.blockSize
  · have hinv := h.invariant (I := fun s => Inv s.chunk s.live) (inv_start hatom hc hsize)
      (fun s s' op r hinv hop hrun => by
        obtain ⟨s₁, r₁, hrun₁, hinv₁⟩ := hinv.step hop.1 hop.2
        rw [hrun] at hrun₁
        cases hrun₁
        exact hinv₁)
    refine ⟨hinv.safe, fun op hallowed hcare => ?_⟩
    obtain ⟨s', r, hrun, hinv'⟩ := hinv.step hallowed hcare
    exact ⟨s', r, hrun, hinv'.safe⟩
  · have hs : s = ⟨c, []⟩ := h.invariant (I := fun s => s = ⟨c, []⟩) rfl
      (fun s s' op r hs hop _ => absurd (hs ▸ hop) (start_idle hc hsize op))
    rw [hs]
    exact ⟨safe_start hc, fun op hallowed hcare =>
      absurd ⟨hallowed, hcare⟩ (start_idle hc hsize op)⟩

def twoAtoms (cur : Nat) (tree : List Area) (freeAtoms : List Nat) : Chunk :=
  { atomSize := 8, nmemb := 2, cur := some cur, tree := tree, freeAtoms := freeAtoms }

/-- Four atoms in two areas.  Both atoms of the first area are given back, so that it is reset
and used again from its start, and then one of the second area, which is used again. -/
theorem achunk_safe_twoAreas :
    let s : State :=
      ⟨twoAtoms 2000 [⟨1000, 8, 0⟩, ⟨2000, 16, 0⟩] [], [2040, 1040, 2048]⟩
    s.Safe ∧ ∀ op : Op, op.Allowed s → op.Careful s → ∃ s' r, op.run s = .ok (s', r) ∧ s'.Safe := by
  have h₂ : Reaches Op.run (fun s op => op.Allowed s ∧ op.Careful s)
      ⟨twoAtoms 1000 [⟨1000, 0, 0⟩] [], []⟩
      ⟨twoAtoms 1000 [⟨1000, 16, 0⟩] [], [1048, 1040]⟩ :=
    .step (.new none) (.step (.new none) .start (by decide) rfl) (by decide) rfl
  have h₄ : Reaches Op.run (fun s op => op.Allowed s ∧ op.Careful s)
      ⟨twoAtoms 1000 [⟨1000, 0, 0⟩] [], []⟩
      ⟨twoAtoms 2000 [⟨1000, 16, 0⟩, ⟨2000, 16, 0⟩] [], [2048, 2040, 1048, 1040]⟩ :=
    .step (.new none) (.step (.new (some 2000)) h₂ (by decide) rfl) (by decide) rfl
  have h₆ : Reaches Op.run (fun s op => op.Allowed s ∧ op.Careful s)
      ⟨twoAtoms 1000 [⟨1000, 0, 0⟩] [], []⟩
      ⟨twoAtoms 2000 [⟨1000, 16, deletedMark⟩, ⟨2000, 16, 0⟩] [1048, 1040], [2048, 2040]⟩ :=
    .step (.del 1048) (.step (.del 1040) h₄ (by decide) rfl) (by decide) rfl
  have h₈ : Reaches Op.run (fun s op => op.Allowed s ∧ op.Careful s)
      ⟨twoAtoms 1000 [⟨1000, 0, 0⟩] [], []⟩
      ⟨twoAtoms 2000 [⟨1000, 8, 0⟩, ⟨2000, 16, 1⟩] [2040], [1040, 2048]⟩ :=
    .step (.del 2040) (.step (.new none) h₆ (by decide) rfl) (by decide) rfl
  exact achunk_safe 8 2 (some 1000) rfl (.step (.new none) h₈ (by decide) rfl)

/-- Three atoms in two areas, of which the first and the last are given back: the next
allocation uses the first again and frees the second area, which is `ac->cur`. -/
theorem achunk_unsafe_curFreed :
    ¬ ∀ s, Reaches Op.run (fun s op => op.Allowed s) ⟨twoAtoms 1000 [⟨1000, 0, 0⟩] [], []⟩ s →
      s.Safe := by
  intro h
  have h₂ : Reaches Op.run (fun s op => op.Allowed s) ⟨twoAtoms 1000 [⟨1000, 0, 0⟩] [], []⟩
      ⟨twoAtoms 1000 [⟨1000, 16, 0⟩] [], [1048, 1040]⟩ :=
    .step (.new none)
      (.step (.new none) .start (fun _ hb => absurd hb.symm (Option.some_ne_none _)) rfl)
      (fun _ hb => absurd hb.symm (Option.some_ne_none _)) rfl
  have h₃ : Reaches Op.run (fun s op => op.Allowed s) ⟨twoAtoms 1000 [⟨1000, 0, 0⟩] [], []⟩
      ⟨twoAtoms 2000 [⟨1000, 16, 0⟩, ⟨2000, 8, 0⟩] [], [2040, 1048, 1040]⟩ := by
    refine .step (.new (some 2000)) h₂ (fun b hb a ha => ?_) rfl
    cases hb
    rw [List.mem_singleton.mp ha]
    decide
  have h₅ : Reaches Op.run (fun s op => op.Allowed s) ⟨twoAtoms 1000 [⟨1000, 0, 0⟩] [], []⟩
      ⟨twoAtoms 2000 [⟨1000, 16, 1⟩, ⟨2000, 8, deletedMark⟩] [2040, 1040], [1048]⟩ :=
    .step (.del 2040) (.step (.del 1040) h₃ (by decide : 1040 ∈ [2040, 1048, 1040]) rfl)
      (by decide : 2040 ∈ [2040, 1048]) rfl
  have h₆ := h ⟨twoAtoms 2000 [⟨1000, 16, 0⟩] [], [1040, 1048]⟩
    (.step (.new none) h₅ (fun _ hb => absurd hb.symm (Option.some_ne_none _)) rfl)
  obtain ⟨a, ha, hcur⟩ := h₆.cur
  rw [List.mem_singleton.mp ha] at hcur
  cases hcur

end AreaChunk
end IrC6
