import IrC6.AreaChunk.Chunk

/-!
# What cleaning does

The walk of `ac_clean` over a list of atoms, in closed form.  Of the areas that are
marked as deleted the first one met is reset and the others are freed.  Of the atoms
in the other areas the first one is taken out, and the others stay.

The walk reads a freed block when it frees an area that has another atom further
down the list.
-/

namespace IrC6
namespace AreaChunk

/-- An address in the used part of an area. -/
def Area.Holds (a : Area) (p : Nat) : Prop := a.base + areaSize ≤ p ∧ p < a.offs a.index

/-- The areas of a tree lie apart, and each is filled within its block. -/
structure Tidy (size : Nat) (tree : List Area) : Prop where
  apart : Apart Area.base size tree
  fits : ∀ a ∈ tree, areaSize + a.index ≤ size

theorem treeCompare_eq_iff {p : Nat} {a : Area} :
    treeCompare p a = .eq ↔ p = a.base ∨ (a.base < p ∧ p < a.offs a.index) := by
  unfold treeCompare
  split
  · simp [*]
  · split
    · simp only [reduceCtorEq, false_iff]
      omega
    · split
      · simp only [true_iff]
        omega
      · simp only [reduceCtorEq, false_iff]
        omega

namespace Tidy

variable {size : Nat} {tree : List Area}

theorem within_of_holds (h : Tidy size tree) {a : Area} (ha : a ∈ tree) {p : Nat}
    (hp : a.Holds p) : Within Area.base size a p := by
  have hfits := h.fits a ha
  obtain ⟨hlow, hhigh⟩ := hp
  rw [Area.offs] at hhigh
  exact ⟨by omega, by omega⟩

theorem within_of_compare (h : Tidy size tree) (hsize : 0 < size) {a : Area} (ha : a ∈ tree)
    {p : Nat} (hp : treeCompare p a = .eq) : Within Area.base size a p := by
  have hfits := h.fits a ha
  rcases treeCompare_eq_iff.mp hp with rfl | ⟨hlow, hhigh⟩
  · exact ⟨Nat.le_refl _, by omega⟩
  · rw [Area.offs] at hhigh
    exact ⟨by omega, by omega⟩

theorem size_pos (h : Tidy size tree) {a : Area} (ha : a ∈ tree) : 0 < size := by
  have hfits := h.fits a ha
  rw [areaSize] at hfits
  omega

theorem rbFind (h : Tidy size tree) {a : Area} (ha : a ∈ tree) {p : Nat} (hp : a.Holds p) :
    rbFind tree p = some a := by
  have hwithin := h.within_of_holds ha hp
  refine find?_eq_some_of_unique ha ?_ (fun x hx hxp => ?_)
  · rw [decide_eq_true_eq, treeCompare_eq_iff]
    exact Or.inr ⟨by have := hp.1; rw [areaSize] at this; omega, hp.2⟩
  · rw [decide_eq_true_eq] at hxp
    exact h.apart.eq_of_within hx ha (h.within_of_compare (h.size_pos hx) hx hxp) hwithin

end Tidy

/-! ## A new area in the tree -/

theorem rbPlace_perm (a : Area) (tree : List Area) : (rbPlace a tree).Perm (a :: tree) := by
  induction tree with
  | nil => exact List.Perm.refl _
  | cons b bs ih =>
      rw [rbPlace]
      split
      · exact List.Perm.refl _
      · exact (ih.cons b).trans (List.Perm.swap a b bs)

theorem rbPlace_apart {size : Nat} (hsize : 0 < size) {a : Area} {tree : List Area}
    (h : Apart Area.base size tree)
    (hfresh : ∀ b ∈ tree, a.base + size ≤ b.base ∨ b.base + size ≤ a.base) :
    Apart Area.base size (rbPlace a tree) := by
  induction tree with
  | nil => exact List.pairwise_singleton _ _
  | cons b bs ih =>
      obtain ⟨hb, hbs⟩ := List.pairwise_cons.mp h
      have hfreshb := hfresh b List.mem_cons_self
      rw [rbPlace]
      split
      · rename_i hlt
        have hless : a.base < b.base := by
          unfold treeCompare at hlt
          split at hlt
          · cases hlt
          · split at hlt
            · assumption
            · split at hlt <;> cases hlt
        refine List.pairwise_cons.mpr ⟨fun x hx => ?_, h⟩
        rcases List.mem_cons.mp hx with rfl | hx
        · omega
        · have hbx := hb x hx
          omega
      · rename_i hge
        have hnot : ¬ a.base < b.base := by
          intro hless
          apply hge
          unfold treeCompare
          rw [if_neg (Nat.ne_of_lt hless), if_pos hless]
        refine List.pairwise_cons.mpr ⟨fun x hx => ?_,
          ih hbs (fun x hx => hfresh x (List.mem_cons_of_mem _ hx))⟩
        rcases List.mem_cons.mp ((rbPlace_perm a bs).mem_iff.mp hx) with rfl | hx
        · omega
        · exact hb x hx

/-! ## The areas that are left -/

/-- A tree after the areas in `gone` are freed and the one at `d` is reset. -/
def pruned (tree : List Area) (d : Option Nat) (gone : List Nat) : List Area :=
  (tree.filter (·.base ∉ gone)).map fun a => if d = some a.base then a.reset else a

variable {size : Nat} {tree : List Area} {d : Option Nat} {gone : List Nat}

theorem mem_pruned {x : Area} : x ∈ pruned tree d gone ↔
    ∃ a ∈ tree, a.base ∉ gone ∧ x = if d = some a.base then a.reset else a := by
  simp only [pruned, List.mem_map, List.mem_filter, decide_eq_true_eq]
  constructor
  · rintro ⟨a, ⟨ha, hgone⟩, rfl⟩
    exact ⟨a, ha, hgone, rfl⟩
  · rintro ⟨a, ha, hgone, rfl⟩
    exact ⟨a, ⟨ha, hgone⟩, rfl⟩

theorem base_spared (a : Area) : (if d = some a.base then a.reset else a).base = a.base := by
  split <;> rfl

theorem rbRemove_pruned (b : Nat) :
    rbRemove b (pruned tree d gone) = pruned tree d (gone ++ [b]) := by
  rw [rbRemove, pruned, List.filter_map, List.filter_filter, pruned]
  congr 1
  refine List.filter_congr (fun a _ => ?_)
  simp [base_spared, not_or, and_comm]

theorem update_pruned (b : Nat) :
    update b Area.reset (pruned tree none gone) = pruned tree (some b) gone := by
  rw [update, pruned, List.map_map, pruned]
  refine List.map_congr_left (fun a _ => ?_)
  simp [eq_comm]

theorem pruned_nil (tree : List Area) : pruned tree none [] = tree := by
  simp [pruned]

theorem Tidy.pruned (h : Tidy size tree) (d : Option Nat) (gone : List Nat) :
    Tidy size (pruned tree d gone) where
  apart := by
    rw [Apart, AreaChunk.pruned, List.pairwise_map]
    refine (List.Pairwise.sublist List.filter_sublist h.apart).imp (fun hab => ?_)
    rwa [base_spared, base_spared]
  fits := by
    intro x hx
    obtain ⟨a, ha, -, rfl⟩ := mem_pruned.mp hx
    have hfits := h.fits a ha
    split
    · have hindex : a.reset.index = 0 := rfl
      omega
    · exact hfits

theorem Tidy.rbFind_pruned (h : Tidy size tree) {a : Area} (ha : a ∈ tree) {p : Nat}
    (hp : a.Holds p) :
    AreaChunk.rbFind (AreaChunk.pruned tree d gone) p =
      if a.base ∈ gone ∨ d = some a.base then none else some a := by
  have hother : ∀ x ∈ AreaChunk.pruned tree d gone, treeCompare p x = .eq →
      x = (if d = some a.base then a.reset else a) ∧ a.base ∉ gone := by
    intro x hx hxp
    have hwithin := (h.pruned d gone).within_of_compare (h.size_pos ha) hx hxp
    obtain ⟨b, hb, hgone, rfl⟩ := mem_pruned.mp hx
    rw [Within, base_spared] at hwithin
    rw [h.apart.eq_of_within hb ha hwithin (h.within_of_holds ha hp)] at hgone ⊢
    exact ⟨rfl, hgone⟩
  split
  · rename_i hcase
    refine List.find?_eq_none.mpr (fun x hx => ?_)
    rw [decide_eq_true_eq]
    intro hxp
    obtain ⟨hxa, hgone⟩ := hother x hx hxp
    have hd := hcase.resolve_left hgone
    -- An area that was reset holds no atom.
    rw [if_pos hd] at hxa
    rw [hxa, treeCompare_eq_iff] at hxp
    obtain ⟨hlow, -⟩ := hp
    simp only [Area.reset, Area.offs, areaSize] at hxp hlow
    omega
  · rename_i hcase
    rw [not_or] at hcase
    refine (h.pruned d gone).rbFind (mem_pruned.mpr ⟨a, ha, hcase.1, ?_⟩) hp
    rw [if_neg hcase.2]

theorem Tidy.mapped_pruned {c : Chunk} (h : Tidy c.blockSize tree) {a : Area} (ha : a ∈ tree)
    {p : Nat} (hp : a.Holds p) (hgone : a.base ∉ gone) :
    c.Mapped (AreaChunk.pruned tree d gone) p := by
  refine ⟨if d = some a.base then a.reset else a, mem_pruned.mpr ⟨a, ha, hgone, rfl⟩, ?_⟩
  rw [Within, base_spared]
  exact h.within_of_holds ha hp

/-! ## The walk -/

/-- The deleted areas that the atoms of a list lie in. -/
def retired (tree : List Area) (atoms : List Nat) : List Nat :=
  atoms.filterMap fun p => ((rbFind tree p).filter Area.isDeleted).map Area.base

/-- The atoms of a list that lie in areas which are not deleted. -/
def active (tree : List Area) (atoms : List Nat) : List Nat :=
  atoms.filter fun p => (rbFind tree p).any (! ·.isDeleted)

/-- The area that is reset: the first deleted one. -/
def spared (tree : List Area) (d : Option Nat) (atoms : List Nat) : Option Nat :=
  d.or (retired tree atoms).head?

/-- The areas that are freed on the way, once for each of their atoms. -/
def freed (tree : List Area) (d : Option Nat) (atoms : List Nat) : List Nat :=
  (retired tree atoms).filter fun b => spared tree d atoms ≠ some b

theorem mem_retired {atoms : List Nat} {b : Nat} : b ∈ retired tree atoms ↔
    ∃ p ∈ atoms, ∃ a, rbFind tree p = some a ∧ a.isDeleted = true ∧ a.base = b := by
  simp only [retired, List.mem_filterMap, Option.map_eq_some_iff, Option.filter_eq_some_iff,
    and_assoc]

theorem mem_retired_iff {atoms : List Nat} {b : Nat} :
    b ∈ retired tree atoms ↔ b ∈ freed tree none atoms ∨ spared tree none atoms = some b := by
  rw [freed, List.mem_filter, decide_eq_true_eq]
  constructor
  · intro hmem
    by_cases hspared : spared tree none atoms = some b
    · exact Or.inr hspared
    · exact Or.inl ⟨hmem, hspared⟩
  · rintro (⟨hmem, -⟩ | hspared)
    · exact hmem
    · exact List.mem_of_head? hspared

def areaOf (tree : List Area) (p : Nat) : Option Nat := (rbFind tree p).map Area.base

theorem retired_cons {a : Area} {p : Nat} (hfind : rbFind tree p = some a) (atoms : List Nat) :
    retired tree (p :: atoms) =
      if a.isDeleted then a.base :: retired tree atoms else retired tree atoms := by
  rw [retired, List.filterMap_cons, hfind]
  cases hdel : a.isDeleted <;> simp [Option.filter, hdel, retired]

theorem active_cons {a : Area} {p : Nat} (hfind : rbFind tree p = some a) (atoms : List Nat) :
    active tree (p :: atoms) =
      if a.isDeleted then active tree atoms else p :: active tree atoms := by
  rw [active, List.filter_cons, hfind]
  cases hdel : a.isDeleted <;> simp [hdel, active]

/-- The head of the list lies in an area that is not deleted. -/
theorem freed_cons_active {a : Area} {p : Nat} (hfind : rbFind tree p = some a)
    (hdel : ¬ a.isDeleted = true) (d : Option Nat) (atoms : List Nat) :
    spared tree d (p :: atoms) = spared tree d atoms ∧
      freed tree d (p :: atoms) = freed tree d atoms := by
  have hretired : retired tree (p :: atoms) = retired tree atoms := by
    rw [retired_cons hfind, if_neg hdel]
  have hspared : spared tree d (p :: atoms) = spared tree d atoms := by
    rw [spared, hretired, spared]
  exact ⟨hspared, by rw [freed, hspared, hretired, freed]⟩

section Deleted

variable {a : Area} {p : Nat} (hfind : rbFind tree p = some a) (hdel : a.isDeleted = true)
include hfind hdel

theorem retired_cons_deleted (atoms : List Nat) :
    retired tree (p :: atoms) = a.base :: retired tree atoms := by
  rw [retired_cons hfind, if_pos hdel]

theorem freed_cons_first (atoms : List Nat) :
    spared tree none (p :: atoms) = some a.base ∧
      freed tree none (p :: atoms) = freed tree (some a.base) atoms := by
  have hretired := retired_cons_deleted hfind hdel atoms
  have hspared : spared tree none (p :: atoms) = some a.base := by
    rw [spared, hretired]
    rfl
  have hspared' : spared tree (some a.base) atoms = some a.base := rfl
  refine ⟨hspared, ?_⟩
  rw [freed, hspared, hretired, List.filter_cons, freed, hspared']
  simp

/-- Another atom of the area that was reset. -/
theorem freed_cons_same (atoms : List Nat) :
    freed tree (some a.base) (p :: atoms) = freed tree (some a.base) atoms := by
  have hspared : ∀ ps, spared tree (some a.base) ps = some a.base := fun _ => rfl
  simp [freed, hspared, retired_cons_deleted hfind hdel]

theorem freed_cons_other {b : Nat} (hb : b ≠ a.base) (atoms : List Nat) :
    freed tree (some b) (p :: atoms) = a.base :: freed tree (some b) atoms := by
  have hspared : ∀ ps, spared tree (some b) ps = some b := fun _ => rfl
  simp [freed, hspared, retired_cons_deleted hfind hdel, hb]

end Deleted

/-- No atom of an area that is freed only once is to come. -/
theorem Tidy.ne_freed {size : Nat} (h : Tidy size tree) {a x : Area} {b q : Nat}
    {atoms : List Nat} (ha : a ∈ tree) (hdel : a.isDeleted = true) (hb : b ≠ a.base)
    (honce : a.base ∉ freed tree (some b) atoms) (hq : q ∈ atoms) (hx : x ∈ tree)
    (hxq : x.Holds q) : x.base ≠ a.base := by
  intro hxa
  have hxa' := h.apart.eq_of_base (h.size_pos ha) hx ha hxa
  subst hxa'
  have hmem : x.base ∈ retired tree atoms :=
    mem_retired.mpr ⟨q, hq, x, h.rbFind hx hxq, hdel, rfl⟩
  have hspared : spared tree (some b) atoms = some b := rfl
  exact honce (List.mem_filter.mpr ⟨hmem, by simp [hspared, hb]⟩)

section Turn

variable {c : Chunk} (h : Tidy c.blockSize tree) {a : Area} (ha : a ∈ tree) {p : Nat}
  (hp : a.Holds p) (hgone : a.base ∉ gone) (atoms kept : List Nat) (fa area : Option Nat)
include h ha hp hgone

/-- The area that was reset is not found again. -/
theorem Tidy.walk_same :
    walk c (p :: atoms) ⟨AreaChunk.pruned tree (some a.base) gone, kept, fa, some a.base, area⟩ =
      walk c atoms ⟨AreaChunk.pruned tree (some a.base) gone, kept, fa, some a.base, area⟩ := by
  rw [walk, if_neg (not_not.mpr (h.mapped_pruned ha hp hgone))]
  simp only [h.rbFind_pruned ha hp, or_true, if_true]

/-- An area that is there as it was is found. -/
theorem Tidy.walk_cons (hd : d ≠ some a.base) :
    walk c (p :: atoms) ⟨AreaChunk.pruned tree d gone, kept, fa, d, area⟩ =
      if a.isDeleted then
        if d.isSome then
          walk c atoms ⟨AreaChunk.pruned tree d (gone ++ [a.base]), kept, fa, d, area⟩
        else
          walk c atoms ⟨update a.base Area.reset (AreaChunk.pruned tree d gone), kept, fa,
            some a.base, area⟩
      else if fa.isNone then
        walk c atoms ⟨AreaChunk.pruned tree d gone, kept, some p, d, some a.base⟩
      else walk c atoms ⟨AreaChunk.pruned tree d gone, kept ++ [p], fa, d, area⟩ := by
  rw [walk, if_neg (not_not.mpr (h.mapped_pruned ha hp hgone))]
  simp only [h.rbFind_pruned ha hp, hgone, hd, or_self, if_false, rbRemove_pruned]

/-- The first deleted area is reset. -/
theorem Tidy.walk_first (hdel : a.isDeleted = true) :
    walk c (p :: atoms) ⟨AreaChunk.pruned tree none gone, kept, fa, none, area⟩ =
      walk c atoms ⟨AreaChunk.pruned tree (some a.base) gone, kept, fa, some a.base, area⟩ := by
  rw [h.walk_cons ha hp hgone atoms kept fa area (Option.some_ne_none _).symm]
  simp only [hdel, if_true, Option.isSome_none, Bool.false_eq_true, if_false, update_pruned]

/-- Another deleted area is freed. -/
theorem Tidy.walk_other (hdel : a.isDeleted = true) {b : Nat} (hb : b ≠ a.base) :
    walk c (p :: atoms) ⟨AreaChunk.pruned tree (some b) gone, kept, fa, some b, area⟩ =
      walk c atoms ⟨AreaChunk.pruned tree (some b) (gone ++ [a.base]), kept, fa, some b, area⟩ := by
  rw [h.walk_cons ha hp hgone atoms kept fa area fun heq => hb (Option.some.inj heq)]
  simp only [hdel, if_true, Option.isSome_some]

end Turn

/-- A walk that frees each area but once does not leave the memory, and this is what it
leaves behind. -/
theorem walk_eq {c : Chunk} (h : Tidy c.blockSize tree) (atoms : List Nat) (kept : List Nat)
    (fa d : Option Nat) (gone : List Nat)
    (hd : ∀ a ∈ tree, d = some a.base → a.isDeleted = true)
    (hatoms : ∀ p ∈ atoms, ∃ a ∈ tree, a.Holds p ∧ a.base ∉ gone)
    (hfreed : (freed tree d atoms).Nodup) :
    walk c atoms ⟨pruned tree d gone, kept, fa, d, fa.bind (areaOf tree)⟩ =
      .ok ⟨pruned tree (spared tree d atoms) (gone ++ freed tree d atoms),
        kept ++ (if fa.isSome then active tree atoms else (active tree atoms).tail),
        fa.or (active tree atoms).head?, spared tree d atoms,
        (fa.or (active tree atoms).head?).bind (areaOf tree)⟩ := by
  induction atoms generalizing kept fa d gone with
  | nil => simp [walk, spared, freed, retired, active]
  | cons p atoms ih =>
      rcases hatoms p List.mem_cons_self with ⟨a, ha, hp, hgone⟩
      have hrest : ∀ q ∈ atoms, ∃ b ∈ tree, b.Holds q ∧ b.base ∉ gone :=
        fun q hq => hatoms q (List.mem_cons_of_mem _ hq)
      have hfind := h.rbFind ha hp
      by_cases hdel : a.isDeleted = true
      · have hactive : active tree (p :: atoms) = active tree atoms := by
          rw [active_cons hfind, if_pos hdel]
        cases d with
        | none =>
            have hspared' : spared tree (some a.base) atoms = some a.base := rfl
            rcases freed_cons_first hfind hdel atoms with ⟨hspared, hfreed'⟩
            have hreset : ∀ b ∈ tree, some a.base = some b.base → b.isDeleted = true := by
              intro b hb hba
              rw [h.apart.eq_of_base (h.size_pos ha) hb ha (Option.some.inj hba).symm]
              exact hdel
            rw [h.walk_first ha hp hgone atoms kept fa _ hdel,
              ih kept fa (some a.base) gone hreset hrest (hfreed' ▸ hfreed), hspared, hspared',
              hfreed', hactive]
        | some b =>
            by_cases hba : b = a.base
            · subst hba
              have hfreed' := freed_cons_same hfind hdel atoms
              rw [h.walk_same ha hp hgone atoms kept fa,
                ih kept fa (some a.base) gone hd hrest (hfreed' ▸ hfreed), hfreed', hactive]
              rfl
            · have hfreed' := freed_cons_other hfind hdel hba atoms
              rw [hfreed', List.nodup_cons] at hfreed
              have hrest' : ∀ q ∈ atoms, ∃ x ∈ tree, x.Holds q ∧ x.base ∉ gone ++ [a.base] := by
                intro q hq
                rcases hrest q hq with ⟨x, hx, hxq, hxgone⟩
                refine ⟨x, hx, hxq, ?_⟩
                rw [List.mem_append, List.mem_singleton, not_or]
                exact ⟨hxgone, h.ne_freed ha hdel hba hfreed.1 hq hx hxq⟩
              rw [h.walk_other ha hp hgone atoms kept fa _ hdel hba,
                ih kept fa (some b) (gone ++ [a.base]) hd hrest' hfreed.2, hfreed', hactive,
                List.append_assoc]
              rfl
      · have hactive : active tree (p :: atoms) = p :: active tree atoms := by
          rw [active_cons hfind, if_neg hdel]
        rcases freed_cons_active hfind hdel d atoms with ⟨hspared, hfreed'⟩
        have hda : d ≠ some a.base := fun hda => hdel (hd a ha hda)
        rw [hfreed'] at hfreed
        cases fa with
        | none =>
            -- The first atom that can be used again.
            have harea : some a.base = (some p).bind (areaOf tree) := by
              simp [areaOf, hfind]
            rw [h.walk_cons ha hp hgone atoms kept none _ hda, if_neg hdel,
              if_pos Option.isNone_none, harea,
              ih kept (some p) d gone hd hrest hfreed, hspared, hfreed', hactive]
            rfl
        | some q =>
            rw [h.walk_cons ha hp hgone atoms kept (some q) _ hda, if_neg hdel, if_neg (by simp),
              ih (kept ++ [p]) (some q) d gone hd hrest hfreed, hspared, hfreed', hactive]
            simp

theorem walk_start {c : Chunk} (h : Tidy c.blockSize c.tree)
    (hatoms : ∀ p ∈ c.freeAtoms, ∃ a ∈ c.tree, a.Holds p)
    (hfreed : (freed c.tree none c.freeAtoms).Nodup) :
    walk c c.freeAtoms ⟨c.tree, [], none, none, none⟩ =
      .ok ⟨pruned c.tree (spared c.tree none c.freeAtoms) (freed c.tree none c.freeAtoms),
        (active c.tree c.freeAtoms).tail, (active c.tree c.freeAtoms).head?,
        spared c.tree none c.freeAtoms,
        (active c.tree c.freeAtoms).head?.bind (areaOf c.tree)⟩ := by
  have hwalk := walk_eq h c.freeAtoms [] none none [] (fun _ _ hn => by cases hn)
    (fun p hp => by
      obtain ⟨a, ha, hap⟩ := hatoms p hp
      exact ⟨a, ha, hap, List.not_mem_nil⟩) hfreed
  rw [pruned_nil] at hwalk
  exact hwalk

/-- What `ac_clean` leaves behind when there is no atom that can be used again. -/
theorem acClean_nil {c : Chunk} (h : Tidy c.blockSize c.tree)
    (hatoms : ∀ p ∈ c.freeAtoms, ∃ a ∈ c.tree, a.Holds p)
    (hfreed : (freed c.tree none c.freeAtoms).Nodup) (hactive : active c.tree c.freeAtoms = []) :
    acClean c = .ok ⟨pruned c.tree (spared c.tree none c.freeAtoms) (freed c.tree none c.freeAtoms),
      [], none, spared c.tree none c.freeAtoms, none⟩ := by
  rw [acClean, walk_start h hatoms hfreed, hactive]
  rfl

/-- What it leaves behind when there is one: the area that was reset goes, too. -/
theorem acClean_cons {c : Chunk} (h : Tidy c.blockSize c.tree)
    (hatoms : ∀ p ∈ c.freeAtoms, ∃ a ∈ c.tree, a.Holds p)
    (hfreed : (freed c.tree none c.freeAtoms).Nodup) {p : Nat} {ps : List Nat}
    (hactive : active c.tree c.freeAtoms = p :: ps) :
    acClean c = .ok ⟨pruned c.tree (spared c.tree none c.freeAtoms)
        (freed c.tree none c.freeAtoms ++ (spared c.tree none c.freeAtoms).toList),
      ps, some p, areaOf c.tree p, areaOf c.tree p⟩ := by
  rw [acClean, walk_start h hatoms hfreed, hactive]
  simp only [bind, Except.bind]
  cases hspared : spared c.tree none c.freeAtoms with
  | none => simp
  | some b => simp [rbRemove_pruned]

end AreaChunk
end IrC6
