import Mathlib.Algebra.Group.Nat.Defs
import IrC6.Base.Blocks

/-!
# The chunk allocator

Atoms of one size are cut from areas, which are blocks with a header.  An area is
filled from its start on: `index` is where its next atom goes.  Atoms that are given
back are linked in one list for all areas, through a link that each of them holds.
The header counts them, and an area whose atoms have all been given back is marked
as deleted.  `acClean` walks the list before each allocation.

Pointers are addresses.  The tree of `sys/tree.h` is an ordered map, so it is a list
in the order of the addresses.  An area leaves the tree exactly when its block is
freed, so the blocks of the tree are the memory that may be read.
-/

namespace IrC6
namespace AreaChunk

/-- `sizeof(struct ACHUNK_area)` and `sizeof(struct ACHUNK_free_atom)`. -/
def areaSize : Nat := 40
def freeAtomSize : Nat := 8

/-- A pointer that is followed into a freed block, or a null pointer. -/
inductive Fault where
  | dangling
  | null
deriving DecidableEq, Repr

/-- `struct ACHUNK_area`, with its address.  Both counters are 32 bits wide. -/
structure Area where
  base : Nat
  index : Nat
  freeChunk : Nat
deriving DecidableEq, Repr

/-- `struct ACHUNK_chunk`. -/
structure Chunk where
  atomSize : Nat
  nmemb : Nat
  cur : Option Nat
  tree : List Area
  freeAtoms : List Nat
deriving DecidableEq, Repr

/-- `_ACHUNK_OFFS`. -/
def Area.offs (a : Area) (o : Nat) : Nat := a.base + o + areaSize

/-- `-1U`, the mark of `_ACHUNK_DELETE`. -/
def deletedMark : Nat := 2 ^ 32 - 1

/-- `_ACHUNK_IS_DELETED`. -/
def Area.isDeleted (a : Area) : Bool := a.freeChunk = deletedMark

def Area.delete (a : Area) : Area := { a with freeChunk := deletedMark }

/-- An area that is used again from its start. -/
def Area.reset (a : Area) : Area := { a with index := 0, freeChunk := 0 }

/-- One atom of the given size is cut off. -/
def Area.advance (size : Nat) (a : Area) : Area := { a with index := (a.index + size) % 2 ^ 32 }

/-- `free_chunk--`, on 32 bits. -/
def Area.reuse (a : Area) : Area :=
  { a with freeChunk := if a.freeChunk = 0 then 2 ^ 32 - 1 else a.freeChunk - 1 }

@[simp] theorem Area.base_advance (size : Nat) (a : Area) : (a.advance size).base = a.base := rfl

@[simp] theorem Area.base_reuse (a : Area) : a.reuse.base = a.base := rfl

/-! ## The tree -/

/-- `_tree_compare`: an address is equal to the area that it lies in. -/
def treeCompare (p : Nat) (a : Area) : Ordering :=
  if p = a.base then .eq
  else if p < a.base then .lt
  else if p < a.offs a.index then .eq
  else .gt

def rbFind (tree : List Area) (p : Nat) : Option Area := tree.find? (treeCompare p · = .eq)

def rbPlace (a : Area) : List Area → List Area
  | [] => [a]
  | b :: bs => if treeCompare a.base b = .lt then a :: b :: bs else b :: rbPlace a bs

/-- `RB_INSERT`, which keeps the tree when it finds an equal node. -/
def rbInsert (a : Area) (tree : List Area) : List Area :=
  if (rbFind tree a.base).isSome then tree else rbPlace a tree

/-- `RB_REMOVE`, after which the block is freed. -/
def rbRemove (b : Nat) (tree : List Area) : List Area := tree.filter (·.base ≠ b)

/-- The area at an address is replaced by its image. -/
def update (b : Nat) (f : Area → Area) (tree : List Area) : List Area :=
  tree.map fun a => if a.base = b then f a else a

namespace Chunk

/-- `nmemb * atom_size`, a `size_t`. -/
def room (c : Chunk) : Nat := (c.nmemb * c.atomSize) % 2 ^ 64

/-- The bytes of the block of an area.  Its size is a `size_t`, and so is that with the
header of `a_calloc` in front of it. -/
def blockSize (c : Chunk) : Nat := ((areaSize + c.room) % 2 ^ 64 + 24) % 2 ^ 64 - 24

/-- Memory at an address that has not been freed. -/
def Mapped (c : Chunk) (tree : List Area) (p : Nat) : Prop :=
  ∃ a ∈ tree, Within Area.base c.blockSize a p

instance (c : Chunk) (tree : List Area) (p : Nat) : Decidable (c.Mapped tree p) :=
  inferInstanceAs (Decidable (∃ a ∈ tree, _))

end Chunk

/-- `_area_chunk_new`, with the block that the first area gets. -/
def areaChunkNew (atomSize nmemb : Nat) (block : Option Nat) : Option Chunk :=
  if atomSize < freeAtomSize then none
  else block.map fun b =>
    { atomSize := atomSize, nmemb := nmemb, cur := some b,
      tree := [{ base := b, index := 0, freeChunk := 0 }], freeAtoms := [] }

/-! ## Cleaning -/

/-- The variables of `ac_clean`.  Atoms that stay in the list are kept in `kept`. -/
structure Walk where
  tree : List Area
  kept : List Nat
  freeAtom : Option Nat
  freeArea : Option Nat
  faArea : Option Nat
deriving DecidableEq, Repr

/-- The loop of `ac_clean`.  Each turn reads the link that the atom holds. -/
def walk (c : Chunk) : List Nat → Walk → Except Fault Walk
  | [], w => .ok w
  | fa :: rest, w =>
      if ¬ c.Mapped w.tree fa then .error .dangling
      else match rbFind w.tree fa with
        | none => walk c rest w
        | some tmp =>
            if tmp.isDeleted then
              if w.freeArea.isSome then walk c rest { w with tree := rbRemove tmp.base w.tree }
              else walk c rest { w with
                tree := update tmp.base Area.reset w.tree, freeArea := some tmp.base }
            else if w.freeAtom.isNone then
              walk c rest { w with freeAtom := some fa, faArea := some tmp.base }
            else walk c rest { w with kept := w.kept ++ [fa] }

def acClean (c : Chunk) : Except Fault Walk := do
  let w ← walk c c.freeAtoms
    { tree := c.tree, kept := [], freeAtom := none, freeArea := none, faArea := none }
  if w.freeAtom.isSome then
    let tree := match w.freeArea with
      | some b => rbRemove b w.tree
      | none => w.tree
    .ok { w with tree := tree, freeArea := w.faArea }
  else .ok w

/-! ## Allocating and giving back -/

/-- The next atom of an area is cut off. -/
def takeAtom (c : Chunk) (a : Area) : Chunk × Option Nat :=
  ({ c with tree := update a.base (Area.advance c.atomSize) c.tree }, some (a.offs a.index))

/-- `achunk_new` without a free atom: from `ac->cur`, from the area that was reset, or
from a new area in the given block. -/
def cutAtom (c : Chunk) (freeArea block : Option Nat) : Except Fault (Chunk × Option Nat) :=
  match c.cur with
  | none => .error .null
  | some b =>
      match c.tree.find? (·.base = b) with
      | none => .error .dangling
      | some cur =>
          if cur.index < c.room then .ok (takeAtom c cur)
          else match freeArea with
            | some b =>
                match c.tree.find? (·.base = b) with
                | none => .error .dangling
                | some area => .ok (takeAtom c area)
            | none =>
                match block with
                | none => .ok ({ c with cur := none }, none)
                | some b =>
                    let area := { base := b, index := 0, freeChunk := 0 }
                    .ok (takeAtom { c with
                      cur := some b, tree := rbInsert area c.tree } area)

/-- `achunk_new`, with the block that a new area would get. -/
def achunkNew (c : Chunk) (block : Option Nat) : Except Fault (Chunk × Option Nat) := do
  let w ← acClean c
  let c := { c with tree := w.tree, freeAtoms := w.kept }
  match w.freeAtom, w.freeArea with
  | some p, some b => .ok ({ c with tree := update b Area.reuse c.tree }, some p)
  | _, freeArea => cutAtom c freeArea block

def achunkDel (c : Chunk) (p : Nat) : Chunk × Nat :=
  match rbFind c.tree p with
  | none => (c, 0)
  | some a =>
      if a.isDeleted then (c, 0)
      else
        let n := (a.freeChunk + 1) % 2 ^ 32
        let f := fun (a : Area) =>
          if n = c.nmemb ∨ (n * c.atomSize) % 2 ^ 64 = a.index then a.delete
          else { a with freeChunk := n }
        ({ c with tree := update a.base f c.tree, freeAtoms := p :: c.freeAtoms }, 1)

end AreaChunk
end IrC6
