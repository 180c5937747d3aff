import Mathlib.Logic.Function.Basic
import IrC6.Area.Chunk

/-!
# Areas

An area owns chunks and other areas.  It has a list of each, and knows its parent and how
many bytes its chunks have recorded.  `area_destroy` goes down the tree of areas, frees the
chunks and takes each area out of the list of its parent, which the caller is walking.

Pointers are addresses, and a pointer to a block that has been freed is a fault.  Blocks
come from the library, so an operation that needs a new block is given its address.  The
error functions of areas and what an invalid pointer does are left out.
-/

namespace IrC6
namespace Area

/-- `struct A_node`. -/
structure Node where
  parent : Option Nat
  nodes : List Nat
  allocated : UInt64
  list : List Nat
deriving DecidableEq, Repr

/-- The areas and the chunks that have not been freed. -/
@[ext]
structure Heap where
  areas : Nat → Option Node
  chunks : Nat → Option Chunk

namespace Heap

def area (h : Heap) (ap : Nat) : Except Fault Node :=
  match h.areas ap with
  | some node => .ok node
  | none => .error .dangling

def chunk (h : Heap) (cp : Nat) : Except Fault Chunk :=
  match h.chunks cp with
  | some c => .ok c
  | none => .error .dangling

def setArea (h : Heap) (ap : Nat) (node : Option Node) : Heap :=
  { h with areas := Function.update h.areas ap node }

def setChunk (h : Heap) (cp : Nat) (c : Option Chunk) : Heap :=
  { h with chunks := Function.update h.chunks cp c }

/-- `_A_ADD_CHUNK`, with the chunk at its address. -/
def addChunk (h : Heap) (ap cp : Nat) (c : Chunk) : Except Fault Heap := do
  let node ← h.area ap
  .ok ((h.setChunk cp (some c)).setArea ap
    (some { node with list := cp :: node.list, allocated := node.allocated + c.size }))

/-- `_A_DEL_CHUNK`.  The chunk leaves the list it is in, which is to be that of the area. -/
def delChunk (h : Heap) (ap cp : Nat) : Except Fault Heap := do
  let node ← h.area ap
  let c ← h.chunk cp
  if cp ∈ node.list then
    .ok (h.setArea ap
      (some { node with list := node.list.erase cp, allocated := node.allocated - c.size }))
  else .error .foreign

/-- A tree of one area, from `area_root`. -/
def areaRoot (root : Nat) : Heap where
  areas := Function.update (fun _ => none) root
    (some { parent := none, nodes := [], allocated := 0, list := [] })
  chunks := fun _ => none

def areaNode (h : Heap) (rp new : Nat) : Except Fault Heap := do
  let node ← h.area rp
  .ok ((h.setArea rp (some { node with nodes := new :: node.nodes })).setArea new
    (some { parent := some rp, nodes := [], allocated := 0, list := [] }))

def malloc (h : Heap) (ap new : Nat) (size : UInt64) (junk : Nat → UInt8) :
    Except Fault Heap := do
  let c ← aMalloc junk size
  h.addChunk ap new c

def calloc (h : Heap) (ap new : Nat) (nmemb size : UInt64) : Except Fault Heap := do
  let c ← aCalloc nmemb size
  h.addChunk ap new c

/-- What `a_realloc`, `a_realloc0`, `_a_expand` and `_a_expand0` do without a pointer. -/
def resizeNull (h : Heap) (ap new : Nat) (kind : Resize) (size : UInt64) (junk : Nat → UInt8) :
    Except Fault Heap :=
  match kind with
  | .realloc | .expand => h.malloc ap new size junk
  | .realloc0 | .expand0 => h.calloc ap new 1 size

/-- `a_realloc`, `a_realloc0`, `_a_expand` and `_a_expand0`.  A chunk that moves leaves the
list for the time of `realloc`. -/
def resize (h : Heap) (ap : Nat) (ptr : Option Nat) (new : Nat) (kind : Resize) (size : UInt64)
    (junk : Nat → UInt8) : Except Fault Heap :=
  match ptr with
  | none => h.resizeNull ap new kind size junk
  | some cp => do
      let old ← h.chunk cp
      let ret ← kind.run junk size old
      match ret with
      | none => .ok h
      | some c => do
          let h ← h.delChunk ap cp
          (h.setChunk cp none).addChunk ap new c

def free (h : Heap) (ap : Nat) (ptr : Option Nat) : Except Fault Heap :=
  match ptr with
  | none => .ok h
  | some cp => do
      let h ← h.delChunk ap cp
      .ok (h.setChunk cp none)

/-- `area_relink` to another area. -/
def areaRelink (h : Heap) (op np ptr : Nat) : Except Fault Heap := do
  let h ← h.delChunk op ptr
  let c ← h.chunk ptr
  h.addChunk np ptr c

/-! ## `area_destroy` -/

/-- `SLIST_NEXT` of an area in the list it is in. -/
def slistNext : List Nat → Nat → Option Nat
  | [], _ => none
  | x :: xs, ap => if x = ap then xs.head? else slistNext xs ap

/-- `SLIST_REMOVE`, which follows the list until it finds the area. -/
def slistRemove (h : Heap) (parent rp : Nat) : Except Fault Heap := do
  let node ← h.area parent
  if rp ∈ node.nodes then .ok (h.setArea parent (some { node with nodes := node.nodes.erase rp }))
  else .error .dangling

/-- The loop over the chunks of an area. -/
def freeChunks (h : Heap) : List Nat → Except Fault Heap
  | [] => .ok h
  | cp :: cps => do
      let _ ← h.chunk cp
      freeChunks (h.setChunk cp none) cps

mutual

/-- `area_destroy`, for calls up to a depth. -/
def areaDestroy : Nat → Heap → Nat → Except Fault Heap
  | 0, _, _ => .error .depth
  | depth + 1, h, rp => do
      let node ← h.area rp
      let h ← destroyNodes depth h rp node.nodes.head?
      let node ← h.area rp
      let h ← h.freeChunks node.list
      let h ← (match node.parent with
        | some parent => h.slistRemove parent rp
        | none => .ok h)
      .ok (h.setArea rp none)

/-- The loop over the areas of an area.  The next one is read before the call, which
removes this one from the list. -/
def destroyNodes : Nat → Heap → Nat → Option Nat → Except Fault Heap
  | _, h, _, none => .ok h
  | 0, _, _, some _ => .error .depth
  | depth + 1, h, rp, some ap => do
      let node ← h.area rp
      let apnxt := slistNext node.nodes ap
      let h ← areaDestroy depth h ap
      destroyNodes depth h rp apnxt

end

end Heap
end Area
end IrC6
