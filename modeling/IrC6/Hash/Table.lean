import Mathlib.Data.List.Basic
import IrC6.Base.SizeT

/-!
# The hash table

A table is a tree of nodes ordered by their first hash.  Each node holds a list of
entries with that first hash, ordered by a second hash which is computed only when
a node gets its second entry.  An optional ring of recently used entries stands in
front.  A definition has the name of the function of `hash.c` that it models,
or of the macro of `sys/tree.h` or `sys/queue.h`.

Cells have addresses, and pointers are addresses.  An allocation is given the
address of its cell; the caller sees to it that the cell is not in use.  The tree
of `sys/tree.h` is an ordered map, so it is a list in the order of the first hash.
Following a pointer to a cell that is not linked in the table is a fault.

The keys are the bytes that `data` and `size` describe.  Whether they were copied
makes no difference while the caller leaves them alone, so `dupdata` is left out.
-/

namespace IrC6
namespace Hash

/-! ## The hash functions -/

/-- `FNV32_prime` and `FNV32_init`. -/
def fnvPrime : UInt32 := 16777619
def fnvInit : UInt32 := 2166136261

/-- `_fnv_hash`.  A byte is a `char`, which is signed. -/
def fnvHash (d : List UInt8) : UInt32 :=
  d.foldl (fun h b => (h * fnvPrime) ^^^ b.toInt8.toInt32.toUInt32) fnvInit

/-- `_oat_hash`.  The sum is a `size_t`, and the result is cut to an `int`. -/
def oatHash (d : List UInt8) : UInt32 :=
  let h : UInt64 := d.foldl (fun (h : UInt64) b =>
    let h := h + b.toInt8.toInt64.toUInt64
    let h := h + (h <<< 10)
    h ^^^ (h >>> 6)) 0
  let h := h + (h <<< 3)
  let h := h ^^^ (h >>> 11)
  (h + (h <<< 15)).toUInt32

/-! ## The data -/

/-- The results of the operations. -/
inductive Ret where
  | ok | dup | ecoll | enotfound | unspec | einval
deriving DecidableEq, Repr

/-- A pointer that is followed to a cell not in the table, or a null pointer. -/
inductive Fault where
  | dangling
  | null
deriving DecidableEq, Repr

variable {α : Type}

/-- `struct hash_list_node`.  `dup` is an `unsigned int`. -/
structure ListNode (α : Type) where
  addr : Nat
  hash : UInt32
  dup : Nat
  data : List UInt8
  arg : α

/-- `struct hash_tree_node`. -/
structure TreeNode (α : Type) where
  addr : Nat
  firstHash : UInt32
  collisions : Nat
  elms : Nat
  list : List (ListNode α)

/-- `struct cache_entry`. -/
structure CacheEntry where
  lnode : Option Nat
  tnode : Option Nat
  used : Bool
deriving DecidableEq, Repr

/-- `struct hashtable_struct`.  The length of `cache` is `cache_size`. -/
structure Table (α : Type) where
  allowcoll : Bool
  chmatch : Bool
  dupascoll : Bool
  tree : List (TreeNode α)
  cache : List CacheEntry
  cacheOffs : Nat

/-- `struct hash_struct`. -/
structure HashT (α : Type) where
  data : List UInt8
  arg : α
  hash : UInt32
  lnode : Option Nat
  tnode : Option Nat
  ret : Ret
  collnode : Option (ListNode α)

/-- `hash_collision_t`. -/
structure HashCollision (α : Type) where
  data : List UInt8
  hash : UInt32
  arg : α

def hashtableNew (allowcoll chmatch dupascoll : Bool) (cacheSize : Nat) : Table α :=
  { allowcoll := allowcoll, chmatch := chmatch, dupascoll := dupascoll, tree := [],
    cache := List.replicate cacheSize { lnode := none, tnode := none, used := false },
    cacheOffs := 0 }

/-- A new `hash_t` for a key. -/
def hashNew (data : List UInt8) (arg : α) : HashT α :=
  { data := data, arg := arg, hash := fnvHash data, lnode := none, tnode := none,
    ret := .unspec, collnode := none }

namespace Table

/-- The entries of the table, in the order in which they are walked. -/
def nodes (t : Table α) : List (ListNode α) := t.tree.flatMap TreeNode.list

def rbFind (t : Table α) (h : UInt32) : Option (TreeNode α) :=
  t.tree.find? (·.firstHash = h)

def tnodeAt (t : Table α) (a : Nat) : Option (TreeNode α) := t.tree.find? (·.addr = a)

def lnodeAt (t : Table α) (a : Nat) : Option (ListNode α) := t.nodes.find? (·.addr = a)

/-- A tree node at an address is replaced by its image. -/
def modify (t : Table α) (a : Nat) (f : TreeNode α → TreeNode α) : Table α :=
  { t with tree := t.tree.map fun n => if n.addr = a then f n else n }

end Table

def rbInsert (n : TreeNode α) : List (TreeNode α) → List (TreeNode α)
  | [] => [n]
  | m :: ms => if n.firstHash < m.firstHash then n :: m :: ms else m :: rbInsert n ms

/-! ## The cache -/

/-- The slots that a loop over the ring visits: from `i` on, until `stop`. -/
def ring (n stop : Nat) : Nat → Nat → List Nat
  | 0, _ => []
  | fuel + 1, i => if i = stop then [] else i :: ring n stop fuel ((i + 1) % n)

namespace Table

/-- The slots that `_search_in_cache` and `_del_cache` visit.  The loop ends in front
of `(cache_offs - 1) % cache_size`, where the difference is a `size_t`. -/
def visited (t : Table α) : List Nat :=
  ring t.cache.length (sizeSub t.cacheOffs 1 % t.cache.length) t.cache.length t.cacheOffs

def addCache (t : Table α) (tnode lnode : Option Nat) : Table α :=
  if t.cache.length = 0 then t
  else { t with
    cache := t.cache.set t.cacheOffs { lnode := lnode, tnode := tnode, used := true }
    cacheOffs := (t.cacheOffs + 1) % t.cache.length }

/-- The loop of `_search_in_cache`. -/
def searchSlots (t : Table α) (hi : HashT α) : List Nat → Except Fault (Option CacheEntry)
  | [] => .ok none
  | i :: is =>
      match t.cache[i]? with
      | none => searchSlots t hi is
      | some e =>
          if e.used = false then searchSlots t hi is
          else match e.lnode with
            | none => .error .null
            | some a =>
                match t.lnodeAt a with
                | none => .error .dangling
                | some l =>
                    if l.hash ≠ hi.hash then searchSlots t hi is
                    else if t.chmatch = true ∧ l.data ≠ hi.data then searchSlots t hi is
                    else .ok (some e)

def searchInCache (t : Table α) (hi : HashT α) : Except Fault (Option CacheEntry) :=
  t.searchSlots hi t.visited

def delCache (t : Table α) (lnode : Option Nat) : Table α :=
  { t with cache := t.cache.mapIdx fun i e =>
      if i ∈ t.visited ∧ e.used = true ∧ e.lnode = lnode then { e with used := false } else e }

/-! ## Adding -/

end Table

/-- What `_insert_entry` leaves behind: its result, the list, the node that
`hi->lnode` points to, `hi->collnode`, and how many collisions it counts. -/
structure Inserted (α : Type) where
  ret : Ret
  list : List (ListNode α)
  lnode : ListNode α
  collnode : Option (ListNode α)
  collisions : Nat

/-- `_insert_collision`, with `coll` in front of the rest of the list. -/
def insertCollision (t : Table α) (l coll : ListNode α) (rest : List (ListNode α)) :
    Inserted α :=
  let ret := if l.data = coll.data then Ret.dup else .ecoll
  if t.allowcoll then
    if l.data = coll.data ∧ t.dupascoll = false then
      let coll := { coll with dup := (coll.dup + 1) % 2 ^ 32 }
      { ret := ret, list := coll :: rest, lnode := coll, collnode := none, collisions := 0 }
    else
      { ret := ret, list := coll :: l :: rest, lnode := l, collnode := none, collisions := 1 }
  else
    -- A different key is kept apart, in `hi->collnode`.
    { ret := ret, list := coll :: rest, lnode := coll,
      collnode := if l.data = coll.data then none else some l, collisions := 0 }

def insertEntry (t : Table α) (l : ListNode α) : List (ListNode α) → Inserted α
  | [] => { ret := .ok, list := [l], lnode := l, collnode := none, collisions := 0 }
  | lent :: rest =>
      if l.hash = lent.hash then insertCollision t l lent rest
      else if l.hash < lent.hash then
        { ret := .ok, list := l :: lent :: rest, lnode := l, collnode := none, collisions := 0 }
      else
        let r := insertEntry t l rest
        { r with list := lent :: r.list }

/-- The two branches of `hashtable_add`.  The second hash is computed when a node gets
its second entry. -/
def insertNode (t : Table α) (l : ListNode α) : List (ListNode α) → Inserted α
  | [] => { ret := .ok, list := [l], lnode := l, collnode := none, collisions := 0 }
  | first :: rest =>
      let first := if first.hash = 0 then { first with hash := oatHash first.data } else first
      insertEntry t { l with hash := oatHash l.data } (first :: rest)

/-- `SLIST_REMOVE` and the counters of a tree node.  `elms` counts the entry that is
removed, so it does not go below zero. -/
def TreeNode.erase (n : TreeNode α) (la : Nat) (ecoll : Bool) : TreeNode α :=
  { n with
    list := n.list.eraseP (·.addr = la)
    elms := n.elms - 1
    collisions :=
      if n.elms - 1 ≠ 0 ∧ ecoll = true then sizeSub n.collisions 1 else n.collisions }

def TreeNode.dropDup (n : TreeNode α) (la : Nat) : TreeNode α :=
  { n with
    elms := n.elms - 1
    list := n.list.map fun l => if l.addr = la then { l with dup := l.dup - 1 } else l }

namespace Table

def setupNode (t : Table α) (h : UInt32) (tnew : Nat) : Table α × TreeNode α :=
  match t.rbFind h with
  | some n => (t, n)
  | none =>
      let n := { addr := tnew, firstHash := h, collisions := 0, elms := 0, list := [] }
      ({ t with tree := rbInsert n t.tree }, n)

/-- `hashtable_add`.  `tnew` and `lnew` are the cells for a tree node and a list node. -/
def hashtableAdd (t : Table α) (hi : HashT α) (tnew lnew : Nat) : Table α × HashT α × Ret :=
  if hi.data = [] then (t, hi, .einval)
  else
    let s := t.setupNode hi.hash tnew
    let l := { addr := lnew, hash := 0, dup := 0, data := hi.data, arg := hi.arg }
    let r := insertNode t l s.2.list
    let grown := if r.ret = .ok ∨ t.allowcoll = true then 1 else 0
    let t' := s.1.modify s.2.addr fun n =>
      { n with list := r.list, collisions := n.collisions + r.collisions, elms := n.elms + grown }
    -- `_hinfo_remake`
    let hi' := { hi with
      data := r.lnode.data, arg := r.lnode.arg, hash := s.2.firstHash,
      lnode := some r.lnode.addr, tnode := some s.2.addr, ret := r.ret, collnode := r.collnode }
    (t'.addCache (some s.2.addr) (some r.lnode.addr), hi',
      if t.allowcoll then .ok else r.ret)

/-! ## Searching -/

/-- `_check_entry`: the entry found for a second hash, if there is one. -/
def checkEntry (t : Table α) (collisions : Nat) (data : List UInt8) (hash2 : UInt32)
    (lent : ListNode α) (prev next : Option (ListNode α)) : Option (ListNode α × Ret) :=
  if t.allowcoll = false then
    if t.chmatch = false ∨ lent.data = data then some (lent, .ok) else none
  else if t.dupascoll = false ∧ lent.data = data then some (lent, .dup)
  else if 0 < collisions then
    let near := match next.filter (·.hash = hash2) with
      | some l => some l
      | none => prev.filter (·.hash = hash2)
    (near.filter (·.data = data)).map fun l => (l, .ecoll)
  else none

/-- The loop of `_search_in_table`. -/
def searchList (t : Table α) (collisions : Nat) (data : List UInt8) (hash2 : UInt32) :
    Option (ListNode α) → List (ListNode α) → Option (ListNode α × Ret)
  | _, [] => none
  | prev, lent :: rest =>
      if lent.hash = hash2 then
        match t.checkEntry collisions data hash2 lent prev rest.head? with
        | some r => some r
        | none => searchList t collisions data hash2 (some lent) rest
      else searchList t collisions data hash2 (some lent) rest

/-- `_search_in_table`.  It sets the pointers of `hi`. -/
def searchInTable (t : Table α) (hi : HashT α) : Except Fault (HashT α × Ret) := do
  match ← t.searchInCache hi with
  | some e => .ok ({ hi with tnode := e.tnode, lnode := e.lnode }, .ok)
  | none =>
      match t.rbFind hi.hash with
      | none => .ok ({ hi with tnode := none }, .enotfound)
      | some n =>
          let hi := { hi with tnode := some n.addr }
          if n.elms = 1 then
            match n.list with
            | [] => if t.chmatch then .error .null else .ok ({ hi with lnode := none }, .ok)
            | l :: _ =>
                .ok ({ hi with lnode := some l.addr },
                  if t.chmatch = false ∨ l.data = hi.data then .ok else .enotfound)
          else match t.searchList n.collisions hi.data (oatHash hi.data) none n.list with
            | some (l, ret) => .ok ({ hi with lnode := some l.addr }, ret)
            | none => .ok (hi, .enotfound)

/-- `_hinfo_remake`: what the pointers of `hi` refer to is copied into it. -/
def hinfoRemake (t : Table α) (hi : HashT α) (ret : Ret) (ta la : Nat) :
    Except Fault (HashT α) :=
  match t.tnodeAt ta, t.lnodeAt la with
  | some n, some l =>
      .ok { hi with data := l.data, arg := l.arg, hash := n.firstHash, ret := ret }
  | _, _ => .error .dangling

/-- `_hinfo_reset`, with the pointers that `hi` has. -/
def hinfoReset (t : Table α) (hi : HashT α) (ret : Ret) : Except Fault (HashT α) :=
  match hi.tnode, hi.lnode with
  | some ta, some la => t.hinfoRemake hi ret ta la
  | _, _ => .ok { hi with tnode := none, lnode := none }

def hashtableFind (t : Table α) (hi : HashT α) : Except Fault (Table α × HashT α × Ret) := do
  let (hi, ret) ← t.searchInTable hi
  let hi ← t.hinfoReset { hi with collnode := none } ret
  if ret = .enotfound then .ok (t, hi, .enotfound)
  else .ok (t.addCache hi.tnode hi.lnode, hi, .ok)

/-- `hashtable_find_id`: the number that it returns, an `int`, and the entries that it writes. -/
def hashtableFindId (t : Table α) (id : UInt32) : Int × List (HashCollision α) :=
  match t.rbFind id with
  | none => (0, [])
  | some n => ((n.elms : Int).bmod (2 ^ 32),
      n.list.map fun l => { data := l.data, hash := l.hash, arg := l.arg })

/-! ## Deleting -/

/-- The first half of `hashtable_del`: the entry that `hi` already points to, or the
one that a search finds. -/
def locate (t : Table α) (hi : HashT α) : Except Fault (HashT α × Ret) :=
  if hi.lnode = none ∨ hi.tnode = none then do
    let (hi, ret) ← t.searchInTable hi
    let hi ← t.hinfoReset hi ret
    .ok (hi, ret)
  else .ok (hi, hi.ret)

/-- The entry goes, and the tree node with it if that was the last one. -/
def unlink (t : Table α) (ta la : Nat) (ecoll : Bool) : Table α :=
  let t := t.modify ta (·.erase la ecoll)
  { t with tree := t.tree.filter fun n => n.addr ≠ ta ∨ n.elms ≠ 0 }

def dropDup (t : Table α) (ta la : Nat) : Table α := t.modify ta (·.dropDup la)

/-- The cases of `hashtable_del` that remove the entry. -/
def removeEntry (t : Table α) (hi : HashT α) (ret : Ret) :
    Except Fault (Table α × HashT α × Ret) :=
  match hi.tnode, hi.lnode with
  | some ta, some la =>
      match t.tnodeAt ta with
      | none => .error .dangling
      | some n =>
          if n.list.any (·.addr = la) then
            .ok ((t.delCache (some la)).unlink ta la (ret = .ecoll),
              { hi with tnode := none, lnode := none }, .ok)
          else .error .dangling
  | _, _ => .error .null

def hashtableDel (t : Table α) (hi : HashT α) : Except Fault (Table α × HashT α × Ret) := do
  if hi.data = [] then .ok (t, hi, .einval)
  else
    let (hi, ret) ← t.locate { hi with collnode := none }
    match ret with
    | .dup =>
        match hi.tnode, hi.lnode with
        | some ta, some la =>
            match t.lnodeAt la with
            | none => .error .dangling
            | some l =>
                if 0 < l.dup then .ok (t.dropDup ta la, hi, .ok)
                else t.removeEntry hi (if t.dupascoll then .ecoll else .dup)
        | _, _ => .error .null
    | .ecoll | .ok => t.removeEntry hi ret
    | _ => .ok (t, hi, .enotfound)

/-! ## Walking the table -/

def slistNext (a : Nat) : List (ListNode α) → Option (ListNode α)
  | [] => none
  | l :: rest => if l.addr = a then rest.head? else slistNext a rest

def rbNext (a : Nat) : List (TreeNode α) → Option (TreeNode α)
  | [] => none
  | n :: rest => if n.addr = a then rest.head? else rbNext a rest

/-- `hi` with its pointers set to a tree node, which may be null, and one of its
entries, which may be null. -/
def pointTo (hi : HashT α) (n : Option (TreeNode α)) (l : Option (ListNode α)) : HashT α :=
  match n, l with
  | some n, some l =>
      { hi with
        data := l.data, arg := l.arg, hash := n.firstHash, ret := .ok,
        tnode := some n.addr, lnode := some l.addr }
  | n, l => { hi with tnode := n.map TreeNode.addr, lnode := l.map ListNode.addr }

def hashtableBegin (t : Table α) (hi : HashT α) : HashT α :=
  pointTo { hi with collnode := none } t.tree.head? (t.tree.head?.bind fun n => n.list.head?)

def hashtableEnd (hi : HashT α) : Bool := hi.lnode.isNone || hi.tnode.isNone

def hashtableNext (t : Table α) (hi : HashT α) : HashT α :=
  let hi := { hi with collnode := none }
  let n := hi.tnode.bind t.tnodeAt
  match n.bind fun n => hi.lnode.bind fun la => slistNext la n.list with
  | some l => pointTo hi n (some l)
  | none =>
      let n := hi.tnode.bind fun ta => rbNext ta t.tree
      pointTo hi n (n.bind fun n => n.list.head?)

/-- The turns of `HASHTABLE_FOREACH`, with the key and the argument of each. -/
def turns (t : Table α) : Nat → HashT α → List (List UInt8 × α)
  | 0, _ => []
  | fuel + 1, hi =>
      if hashtableEnd hi then [] else (hi.data, hi.arg) :: turns t fuel (t.hashtableNext hi)

end Table

end Hash
end IrC6
