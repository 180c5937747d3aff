import Mathlib.Data.List.Find
import IrC6.Hash.Cache
import IrC6.Hash.Map
import IrC6.RbTree.Runs

/-!
# The tree behind the table

The tree of a table is a list in the order of the first hash.  Here the nodes are linked by
the macros of `sys/tree.h`, and `Backed` says that the links are those of the list.  Every
operation keeps it, with the calls of `RB_FIND`, `RB_INSERT` and `RB_REMOVE` that the source
makes, so a search or a walk over the links ends where one over the list does.
-/

namespace IrC6
namespace Hash

open RbTree (Links byKey Holds Sorted turns)

variable {α : Type}

namespace Table

/-- The first hash of the node at an address, which `_tree_compare` reads. -/
def keyAt (t : Table α) (a : Nat) : Nat := ((t.tnodeAt a).map (·.firstHash.toNat)).getD 0

/-- `_setup_node` over the links, with the node that it comes to. -/
def setupLinks (depth : Nat) (t : Table α) (links : Links Nat) (h : UInt32) (tnew : Nat) :
    Option (Links Nat × Nat) := do
  match ← links.rbFind (byKey t.keyAt h.toNat) depth with
  | some ta => return (links, ta)
  | none =>
      let key := Function.update t.keyAt tnew h.toNat
      let (links, _) ← links.rbInsert (byKey key (key tnew)) depth tnew
      return (links, tnew)

/-- The node that a deletion takes out of the tree, with its last entry. -/
def lastOf (t : Table α) (hi : HashT α) : Option Nat :=
  if t.removed hi = none then none
  else match t.locate { hi with collnode := none } with
    | .ok (hi, _) => hi.tnode.filter fun ta => (t.tnodeAt ta).any fun n => n.elms - 1 = 0
    | .error _ => none

end Table

/-- What an operation does to the links. -/
def Op.links (depth : Nat) (t : Table α) (links : Links Nat) : Op α → Option (Links Nat)
  | add hi tnew _ =>
      if hi.data = [] then some links else (t.setupLinks depth links hi.hash tnew).map Prod.fst
  | find _ => some links
  | del hi =>
      match t.lastOf hi with
      | some ta => links.rbRemove depth ta
      | none => some links

/-- The links are those of the tree of a table. -/
def Backed (t : Table α) (links : Links Nat) : Prop :=
  Holds t.keyAt links (t.tree.map TreeNode.addr)

variable {t t' : Table α} {links : Links Nat} {depth : Nat}

/-! ## The keys -/

theorem keyAt_of_mem (hnodup : (t.tree.map TreeNode.addr).Nodup) {n : TreeNode α}
    (hn : n ∈ t.tree) : t.keyAt n.addr = n.firstHash.toNat := by
  have hfind : t.tnodeAt n.addr = some n := find?_of_nodup TreeNode.addr hnodup hn
  rw [Table.keyAt, hfind]
  rfl

theorem Backed.nodup (h : Backed t links) : (t.tree.map TreeNode.addr).Nodup := by
  obtain ⟨T, hT, -, hlist⟩ := h.tree
  exact hlist ▸ hT.nodup

theorem Backed.sorted (h : Backed t links) : t.tree.Pairwise (·.firstHash < ·.firstHash) := by
  have hkeys : Sorted t.keyAt (t.tree.map TreeNode.addr) := Holds.sorted h
  refine (List.pairwise_map.mp hkeys).imp_of_mem fun {m n} hm hn hlt => ?_
  rw [keyAt_of_mem h.nodup hm, keyAt_of_mem h.nodup hn] at hlt
  exact hlt

/-- Any key that agrees with the first hashes of the nodes will do. -/
theorem backed_of_holds {key : Nat → Nat} (h : Holds key links (t.tree.map TreeNode.addr))
    (hkey : ∀ n ∈ t.tree, key n.addr = n.firstHash.toNat) : Backed t links := by
  have hnodup : (t.tree.map TreeNode.addr).Nodup := by
    obtain ⟨T, hT, -, hlist⟩ := h.tree
    exact hlist ▸ hT.nodup
  refine ⟨h.tree, List.pairwise_map.mpr ?_⟩
  refine (List.pairwise_map.mp h.sorted).imp_of_mem fun {m n} hm hn hlt => ?_
  rwa [keyAt_of_mem hnodup hm, keyAt_of_mem hnodup hn, ← hkey m hm, ← hkey n hn]

/-! ## Searching and walking -/

theorem byKey_eq_iff (hnodup : (t.tree.map TreeNode.addr).Nodup) {n : TreeNode α}
    (hn : n ∈ t.tree) (h : UInt32) :
    byKey t.keyAt h.toNat n.addr = .eq ↔ n.firstHash = h := by
  rw [byKey, compare_eq_iff_eq, keyAt_of_mem hnodup hn, eq_comm, UInt32.toNat_inj]

/-- `RB_FIND` over the links finds the node of a first hash. -/
theorem Backed.find (hb : Backed t links) (h : UInt32) (hdepth : turns t.tree.length ≤ depth) :
    links.rbFind (byKey t.keyAt h.toNat) depth = some ((t.rbFind h).map TreeNode.addr) := by
  rw [Holds.find hb h.toNat (by rwa [List.length_map]), List.find?_map, Table.rbFind]
  refine congrArg (fun r => some (Option.map TreeNode.addr r)) (List.find?_congr fun n hn => ?_)
  exact decide_eq_decide.mpr (byKey_eq_iff hb.nodup hn h)

theorem Backed.min (hb : Backed t links) (hdepth : turns t.tree.length ≤ depth) :
    links.rbMin depth = some (t.tree.head?.map TreeNode.addr) := by
  rw [Holds.min hb (by rwa [List.length_map]), List.head?_map]

/-- `RB_NEXT` over the links goes to the next node of the list. -/
theorem Backed.next (hb : Backed t links) {n : TreeNode α} (hn : n ∈ t.tree)
    (hdepth : turns t.tree.length ≤ depth) :
    links.rbNext depth n.addr = some ((Table.rbNext n.addr t.tree).map TreeNode.addr) := by
  obtain ⟨pre, post, htree⟩ := List.append_of_mem hn
  have hnodup := hb.nodup
  have hlist : t.tree.map TreeNode.addr =
      pre.map TreeNode.addr ++ n.addr :: post.map TreeNode.addr := by
    rw [htree, List.map_append, List.map_cons]
  rw [Holds.next hb hlist (by rwa [List.length_map]), List.head?_map]
  rw [htree] at hnodup ⊢
  rw [Table.rbNext_append hnodup]

/-! ## Adding -/

theorem map_rbInsert {key : Nat → Nat} {n : TreeNode α} {ms : List (TreeNode α)}
    (hkey : ∀ m ∈ ms, key m.addr = m.firstHash.toNat) (hnew : ∀ m ∈ ms, m.firstHash ≠ n.firstHash) :
    (rbInsert n ms).map TreeNode.addr =
      RedBlack.place (byKey key n.firstHash.toNat) n.addr (ms.map TreeNode.addr) := by
  induction ms with
  | nil => rfl
  | cons m ms ih =>
      have hm : byKey key n.firstHash.toNat m.addr =
          compare n.firstHash.toNat m.firstHash.toNat := by
        rw [byKey, hkey m List.mem_cons_self]
      have hrest := ih (fun x hx => hkey x (List.mem_cons_of_mem _ hx))
        fun x hx => hnew x (List.mem_cons_of_mem _ hx)
      rw [rbInsert]
      by_cases hlt : n.firstHash < m.firstHash
      · have hcmp : ¬ (byKey key n.firstHash.toNat m.addr = .gt) := by
          rw [hm, compare_gt_iff_gt]
          exact Nat.lt_asymm hlt
        rw [if_pos hlt, RedBlack.place, List.map_cons, List.map_cons,
          List.takeWhile_cons_of_neg (by simpa using hcmp),
          List.dropWhile_cons_of_neg (by simpa using hcmp)]
        rfl
      · have hcmp : byKey key n.firstHash.toNat m.addr = .gt := by
          rw [hm, compare_gt_iff_gt]
          refine Nat.lt_of_le_of_ne (Nat.le_of_not_lt hlt) fun heq => ?_
          exact hnew m List.mem_cons_self (UInt32.toNat_inj.mp heq)
        rw [if_neg hlt, List.map_cons, hrest, RedBlack.place, RedBlack.place, List.map_cons,
          List.takeWhile_cons_of_pos (by simpa using hcmp),
          List.dropWhile_cons_of_pos (by simpa using hcmp)]
        rfl

/-- `_setup_node` finds the same node in both, or links the new one in the same place. -/
theorem Backed.setup (hb : Backed t links) (h : UInt32) {tnew : Nat}
    (hnew : tnew ∉ t.tree.map TreeNode.addr) (hdepth : turns t.tree.length ≤ depth) :
    ∃ links', t.setupLinks depth links h tnew = some (links', (t.setupNode h tnew).2.addr) ∧
      Backed (t.setupNode h tnew).1 links' := by
  have hsorted := hb.sorted
  unfold Table.setupLinks
  rw [hb.find h hdepth]
  rcases Table.setupNode_sorted hsorted h tnew with
    ⟨n, hn, rfl, hsetup⟩ | ⟨hnone, n, hh, -, -, -, hsetup⟩
  · rw [Table.rbFind_sorted hsorted hn, hsetup]
    exact ⟨links, rfl, hb⟩
  · have hfind : t.rbFind h = none :=
      List.find?_eq_none.mpr fun m hm => by simpa using hnone m hm
    have haddr : n.addr = tnew := by
      have hsnd : (t.setupNode h tnew).2 = n := by rw [hsetup]
      rw [← hsnd, Table.setupNode, hfind]
    subst haddr hh
    let key := Function.update t.keyAt n.addr n.firstHash.toNat
    have hself : key n.addr = n.firstHash.toNat := Function.update_self _ _ _
    have hother : ∀ a ∈ t.tree.map TreeNode.addr, key a = t.keyAt a := fun a ha =>
      Function.update_of_ne (fun hna : a = n.addr => hnew (hna ▸ ha)) _ _
    have hkey : ∀ m ∈ t.tree, key m.addr = m.firstHash.toNat := fun m hm => by
      rw [hother _ (List.mem_map_of_mem hm), keyAt_of_mem hb.nodup hm]
    have hholds : Holds key links (t.tree.map TreeNode.addr) := Holds.congr hb hother
    have hne : ∀ a ∈ t.tree.map TreeNode.addr, key a ≠ key n.addr := fun a ha heq => by
      obtain ⟨m, hm, rfl⟩ := List.mem_map.mp ha
      rw [hkey m hm, hself] at heq
      exact hnone m hm (UInt32.toNat_inj.mp heq)
    rw [← List.length_map TreeNode.addr] at hdepth
    obtain ⟨links', hrun, h'⟩ := hholds.insert_new hne hdepth
    rw [hself, ← map_rbInsert hkey hnone] at h'
    refine ⟨links', ?_, ?_⟩
    · rw [hfind, hsetup]
      show (links.rbInsert (byKey key (key n.addr)) depth n.addr).bind _ = _
      rw [hrun]
      rfl
    · rw [hsetup]
      refine backed_of_holds h' fun m hm => ?_
      rcases mem_rbInsert.mp hm with rfl | hm
      · exact hself
      · exact hkey m hm

/-- A change of the nodes that keeps their addresses and first hashes keeps the tree. -/
theorem Backed.map (hb : Backed t links) {f : TreeNode α → TreeNode α}
    (htree : t'.tree = t.tree.map f) (haddr : ∀ n, (f n).addr = n.addr)
    (hfirst : ∀ n, (f n).firstHash = n.firstHash) : Backed t' links := by
  have hmap : t'.tree.map TreeNode.addr = t.tree.map TreeNode.addr := by
    rw [htree, List.map_map]
    exact List.map_congr_left fun n _ => haddr n
  have hholds : Holds t.keyAt links (t'.tree.map TreeNode.addr) := by
    rw [hmap]
    exact hb
  refine backed_of_holds hholds fun m hm => ?_
  rw [htree] at hm
  obtain ⟨n, hn, rfl⟩ := List.mem_map.mp hm
  rw [haddr, hfirst, keyAt_of_mem hb.nodup hn]

theorem Backed.modify (hb : Backed t links) {a : Nat} {f : TreeNode α → TreeNode α}
    (htree : t'.tree = (t.modify a f).tree) (haddr : ∀ n, (f n).addr = n.addr)
    (hfirst : ∀ n, (f n).firstHash = n.firstHash) : Backed t' links := by
  refine hb.map (f := fun n => if n.addr = a then f n else n) htree (fun n => ?_) fun n => ?_
  · split
    · exact haddr n
    · rfl
  · split
    · exact hfirst n
    · rfl

theorem Backed.add (hb : Backed t links) {hi : HashT α} (hdata : hi.data ≠ []) {tnew : Nat}
    (lnew : Nat) (hnew : tnew ∉ t.tree.map TreeNode.addr) (hdepth : turns t.tree.length ≤ depth) :
    ∃ links' ta, t.setupLinks depth links hi.hash tnew = some (links', ta) ∧
      Backed (t.hashtableAdd hi tnew lnew).1 links' := by
  obtain ⟨links', hrun, hb'⟩ := hb.setup hi.hash hnew hdepth
  refine ⟨links', _, hrun, ?_⟩
  rw [Table.hashtableAdd, if_neg hdata]
  exact hb'.modify (Table.addCache_tree _ _ _) (fun _ => rfl) fun _ => rfl

/-! ## Deleting -/

/-- The node that loses its last entry goes, and no other. -/
theorem unlink_tree (hnodup : (t.tree.map TreeNode.addr).Nodup) {n : TreeNode α} (hn : n ∈ t.tree)
    (la : Nat) (ecoll : Bool) : (t.unlink n.addr la ecoll).tree =
      if n.elms - 1 = 0 then t.tree.filter (·.addr ≠ n.addr)
      else (t.modify n.addr (·.erase la ecoll)).tree := by
  have heq : ∀ m ∈ t.tree, m.addr = n.addr → m = n := fun m hm ha =>
    List.inj_on_of_nodup_map hnodup hm hn ha
  show List.filter _ (List.map _ t.tree) = _
  by_cases hlast : n.elms - 1 = 0
  · have hfilter : ∀ m ∈ t.tree, decide ((if m.addr = n.addr then m.erase la ecoll else m).addr ≠
        n.addr ∨ (if m.addr = n.addr then m.erase la ecoll else m).elms ≠ 0) =
        decide (m.addr ≠ n.addr) := fun m hm => by
      by_cases ha : m.addr = n.addr
      · obtain rfl := heq m hm ha
        rw [if_pos rfl]
        exact decide_eq_decide.mpr (iff_of_false (by
          rintro (hne | hne)
          · exact hne rfl
          · exact hne hlast) fun hne => hne rfl)
      · rw [if_neg ha]
        exact decide_eq_decide.mpr (iff_of_true (Or.inl ha) ha)
    rw [if_pos hlast, List.filter_map]
    have hkept : List.filter _ t.tree = t.tree.filter (·.addr ≠ n.addr) := List.filter_congr hfilter
    refine (congrArg (List.map _) hkept).trans ?_
    refine (List.map_congr_left fun m hm => ?_).trans (List.map_id _)
    rw [List.mem_filter, decide_eq_true_iff] at hm
    exact if_neg hm.2
  · rw [if_neg hlast]
    refine List.filter_eq_self.mpr fun x hx => decide_eq_true ?_
    obtain ⟨m, hm, rfl⟩ := List.mem_map.mp hx
    by_cases ha : m.addr = n.addr
    · obtain rfl := heq m hm ha
      rw [if_pos rfl]
      exact Or.inr hlast
    · rw [if_neg ha]
      exact Or.inl ha

theorem removeEntry_tree {hi : HashT α} {ret : Ret} {r : HashT α × Ret}
    (h : t.removeEntry hi ret = .ok (t', r)) : ∃ n ∈ t.tree, ∃ la, hi.tnode = some n.addr ∧
      hi.lnode = some la ∧ t.tnodeAt n.addr = some n ∧
      t'.tree = (t.unlink n.addr la (ret = .ecoll)).tree := by
  unfold Table.removeEntry at h
  cases hta : hi.tnode with
  | none =>
      rw [hta] at h
      cases h
  | some ta =>
      cases hla : hi.lnode with
      | none =>
          rw [hta, hla] at h
          cases h
      | some la =>
          cases hn : t.tnodeAt ta with
          | none =>
              simp only [hta, hla, hn] at h
              cases h
          | some n =>
              obtain rfl : n.addr = ta := by simpa using List.find?_some hn
              simp only [hta, hla, hn] at h
              split at h
              · cases h
                exact ⟨n, List.mem_of_find?_eq_some hn, la, rfl, rfl, hn, rfl⟩
              · cases h

/-- What a deletion does to the tree. -/
def Shrinks (t : Table α) (hi : HashT α) (t' : Table α) : Prop :=
  (t.lastOf hi = none ∧ ∃ a f, t'.tree = (t.modify a f).tree ∧
    (∀ n : TreeNode α, (f n).addr = n.addr) ∧ ∀ n : TreeNode α, (f n).firstHash = n.firstHash) ∨
  ∃ n ∈ t.tree, t.lastOf hi = some n.addr ∧ t'.tree = t.tree.filter (·.addr ≠ n.addr)

theorem shrinks_same {hi : HashT α} (hlast : t.lastOf hi = none) : Shrinks t hi t := by
  refine Or.inl ⟨hlast, 0, id, ?_, fun _ => rfl, fun _ => rfl⟩
  rw [Table.modify]
  exact ((List.map_congr_left fun n _ => ite_self n).trans (List.map_id _)).symm

theorem shrinks_removeEntry (hnodup : (t.tree.map TreeNode.addr).Nodup) {hi hi' : HashT α}
    {ret ret' : Ret} {r : HashT α × Ret}
    (hlocate : t.locate { hi with collnode := none } = .ok (hi', ret))
    (hremoved : t.removed hi = hi'.lnode) (h : t.removeEntry hi' ret' = .ok (t', r)) :
    Shrinks t hi t' := by
  obtain ⟨n, hn, la, hta, hla, hat, htree⟩ := removeEntry_tree h
  rw [unlink_tree hnodup hn] at htree
  have hlast : t.lastOf hi = if n.elms - 1 = 0 then some n.addr else none := by
    rw [Table.lastOf, if_neg (by simp [hremoved, hla])]
    simp only [hlocate, hta, Option.filter_some, hat, Option.any_some, decide_eq_true_eq]
  by_cases hone : n.elms - 1 = 0
  · rw [if_pos hone] at hlast htree
    exact Or.inr ⟨n, hn, hlast, htree⟩
  · rw [if_neg hone] at hlast htree
    exact Or.inl ⟨hlast, _, _, htree, fun _ => rfl, fun _ => rfl⟩

/-- What a deletion that ends has done: nothing, a duplicate less, or an entry less. -/
theorem hashtableDel_cases {hi : HashT α} {r : HashT α × Ret}
    (hdel : t.hashtableDel hi = .ok (t', r)) :
    (t' = t ∧ t.removed hi = none) ∨
    (∃ ta la, t' = t.dropDup ta la ∧ t.removed hi = none) ∨
    ∃ hi' ret ret', t.locate { hi with collnode := none } = .ok (hi', ret) ∧
      t.removed hi = hi'.lnode ∧ t.removeEntry hi' ret' = .ok (t', r) := by
  unfold Table.hashtableDel at hdel
  by_cases hdata : hi.data = []
  · rw [if_pos hdata] at hdel
    cases hdel
    exact Or.inl ⟨rfl, by rw [Table.removed, if_pos hdata]⟩
  · rw [if_neg hdata] at hdel
    cases hlocate : t.locate { hi with collnode := none } with
    | error e =>
        rw [hlocate] at hdel
        cases hdel
    | ok p =>
        obtain ⟨hi', ret⟩ := p
        simp only [hlocate, bind, Except.bind] at hdel
        cases ret with
        | ok | ecoll =>
            refine Or.inr (Or.inr ⟨hi', _, _, rfl, ?_, hdel⟩)
            rw [Table.removed, if_neg hdata, hlocate]
        | dup =>
            have hremoved : t.removed hi =
                hi'.lnode.filter fun la => ((t.lnodeAt la).map (·.dup)) = some 0 := by
              rw [Table.removed, if_neg hdata, hlocate]
            cases hta : hi'.tnode with
            | none =>
                simp only [hta] at hdel
                cases hdel
            | some ta =>
            cases hla : hi'.lnode with
            | none =>
                simp only [hta, hla] at hdel
                cases hdel
            | some la =>
            cases hl : t.lnodeAt la with
            | none =>
                simp only [hta, hla, hl] at hdel
                cases hdel
            | some l =>
                simp only [hta, hla, hl] at hdel
                rw [hla, Option.filter_some, hl] at hremoved
                by_cases hdup : 0 < l.dup
                · rw [if_pos hdup] at hdel
                  cases hdel
                  refine Or.inr (Or.inl ⟨ta, la, rfl, ?_⟩)
                  rw [hremoved, if_neg (by simpa using Nat.ne_of_gt hdup)]
                · rw [if_neg hdup] at hdel
                  refine Or.inr (Or.inr ⟨hi', .dup, _, rfl, ?_, hdel⟩)
                  rw [hremoved, hla, if_pos (by simpa using Nat.eq_zero_of_not_pos hdup)]
        | enotfound | unspec | einval =>
            cases hdel
            exact Or.inl ⟨rfl, by rw [Table.removed, if_neg hdata, hlocate]⟩

/-- A deletion takes the node that `lastOf` names out of the tree, or leaves all nodes there. -/
theorem hashtableDel_tree (hnodup : (t.tree.map TreeNode.addr).Nodup) {hi : HashT α}
    {r : HashT α × Ret} (hdel : t.hashtableDel hi = .ok (t', r)) : Shrinks t hi t' := by
  have hkept : t.removed hi = none → t.lastOf hi = none := fun hnone => by
    rw [Table.lastOf, if_pos hnone]
  rcases hashtableDel_cases hdel with ⟨rfl, hnone⟩ | ⟨ta, la, rfl, hnone⟩ |
    ⟨hi', ret, ret', hlocate, hremoved, hrun⟩
  · exact shrinks_same (hkept hnone)
  · exact Or.inl ⟨hkept hnone, ta, _, rfl, fun _ => rfl, fun _ => rfl⟩
  · exact shrinks_removeEntry hnodup hlocate hremoved hrun

theorem Backed.erase (hb : Backed t links) {n : TreeNode α} (hn : n ∈ t.tree)
    (htree : t'.tree = t.tree.filter (·.addr ≠ n.addr)) (hdepth : turns t.tree.length ≤ depth) :
    ∃ links', links.rbRemove depth n.addr = some links' ∧ Backed t' links' := by
  rw [← List.length_map TreeNode.addr] at hdepth
  obtain ⟨links', hrun, h'⟩ := Holds.remove hb (List.mem_map_of_mem hn) hdepth
  refine ⟨links', hrun, ?_⟩
  have hmap : t'.tree.map TreeNode.addr = (t.tree.map TreeNode.addr).erase n.addr := by
    rw [htree, hb.nodup.erase_eq_filter, List.filter_map]
    refine congrArg (List.map _) (List.filter_congr fun m _ => ?_)
    rw [Bool.eq_iff_iff]
    simp
  refine backed_of_holds (hmap ▸ h') fun m hm => ?_
  rw [htree] at hm
  exact keyAt_of_mem hb.nodup (List.mem_of_mem_filter hm)

theorem Backed.del (hb : Backed t links) {hi : HashT α} {r : HashT α × Ret}
    (hdel : t.hashtableDel hi = .ok (t', r)) (hdepth : turns t.tree.length ≤ depth) :
    (∃ links', (Op.del hi).links depth t links = some links' ∧ Backed t' links') ∧
      t'.tree.length ≤ t.tree.length := by
  rcases hashtableDel_tree hb.nodup hdel with ⟨hlast, a, f, htree, haddr, hfirst⟩ |
    ⟨n, hn, hlast, htree⟩
  · refine ⟨⟨links, by rw [Op.links, hlast], hb.modify htree haddr hfirst⟩, ?_⟩
    rw [htree, Table.modify, List.length_map]
  · obtain ⟨links', hrun, hb'⟩ := hb.erase hn htree hdepth
    exact ⟨⟨links', by rw [Op.links, hlast]; exact hrun, hb'⟩, htree ▸ List.length_filter_le _ _⟩

/-! ## Runs -/

/-- The answer of an operation.  A fault leaves the table as it was. -/
def Op.answer (t : Table α) (op : Op α) : Table α × Except Fault (HashT α × Ret) :=
  match op.run t with
  | .ok (t', r) => (t', .ok r)
  | .error e => (t, .error e)

/-- An operation on a table and on the links of its tree. -/
def Op.linked (depth : Nat) (s : Table α × Links Nat) (op : Op α) :
    Option ((Table α × Links Nat) × Except Fault (HashT α × Ret)) :=
  match op.run s.1 with
  | .ok (t, r) => (op.links depth s.1 s.2).map fun links => ((t, links), .ok r)
  | .error e => some (s, .error e)

/-- The allocator gives out no tree node that is in use. -/
def Op.NewNode (t : Table α) : Op α → Prop
  | add _ tnew _ => tnew ∉ t.tree.map TreeNode.addr
  | _ => True

theorem length_setupNode (t : Table α) (h : UInt32) (tnew : Nat) :
    (t.setupNode h tnew).1.tree.length ≤ t.tree.length + 1 := by
  unfold Table.setupNode
  split
  · exact Nat.le_succ _
  · exact (rbInsert_perm _ _).length_eq.le

theorem hashtableFind_tree {hi : HashT α} {r : HashT α × Ret}
    (h : t.hashtableFind hi = .ok (t', r)) : t'.tree = t.tree := by
  unfold Table.hashtableFind at h
  cases hsearch : t.searchInTable hi with
  | error e =>
      rw [hsearch] at h
      cases h
  | ok p =>
      simp only [hsearch, bind, Except.bind] at h
      cases hreset : t.hinfoReset { p.1 with collnode := none } p.2 with
      | error e =>
          rw [hreset] at h
          cases h
      | ok hi' =>
          simp only [hreset] at h
          split at h
          · cases h
            rfl
          · cases h
            exact Table.addCache_tree _ _ _

/-- An operation does to the links what it does to the list. -/
theorem Backed.step (hb : Backed t links) {op : Op α} (hop : op.NewNode t)
    (hdepth : turns t.tree.length ≤ depth) :
    (∃ links', op.linked depth (t, links) = some (((op.answer t).1, links'), (op.answer t).2) ∧
      Backed (op.answer t).1 links') ∧ (op.answer t).1.tree.length ≤ t.tree.length + 1 := by
  unfold Op.linked Op.answer
  cases hrun : op.run t with
  | error e => exact ⟨⟨links, rfl, hb⟩, Nat.le_succ _⟩
  | ok p =>
      obtain ⟨t', r⟩ := p
      cases op with
      | add hi tnew lnew =>
          have htable : (t.hashtableAdd hi tnew lnew).1 = t' := by rw [Except.ok.inj hrun]
          by_cases hdata : hi.data = []
          · rw [Table.hashtableAdd, if_pos hdata] at htable
            subst htable
            exact ⟨⟨links, by rw [Op.links, if_pos hdata]; rfl, hb⟩, Nat.le_succ _⟩
          · obtain ⟨links', ta, hsetup, hb'⟩ := hb.add hdata lnew hop hdepth
            rw [htable] at hb'
            refine ⟨⟨links', by rw [Op.links, if_neg hdata, hsetup]; rfl, hb'⟩, ?_⟩
            rw [← htable, Table.hashtableAdd, if_neg hdata]
            refine le_trans (le_of_eq ?_) (length_setupNode t hi.hash tnew)
            show (Table.addCache _ _ _).tree.length = _
            rw [Table.addCache_tree, Table.modify, List.length_map]
      | find hi =>
          have htree := hashtableFind_tree hrun
          refine ⟨⟨links, rfl, ?_⟩, ?_⟩
          · exact hb.map (f := id) (by rw [htree, List.map_id]) (fun _ => rfl) fun _ => rfl
          · exact htree ▸ Nat.le_succ _
      | del hi =>
          obtain ⟨⟨links', hlinks, hb'⟩, hlength⟩ := hb.del hrun hdepth
          exact ⟨⟨links', by rw [hlinks]; rfl, hb'⟩, Nat.le_succ_of_le hlength⟩

theorem backed_new (allowcoll chmatch dupascoll : Bool) (n : Nat)
    (entry : Nat → RbTree.Entry Nat) :
    Backed (hashtableNew allowcoll chmatch dupascoll n : Table α)
      { root := none, entry := entry } :=
  ⟨⟨.nil, ⟨rfl, trivial, List.nodup_nil⟩, RedBlack.Tree.valid_nil, rfl⟩, List.Pairwise.nil⟩

/-- In every run the table over the links gives the answers of the table over the list, and
every search and every step of a walk over the links ends where it does over the list. -/
theorem linked_run (allowcoll chmatch dupascoll : Bool) (n : Nat) (entry : Nat → RbTree.Entry Nat)
    (ops : List (Op α)) (depth : Nat) (hdepth : turns ops.length ≤ depth)
    (hops : Allowed (fun t op => op.NewNode t) Op.answer
      (hashtableNew allowcoll chmatch dupascoll n) ops) :
    ∃ t links, calls (Op.linked depth)
        (hashtableNew allowcoll chmatch dupascoll n, { root := none, entry := entry }) ops =
        some ((t, links),
          (answers Op.answer (hashtableNew allowcoll chmatch dupascoll n) ops).2) ∧
      t = (answers Op.answer (hashtableNew allowcoll chmatch dupascoll n) ops).1 ∧
      (∀ h, links.rbFind (byKey t.keyAt h.toNat) depth = some ((t.rbFind h).map TreeNode.addr)) ∧
      links.rbMin depth = some (t.tree.head?.map TreeNode.addr) ∧
      ∀ m ∈ t.tree, links.rbNext depth m.addr =
        some ((Table.rbNext m.addr t.tree).map TreeNode.addr) := by
  have hstep : ∀ (s : Table α × Links Nat) (t : Table α) (op : Op α), s.1 = t ∧ Backed t s.2 →
      op.NewNode t → t.tree.length < ops.length → ∃ s', op.linked depth s =
        some (s', (op.answer t).2) ∧ (s'.1 = (op.answer t).1 ∧ Backed (op.answer t).1 s'.2) ∧
        (op.answer t).1.tree.length ≤ t.tree.length + 1 := fun s t op hst hop hlt => by
    obtain ⟨t', links⟩ := s
    obtain ⟨rfl, hb⟩ := hst
    obtain ⟨⟨links', hstep, hb'⟩, hle⟩ :=
      hb.step hop ((RbTree.turns_mono (Nat.le_of_lt hlt)).trans hdepth)
    exact ⟨_, hstep, ⟨rfl, hb'⟩, hle⟩
  have hnew := backed_new (α := α) allowcoll chmatch dupascoll n entry
  have hempty : (hashtableNew allowcoll chmatch dupascoll n : Table α).tree.length = 0 := rfl
  obtain ⟨s, hrun, hs, hlength⟩ := simulate hstep
    (s := (hashtableNew allowcoll chmatch dupascoll n, { root := none, entry := entry }))
    (t := hashtableNew allowcoll chmatch dupascoll n) ⟨rfl, hnew⟩ hops
    (by rw [hempty, Nat.zero_add])
  rw [hempty, Nat.zero_add] at hlength
  obtain ⟨t, links⟩ := s
  obtain ⟨ht, hb⟩ := hs
  rw [← ht] at hb hlength
  have hturns : turns t.tree.length ≤ depth := (RbTree.turns_mono hlength).trans hdepth
  exact ⟨t, links, hrun, ht, fun h => hb.find h hturns, hb.min hturns,
    fun m hm => hb.next hm hturns⟩

/-- Two keys are added and the first is deleted. -/
def twoAddsAndDel : List (Op Nat) :=
  [.add (hashNew [97] 7) 0 0, .add (hashNew [98] 8) 1 1, .del (hashNew [97] 0)]

theorem linked_run_twoAddsAndDel :
    let t₀ : Table Nat := hashtableNew false true false 2
    ∃ t links, calls (Op.linked 6)
        (t₀, { root := none, entry := fun _ => ⟨none, none, none, .red⟩ }) twoAddsAndDel =
        some ((t, links), (answers Op.answer t₀ twoAddsAndDel).2) ∧
      t = (answers Op.answer t₀ twoAddsAndDel).1 ∧
      (∀ h, links.rbFind (byKey t.keyAt h.toNat) 6 = some ((t.rbFind h).map TreeNode.addr)) ∧
      links.rbMin 6 = some (t.tree.head?.map TreeNode.addr) ∧
      ∀ m ∈ t.tree, links.rbNext 6 m.addr =
        some ((Table.rbNext m.addr t.tree).map TreeNode.addr) :=
  linked_run false true false 2 _ twoAddsAndDel 6 (by decide)
    ⟨List.not_mem_nil, show 1 ∉ [0] by decide, trivial, trivial⟩

end Hash
end IrC6
