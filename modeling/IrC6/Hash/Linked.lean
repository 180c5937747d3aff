import Mathlib.Algebra.GroupWithZero.Nat
import Mathlib.Data.List.Flatten
import Mathlib.Data.List.Nodup
import Mathlib.Data.List.Perm.Basic
import IrC6.Base.Blocks
import IrC6.Hash.Table

/-!
# What is linked in the table

The invariant that the addresses of the cells in the table are different and that
`elms` counts at least the entries of a node with their duplicates, and what each
operation does to the cells that are linked.  A node whose `elms` has come down to
zero has no entry left, so its removal unlinks nothing else.
-/

namespace IrC6
namespace Hash

variable {α : Type}

/-- The entries of a node, each with its duplicates. -/
def weight (list : List (ListNode α)) : Nat := (list.map (·.dup + 1)).sum

theorem weight_cons (l : ListNode α) (list : List (ListNode α)) :
    weight (l :: list) = l.dup + 1 + weight list := by
  rw [weight, List.map_cons, List.sum_cons, weight]

theorem weight_append (l₁ l₂ : List (ListNode α)) :
    weight (l₁ ++ l₂) = weight l₁ + weight l₂ := by
  rw [weight, List.map_append, List.sum_append, weight, weight]

theorem mem_rbInsert {n x : TreeNode α} {ms : List (TreeNode α)} :
    x ∈ rbInsert n ms ↔ x = n ∨ x ∈ ms := by
  induction ms with
  | nil => simp [rbInsert]
  | cons m ms ih =>
      rw [rbInsert]
      split
      · simp
      · simp only [List.mem_cons, ih]
        exact or_left_comm

theorem rbInsert_perm (n : TreeNode α) (ms : List (TreeNode α)) :
    (rbInsert n ms).Perm (n :: ms) := by
  induction ms with
  | nil => exact List.Perm.refl _
  | cons m ms ih =>
      rw [rbInsert]
      split
      · exact List.Perm.refl _
      · exact (ih.cons m).trans (List.Perm.swap n m ms)

namespace Table

/-- A tree node and one of its entries, by their addresses. -/
def Linked (t : Table α) (ta la : Nat) : Prop :=
  ∃ n ∈ t.tree, n.addr = ta ∧ ∃ l ∈ n.list, l.addr = la

/-- The cells of the table are different cells, and `elms` counts its entries. -/
structure Wf (t : Table α) : Prop where
  trees : (t.tree.map TreeNode.addr).Nodup
  cells : (t.nodes.map ListNode.addr).Nodup
  counted : ∀ n ∈ t.tree, weight n.list ≤ n.elms
  offs : t.cache ≠ [] → t.cacheOffs < t.cache.length

/-- The cells given to an addition are not in use. -/
def Fresh (t : Table α) (tnew lnew : Nat) : Prop :=
  tnew ∉ t.tree.map TreeNode.addr ∧ lnew ∉ t.nodes.map ListNode.addr

variable {t : Table α}

theorem mem_nodes {l : ListNode α} : l ∈ t.nodes ↔ ∃ n ∈ t.tree, l ∈ n.list :=
  List.mem_flatMap

theorem Linked.exists_lnode {ta la : Nat} (h : t.Linked ta la) : ∃ l ∈ t.nodes, l.addr = la := by
  obtain ⟨n, hn, -, l, hl, hla⟩ := h
  exact ⟨l, mem_nodes.mpr ⟨n, hn, hl⟩, hla⟩

theorem Linked.exists_tnode {ta la : Nat} (h : t.Linked ta la) : ∃ n ∈ t.tree, n.addr = ta := by
  obtain ⟨n, hn, hta, -⟩ := h
  exact ⟨n, hn, hta⟩

theorem Wf.tnodeAt (hw : t.Wf) {n : TreeNode α} (hn : n ∈ t.tree) : t.tnodeAt n.addr = some n :=
  find?_of_nodup TreeNode.addr hw.trees hn

theorem Wf.lnodeAt (hw : t.Wf) {l : ListNode α} (hl : l ∈ t.nodes) : t.lnodeAt l.addr = some l :=
  find?_of_nodup ListNode.addr hw.cells hl

theorem exists_tnodeAt {a : Nat} (h : ∃ n ∈ t.tree, n.addr = a) : ∃ n, t.tnodeAt a = some n := by
  refine Option.isSome_iff_exists.mp (List.find?_isSome.mpr ?_)
  simpa using h

theorem exists_lnodeAt {a : Nat} (h : ∃ l ∈ t.nodes, l.addr = a) : ∃ l, t.lnodeAt a = some l := by
  refine Option.isSome_iff_exists.mp (List.find?_isSome.mpr ?_)
  simpa using h

theorem rbFind_some {h : UInt32} {n : TreeNode α} (hn : t.rbFind h = some n) :
    n ∈ t.tree ∧ n.firstHash = h :=
  ⟨List.mem_of_find?_eq_some hn, by simpa using List.find?_some hn⟩

/-! ## Changing one tree node -/

/-- Every other node stays, and the node at the address becomes its image. -/
theorem mem_modify {a : Nat} {f : TreeNode α → TreeNode α} {x : TreeNode α} :
    x ∈ (t.modify a f).tree ↔
      (x ∈ t.tree ∧ x.addr ≠ a) ∨ ∃ n ∈ t.tree, n.addr = a ∧ x = f n := by
  simp only [modify, List.mem_map]
  constructor
  · rintro ⟨n, hn, rfl⟩
    by_cases ha : n.addr = a
    · exact Or.inr ⟨n, hn, ha, if_pos ha⟩
    · rw [if_neg ha]
      exact Or.inl ⟨hn, ha⟩
  · rintro (⟨hx, ha⟩ | ⟨n, hn, ha, rfl⟩)
    · exact ⟨x, hx, if_neg ha⟩
    · exact ⟨n, hn, if_pos ha⟩

theorem map_addr_modify {a : Nat} {f : TreeNode α → TreeNode α}
    (hf : ∀ n, (f n).addr = n.addr) :
    (t.modify a f).tree.map TreeNode.addr = t.tree.map TreeNode.addr := by
  simp only [modify, List.map_map]
  refine List.map_congr_left (fun n _ => ?_)
  simp only [Function.comp]
  split <;> simp [hf]

/-- A change that keeps the entries of a node keeps what is linked. -/
theorem Linked.modify {a : Nat} {f : TreeNode α → TreeNode α} (hf : ∀ n, (f n).addr = n.addr)
    {ta la : Nat}
    (hl : ∀ n ∈ t.tree, n.addr = a → la ∈ n.list.map ListNode.addr →
      la ∈ (f n).list.map ListNode.addr)
    (h : t.Linked ta la) : (t.modify a f).Linked ta la := by
  obtain ⟨n, hn, hta, l, hln, hla⟩ := h
  by_cases ha : n.addr = a
  · have hmem := hl n hn ha (List.mem_map.mpr ⟨l, hln, hla⟩)
    obtain ⟨l', hl', hla'⟩ := List.mem_map.mp hmem
    exact ⟨f n, mem_modify.mpr (Or.inr ⟨n, hn, ha, rfl⟩), by rw [hf, hta], l', hl', hla'⟩
  · exact ⟨n, mem_modify.mpr (Or.inl ⟨hn, ha⟩), hta, l, hln, hla⟩

/-- The addresses of the entries when one node of the tree is changed. -/
theorem nodes_addr_modify (hw : (t.tree.map TreeNode.addr).Nodup) {n : TreeNode α}
    (hn : n ∈ t.tree) (f : TreeNode α → TreeNode α) :
    ∃ rest, t.nodes.Perm (n.list ++ rest) ∧
      (t.modify n.addr f).nodes.Perm ((f n).list ++ rest) := by
  obtain ⟨pre, post, htree⟩ := List.append_of_mem hn
  have hother : ∀ m ∈ pre ++ post, m.addr ≠ n.addr := by
    intro m hm heq
    rw [htree, List.map_append, List.map_cons] at hw
    have hmid := List.nodup_middle.mp hw
    rw [List.nodup_cons, ← List.map_append] at hmid
    exact hmid.1 (List.mem_map.mpr ⟨m, hm, heq⟩)
  have hsame : ∀ ms : List (TreeNode α), (∀ m ∈ ms, m.addr ≠ n.addr) →
      ms.map (fun m => if m.addr = n.addr then f m else m) = ms := by
    intro ms hms
    calc ms.map (fun m => if m.addr = n.addr then f m else m) = ms.map id :=
          List.map_congr_left (fun m hm => if_neg (hms m hm))
      _ = ms := List.map_id ms
  have hpre := hsame pre (fun m hm => hother m (List.mem_append_left _ hm))
  have hpost := hsame post (fun m hm => hother m (List.mem_append_right _ hm))
  refine ⟨pre.flatMap TreeNode.list ++ post.flatMap TreeNode.list, ?_, ?_⟩
  · rw [nodes, htree, List.flatMap_append, List.flatMap_cons]
    exact List.perm_append_comm_assoc _ _ _
  · rw [nodes, modify, htree, List.map_append, List.map_cons, hpre, hpost, if_pos rfl,
      List.flatMap_append, List.flatMap_cons]
    exact List.perm_append_comm_assoc _ _ _

theorem Wf.eq_of_addr (hw : t.Wf) {m n : TreeNode α} (hm : m ∈ t.tree) (hn : n ∈ t.tree)
    (h : m.addr = n.addr) : m = n :=
  List.inj_on_of_nodup_map hw.trees hm hn h

/-- One node is changed, and its new cells are different from those of the others. -/
theorem Wf.modify (hw : t.Wf) {n : TreeNode α} (hn : n ∈ t.tree) {f : TreeNode α → TreeNode α}
    (hf : ∀ m, (f m).addr = m.addr) (hcount : weight (f n).list ≤ (f n).elms)
    (hcells : ∀ rest, t.nodes.Perm (n.list ++ rest) →
      ((n.list ++ rest).map ListNode.addr).Nodup →
      (((f n).list ++ rest).map ListNode.addr).Nodup) :
    (t.modify n.addr f).Wf := by
  refine ⟨?_, ?_, ?_, hw.offs⟩
  · rw [map_addr_modify hf]
    exact hw.trees
  · obtain ⟨rest, hold, hnew⟩ := nodes_addr_modify hw.trees hn f
    rw [(hnew.map ListNode.addr).nodup_iff]
    exact hcells rest hold ((hold.map ListNode.addr).nodup_iff.mp hw.cells)
  · intro m hm
    rcases mem_modify.mp hm with ⟨hm, -⟩ | ⟨k, hk, hka, rfl⟩
    · exact hw.counted m hm
    · rwa [hw.eq_of_addr hk hn hka]

end Table

/-! ## Adding -/

/-- What an insertion does to the addresses and the weight of a list: the new cell is
put into it or the list keeps its cells, `hi->lnode` is left at one of them, and the
weight grows no more than `elms`. -/
structure Inserts (t : Table α) (l : ListNode α) (list : List (ListNode α)) (r : Inserted α) :
    Prop where
  cells : (r.list.map ListNode.addr).Perm (l.addr :: list.map ListNode.addr) ∨
    r.list.map ListNode.addr = list.map ListNode.addr
  lnode : r.lnode.addr ∈ r.list.map ListNode.addr
  weight : weight r.list ≤
    weight list + (if r.ret = .ok ∨ t.allowcoll = true then l.dup + 1 else 0)

theorem insertCollision_inserts (t : Table α) {l : ListNode α} (hl : l.dup = 0)
    (coll : ListNode α) (rest : List (ListNode α)) :
    Inserts t l (coll :: rest) (insertCollision t l coll rest) := by
  have hret : (if l.data = coll.data then Ret.dup else .ecoll) ≠ .ok := by split <;> simp
  unfold insertCollision
  by_cases hallow : t.allowcoll = true
  · rw [if_pos hallow]
    split
    · exact ⟨Or.inr rfl, by simp, by simp [weight, hallow, hl]; omega⟩
    · refine ⟨Or.inl (List.Perm.swap _ _ _), by simp, ?_⟩
      simp [weight, hallow, hl]
      omega
  · rw [if_neg hallow]
    exact ⟨Or.inr rfl, by simp, by simp [hret, hallow]⟩

theorem insertEntry_inserts (t : Table α) (l : ListNode α) (hl : l.dup = 0)
    (list : List (ListNode α)) : Inserts t l list (insertEntry t l list) := by
  induction list with
  | nil => exact ⟨Or.inl (List.Perm.refl _), by simp [insertEntry], by simp [insertEntry, weight]⟩
  | cons lent rest ih =>
      rw [insertEntry]
      split
      · exact insertCollision_inserts t hl lent rest
      · split
        · refine ⟨Or.inl (List.Perm.refl _), by simp, ?_⟩
          simp only [weight_cons, true_or, if_true]
          omega
        · refine ⟨?_, ?_, ?_⟩
          · rcases ih.cells with hperm | hsame
            · exact Or.inl ((hperm.cons lent.addr).trans (List.Perm.swap _ _ _))
            · exact Or.inr (by simp [hsame])
          · exact List.mem_cons_of_mem _ ih.lnode
          · have hw := ih.weight
            simp only [weight_cons] at hw ⊢
            omega

theorem insertNode_inserts (t : Table α) (l : ListNode α) (hl : l.dup = 0)
    (list : List (ListNode α)) : Inserts t l list (insertNode t l list) := by
  cases list with
  | nil => exact ⟨Or.inl (List.Perm.refl _), by simp [insertNode], by simp [insertNode, weight]⟩
  | cons first rest =>
      have haddr : (if first.hash = 0 then { first with hash := oatHash first.data }
          else first).addr = first.addr := by split <;> rfl
      have hdup : (if first.hash = 0 then { first with hash := oatHash first.data }
          else first).dup = first.dup := by split <;> rfl
      rw [insertNode]
      generalize (if first.hash = 0 then { first with hash := oatHash first.data }
        else first) = first' at haddr hdup ⊢
      have hentry := insertEntry_inserts t { l with hash := oatHash l.data } hl (first' :: rest)
      refine ⟨?_, hentry.lnode, ?_⟩
      · rw [List.map_cons, ← haddr]
        exact hentry.cells
      · have hweight := hentry.weight
        simp only [weight, List.map_cons, hdup] at hweight ⊢
        exact hweight

namespace Table

variable {t : Table α}

/-- The tree with the node of a first hash, and that node. -/
theorem setupNode_spec (hw : t.Wf) (h : UInt32) {tnew lnew : Nat} (hf : t.Fresh tnew lnew) :
    (t.setupNode h tnew).1.Wf ∧ (t.setupNode h tnew).2 ∈ (t.setupNode h tnew).1.tree ∧
      (t.setupNode h tnew).1.nodes.Perm t.nodes ∧
      ∀ ta la, t.Linked ta la → (t.setupNode h tnew).1.Linked ta la := by
  unfold setupNode
  cases hfind : t.rbFind h with
  | some n => exact ⟨hw, (rbFind_some hfind).1, List.Perm.refl _, fun _ _ hl => hl⟩
  | none =>
      have hperm := rbInsert_perm
        { addr := tnew, firstHash := h, collisions := 0, elms := 0, list := [] } t.tree
      have hnodes := hperm.flatMap_right TreeNode.list
      refine ⟨⟨?_, ?_, ?_, hw.offs⟩, mem_rbInsert.mpr (Or.inl rfl), hnodes, ?_⟩
      · rw [(hperm.map TreeNode.addr).nodup_iff, List.map_cons, List.nodup_cons]
        exact ⟨hf.1, hw.trees⟩
      · exact ((hnodes.map ListNode.addr).nodup_iff).mpr hw.cells
      · intro n hn
        rcases mem_rbInsert.mp hn with rfl | hn
        · exact Nat.le_refl _
        · exact hw.counted n hn
      · rintro ta la ⟨n, hn, hta, l, hl, hla⟩
        exact ⟨n, mem_rbInsert.mpr (Or.inr hn), hta, l, hl, hla⟩

/-- The table behind an addition, before the cache is told. -/
theorem modify_inserted (hw : t.Wf) {n : TreeNode α} (hn : n ∈ t.tree) {l : ListNode α}
    (hfresh : l.addr ∉ t.nodes.map ListNode.addr) (hl : l.dup = 0) {r : Inserted α}
    (hr : Inserts t l n.list r) (f : TreeNode α → TreeNode α) (hf : ∀ m, (f m).addr = m.addr)
    (hlist : (f n).list = r.list)
    (helms : (f n).elms = n.elms + (if r.ret = .ok ∨ t.allowcoll = true then 1 else 0)) :
    (t.modify n.addr f).Wf ∧ (t.modify n.addr f).Linked n.addr r.lnode.addr ∧
      ∀ ta la, t.Linked ta la → (t.modify n.addr f).Linked ta la := by
  have hkeeps : ∀ a ∈ n.list.map ListNode.addr, a ∈ r.list.map ListNode.addr := by
    intro a ha
    rcases hr.cells with hperm | hsame
    · exact hperm.mem_iff.mpr (List.mem_cons_of_mem _ ha)
    · rwa [hsame]
  refine ⟨hw.modify hn hf ?_ (fun rest hold hnodup => ?_), ?_, ?_⟩
  · have hcount := hw.counted n hn
    rw [hlist, helms]
    refine Nat.le_trans hr.weight ?_
    rw [hl]
    split <;> omega
  · rw [hlist, List.map_append]
    rw [List.map_append] at hnodup
    rcases hr.cells with hperm | hsame
    · rw [(hperm.append_right _).nodup_iff, List.cons_append, List.nodup_cons]
      refine ⟨fun hmem => hfresh ?_, hnodup⟩
      rw [(hold.map ListNode.addr).mem_iff, List.map_append]
      exact hmem
    · rw [hsame]
      exact hnodup
  · obtain ⟨l', hl', hla'⟩ := List.mem_map.mp hr.lnode
    exact ⟨f n, mem_modify.mpr (Or.inr ⟨n, hn, rfl, rfl⟩), hf n, l', by rwa [hlist], hla'⟩
  · intro ta la hlinked
    refine hlinked.modify hf (fun m hm hma hmem => ?_)
    have hmn := hw.eq_of_addr hm hn hma
    subst hmn
    rw [hlist]
    exact hkeeps la hmem

theorem addCache_tree (t : Table α) (ta la : Option Nat) : (t.addCache ta la).tree = t.tree := by
  unfold addCache
  split <;> rfl

theorem Wf.addCache (hw : t.Wf) (ta la : Option Nat) : (t.addCache ta la).Wf := by
  have htree := addCache_tree t ta la
  refine ⟨by rw [htree]; exact hw.trees, ?_, by rw [htree]; exact hw.counted, ?_⟩
  · rw [nodes, htree]
    exact hw.cells
  · intro hne
    unfold Table.addCache at hne ⊢
    split
    · rename_i hzero
      rw [if_pos hzero] at hne
      exact absurd (List.length_eq_zero_iff.mp hzero) hne
    · rename_i hpos
      simp only [List.length_set]
      exact Nat.mod_lt _ (Nat.pos_of_ne_zero hpos)

theorem linked_addCache {ta la : Option Nat} {a b : Nat} :
    (t.addCache ta la).Linked a b ↔ t.Linked a b := by
  rw [Linked, addCache_tree]
  rfl

/-- An addition keeps the table well formed and everything that is linked, and leaves
the pointers of `hi` at linked cells. -/
theorem hashtableAdd_linked (hw : t.Wf) (hi : HashT α) (hdata : hi.data ≠ []) {tnew lnew : Nat}
    (hf : t.Fresh tnew lnew) :
    ∃ s : Table α, ∃ ta la, (t.hashtableAdd hi tnew lnew).1 = s.addCache (some ta) (some la) ∧
      s.cache = t.cache ∧ s.Wf ∧ s.Linked ta la ∧ ∀ a b, t.Linked a b → s.Linked a b := by
  obtain ⟨hws, hmem, hnodes, hlinked⟩ := setupNode_spec hw hi.hash hf
  have hcache : (t.setupNode hi.hash tnew).1.cache = t.cache ∧
      (t.setupNode hi.hash tnew).1.allowcoll = t.allowcoll := by
    unfold setupNode
    split <;> exact ⟨rfl, rfl⟩
  have hfresh : lnew ∉ (t.setupNode hi.hash tnew).1.nodes.map ListNode.addr := by
    rw [(hnodes.map ListNode.addr).mem_iff]
    exact hf.2
  have hins := insertNode_inserts t
    { addr := lnew, hash := 0, dup := 0, data := hi.data, arg := hi.arg } rfl
    (t.setupNode hi.hash tnew).2.list
  rw [hashtableAdd, if_neg hdata]
  dsimp only
  generalize insertNode t { addr := lnew, hash := 0, dup := 0, data := hi.data, arg := hi.arg }
    (t.setupNode hi.hash tnew).2.list = r at hins ⊢
  generalize t.setupNode hi.hash tnew = s at hws hmem hlinked hcache hfresh hins ⊢
  have hins' : Inserts s.1 { addr := lnew, hash := 0, dup := 0, data := hi.data, arg := hi.arg }
      s.2.list r := ⟨hins.cells, hins.lnode, by rw [hcache.2]; exact hins.weight⟩
  obtain ⟨hwf, hpoint, hkeep⟩ := modify_inserted hws hmem hfresh rfl hins'
    (fun n => { n with
      list := r.list, collisions := n.collisions + r.collisions,
      elms := n.elms + (if r.ret = .ok ∨ t.allowcoll = true then 1 else 0) })
    (fun _ => rfl) rfl (by rw [hcache.2])
  exact ⟨_, s.2.addr, r.lnode.addr, rfl, hcache.1, hwf, hpoint,
    fun a b hab => hkeep a b (hlinked a b hab)⟩

/-! ## Deleting -/

theorem weight_eraseP {list : List (ListNode α)} {la : Nat} {l : ListNode α} (hl : l ∈ list)
    (hla : l.addr = la) : weight (list.eraseP (·.addr = la)) + 1 ≤ weight list := by
  obtain ⟨a, l₁, l₂, -, -, hlist, herase⟩ :=
    List.exists_of_eraseP (p := fun x => decide (x.addr = la)) hl (by simp [hla])
  rw [herase, hlist, weight_append, weight_append, weight_cons]
  omega

/-- Taking an entry out keeps the table well formed and every other linked entry: a node
that is removed has no entry left. -/
theorem unlink_spec (hw : t.Wf) {n : TreeNode α} (hn : n ∈ t.tree) {l : ListNode α}
    (hl : l ∈ n.list) (ecoll : Bool) :
    (t.unlink n.addr l.addr ecoll).Wf ∧
      ∀ ta la, t.Linked ta la → la ≠ l.addr → (t.unlink n.addr l.addr ecoll).Linked ta la := by
  set f : TreeNode α → TreeNode α := (·.erase l.addr ecoll) with hf
  have hcount : weight (f n).list ≤ (f n).elms := by
    have hweight := weight_eraseP hl rfl
    have hold := hw.counted n hn
    simp only [hf, TreeNode.erase]
    omega
  have hmod : (t.modify n.addr f).Wf := hw.modify hn (fun _ => rfl) hcount (fun rest _ hnodup => by
    have herase : (n.list.eraseP (·.addr = l.addr) ++ rest).Sublist (n.list ++ rest) :=
      (List.eraseP_sublist).append (List.Sublist.refl _)
    exact (herase.map ListNode.addr).nodup hnodup)
  have htree : (t.unlink n.addr l.addr ecoll).tree =
      (t.modify n.addr f).tree.filter fun m => m.addr ≠ n.addr ∨ m.elms ≠ 0 := rfl
  have hsub : (t.unlink n.addr l.addr ecoll).tree.Sublist (t.modify n.addr f).tree := by
    rw [htree]
    exact List.filter_sublist
  have hnodes : (t.unlink n.addr l.addr ecoll).nodes.Sublist (t.modify n.addr f).nodes :=
    hsub.flatMap TreeNode.list
  refine ⟨⟨(hsub.map TreeNode.addr).nodup hmod.trees, (hnodes.map ListNode.addr).nodup hmod.cells,
    fun m hm => hmod.counted m (hsub.subset hm), hw.offs⟩, ?_⟩
  · rintro ta la ⟨m, hm, hta, x, hx, hla⟩ hne
    by_cases hma : m.addr = n.addr
    · have hmn := hw.eq_of_addr hm hn hma
      subst hmn
      have hx' : x ∈ (f m).list :=
        (List.mem_eraseP_of_neg (by simpa [hla] using hne)).mpr hx
      have hfm : f m ∈ (t.modify m.addr f).tree := mem_modify.mpr (Or.inr ⟨m, hm, rfl, rfl⟩)
      have helms : (f m).elms ≠ 0 := by
        have hpos : 0 < weight (f m).list := by
          obtain ⟨l₁, l₂, hsplit⟩ := List.append_of_mem hx'
          rw [hsplit, weight_append, weight_cons]
          omega
        omega
      refine ⟨f m, ?_, hta, x, hx', hla⟩
      rw [htree]
      exact List.mem_filter.mpr ⟨hfm, by simp [helms]⟩
    · refine ⟨m, ?_, hta, x, hx, hla⟩
      rw [htree]
      exact List.mem_filter.mpr ⟨mem_modify.mpr (Or.inl ⟨hm, hma⟩), by simp [hma]⟩

theorem map_addr_dropDup (n : TreeNode α) (la : Nat) :
    (n.dropDup la).list.map ListNode.addr = n.list.map ListNode.addr := by
  rw [TreeNode.dropDup, List.map_map]
  refine List.map_congr_left (fun l _ => ?_)
  simp only [Function.comp]
  split <;> rfl

theorem weight_dropDup {n : TreeNode α} {l : ListNode α} (hl : l ∈ n.list) (hdup : 0 < l.dup) :
    weight (n.dropDup l.addr).list + 1 ≤ weight n.list := by
  have hle : ∀ xs : List (ListNode α),
      weight (xs.map fun x => if x.addr = l.addr then { x with dup := x.dup - 1 } else x) ≤
        weight xs := by
    intro xs
    induction xs with
    | nil => exact Nat.le_refl _
    | cons x xs ih =>
        simp only [List.map_cons, weight_cons] at ih ⊢
        split <;> (try simp only) <;> omega
  obtain ⟨l₁, l₂, hsplit⟩ := List.append_of_mem hl
  have h₁ := hle l₁
  have h₂ := hle l₂
  rw [TreeNode.dropDup, hsplit]
  simp only [List.map_append, List.map_cons, weight_append, weight_cons, if_true] at h₁ h₂ ⊢
  omega

theorem dropDup_spec (hw : t.Wf) {n : TreeNode α} (hn : n ∈ t.tree) {l : ListNode α}
    (hl : l ∈ n.list) (hdup : 0 < l.dup) :
    (t.dropDup n.addr l.addr).Wf ∧
      ∀ ta la, t.Linked ta la → (t.dropDup n.addr l.addr).Linked ta la := by
  have haddr : ∀ m : TreeNode α, (m.dropDup l.addr).addr = m.addr := fun _ => rfl
  refine ⟨hw.modify hn haddr ?_ (fun rest _ hnodup => ?_), fun ta la hlinked => ?_⟩
  · have hweight := weight_dropDup hl hdup
    have hcount := hw.counted n hn
    have helms : (n.dropDup l.addr).elms = n.elms - 1 := rfl
    omega
  · rw [List.map_append, map_addr_dropDup, ← List.map_append]
    exact hnodup
  · refine Linked.modify haddr (fun m _ _ hmem => ?_) hlinked
    rwa [map_addr_dropDup]

end Table
end Hash
end IrC6
