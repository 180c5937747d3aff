import IrC6.Hash.Cache

/-!
# The table as a finite map

Without `ALLOWCOLL` and without a cache the table is a finite map from keys to
arguments, except that two keys with the same two hashes exclude each other.

The invariant is `Exact`.  The tree nodes are ordered by their first hash, a node
holds at least one entry and `elms` counts them, and the second hashes of a node are
computed and increasing, except that a single entry may still have none.
-/

namespace IrC6
namespace Hash

variable {α : Type}

/-- The second hashes of a list are computed and increasing. -/
def Computed (list : List (ListNode α)) : Prop :=
  list.Pairwise (·.hash < ·.hash) ∧ ∀ l ∈ list, l.hash = oatHash l.data

/-- What holds of each tree node. -/
structure Bucket (n : TreeNode α) : Prop where
  nonempty : n.list ≠ []
  elms : n.elms = n.list.length
  first : ∀ l ∈ n.list, fnvHash l.data = n.firstHash
  second : (∃ l, n.list = [l]) ∨ Computed n.list
  lazy : ∀ l, n.list = [l] → l.hash = 0 ∨ l.hash = oatHash l.data

/-- The keys and arguments of a list. -/
def pairs (list : List (ListNode α)) : List (List UInt8 × α) := list.map fun l => (l.data, l.arg)

namespace Table

/-- The keys of the table and their arguments. -/
def entries (t : Table α) : List (List UInt8 × α) := pairs t.nodes

structure Exact (t : Table α) : Prop where
  chmatch : t.chmatch = true
  allowcoll : t.allowcoll = false
  cache : t.cache = []
  wf : t.Wf
  sorted : t.tree.Pairwise (·.firstHash < ·.firstHash)
  bucket : ∀ n ∈ t.tree, Bucket n

variable {t : Table α}

/-! ## What the invariant says -/

/-- In an ordered tree a first hash finds its node. -/
theorem rbFind_sorted (hsorted : t.tree.Pairwise (·.firstHash < ·.firstHash)) {n : TreeNode α}
    (hn : n ∈ t.tree) : t.rbFind n.firstHash = some n := by
  have hnodup : (t.tree.map TreeNode.firstHash).Nodup := by
    rw [List.nodup_iff_pairwise_ne, List.pairwise_map]
    exact hsorted.imp (fun h => UInt32.ne_of_lt h)
  exact find?_of_nodup TreeNode.firstHash hnodup hn

theorem Exact.rbFind (he : t.Exact) {n : TreeNode α} (hn : n ∈ t.tree) :
    t.rbFind n.firstHash = some n := rbFind_sorted he.sorted hn

/-- Two entries with the same two hashes are the same entry. -/
theorem Exact.eq_of_hashes (he : t.Exact) {l l' : ListNode α} (hl : l ∈ t.nodes)
    (hl' : l' ∈ t.nodes) (hfnv : fnvHash l.data = fnvHash l'.data)
    (hoat : oatHash l.data = oatHash l'.data) : l = l' := by
  obtain ⟨n, hn, hln⟩ := mem_nodes.mp hl
  obtain ⟨n', hn', hln'⟩ := mem_nodes.mp hl'
  have hfirst : n.firstHash = n'.firstHash := by
    rw [← (he.bucket n hn).first l hln, ← (he.bucket n' hn').first l' hln', hfnv]
  have hfind := he.rbFind hn
  rw [hfirst, he.rbFind hn'] at hfind
  cases hfind
  rcases (he.bucket n hn).second with ⟨x, hx⟩ | ⟨hpair, hcomp⟩
  · rw [hx, List.mem_singleton] at hln hln'
    rw [hln, hln']
  · have hnodup : (n.list.map ListNode.hash).Nodup := by
      rw [List.nodup_iff_pairwise_ne, List.pairwise_map]
      exact hpair.imp (fun h => UInt32.ne_of_lt h)
    exact List.inj_on_of_nodup_map hnodup hln hln' (by rw [hcomp l hln, hcomp l' hln', hoat])

theorem Exact.keys_nodup (he : t.Exact) : (t.entries.map Prod.fst).Nodup := by
  have hkeys : t.entries.map Prod.fst = t.nodes.map ListNode.data := by
    simp [entries, pairs, List.map_map, Function.comp_def]
  rw [hkeys]
  refine List.Nodup.map_on (fun l hl l' hl' hdata => ?_) (List.Nodup.of_map _ he.wf.cells)
  exact he.eq_of_hashes hl hl' (by rw [hdata]) (by rw [hdata])

theorem mem_entries {k : List UInt8} {a : α} :
    (k, a) ∈ t.entries ↔ ∃ l ∈ t.nodes, l.data = k ∧ l.arg = a := by
  simp [entries, pairs]

/-! ## Searching -/

theorem Exact.coherent (he : t.Exact) : t.Coherent := by
  intro e hmem
  rw [he.cache] at hmem
  cases hmem

theorem sound_hashNew (t : Table α) (k : List UInt8) (a : α) : t.Sound (hashNew k a) :=
  Or.inl ⟨rfl, rfl⟩

theorem Exact.searchInCache (he : t.Exact) (hi : HashT α) : t.searchInCache hi = .ok none := by
  simp [Table.searchInCache, visited, he.cache, ring, searchSlots]

/-- Walking a list of computed second hashes finds the entry of a key. -/
theorem searchList_computed (hallow : t.allowcoll = false) (hch : t.chmatch = true)
    {list : List (ListNode α)} (hcomp : ∀ l ∈ list, l.hash = oatHash l.data) (c : Nat)
    (k : List UInt8) (prev : Option (ListNode α)) :
    (∃ l ∈ list, l.data = k ∧ t.searchList c k (oatHash k) prev list = some (l, .ok)) ∨
      ((∀ l ∈ list, l.data ≠ k) ∧ t.searchList c k (oatHash k) prev list = none) := by
  induction list generalizing prev with
  | nil => exact Or.inr ⟨fun l hl => absurd hl List.not_mem_nil, rfl⟩
  | cons lent rest ih =>
      have hlent := hcomp lent List.mem_cons_self
      have hrest := ih (fun l hl => hcomp l (List.mem_cons_of_mem _ hl)) (some lent)
      by_cases hdata : lent.data = k
      · refine Or.inl ⟨lent, List.mem_cons_self, hdata, ?_⟩
        rw [searchList, if_pos (by rw [hlent, hdata])]
        simp [checkEntry, hallow, hdata]
      · have hskip : t.searchList c k (oatHash k) prev (lent :: rest) =
            t.searchList c k (oatHash k) (some lent) rest := by
          rw [searchList]
          split
          · simp [checkEntry, hallow, hch, hdata]
          · rfl
        rw [hskip]
        rcases hrest with ⟨l, hl, hlk, hfound⟩ | ⟨hnone, hfound⟩
        · exact Or.inl ⟨l, List.mem_cons_of_mem _ hl, hlk, hfound⟩
        · exact Or.inr ⟨List.forall_mem_cons.mpr ⟨hdata, hnone⟩, hfound⟩

/-- A search finds the entry of a key, or the table has none. -/
theorem Exact.searchInTable (he : t.Exact) (k : List UInt8) (a : α) :
    (∃ n ∈ t.tree, ∃ l ∈ n.list, l.data = k ∧
      t.searchInTable (hashNew k a) = .ok ({ hashNew k a with
        tnode := some n.addr, lnode := some l.addr }, .ok)) ∨
    ((∀ l ∈ t.nodes, l.data ≠ k) ∧
      ∃ hi, t.searchInTable (hashNew k a) = .ok (hi, .enotfound)) := by
  have hdata : (hashNew k a).data = k := rfl
  have hhash : (hashNew k a).hash = fnvHash k := rfl
  unfold Table.searchInTable
  simp only [he.searchInCache, bind, Except.bind, hhash, hdata]
  cases hfind : t.rbFind (fnvHash k) with
  | none =>
      refine Or.inr ⟨fun l hl hlk => ?_, _, rfl⟩
      obtain ⟨n, hn, hln⟩ := mem_nodes.mp hl
      have hfirst := he.rbFind hn
      rw [← (he.bucket n hn).first l hln, hlk, hfind] at hfirst
      cases hfirst
  | some n =>
      have hn := (rbFind_some hfind).1
      -- An entry of the key can only be in this node.
      have honly : ∀ l ∈ t.nodes, l.data = k → l ∈ n.list := by
        intro l hl hlk
        obtain ⟨m, hm, hlm⟩ := mem_nodes.mp hl
        have hfirst := he.rbFind hm
        rw [← (he.bucket m hm).first l hlm, hlk, hfind] at hfirst
        cases hfirst
        exact hlm
      simp only
      by_cases helms : n.elms = 1
      · rw [if_pos helms]
        obtain ⟨l, hl⟩ := List.length_eq_one_iff.mp ((he.bucket n hn).elms ▸ helms)
        rw [hl]
        simp only [he.chmatch]
        by_cases hlk : l.data = k
        · refine Or.inl ⟨n, hn, l, by rw [hl]; exact List.mem_singleton_self l, hlk, ?_⟩
          rw [if_pos (Or.inr hlk)]
        · refine Or.inr ⟨fun x hx hxk => ?_, _, by rw [if_neg (by simp [hlk])]⟩
          have hxl := honly x hx hxk
          rw [hl, List.mem_singleton] at hxl
          exact hlk (hxl ▸ hxk)
      · rw [if_neg helms]
        have hcomp : Computed n.list := by
          rcases (he.bucket n hn).second with ⟨l, hl⟩ | hcomp
          · rw [(he.bucket n hn).elms, hl] at helms
            exact absurd rfl helms
          · exact hcomp
        rcases searchList_computed he.allowcoll he.chmatch hcomp.2 n.collisions k none with
          ⟨l, hl, hlk, hsearch⟩ | ⟨hnone, hsearch⟩
        · refine Or.inl ⟨n, hn, l, hl, hlk, ?_⟩
          rw [hsearch]
        · refine Or.inr ⟨fun x hx hxk => hnone x (honly x hx hxk) hxk,
            { hashNew k a with tnode := some n.addr }, ?_⟩
          simp only [hsearch]
          rfl

theorem Exact.hashtableFind (he : t.Exact) (k : List UInt8) (a : α) :
    (∃ l ∈ t.nodes, l.data = k ∧
      ∃ hi, t.hashtableFind (hashNew k a) = .ok (t, hi, .ok) ∧ hi.arg = l.arg) ∨
    ((∀ l ∈ t.nodes, l.data ≠ k) ∧
      ∃ hi, t.hashtableFind (hashNew k a) = .ok (t, hi, .enotfound)) := by
  have hspec := searchInTable_spec he.coherent (sound_hashNew t k a).live
  rcases he.searchInTable k a with ⟨n, hn, l, hl, hlk, hsearch⟩ | ⟨hnone, hi, hsearch⟩
  · obtain ⟨hi, hreset, harg⟩ : ∃ hi, t.hinfoReset { hashNew k a with
        tnode := some n.addr, lnode := some l.addr, collnode := none } .ok = .ok hi ∧
        hi.arg = l.arg :=
      ⟨_, he.wf.hinfoReset_entry hn hl { hashNew k a with collnode := none } .ok, rfl⟩
    refine Or.inl ⟨l, mem_nodes.mpr ⟨n, hn, hl⟩, hlk, hi, ?_, harg⟩
    rw [Table.hashtableFind, hsearch]
    simp only [bind, Except.bind, hreset]
    rw [if_neg (by simp), addCache, if_pos (by rw [he.cache, List.length_nil])]
  · obtain ⟨hi', hreset, -⟩ := hinfoReset_spec
      (show t.Live { hi with collnode := none } from (hspec.of_eq_ok hsearch).1) .enotfound
    refine Or.inr ⟨hnone, hi', ?_⟩
    rw [Table.hashtableFind, hsearch]
    simp only [bind, Except.bind, hreset, if_true]

end Table

/-! ## Adding -/

variable {t : Table α}

theorem insertCollision_apart (hallow : t.allowcoll = false) (l coll : ListNode α)
    (rest : List (ListNode α)) :
    (insertCollision t l coll rest).list = coll :: rest ∧
      (insertCollision t l coll rest).ret = if l.data = coll.data then .dup else .ecoll := by
  unfold insertCollision
  rw [if_neg (by simp [hallow])]
  exact ⟨rfl, rfl⟩

/-- A list that increases either has the second hash already and stays, or takes the
entry at its place. -/
theorem insertEntry_sorted (hallow : t.allowcoll = false) (l : ListNode α)
    {list : List (ListNode α)} (hsorted : list.Pairwise (·.hash < ·.hash)) :
    (∃ c ∈ list, c.hash = l.hash ∧ (insertEntry t l list).list = list ∧
        (insertEntry t l list).ret = if l.data = c.data then .dup else .ecoll) ∨
      ((∀ c ∈ list, c.hash ≠ l.hash) ∧ (insertEntry t l list).ret = .ok ∧
        (insertEntry t l list).list.Perm (l :: list) ∧
        (insertEntry t l list).list.Pairwise (·.hash < ·.hash)) := by
  induction list with
  | nil =>
      exact Or.inr ⟨fun c hc => absurd hc List.not_mem_nil, rfl, List.Perm.refl _,
        List.pairwise_singleton _ _⟩
  | cons lent rest ih =>
      obtain ⟨hlent, hrest⟩ := List.pairwise_cons.mp hsorted
      rw [insertEntry]
      by_cases heq : l.hash = lent.hash
      · rw [if_pos heq]
        obtain ⟨hlist, hret⟩ := insertCollision_apart hallow l lent rest
        exact Or.inl ⟨lent, List.mem_cons_self, heq.symm, hlist, hret⟩
      · rw [if_neg heq]
        by_cases hlt : l.hash < lent.hash
        · rw [if_pos hlt]
          have hless : ∀ c ∈ lent :: rest, l.hash < c.hash := by
            intro c hc
            rcases List.mem_cons.mp hc with rfl | hc
            · exact hlt
            · exact UInt32.lt_trans hlt (hlent c hc)
          exact Or.inr ⟨fun c hc => (UInt32.ne_of_lt (hless c hc)).symm, rfl, List.Perm.refl _,
            List.pairwise_cons.mpr ⟨hless, hsorted⟩⟩
        · rw [if_neg hlt]
          have hgt : lent.hash < l.hash :=
            UInt32.lt_of_le_of_ne (UInt32.not_lt.mp hlt) (Ne.symm heq)
          rcases ih hrest with ⟨c, hc, hhash, hlist, hret⟩ | ⟨hnone, hret, hperm, hpair⟩
          · exact Or.inl ⟨c, List.mem_cons_of_mem _ hc, hhash, by simp only [hlist], hret⟩
          · refine Or.inr ⟨List.forall_mem_cons.mpr ⟨UInt32.ne_of_lt hgt, hnone⟩, hret, ?_, ?_⟩
            · exact (hperm.cons lent).trans (List.Perm.swap _ _ _)
            · refine List.pairwise_cons.mpr ⟨fun c hc => ?_, hpair⟩
              rcases List.mem_cons.mp (hperm.mem_iff.mp hc) with rfl | hc
              · exact hgt
              · exact hlent c hc

theorem Bucket.keys {n : TreeNode α} (hb : Bucket n) :
    ∀ p ∈ pairs n.list, fnvHash p.1 = n.firstHash := by
  intro p hp
  obtain ⟨l, hl, rfl⟩ := List.mem_map.mp hp
  exact hb.first l hl

/-- A list whose second hashes are computed makes a good node, whatever was there before. -/
theorem Bucket.of_computed {n : TreeNode α} (hcomp : Computed n.list) (hne : n.list ≠ [])
    (helms : n.elms = n.list.length)
    (hfirst : ∀ p ∈ pairs n.list, fnvHash p.1 = n.firstHash) : Bucket n where
  nonempty := hne
  elms := helms
  first := fun l hl => hfirst (l.data, l.arg) (List.mem_map_of_mem hl)
  second := Or.inr hcomp
  lazy := fun l hl => Or.inr (hcomp.2 l (by rw [hl]; exact List.mem_singleton_self l))

/-- The second hash of a first entry is computed before a second one comes in. -/
theorem Bucket.settled {n : TreeNode α} (hb : Bucket n) (t : Table α) (l : ListNode α) :
    ∃ list, Computed list ∧ pairs list = pairs n.list ∧
      insertNode t l n.list = insertEntry t { l with hash := oatHash l.data } list := by
  cases hlist : n.list with
  | nil => exact absurd hlist hb.nonempty
  | cons first rest =>
      refine ⟨(if first.hash = 0 then { first with hash := oatHash first.data } else first) :: rest,
        ?_, ?_, rfl⟩
      · rcases hb.second with ⟨x, hx⟩ | hcomp
        · rw [hx] at hlist
          cases hlist
          refine ⟨List.pairwise_singleton _ _, fun c hc => ?_⟩
          rw [List.mem_singleton] at hc
          rw [hc]
          split
          · rfl
          · rename_i hnz
            exact (hb.lazy first hx).resolve_left hnz
        · -- The hash is there already, and computing it again changes nothing.
          have hsame : (if first.hash = 0 then { first with hash := oatHash first.data }
              else first) = first := by
            split
            · rw [← hcomp.2 first (by rw [hlist]; exact List.mem_cons_self)]
            · rfl
          rw [hsame, ← hlist]
          exact hcomp
      · simp only [pairs, List.map_cons]
        split <;> rfl

theorem Bucket.insertNode_cases {n : TreeNode α} (hb : Bucket n) (hallow : t.allowcoll = false)
    (l : ListNode α) :
    Computed (insertNode t l n.list).list ∧
    ((∃ p ∈ pairs n.list, oatHash p.1 = oatHash l.data ∧
        pairs (insertNode t l n.list).list = pairs n.list ∧
        (insertNode t l n.list).ret = if l.data = p.1 then .dup else .ecoll) ∨
      ((∀ p ∈ pairs n.list, oatHash p.1 ≠ oatHash l.data) ∧
        (pairs (insertNode t l n.list).list).Perm ((l.data, l.arg) :: pairs n.list) ∧
        (insertNode t l n.list).ret = .ok)) := by
  obtain ⟨list, hcomp, hpairs, hnode⟩ := hb.settled t l
  rw [hnode, ← hpairs]
  rcases insertEntry_sorted hallow { l with hash := oatHash l.data } hcomp.1 with
    ⟨c, hc, hhash, hlist, hret⟩ | ⟨hnone, hret, hperm, hpair⟩
  · have hoat : oatHash c.data = oatHash l.data := (hcomp.2 c hc).symm.trans hhash
    refine ⟨?_, Or.inl ⟨(c.data, c.arg), List.mem_map_of_mem hc, hoat, by rw [hlist], hret⟩⟩
    rw [hlist]
    exact hcomp
  · refine ⟨⟨hpair, fun x hx => ?_⟩, Or.inr ⟨fun p hp heq => ?_, hperm.map _, hret⟩⟩
    · rcases List.mem_cons.mp (hperm.mem_iff.mp hx) with rfl | hx
      · rfl
      · exact hcomp.2 x hx
    · obtain ⟨c, hc, rfl⟩ := List.mem_map.mp hp
      exact hnone c hc (by rw [hcomp.2 c hc]; exact heq)

theorem rbInsert_sorted {n : TreeNode α} {ms : List (TreeNode α)}
    (hsorted : ms.Pairwise (·.firstHash < ·.firstHash))
    (hnew : ∀ m ∈ ms, m.firstHash ≠ n.firstHash) :
    (rbInsert n ms).Pairwise (·.firstHash < ·.firstHash) := by
  induction ms with
  | nil => exact List.pairwise_singleton _ _
  | cons m ms ih =>
      obtain ⟨hm, hms⟩ := List.pairwise_cons.mp hsorted
      rw [rbInsert]
      by_cases hlt : n.firstHash < m.firstHash
      · rw [if_pos hlt]
        refine List.pairwise_cons.mpr ⟨fun x hx => ?_, hsorted⟩
        rcases List.mem_cons.mp hx with rfl | hx
        · exact hlt
        · exact UInt32.lt_trans hlt (hm x hx)
      · rw [if_neg hlt]
        refine List.pairwise_cons.mpr
          ⟨fun x hx => ?_, ih hms (fun y hy => hnew y (List.mem_cons_of_mem _ hy))⟩
        rcases mem_rbInsert.mp hx with rfl | hx
        · exact UInt32.lt_of_le_of_ne (UInt32.not_lt.mp hlt) (hnew m List.mem_cons_self)
        · exact hm x hx

namespace Table

theorem sorted_modify (hsorted : t.tree.Pairwise (·.firstHash < ·.firstHash)) {a : Nat}
    {f : TreeNode α → TreeNode α} (hfirst : ∀ m, (f m).firstHash = m.firstHash) :
    (t.modify a f).tree.Pairwise (·.firstHash < ·.firstHash) := by
  rw [modify, List.pairwise_map]
  refine hsorted.imp (fun h => ?_)
  split <;> split <;> simpa only [hfirst] using h

/-- Replacing a node of the tree by a good one, where the others are good. -/
theorem exact_modify {n : TreeNode α} (hn : n ∈ t.tree) {f : TreeNode α → TreeNode α}
    (hw : (t.modify n.addr f).Wf) (htrees : (t.tree.map TreeNode.addr).Nodup)
    (hch : t.chmatch = true) (hallow : t.allowcoll = false) (hcache : t.cache = [])
    (hsorted : t.tree.Pairwise (·.firstHash < ·.firstHash))
    (hfirst : ∀ m, (f m).firstHash = m.firstHash)
    (hother : ∀ m ∈ t.tree, m ≠ n → Bucket m) (hb : Bucket (f n)) :
    (t.modify n.addr f).Exact where
  chmatch := hch
  allowcoll := hallow
  cache := hcache
  wf := hw
  sorted := sorted_modify hsorted hfirst
  bucket := by
    intro m hm
    rcases mem_modify.mp hm with ⟨hm, ha⟩ | ⟨k, hk, hka, rfl⟩
    · exact hother m hm (fun heq => ha (by rw [heq]))
    · rw [List.inj_on_of_nodup_map htrees hk hn hka]
      exact hb

/-- What the pairs of the table are when one node of the tree is changed. -/
theorem entries_modify (htrees : (t.tree.map TreeNode.addr).Nodup) {n : TreeNode α}
    (hn : n ∈ t.tree) (f : TreeNode α → TreeNode α) :
    ∃ rest, t.entries.Perm (pairs n.list ++ rest) ∧
      (t.modify n.addr f).entries.Perm (pairs (f n).list ++ rest) := by
  obtain ⟨rest, hold, hnew⟩ := nodes_addr_modify htrees hn f
  refine ⟨pairs rest, ?_, ?_⟩
  · have hperm := hold.map fun l => (l.data, l.arg)
    rwa [List.map_append] at hperm
  · have hperm := hnew.map fun l => (l.data, l.arg)
    rwa [List.map_append] at hperm

theorem Exact.mem_pairs (he : t.Exact) {n : TreeNode α} (hn : n ∈ t.tree)
    {p : List UInt8 × α} (hp : p ∈ t.entries) (hfnv : fnvHash p.1 = n.firstHash) :
    p ∈ pairs n.list := by
  obtain ⟨l, hl, rfl⟩ := List.mem_map.mp hp
  obtain ⟨m, hm, hlm⟩ := mem_nodes.mp hl
  have hfind := he.rbFind hm
  rw [← (he.bucket m hm).first l hlm, hfnv, he.rbFind hn] at hfind
  cases hfind
  exact List.mem_map_of_mem hlm

/-- The node that an addition finds or makes. -/
theorem setupNode_sorted (hsorted : t.tree.Pairwise (·.firstHash < ·.firstHash)) (h : UInt32)
    (tnew : Nat) :
    (∃ n ∈ t.tree, n.firstHash = h ∧ t.setupNode h tnew = (t, n)) ∨
      ((∀ n ∈ t.tree, n.firstHash ≠ h) ∧ ∃ n, n.firstHash = h ∧ n.collisions = 0 ∧ n.elms = 0 ∧
        n.list = [] ∧ t.setupNode h tnew = ({ t with tree := rbInsert n t.tree }, n)) := by
  unfold Table.setupNode
  cases hfind : t.rbFind h with
  | some n =>
      obtain ⟨hn, hh⟩ := rbFind_some hfind
      exact Or.inl ⟨n, hn, hh, rfl⟩
  | none =>
      refine Or.inr ⟨fun n hn hh => ?_, _, rfl, rfl, rfl, rfl, rfl⟩
      have hsome := rbFind_sorted hsorted hn
      rw [hh, hfind] at hsome
      cases hsome

/-- What an addition does to the node of its key. -/
def grow (r : Inserted α) (n : TreeNode α) : TreeNode α :=
  { n with
    list := r.list, collisions := n.collisions + r.collisions,
    elms := n.elms + if r.ret = .ok then 1 else 0 }

theorem hashtableAdd_eq (hallow : t.allowcoll = false) (hcache : t.cache = []) {k : List UInt8}
    (hk : k ≠ []) (a : α) (tnew lnew : Nat) :
    (t.hashtableAdd (hashNew k a) tnew lnew).1 =
        (t.setupNode (fnvHash k) tnew).1.modify (t.setupNode (fnvHash k) tnew).2.addr
          (grow (insertNode t ⟨lnew, 0, 0, k, a⟩ (t.setupNode (fnvHash k) tnew).2.list)) ∧
      (t.hashtableAdd (hashNew k a) tnew lnew).2.2 =
        (insertNode t ⟨lnew, 0, 0, k, a⟩ (t.setupNode (fnvHash k) tnew).2.list).ret := by
  have hcache' : (t.setupNode (fnvHash k) tnew).1.cache = [] := by
    rw [← hcache]
    unfold Table.setupNode
    split <;> rfl
  rw [Table.hashtableAdd, if_neg (show (hashNew k a).data ≠ [] from hk)]
  simp only [hashNew, hallow, addCache, modify, hcache', Bool.false_eq_true, or_false,
    List.length_nil, if_true, if_false]
  exact ⟨rfl, trivial⟩

theorem Exact.add_wf (he : t.Exact) {k : List UInt8} (hk : k ≠ []) (a : α) {tnew lnew : Nat}
    (hf : t.Fresh tnew lnew) : (t.hashtableAdd (hashNew k a) tnew lnew).1.Wf := by
  obtain ⟨s, ta, la, hadd, -, hws, -, -⟩ := hashtableAdd_linked he.wf (hashNew k a) hk hf
  rw [hadd]
  exact hws.addCache _ _

/-- What the addition of a pair does to the pairs of a table, and its result. -/
def Adds (t : Table α) (k : List UInt8) (a : α) (t' : Table α) (ret : Ret) : Prop :=
  (∃ p ∈ t.entries, fnvHash p.1 = fnvHash k ∧ oatHash p.1 = oatHash k ∧
      t'.entries.Perm t.entries ∧ ret = if k = p.1 then .dup else .ecoll) ∨
    ((∀ p ∈ t.entries, fnvHash p.1 = fnvHash k → oatHash p.1 ≠ oatHash k) ∧
      t'.entries.Perm ((k, a) :: t.entries) ∧ ret = .ok)

/-- The node of the key is there, and its list takes the key or not. -/
theorem Exact.add_found (he : t.Exact) {n : TreeNode α} (hn : n ∈ t.tree) {k : List UInt8} {a : α}
    {lnew : Nat} (hfirst : n.firstHash = fnvHash k)
    (hwf : (t.modify n.addr (grow (insertNode t ⟨lnew, 0, 0, k, a⟩ n.list))).Wf) :
    (t.modify n.addr (grow (insertNode t ⟨lnew, 0, 0, k, a⟩ n.list))).Exact ∧
      t.Adds k a (t.modify n.addr (grow (insertNode t ⟨lnew, 0, 0, k, a⟩ n.list)))
        (insertNode t ⟨lnew, 0, 0, k, a⟩ n.list).ret := by
  have hb := he.bucket n hn
  have hkeys := hb.keys
  obtain ⟨hcomp, hcases⟩ := hb.insertNode_cases he.allowcoll ⟨lnew, 0, 0, k, a⟩
  generalize insertNode t ⟨lnew, 0, 0, k, a⟩ n.list = r at hcomp hcases hwf ⊢
  obtain ⟨rest, hold, hnew⟩ := entries_modify he.wf.trees hn (grow r)
  have hgood : Bucket (grow r n) → (t.modify n.addr (grow r)).Exact :=
    exact_modify hn hwf he.wf.trees he.chmatch he.allowcoll he.cache he.sorted (fun _ => rfl)
      (fun m hm _ => he.bucket m hm)
  have hpos : pairs n.list ≠ [] := by simpa [pairs] using hb.nonempty
  rcases hcases with ⟨p, hp, hoat, hpairs, hret⟩ | ⟨hnot, hperm, hret⟩
  · refine ⟨hgood (Bucket.of_computed hcomp ?_ ?_ ?_), Or.inl ⟨p, ?_, ?_, hoat, ?_, hret⟩⟩
    · intro hnil
      rw [show r.list = [] from hnil] at hpairs
      exact hpos hpairs.symm
    · have hlen := congrArg List.length hpairs
      simp only [pairs, List.length_map] at hlen
      have hnotok : r.ret ≠ .ok := by
        rw [hret]
        split <;> simp
      simp only [grow, if_neg hnotok]
      rw [hb.elms, hlen, Nat.add_zero]
    · intro q hq
      exact hkeys q (hpairs ▸ hq)
    · exact hold.mem_iff.mpr (List.mem_append_left _ hp)
    · rw [hkeys p hp, hfirst]
    · rw [show (grow r n).list = r.list from rfl, hpairs] at hnew
      exact hnew.trans hold.symm
  · refine ⟨hgood (Bucket.of_computed hcomp ?_ ?_ ?_), Or.inr ⟨?_, ?_, hret⟩⟩
    · intro hnil
      have hlen := hperm.length_eq
      simp [pairs, show r.list = [] from hnil] at hlen
    · have hlen := hperm.length_eq
      simp only [pairs, List.length_map, List.length_cons] at hlen
      simp only [grow, if_pos hret]
      rw [hb.elms, hlen]
    · intro q hq
      rcases List.mem_cons.mp (hperm.mem_iff.mp hq) with rfl | hq
      · exact hfirst.symm
      · exact hkeys q hq
    · intro p hp hfnv hoat
      exact hnot p (he.mem_pairs hn hp (by rw [hfnv, hfirst])) hoat
    · exact hnew.trans ((hperm.append_right rest).trans (hold.symm.cons (k, a)))

theorem Exact.hashtableAdd (he : t.Exact) {k : List UInt8} (hk : k ≠ []) (a : α)
    {tnew lnew : Nat} (hf : t.Fresh tnew lnew) :
    (t.hashtableAdd (hashNew k a) tnew lnew).1.Exact ∧
      t.Adds k a (t.hashtableAdd (hashNew k a) tnew lnew).1
        (t.hashtableAdd (hashNew k a) tnew lnew).2.2 := by
  have hwf := he.add_wf hk a hf
  obtain ⟨htable, hret⟩ := hashtableAdd_eq he.allowcoll he.cache hk a tnew lnew
  rw [htable] at hwf ⊢
  rw [hret]
  rcases setupNode_sorted he.sorted (fnvHash k) tnew with ⟨n, hn, hfirst, hsetup⟩ |
    ⟨hnone, n, hhash, -, helms, hlist, hsetup⟩
  · simp only [hsetup] at hwf ⊢
    exact he.add_found hn hfirst hwf
  · -- The node is new, and the key is its only entry.
    obtain ⟨hws, hmem, hnodes, -⟩ := setupNode_spec he.wf (fnvHash k) hf
    simp only [hsetup] at hwf hws hmem hnodes ⊢
    have hsingle : insertNode t ⟨lnew, 0, 0, k, a⟩ n.list =
        ⟨.ok, [⟨lnew, 0, 0, k, a⟩], ⟨lnew, 0, 0, k, a⟩, none, 0⟩ := by
      rw [hlist]
      rfl
    rw [hsingle] at hwf ⊢
    obtain ⟨rest, hold, hnew⟩ := entries_modify hws.trees hmem
      (grow ⟨.ok, [⟨lnew, 0, 0, k, a⟩], ⟨lnew, 0, 0, k, a⟩, none, 0⟩)
    have hrest : rest.Perm t.entries := by
      rw [hlist] at hold
      exact hold.symm.trans (hnodes.map _)
    have hother : ∀ p ∈ t.entries, fnvHash p.1 ≠ fnvHash k := by
      intro p hp hfnv
      obtain ⟨l, hl, rfl⟩ := List.mem_map.mp hp
      obtain ⟨m, hm, hlm⟩ := mem_nodes.mp hl
      exact hnone m hm (((he.bucket m hm).first l hlm).symm.trans hfnv)
    refine ⟨exact_modify hmem hwf hws.trees he.chmatch he.allowcoll he.cache
      (rbInsert_sorted he.sorted (fun m hm => hhash ▸ hnone m hm)) (fun _ => rfl) ?_ ?_,
      Or.inr ⟨fun p hp hfnv => absurd hfnv (hother p hp), ?_, rfl⟩⟩
    · intro m hm hne
      exact he.bucket m ((mem_rbInsert.mp hm).resolve_left hne)
    · refine ⟨by simp [grow], by simp [grow, helms], fun l hl => ?_, Or.inl ⟨_, rfl⟩,
        fun l hl => ?_⟩
      · rw [List.mem_singleton.mp hl]
        exact hhash.symm
      · cases hl
        exact Or.inl rfl
    · exact hnew.trans (hrest.cons (k, a))

/-! ## Deleting -/

/-- An entry that is erased by its address is that entry and no other. -/
theorem erase_perm (hw : t.Wf) {n : TreeNode α} (hn : n ∈ t.tree) {l : ListNode α}
    (hl : l ∈ n.list) : n.list.Perm (l :: n.list.eraseP (·.addr = l.addr)) := by
  obtain ⟨x, l₁, l₂, -, hx, hlist, herase⟩ :=
    List.exists_of_eraseP (p := fun x => decide (x.addr = l.addr)) hl (by simp)
  have hxl : x = l := by
    refine List.inj_on_of_nodup_map hw.cells ?_ ?_ (by simpa using hx)
    · exact mem_nodes.mpr ⟨n, hn, by rw [hlist]; simp⟩
    · exact mem_nodes.mpr ⟨n, hn, hl⟩
  rw [herase, hlist, hxl]
  exact List.perm_middle

theorem Exact.erase_bucket (he : t.Exact) {n : TreeNode α} (hn : n ∈ t.tree) {l : ListNode α}
    (hl : l ∈ n.list) (ecoll : Bool) (hne : (n.erase l.addr ecoll).elms ≠ 0) :
    Bucket (n.erase l.addr ecoll) := by
  have hb := he.bucket n hn
  have hperm := erase_perm he.wf hn hl
  have hlen := hperm.length_eq
  rw [List.length_cons] at hlen
  have helms : (n.erase l.addr ecoll).elms = (n.list.eraseP (·.addr = l.addr)).length := by
    have hsub : (n.erase l.addr ecoll).elms = n.elms - 1 := rfl
    rw [hsub, hb.elms, hlen, Nat.add_sub_cancel]
  have hcomp : Computed n.list := by
    rcases hb.second with ⟨x, hx⟩ | hcomp
    · rw [helms] at hne
      rw [hx, List.length_singleton, ← hx] at hlen
      omega
    · exact hcomp
  refine Bucket.of_computed ⟨hcomp.1.sublist List.eraseP_sublist,
    fun x hx => hcomp.2 x (List.mem_of_mem_eraseP hx)⟩ ?_ helms ?_
  · intro hnil
    rw [show n.list.eraseP (·.addr = l.addr) = [] from hnil, List.length_nil] at helms
    exact hne helms
  · intro p hp
    obtain ⟨x, hx, rfl⟩ := List.mem_map.mp hp
    exact hb.first x (List.mem_of_mem_eraseP hx)

theorem flatMap_filter_list (ms : List (TreeNode α)) (p : TreeNode α → Bool)
    (h : ∀ m ∈ ms, p m = false → m.list = []) :
    (ms.filter p).flatMap TreeNode.list = ms.flatMap TreeNode.list := by
  induction ms with
  | nil => rfl
  | cons m ms ih =>
      have hrest := ih (fun x hx => h x (List.mem_cons_of_mem _ hx))
      rw [List.filter_cons]
      cases hp : p m with
      | true => simp [hrest]
      | false => simp [hrest, h m List.mem_cons_self hp]

/-- Taking an entry out takes its pair out, and no other. -/
theorem Exact.unlink (he : t.Exact) {n : TreeNode α} (hn : n ∈ t.tree) {l : ListNode α}
    (hl : l ∈ n.list) (ecoll : Bool) :
    (t.unlink n.addr l.addr ecoll).Exact ∧
      t.entries.Perm ((l.data, l.arg) :: (t.unlink n.addr l.addr ecoll).entries) := by
  have hempty : ∀ m ∈ (t.modify n.addr (·.erase l.addr ecoll)).tree,
      m.addr = n.addr ∧ m.elms = 0 → m.list = [] := by
    rintro m hm ⟨hma, hzero⟩
    rcases mem_modify.mp hm with ⟨-, hne⟩ | ⟨k, hk, hka, rfl⟩
    · exact absurd hma hne
    · have hkn := he.wf.eq_of_addr hk hn hka
      subst hkn
      have hlen := (erase_perm he.wf hk hl).length_eq
      have hsub : (k.erase l.addr ecoll).elms = k.elms - 1 := rfl
      rw [hsub, (he.bucket k hk).elms, hlen, List.length_cons, Nat.add_sub_cancel] at hzero
      exact List.length_eq_zero_iff.mp hzero
  have hentries : (t.unlink n.addr l.addr ecoll).entries =
      (t.modify n.addr (·.erase l.addr ecoll)).entries := by
    refine congrArg pairs (flatMap_filter_list _ _ (fun m hm hp => hempty m hm ?_))
    simpa using hp
  refine ⟨⟨he.chmatch, he.allowcoll, he.cache, (unlink_spec he.wf hn hl ecoll).1, ?_, ?_⟩, ?_⟩
  · have hsorted := sorted_modify (a := n.addr) (f := (·.erase l.addr ecoll)) he.sorted fun _ => rfl
    exact hsorted.sublist List.filter_sublist
  · intro m hm
    obtain ⟨hm, hkept⟩ := List.mem_filter.mp hm
    rcases mem_modify.mp hm with ⟨hm, -⟩ | ⟨k, hk, hka, rfl⟩
    · exact he.bucket m hm
    · have hkn := he.wf.eq_of_addr hk hn hka
      subst hkn
      refine he.erase_bucket hk hl ecoll ?_
      have haddr : (k.erase l.addr ecoll).addr = k.addr := rfl
      simpa [haddr] using hkept
  · obtain ⟨rest, hold, hnew⟩ := entries_modify he.wf.trees hn (·.erase l.addr ecoll)
    have hpairs := (erase_perm he.wf hn hl).map fun x => (x.data, x.arg)
    rw [hentries]
    exact hold.trans ((hpairs.append_right rest).trans (hnew.symm.cons (l.data, l.arg)))

theorem Exact.hashtableDel (he : t.Exact) {k : List UInt8} (hk : k ≠ []) (a : α) :
    (∃ l ∈ t.nodes, l.data = k ∧ ∃ t' hi, t.hashtableDel (hashNew k a) = .ok (t', hi, .ok) ∧
      t'.Exact ∧ t.entries.Perm ((k, l.arg) :: t'.entries)) ∨
    ((∀ l ∈ t.nodes, l.data ≠ k) ∧
      ∃ hi, t.hashtableDel (hashNew k a) = .ok (t, hi, .enotfound)) := by
  have hspec := searchInTable_spec he.coherent (sound_hashNew t k a).live
  rw [Table.hashtableDel, if_neg (show (hashNew k a).data ≠ [] from hk),
    show ({ hashNew k a with collnode := none } : HashT α) = hashNew k a from rfl]
  rcases he.searchInTable k a with ⟨n, hn, l, hl, hlk, hsearch⟩ | ⟨hnone, hi, hsearch⟩
  · have hlocate := locate_search (show (hashNew k a).lnode = none from rfl) hsearch
      (he.wf.hinfoReset_entry hn hl (hashNew k a) .ok)
    have hcache : t.delCache (some l.addr) = t := by
      rw [delCache, he.cache, List.mapIdx_nil, ← he.cache]
    obtain ⟨hexact, hperm⟩ := he.unlink hn hl false
    refine Or.inl ⟨l, mem_nodes.mpr ⟨n, hn, hl⟩, hlk, t.unlink n.addr l.addr false, ?_⟩
    have hany : n.list.any (·.addr = l.addr) = true := by
      rw [List.any_eq_true]
      exact ⟨l, hl, by simp⟩
    rw [hlocate]
    simp only [bind, Except.bind, he.wf.tnodeAt hn, removeEntry, hany, hcache, if_true]
    exact ⟨_, rfl, hexact, hlk ▸ hperm⟩
  · obtain ⟨hi', hreset, -⟩ := hinfoReset_spec (hspec.of_eq_ok hsearch).1 .enotfound
    refine Or.inr ⟨hnone, hi', ?_⟩
    rw [locate_search rfl hsearch hreset]
    simp only [bind, Except.bind]

end Table
end Hash
end IrC6
