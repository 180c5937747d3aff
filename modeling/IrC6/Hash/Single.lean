import IrC6.Hash.Map

/-!
# The table that does not compare its keys

Without `CHMATCH` a node with one entry gives that entry to every key with its first hash.
As long as a key is sought before it is added, no node gets a second entry, and the table is
a map from the first hashes.  It is the map from the keys for a key that shares its first
hash with no other key of the table, and for no other key.

The additions and removals make no use of `CHMATCH`, so what is known of them with it holds
here too.
-/

namespace IrC6
namespace Hash

variable {α : Type}

namespace Table

variable {t : Table α} {M : List UInt8 → Option α}

/-- The same cells with `CHMATCH`. -/
def strict (t : Table α) : Table α := { t with chmatch := true }

/-- No two keys of the table have the same first hash. -/
structure Single (t : Table α) : Prop where
  chmatch : t.chmatch = false
  exact : t.strict.Exact
  firsts : (t.entries.map fun p => fnvHash p.1).Nodup

/-- No other key of a map has the first hash of `k`. -/
def Apart (M : List UInt8 → Option α) (k : List UInt8) : Prop :=
  ∀ k', M k' ≠ none → fnvHash k' = fnvHash k → k' = k

/-! ## What the invariant says -/

theorem Single.wf (hs : t.Single) : t.Wf :=
  ⟨hs.exact.wf.trees, hs.exact.wf.cells, hs.exact.wf.counted, hs.exact.wf.offs⟩

theorem Single.bucket (hs : t.Single) {n : TreeNode α} (hn : n ∈ t.tree) : Bucket n :=
  hs.exact.bucket n hn

/-- A node has one entry. -/
theorem Single.node (hs : t.Single) {n : TreeNode α} (hn : n ∈ t.tree) :
    ∃ l, n.list = [l] ∧ n.elms = 1 := by
  have hb := hs.bucket hn
  rcases hlist : n.list with _ | ⟨l, _ | ⟨l', rest⟩⟩
  · exact absurd hlist hb.nonempty
  · exact ⟨l, rfl, by rw [hb.elms, hlist, List.length_singleton]⟩
  · have hsub : [l, l'].Sublist t.nodes := by
      have hnode : n.list.Sublist t.nodes :=
        List.sublist_flatten_of_mem (List.mem_map_of_mem hn)
      rw [hlist] at hnode
      exact List.Sublist.trans
        (List.Sublist.cons_cons _ (List.Sublist.cons_cons _ (List.nil_sublist _))) hnode
    have hnodup := hs.firsts.sublist ((hsub.map fun l => (l.data, l.arg)).map _)
    have hsame : fnvHash l.data = fnvHash l'.data := by
      rw [hb.first l (by simp [hlist]), hb.first l' (by simp [hlist])]
    exact absurd hsame (by simpa using hnodup)

/-- The entries with a first hash are one entry. -/
theorem Single.eq_of_first (hs : t.Single) {l l' : ListNode α} (hl : l ∈ t.nodes)
    (hl' : l' ∈ t.nodes) (hfirst : fnvHash l.data = fnvHash l'.data) : l = l' := by
  have hnodup : (t.nodes.map fun l => fnvHash l.data).Nodup := by
    have hfirsts := hs.firsts
    rwa [entries, pairs, List.map_map] at hfirsts
  exact List.inj_on_of_nodup_map hnodup hl hl' hfirst

theorem Single.searchInCache (hs : t.Single) (hi : HashT α) : t.searchInCache hi = .ok none := by
  have hcache : t.cache = [] := hs.exact.cache
  simp [Table.searchInCache, visited, hcache, ring, searchSlots]

/-! ## Searching -/

theorem Single.searchInTable (hs : t.Single) (k : List UInt8) (a : α) :
    (∃ n ∈ t.tree, ∃ l ∈ n.list, fnvHash l.data = fnvHash k ∧
      t.searchInTable (hashNew k a) =
        .ok ({ hashNew k a with tnode := some n.addr, lnode := some l.addr }, .ok)) ∨
    ((∀ l ∈ t.nodes, fnvHash l.data ≠ fnvHash k) ∧
      t.searchInTable (hashNew k a) = .ok ({ hashNew k a with tnode := none }, .enotfound)) := by
  unfold Table.searchInTable
  simp only [hs.searchInCache, bind, Except.bind]
  cases hfind : t.rbFind (hashNew k a).hash with
  | none =>
      refine Or.inr ⟨fun l hl hfirst => ?_, rfl⟩
      rcases mem_nodes.mp hl with ⟨n, hn, hln⟩
      have hnode := hs.exact.rbFind (n := n) hn
      rw [← (hs.bucket hn).first l hln, hfirst] at hnode
      exact absurd (hnode.symm.trans hfind) nofun
  | some n =>
      rcases rbFind_some hfind with ⟨hn, hfirst⟩
      rcases hs.node hn with ⟨l, hlist, helms⟩
      refine Or.inl ⟨n, hn, l, by rw [hlist]; exact List.mem_singleton_self l, ?_, ?_⟩
      · rw [(hs.bucket hn).first l (by rw [hlist]; exact List.mem_singleton_self l), hfirst]
        rfl
      · simp only [helms, hlist, hs.chmatch]
        rfl

/-- A search gives the entry with the first hash of the key. -/
theorem Single.hashtableFind (hs : t.Single) (k : List UInt8) (a : α) :
    (∃ l ∈ t.nodes, fnvHash l.data = fnvHash k ∧
      ∃ hi, t.hashtableFind (hashNew k a) = .ok (t, hi, .ok) ∧ hi.arg = l.arg) ∨
    ((∀ l ∈ t.nodes, fnvHash l.data ≠ fnvHash k) ∧
      ∃ hi, t.hashtableFind (hashNew k a) = .ok (t, hi, .enotfound)) := by
  rcases hs.searchInTable k a with ⟨n, hn, l, hl, hfirst, hsearch⟩ | ⟨hnone, hsearch⟩
  · have hreset := hs.wf.hinfoReset_entry hn hl { hashNew k a with collnode := none } .ok
    refine Or.inl ⟨l, mem_nodes.mpr ⟨n, hn, hl⟩, hfirst, ?_⟩
    have hcache : t.cache.length = 0 := congrArg List.length hs.exact.cache
    unfold Table.hashtableFind
    rw [hsearch]
    simp only [bind, Except.bind, hreset]
    rw [if_neg nofun, addCache, if_pos hcache]
    exact ⟨_, rfl, rfl⟩
  · refine Or.inr ⟨hnone, ?_⟩
    unfold Table.hashtableFind
    rw [hsearch]
    exact ⟨_, rfl⟩

/-! ## Adding and deleting -/

theorem insertNode_strict (t : Table α) (l : ListNode α) (list : List (ListNode α)) :
    insertNode t.strict l list = insertNode t l list := by
  have hentry : ∀ (l : ListNode α) list, insertEntry t.strict l list = insertEntry t l list := by
    intro l list
    induction list with
    | nil => rfl
    | cons lent rest ih => simp only [insertEntry, ih]; rfl
  cases list with
  | nil => rfl
  | cons first rest => exact hentry _ _

theorem setupNode_strict (t : Table α) (h : UInt32) (tnew : Nat) :
    t.strict.setupNode h tnew = ((t.setupNode h tnew).1.strict, (t.setupNode h tnew).2) := by
  unfold setupNode
  rw [show t.strict.rbFind h = t.rbFind h from rfl]
  cases t.rbFind h <;> rfl

theorem addCache_strict (t : Table α) (ta la : Option Nat) :
    t.strict.addCache ta la = (t.addCache ta la).strict := by
  unfold addCache
  rw [show t.strict.cache = t.cache from rfl]
  split <;> rfl

theorem hashtableAdd_strict (t : Table α) (hi : HashT α) (tnew lnew : Nat) :
    t.strict.hashtableAdd hi tnew lnew =
      ((t.hashtableAdd hi tnew lnew).1.strict, (t.hashtableAdd hi tnew lnew).2) := by
  unfold Table.hashtableAdd
  by_cases hdata : hi.data = []
  · rw [if_pos hdata, if_pos hdata]
  · rw [if_neg hdata, if_neg hdata]
    simp only [setupNode_strict, insertNode_strict]
    rw [← addCache_strict]
    rfl

theorem addCache_chmatch (t : Table α) (ta la : Option Nat) :
    (t.addCache ta la).chmatch = t.chmatch := by
  unfold addCache
  split <;> rfl

theorem setupNode_chmatch (t : Table α) (h : UInt32) (tnew : Nat) :
    (t.setupNode h tnew).1.chmatch = t.chmatch := by
  unfold setupNode
  split <;> rfl

theorem hashtableAdd_chmatch (t : Table α) (hi : HashT α) (tnew lnew : Nat) :
    (t.hashtableAdd hi tnew lnew).1.chmatch = t.chmatch := by
  unfold Table.hashtableAdd
  split
  · rfl
  · rw [addCache_chmatch]
    exact setupNode_chmatch t _ tnew

/-- The entry that an addition yields has the first hash of its key. -/
theorem hashtableAdd_hash (t : Table α) {k : List UInt8} (hk : k ≠ []) (a : α)
    (tnew lnew : Nat) : (t.hashtableAdd (hashNew k a) tnew lnew).2.1.hash = fnvHash k := by
  unfold Table.hashtableAdd
  rw [if_neg (show (hashNew k a).data ≠ [] from hk)]
  dsimp only
  unfold setupNode
  cases hfind : t.rbFind (hashNew k a).hash with
  | none => rfl
  | some n => exact (rbFind_some hfind).2

/-- A key whose first hash is not in the table is added. -/
theorem Single.hashtableAdd (hs : t.Single) {k : List UInt8} (hk : k ≠ []) (a : α)
    {tnew lnew : Nat} (hf : t.Fresh tnew lnew)
    (hnone : ∀ l ∈ t.nodes, fnvHash l.data ≠ fnvHash k) :
    (t.hashtableAdd (hashNew k a) tnew lnew).1.Single ∧
      (t.hashtableAdd (hashNew k a) tnew lnew).1.entries.Perm ((k, a) :: t.entries) ∧
      (t.hashtableAdd (hashNew k a) tnew lnew).2.2 = .ok := by
  have hadd := hs.exact.hashtableAdd hk a (show t.strict.Fresh tnew lnew from hf)
  rw [hashtableAdd_strict] at hadd
  have hfree : ∀ p ∈ t.entries, fnvHash p.1 ≠ fnvHash k := by
    intro p hp
    rcases List.mem_map.mp hp with ⟨l, hl, rfl⟩
    exact hnone l hl
  rcases hadd with ⟨hexact, ⟨p, hp, hfnv, -⟩ | ⟨-, hperm, hret⟩⟩
  · exact absurd hfnv (hfree p hp)
  · refine ⟨⟨?_, hexact, ?_⟩, hperm, hret⟩
    · rw [hashtableAdd_chmatch, hs.chmatch]
    · refine (hperm.map fun p => fnvHash p.1).nodup_iff.mpr
        (List.nodup_cons.mpr ⟨fun hmem => ?_, hs.firsts⟩)
      rcases List.mem_map.mp hmem with ⟨p, hp, hfnv⟩
      exact hfree p hp hfnv

theorem Single.hashtableDel (hs : t.Single) {k : List UInt8} (hk : k ≠ []) (a : α) :
    (∃ l ∈ t.nodes, fnvHash l.data = fnvHash k ∧ ∃ t' hi,
      t.hashtableDel (hashNew k a) = .ok (t', hi, .ok) ∧ t'.Single ∧
        t.entries.Perm ((l.data, l.arg) :: t'.entries)) ∨
    ((∀ l ∈ t.nodes, fnvHash l.data ≠ fnvHash k) ∧
      ∃ hi, t.hashtableDel (hashNew k a) = .ok (t, hi, .enotfound)) := by
  rw [Table.hashtableDel, if_neg (show (hashNew k a).data ≠ [] from hk),
    show ({ hashNew k a with collnode := none } : HashT α) = hashNew k a from rfl]
  rcases hs.searchInTable k a with ⟨n, hn, l, hl, hfirst, hsearch⟩ | ⟨hnone, hsearch⟩
  · have hlocate := locate_search (show (hashNew k a).lnode = none from rfl) hsearch
      (hs.wf.hinfoReset_entry hn hl (hashNew k a) .ok)
    have hcache : t.delCache (some l.addr) = t := by
      have hnil : t.cache = [] := hs.exact.cache
      rw [delCache, hnil, List.mapIdx_nil, ← hnil]
    have hany : n.list.any (·.addr = l.addr) = true :=
      List.any_eq_true.mpr ⟨l, hl, decide_eq_true rfl⟩
    rcases hs.exact.unlink (n := n) hn hl false with ⟨hexact, hperm⟩
    refine Or.inl ⟨l, mem_nodes.mpr ⟨n, hn, hl⟩, hfirst, t.unlink n.addr l.addr false, ?_⟩
    rw [hlocate]
    simp only [bind, Except.bind, hs.wf.tnodeAt hn, removeEntry, hany, hcache, if_true]
    refine ⟨_, rfl, ⟨hs.chmatch, hexact, ?_⟩, hperm⟩
    exact (List.nodup_cons.mp ((hperm.map fun p => fnvHash p.1).nodup_iff.mp hs.firsts)).2
  · refine Or.inr ⟨hnone, ?_⟩
    rw [locate_search rfl hsearch rfl]
    exact ⟨_, rfl⟩

/-! ## The map -/

/-- What a search gives is what the map has if and only if the key is apart from the others. -/
theorem Single.apart_iff (hs : t.Single) (hr : t.Represents M) {k : List UInt8}
    {l : ListNode α} (hl : l ∈ t.nodes) (hfirst : fnvHash l.data = fnvHash k) :
    Apart M k ↔ M k = some l.arg := by
  have hmem : M l.data = some l.arg := (hr _ _).mp (mem_entries.mpr ⟨l, hl, rfl, rfl⟩)
  constructor
  · intro h
    rw [← h l.data (by rw [hmem]; nofun) hfirst, hmem]
  · intro hk k' hk' hfnv
    rcases mem_entries.mp ((hr k l.arg).mpr hk) with ⟨l₁, hl₁, hdata₁, -⟩
    rcases Option.ne_none_iff_exists'.mp hk' with ⟨a, ha⟩
    rcases mem_entries.mp ((hr k' a).mpr ha) with ⟨l₂, hl₂, hdata₂, -⟩
    have heq := hs.eq_of_first hl₂ hl₁ (by rw [hdata₁, hdata₂, hfnv])
    rw [← hdata₁, ← hdata₂, heq]

/-- A first hash that the table has not makes a key that the map has not. -/
theorem Represents.apart_of_none (hr : t.Represents M) {k : List UInt8}
    (hnone : ∀ l ∈ t.nodes, fnvHash l.data ≠ fnvHash k) : M k = none ∧ Apart M k := by
  refine ⟨(hr.none_iff k).mpr fun l hl hdata => hnone l hl (by rw [hdata]), ?_⟩
  intro k' hk' hfirst
  rcases Option.ne_none_iff_exists'.mp hk' with ⟨a, ha⟩
  rcases mem_entries.mp ((hr k' a).mpr ha) with ⟨l, hl, hdata, -⟩
  exact absurd (by rw [hdata, hfirst]) (hnone l hl)

end Table

theorem hashtableNew_single (dupascoll : Bool) :
    (hashtableNew false false dupascoll 0 : Table α).Single where
  chmatch := rfl
  exact := hashtableNew_exact dupascoll
  firsts := List.nodup_nil

end Hash
end IrC6
