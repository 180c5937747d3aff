import IrC6.Base.Faults
import IrC6.Base.Runs
import IrC6.Hash.Linked

/-!
# The cache

The slots of the ring that are in use refer to cells linked in the table.  An
addition and a search put linked cells into the ring, and a deletion is to clear
every slot that refers to the entry it takes out.

The loop of `_del_cache` ends in front of the slot before `cache_offs`, which is the
one that was filled last, so a deletion may leave a slot behind.  The table stays
coherent as long as no deletion takes out an entry that a slot refers to which the
loop does not visit.
-/

namespace IrC6
namespace Hash

variable {α : Type}

namespace Table

/-- Every slot in use refers to a tree node and one of its entries. -/
def Coherent (t : Table α) : Prop :=
  ∀ e ∈ t.cache, e.used = true →
    ∃ ta la, e.tnode = some ta ∧ e.lnode = some la ∧ t.Linked ta la

/-- The pointers of a `hash_t` are null, or they refer to an entry of the table. -/
def Sound (t : Table α) (hi : HashT α) : Prop :=
  (hi.tnode = none ∧ hi.lnode = none) ∨
    ∃ ta la, hi.tnode = some ta ∧ hi.lnode = some la ∧ t.Linked ta la

variable {t : Table α}

/-! ## Keeping the ring -/

theorem Coherent.addCache {s : Table α} (hc : t.Coherent) (hcache : s.cache = t.cache)
    (hkeep : ∀ a b, t.Linked a b → s.Linked a b) {ta la : Nat} (hnew : s.Linked ta la) :
    (s.addCache (some ta) (some la)).Coherent := by
  intro e he hused
  have hcases : e ∈ t.cache ∨ e = { lnode := some la, tnode := some ta, used := true } := by
    unfold Table.addCache at he
    split at he
    · exact Or.inl (hcache ▸ he)
    · rcases List.mem_or_eq_of_mem_set he with he | he
      · exact Or.inl (hcache ▸ he)
      · exact Or.inr he
  rcases hcases with he | rfl
  · obtain ⟨a, b, ha, hb, hab⟩ := hc e he hused
    exact ⟨a, b, ha, hb, linked_addCache.mpr (hkeep a b hab)⟩
  · exact ⟨ta, la, rfl, rfl, linked_addCache.mpr hnew⟩

/-- A search in a coherent ring follows no slot out of the table. -/
theorem searchSlots_spec (hc : t.Coherent) (hi : HashT α) (is : List Nat) :
    ∃ r, t.searchSlots hi is = .ok r ∧
      ∀ e, r = some e → ∃ ta la, e.tnode = some ta ∧ e.lnode = some la ∧ t.Linked ta la := by
  induction is with
  | nil => exact ⟨none, rfl, fun e he => by cases he⟩
  | cons i is ih =>
      rw [searchSlots]
      cases hi' : t.cache[i]? with
      | none => exact ih
      | some e =>
          simp only
          by_cases hused : e.used = false
          · rw [if_pos hused]
            exact ih
          · have hcell := hc e (List.mem_of_getElem? hi') (by simpa using hused)
            obtain ⟨ta, la, hta, hla, hlinked⟩ := hcell
            obtain ⟨l, hl⟩ := exists_lnodeAt hlinked.exists_lnode
            rw [if_neg hused, hla]
            simp only [hl]
            split
            · exact ih
            · split
              · exact ih
              · exact ⟨some e, rfl, fun e' he' => by
                  cases he'
                  exact ⟨ta, la, hta, hla, hlinked⟩⟩

/-! ## Searching -/

/-- The pointers that are set refer to cells of the table. -/
def Live (t : Table α) (hi : HashT α) : Prop :=
  (∀ ta, hi.tnode = some ta → ∃ n ∈ t.tree, n.addr = ta) ∧
    ∀ la, hi.lnode = some la → ∃ l ∈ t.nodes, l.addr = la

/-- Both pointers are set, to a tree node and one of its entries. -/
def Points (t : Table α) (hi : HashT α) : Prop :=
  ∃ ta la, hi.tnode = some ta ∧ hi.lnode = some la ∧ t.Linked ta la

theorem Points.live {hi : HashT α} (h : t.Points hi) : t.Live hi := by
  obtain ⟨ta, la, hta, hla, hlinked⟩ := h
  refine ⟨fun a ha => ?_, fun b hb => ?_⟩
  · rw [hta] at ha
    cases ha
    exact hlinked.exists_tnode
  · rw [hla] at hb
    cases hb
    exact hlinked.exists_lnode

theorem Sound.live {hi : HashT α} (h : t.Sound hi) : t.Live hi := by
  rcases h with ⟨hta, hla⟩ | h
  · exact ⟨fun a ha => by simp [hta] at ha, fun b hb => by simp [hla] at hb⟩
  · exact Points.live h

theorem checkEntry_mem {collisions : Nat} {data : List UInt8} {hash2 : UInt32}
    {lent l : ListNode α} {prev next : Option (ListNode α)} {ret : Ret}
    (h : t.checkEntry collisions data hash2 lent prev next = some (l, ret)) :
    l = lent ∨ prev = some l ∨ next = some l := by
  unfold checkEntry at h
  split at h
  · split at h
    · cases h
      exact Or.inl rfl
    · cases h
  · split at h
    · cases h
      exact Or.inl rfl
    · split at h
      · simp only [Option.map_eq_some_iff, Option.filter_eq_some_iff, Prod.mk.injEq] at h
        obtain ⟨x, ⟨hx, -⟩, rfl, -⟩ := h
        split at hx
        · rename_i y hy
          cases hx
          exact Or.inr (Or.inr (Option.filter_eq_some_iff.mp hy).1)
        · exact Or.inr (Or.inl (Option.filter_eq_some_iff.mp hx).1)
      · cases h

theorem searchList_mem {collisions : Nat} {data : List UInt8} {hash2 : UInt32}
    {prev : Option (ListNode α)} {list : List (ListNode α)} {l : ListNode α} {ret : Ret}
    (h : t.searchList collisions data hash2 prev list = some (l, ret)) :
    prev = some l ∨ l ∈ list := by
  induction list generalizing prev with
  | nil => cases h
  | cons lent rest ih =>
      have hrest : t.searchList collisions data hash2 (some lent) rest = some (l, ret) →
          prev = some l ∨ l ∈ lent :: rest := by
        intro hr
        rcases ih hr with hlent | hmem
        · cases hlent
          exact Or.inr List.mem_cons_self
        · exact Or.inr (List.mem_cons_of_mem _ hmem)
      rw [searchList] at h
      split at h
      · cases hcheck : t.checkEntry collisions data hash2 lent prev rest.head? with
        | none =>
            rw [hcheck] at h
            exact hrest h
        | some r =>
            rw [hcheck] at h
            cases h
            rcases checkEntry_mem hcheck with rfl | hprev | hnext
            · exact Or.inr List.mem_cons_self
            · exact Or.inl hprev
            · exact Or.inr (List.mem_cons_of_mem _ (List.mem_of_head? hnext))
      · exact hrest h

/-- The tree node for a key that has lost all its entries, while its counter says one. -/
def Hollow (t : Table α) (hi : HashT α) : Prop :=
  ∃ n, t.rbFind hi.hash = some n ∧ n.elms = 1 ∧ n.list = []

/-- A search does not leave the table, and what it finds is linked. -/
theorem searchInTable_spec (hc : t.Coherent) {hi : HashT α} (hlive : t.Live hi) :
    Avoids .dangling (fun r : HashT α × Ret => t.Live r.1 ∧
        (r.2 ≠ .enotfound → t.Points r.1 ∨ (r.1.lnode = none ∧ t.Hollow hi)))
      (t.searchInTable hi) := by
  obtain ⟨r, hr, hpoints⟩ := searchSlots_spec hc hi t.visited
  rw [searchInTable, searchInCache, hr]
  simp only [bind, Except.bind]
  cases r with
  | some e =>
      obtain ⟨ta, la, hta, hla, hlinked⟩ := hpoints e rfl
      have hp : t.Points { hi with tnode := e.tnode, lnode := e.lnode } :=
        ⟨ta, la, hta, hla, hlinked⟩
      exact .ok ⟨hp.live, fun _ => Or.inl hp⟩
  | none =>
      simp only
      cases hfind : t.rbFind hi.hash with
      | none => exact .ok ⟨⟨fun a ha => by simp at ha, hlive.2⟩, fun hret => absurd rfl hret⟩
      | some n =>
          have hn := (rbFind_some hfind).1
          have hpoint : ∀ l ∈ n.list,
              t.Points { hi with tnode := some n.addr, lnode := some l.addr } :=
            fun l hl => ⟨n.addr, l.addr, rfl, rfl, n, hn, rfl, l, hl, rfl⟩
          have hnode : t.Live { hi with tnode := some n.addr } :=
            ⟨fun a ha => ⟨n, hn, by simpa using ha⟩, hlive.2⟩
          by_cases helms : n.elms = 1
          · simp only [if_pos helms]
            cases hlist : n.list with
            | nil =>
                simp only
                split
                · exact .error (by simp)
                · exact .ok ⟨⟨hnode.1, fun b hb => by simp at hb⟩,
                    fun _ => Or.inr ⟨rfl, n, hfind, helms, hlist⟩⟩
            | cons l rest =>
                have hp := hpoint l (by rw [hlist]; exact List.mem_cons_self)
                exact .ok ⟨hp.live, fun _ => Or.inl hp⟩
          · simp only [if_neg helms]
            cases hsearch : t.searchList n.collisions hi.data (oatHash hi.data) none n.list with
            | none => exact .ok ⟨hnode, fun hret => absurd rfl hret⟩
            | some q =>
                have hmem : q.1 ∈ n.list := by
                  rcases searchList_mem hsearch with h | h
                  · cases h
                  · exact h
                exact .ok ⟨(hpoint q.1 hmem).live, fun _ => Or.inl (hpoint q.1 hmem)⟩

/-- Copying what the pointers refer to leaves them alone, or clears them when one is
null. -/
theorem hinfoReset_spec {hi : HashT α} (hlive : t.Live hi) (ret : Ret) :
    ∃ hi', t.hinfoReset hi ret = .ok hi' ∧
      (t.Points hi → hi'.tnode = hi.tnode ∧ hi'.lnode = hi.lnode) ∧
      (hi.lnode = none → hi'.lnode = none) := by
  unfold hinfoReset
  split
  · rename_i ta la hta hla
    obtain ⟨n, hn⟩ := exists_tnodeAt (hlive.1 ta hta)
    obtain ⟨l, hl⟩ := exists_lnodeAt (hlive.2 la hla)
    have hremake : t.hinfoRemake hi ret ta la = .ok { hi with
        data := l.data, arg := l.arg, hash := n.firstHash, ret := ret } := by
      rw [hinfoRemake, hn, hl]
    exact ⟨_, hremake, fun _ => ⟨rfl, rfl⟩, fun h => h⟩
  · rename_i hnone
    refine ⟨_, rfl, fun hp => ?_, fun _ => rfl⟩
    obtain ⟨ta, la, hta, hla, -⟩ := hp
    exact absurd hla (hnone ta la hta)

/-- What the pointers to an entry refer to. -/
theorem Wf.hinfoReset_entry (hw : t.Wf) {n : TreeNode α} (hn : n ∈ t.tree) {l : ListNode α}
    (hl : l ∈ n.list) (hi : HashT α) (ret : Ret) :
    t.hinfoReset { hi with tnode := some n.addr, lnode := some l.addr } ret = .ok { hi with
      data := l.data, arg := l.arg, hash := n.firstHash, ret := ret,
      tnode := some n.addr, lnode := some l.addr } := by
  simp only [hinfoReset, hinfoRemake, hw.tnodeAt hn, hw.lnodeAt (mem_nodes.mpr ⟨n, hn, hl⟩)]

theorem Points.of_eq {hi hi' : HashT α} (h : t.Points hi)
    (heq : hi'.tnode = hi.tnode ∧ hi'.lnode = hi.lnode) : t.Points hi' := by
  obtain ⟨ta, la, hta, hla, hlinked⟩ := h
  exact ⟨ta, la, heq.1.trans hta, heq.2.trans hla, hlinked⟩

/-- A search keeps the ring coherent when it does not end at a hollow node. -/
theorem hashtableFind_coherent (hc : t.Coherent) {hi : HashT α} (hs : t.Sound hi) :
    Avoids .dangling (fun r : Table α × HashT α × Ret => ¬ t.Hollow hi →
        r.1.Coherent ∧ r.1.tree = t.tree ∧ (t.Wf → r.1.Wf))
      (t.hashtableFind hi) := by
  refine (searchInTable_spec hc hs.live).bind ?_
  rintro ⟨hi₁, ret⟩ - ⟨hlive, hpoints⟩
  obtain ⟨hi₂, hreset, hkeep, -⟩ :=
    hinfoReset_spec (show t.Live { hi₁ with collnode := none } from hlive) ret
  simp only [bind, Except.bind, hreset]
  split
  · exact .ok fun _ => ⟨hc, rfl, id⟩
  · rename_i hret
    refine .ok fun hhollow => ?_
    rcases hpoints hret with hp | ⟨-, hh⟩
    · obtain ⟨ta, la, hta, hla, hlinked⟩ := hp.of_eq (hkeep hp)
      rw [hta, hla]
      exact ⟨hc.addCache rfl (fun _ _ h => h) hlinked, addCache_tree _ _ _,
        fun hw => hw.addCache _ _⟩
    · exact absurd hh hhollow

/-- The first half of a deletion ends at an entry of the table, at a null pointer, or
without an entry. -/
theorem locate_spec (hc : t.Coherent) {hi : HashT α} (hs : t.Sound hi) :
    Avoids .dangling (fun r : HashT α × Ret =>
        r.2 = .enotfound ∨ t.Points r.1 ∨ r.1.lnode = none)
      (t.locate hi) := by
  unfold locate
  split
  · refine (searchInTable_spec hc hs.live).bind ?_
    rintro ⟨hi₁, ret⟩ - ⟨hlive, hpoints⟩
    obtain ⟨hi₂, hreset, hkeep, hnull⟩ := hinfoReset_spec hlive ret
    simp only [bind, Except.bind, hreset]
    by_cases hret : ret = .enotfound
    · exact .ok (Or.inl hret)
    · rcases hpoints hret with hp | ⟨hl, -⟩
      · exact .ok (Or.inr (Or.inl (hp.of_eq (hkeep hp))))
      · exact .ok (Or.inr (Or.inr (hnull hl)))
  · rename_i hset
    rcases hs with ⟨hta, -⟩ | hp
    · exact absurd (Or.inr hta) hset
    · exact .ok (Or.inr (Or.inl hp))

theorem locate_search {hi hi₁ hi₂ : HashT α} {ret : Ret} (hnull : hi.lnode = none)
    (hsearch : t.searchInTable hi = .ok (hi₁, ret)) (hreset : t.hinfoReset hi₁ ret = .ok hi₂) :
    t.locate hi = .ok (hi₂, ret) := by
  rw [locate, if_pos (Or.inl hnull), hsearch]
  simp only [bind, Except.bind, hreset]

/-! ## Deleting -/

/-- The entry that a deletion takes out of the table, by its address; without data it is
refused. -/
def removed (t : Table α) (hi : HashT α) : Option Nat :=
  if hi.data = [] then none
  else match t.locate { hi with collnode := none } with
    | .ok (hi', .ok) | .ok (hi', .ecoll) => hi'.lnode
    | .ok (hi', .dup) =>
        hi'.lnode.filter fun la => ((t.lnodeAt la).map (·.dup)) = some 0
    | _ => none

/-- Every slot in use for an entry is among those that `_del_cache` visits. -/
def Visits (t : Table α) (la : Nat) : Prop :=
  ∀ i e, t.cache[i]? = some e → e.used = true → e.lnode = some la → i ∈ t.visited

theorem Wf.delCache (hw : t.Wf) (la : Option Nat) : (t.delCache la).Wf := by
  refine ⟨hw.trees, hw.cells, hw.counted, fun hne => ?_⟩
  have hlen : (t.delCache la).cache.length = t.cache.length := by
    simp [Table.delCache]
  have hne' : t.cache ≠ [] := by
    intro hnil
    rw [hnil, List.length_nil] at hlen
    exact hne (List.length_eq_zero_iff.mp hlen)
  rw [hlen]
  exact hw.offs hne'

/-- After the deletion of an entry whose slots are all visited no slot refers to it. -/
theorem delCache_clears {la : Nat} (hv : t.Visits la) {e : CacheEntry}
    (he : e ∈ (t.delCache (some la)).cache) (hused : e.used = true) :
    e ∈ t.cache ∧ e.lnode ≠ some la := by
  obtain ⟨i, hi⟩ := List.mem_iff_getElem?.mp he
  simp only [delCache, List.getElem?_mapIdx, Option.map_eq_some_iff] at hi
  obtain ⟨e₀, he₀, heq⟩ := hi
  split at heq
  · subst heq
    cases hused
  · rename_i hcond
    subst heq
    exact ⟨List.mem_of_getElem? he₀, fun hl => hcond ⟨hv i e₀ he₀ hused hl, hused, hl⟩⟩

theorem removeEntry_spec (hw : t.Wf) (hc : t.Coherent) {hi : HashT α}
    (hp : t.Points hi ∨ hi.lnode = none) (ret : Ret) :
    Avoids .dangling (fun r : Table α × HashT α × Ret =>
        (∀ la, hi.lnode = some la → t.Visits la) → r.1.Wf ∧ r.1.Coherent)
      (t.removeEntry hi ret) := by
  rcases hp with hp | hnull
  · obtain ⟨ta, la, hta, hla, n, hn, hna, l, hl, hladdr⟩ := hp
    subst hna hladdr
    have hany : n.list.any (·.addr = l.addr) = true := by
      rw [List.any_eq_true]
      exact ⟨l, hl, by simp⟩
    unfold removeEntry
    simp only [hta, hla, hw.tnodeAt hn, if_pos hany]
    refine .ok fun hvisits => ?_
    obtain ⟨hwf, hkeep⟩ := unlink_spec (hw.delCache (some l.addr))
      (show n ∈ (t.delCache (some l.addr)).tree from hn) hl (ret = .ecoll)
    refine ⟨hwf, fun e he hused => ?_⟩
    obtain ⟨hmem, hne⟩ := delCache_clears (hvisits l.addr rfl) he hused
    obtain ⟨a, b, ha, hb, hab⟩ := hc e hmem hused
    exact ⟨a, b, ha, hb, hkeep a b hab (fun heq => hne (heq ▸ hb))⟩
  · unfold removeEntry
    rw [hnull]
    cases hi.tnode <;> exact .error (by simp)

/-- A deletion keeps the ring coherent when it visits every slot of the entry that it
takes out. -/
theorem hashtableDel_coherent (hw : t.Wf) (hc : t.Coherent) {hi : HashT α} (hs : t.Sound hi) :
    Avoids .dangling (fun r : Table α × HashT α × Ret =>
        (∀ la, t.removed hi = some la → t.Visits la) → r.1.Wf ∧ r.1.Coherent)
      (t.hashtableDel hi) := by
  unfold hashtableDel
  split
  · exact .ok fun _ => ⟨hw, hc⟩
  · rename_i hdata
    refine (locate_spec hc (show t.Sound { hi with collnode := none } from hs)).bind ?_
    rintro ⟨hi₁, ret₁⟩ hlocate hpoints
    dsimp only at hpoints ⊢
    have hremove : ∀ ret, t.Points hi₁ ∨ hi₁.lnode = none → t.removed hi = hi₁.lnode →
        Avoids .dangling (fun r : Table α × HashT α × Ret =>
            (∀ la, t.removed hi = some la → t.Visits la) → r.1.Wf ∧ r.1.Coherent)
          (t.removeEntry hi₁ ret) := by
      intro ret hp hremoved
      rw [hremoved]
      exact removeEntry_spec hw hc hp ret
    cases ret₁ with
    | enotfound | unspec | einval => exact .ok fun _ => ⟨hw, hc⟩
    | ok | ecoll =>
        exact hremove _ (hpoints.resolve_left (by simp)) (by rw [removed, if_neg hdata, hlocate])
    | dup =>
        rcases hpoints.resolve_left (by simp) with hp | hnull
        · obtain ⟨ta, la, hta, hla, n, hn, hna, l, hl, hladdr⟩ := hp
          have hp' : t.Points hi₁ := ⟨ta, la, hta, hla, n, hn, hna, l, hl, hladdr⟩
          subst hna hladdr
          have hlnode := hw.lnodeAt (mem_nodes.mpr ⟨n, hn, hl⟩)
          simp only [hta, hla, hlnode]
          split
          · rename_i hdup
            obtain ⟨hwf, hkeep⟩ := dropDup_spec hw hn hl hdup
            refine .ok fun _ => ⟨hwf, fun e he hused => ?_⟩
            obtain ⟨a, b, ha, hb, hab⟩ := hc e he hused
            exact ⟨a, b, ha, hb, hkeep a b hab⟩
          · rename_i hdup
            have hzero : l.dup = 0 := by omega
            refine hremove _ (Or.inl hp') ?_
            rw [removed, if_neg hdata, hlocate]
            simp [hla, hlnode, hzero]
        · simp only [hnull]
          cases hi₁.tnode <;> exact .error (by simp)

end Table

/-! ## Runs -/

/-- An operation with its `hash_t`, and with the cells that an addition is given. -/
inductive Op (α : Type) where
  | add (hi : HashT α) (tnew lnew : Nat)
  | find (hi : HashT α)
  | del (hi : HashT α)

namespace Op

def run (t : Table α) : Op α → Except Fault (Table α × HashT α × Ret)
  | add hi tnew lnew => .ok (t.hashtableAdd hi tnew lnew)
  | find hi => t.hashtableFind hi
  | del hi => t.hashtableDel hi

/-- What callers and the allocator see to: new cells are not in use, and a `hash_t`
has null pointers or points to an entry of the table. -/
def Allowed (t : Table α) : Op α → Prop
  | add _ tnew lnew => t.Fresh tnew lnew
  | find hi | del hi => t.Sound hi

/-- The condition on an operation: a deletion visits every slot of the entry that it
takes out, and a search does not end at a hollow node. -/
def Clean (t : Table α) : Op α → Prop
  | add _ _ _ => True
  | find hi => ¬ t.Hollow hi
  | del hi => ∀ la, t.removed hi = some la → t.Visits la

end Op

theorem hashtableNew_wf (allowcoll chmatch dupascoll : Bool) (n : Nat) :
    (hashtableNew allowcoll chmatch dupascoll n : Table α).Wf where
  trees := List.nodup_nil
  cells := List.nodup_nil
  counted := fun m hm => by cases hm
  offs := fun hne => List.length_pos_of_ne_nil hne

theorem hashtableNew_coherent (allowcoll chmatch dupascoll : Bool) (n : Nat) :
    (hashtableNew allowcoll chmatch dupascoll n : Table α).Coherent := by
  intro e he hused
  have heq := List.eq_of_mem_replicate he
  subst heq
  cases hused

/-- One operation that meets the condition keeps the table well formed and coherent. -/
theorem coherent_step {t t' : Table α} (hw : t.Wf) (hc : t.Coherent) {op : Op α}
    (hallowed : op.Allowed t) (hclean : op.Clean t) {r : HashT α × Ret}
    (hrun : op.run t = .ok (t', r)) : t'.Wf ∧ t'.Coherent := by
  cases op with
  | add hi₀ tnew lnew =>
      simp only [Op.run, Except.ok.injEq] at hrun
      by_cases hdata : hi₀.data = []
      · rw [Table.hashtableAdd, if_pos hdata] at hrun
        cases hrun
        exact ⟨hw, hc⟩
      · obtain ⟨s, ta, la, ht, hcache, hws, hnew, hkeep⟩ :=
          Table.hashtableAdd_linked hw hi₀ hdata hallowed
        have ht' : t' = s.addCache (some ta) (some la) := by rw [← ht, hrun]
        rw [ht']
        exact ⟨hws.addCache _ _, hc.addCache hcache hkeep hnew⟩
  | find hi₀ =>
      obtain ⟨hcoherent, -, hwf⟩ :=
        (Table.hashtableFind_coherent hc hallowed).of_eq_ok hrun hclean
      exact ⟨hwf hw, hcoherent⟩
  | del hi₀ => exact (Table.hashtableDel_coherent hw hc hallowed).of_eq_ok hrun hclean

/-- In every run whose operations meet the condition every slot in use refers to
linked cells, and no operation follows a slot out of the table. -/
theorem cache_coherent (allowcoll chmatch dupascoll : Bool) (n : Nat) (t : Table α)
    (h : Reaches Op.run (fun t op => op.Allowed t ∧ op.Clean t)
      (hashtableNew allowcoll chmatch dupascoll n) t) :
    t.Coherent ∧ ∀ op : Op α, op.Allowed t → op.run t ≠ .error .dangling := by
  obtain ⟨hw, hc⟩ := h.invariant (I := fun t => t.Wf ∧ t.Coherent)
    ⟨hashtableNew_wf _ _ _ _, hashtableNew_coherent _ _ _ _⟩
    (fun _ _ _ _ hinv hop hrun => coherent_step hinv.1 hinv.2 hop.1 hop.2 hrun)
  refine ⟨hc, fun op hallowed => ?_⟩
  cases op with
  | add hi tnew lnew => simp [Op.run]
  | find hi => exact (Table.hashtableFind_coherent hc hallowed).ne_error
  | del hi => exact (Table.hashtableDel_coherent hw hc hallowed).ne_error

/-- A table with a ring of two slots, behind the addition of one key. -/
def oneKey : Table Nat := ((hashtableNew false true false 2).hashtableAdd (hashNew [97] 7) 0 0).1

theorem oneKey_fresh : (hashtableNew false true false 2 : Table Nat).Fresh 0 0 :=
  ⟨List.not_mem_nil, List.not_mem_nil⟩

/-- The table behind an operation. -/
def Op.after (t : Table Nat) (op : Op Nat) : Table Nat :=
  match op.run t with
  | .ok (t', _) => t'
  | .error _ => t

/-- The ring is full, and the slot of the first key is the one to be filled next. -/
def twoKeys : Table Nat := Op.after oneKey (.add (hashNew [98] 8) 1 1)

def firstDeleted : Table Nat := Op.after twoKeys (.del (hashNew [97] 0))

/-- Two keys are added, the first is deleted and the second is looked up. -/
theorem cache_coherent_twoKeys :
    let t := Op.after firstDeleted (.find (hashNew [98] 0))
    t.Coherent ∧ ∀ op : Op Nat, op.Allowed t → op.run t ≠ .error .dangling := by
  have hadded : Reaches Op.run (fun t op => op.Allowed t ∧ op.Clean t)
      (hashtableNew false true false 2) twoKeys :=
    .step (.add (hashNew [98] 8) 1 1)
      (.step (.add (hashNew [97] 7) 0 0) .start ⟨oneKey_fresh, trivial⟩ rfl)
      ⟨⟨by decide, by decide⟩, trivial⟩ rfl
  have hvisits : ∀ la, twoKeys.removed (hashNew [97] 0) = some la → twoKeys.Visits la := by
    intro la hla
    have hremoved : twoKeys.removed (hashNew [97] 0) = some 0 := rfl
    obtain rfl : la = 0 := Option.some.inj (hla.symm.trans hremoved)
    have hcache : twoKeys.cache[1]? = some { lnode := some 1, tnode := some 1, used := true } := rfl
    have hlen : twoKeys.cache.length = 2 := rfl
    have hvisited : 0 ∈ twoKeys.visited := by decide
    intro i e he hused hl
    match i with
    | 0 => exact hvisited
    | 1 =>
        rw [hcache] at he
        cases he
        cases hl
    | i + 2 =>
        rw [List.getElem?_eq_none (by omega)] at he
        cases he
  have hhollow : ¬ firstDeleted.Hollow (hashNew [98] 0) := by
    rintro ⟨n, hn, -, hlist⟩
    have hentry : (firstDeleted.rbFind (hashNew [98] 0).hash).map (·.list.length) = some 1 := rfl
    rw [hn, Option.map_some, hlist] at hentry
    cases hentry
  exact cache_coherent false true false 2 _
    (.step (.find (hashNew [98] 0))
      (.step (.del (hashNew [97] 0)) hadded ⟨Or.inl ⟨rfl, rfl⟩, hvisits⟩ rfl)
      ⟨Or.inl ⟨rfl, rfl⟩, hhollow⟩ rfl)

/-- A key that is added and deleted at once leaves its slot in use: it is the slot that
the loop of the deletion does not visit. -/
theorem cache_incoherent_addDel :
    ¬ ∀ t : Table Nat,
      Reaches Op.run (fun t op => op.Allowed t) (hashtableNew false true false 2) t →
        t.Coherent := by
  intro h
  obtain ⟨t, hi, ret, hdel, htree, hcache⟩ : ∃ t hi ret,
      Op.run oneKey (.del (hashNew [97] 0)) = .ok (t, hi, ret) ∧ t.tree = [] ∧
        t.cache[0]? = some { lnode := some 0, tnode := some 0, used := true } :=
    ⟨_, _, _, rfl, rfl, rfl⟩
  have hcoherent := h t (.step (.del (hashNew [97] 0))
    (.step (.add (hashNew [97] 7) 0 0) .start oneKey_fresh rfl) (Or.inl ⟨rfl, rfl⟩) hdel)
  obtain ⟨ta, la, -, -, n, hn, -⟩ := hcoherent _ (List.mem_of_getElem? hcache) rfl
  rw [htree] at hn
  cases hn

end Hash
end IrC6
