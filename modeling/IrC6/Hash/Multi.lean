import IrC6.Base.Text
import IrC6.Hash.Chain
import IrC6.Hash.Map

/-!
# The table as a multiset

With `ALLOWCOLL` and without a cache a key may be added again and again.  The table keeps it
as an entry of its own, or counts it with the first entry of its chain, and `stored` is how
often it has the key both ways.

The table with `CHMATCH` finds the keys that it has.  With `DUPASCOLL` it does not find a key
whose only entry is alone in its chain, or the first of a longer one, when the node has
another entry: no entry gives way to that one.
-/

namespace IrC6
namespace Hash

variable {α : Type} {t : Table α}

/-- How often a list has a key. -/
def stored (k : List UInt8) (list : List (ListNode α)) : Nat :=
  (list.map fun l => if l.data = k then l.dup + 1 else 0).sum

theorem stored_cons (k : List UInt8) (l : ListNode α) (list : List (ListNode α)) :
    stored k (l :: list) = (if l.data = k then l.dup + 1 else 0) + stored k list := by
  rw [stored, List.map_cons, List.sum_cons, stored]

theorem stored_append (k : List UInt8) (l₁ l₂ : List (ListNode α)) :
    stored k (l₁ ++ l₂) = stored k l₁ + stored k l₂ := by
  rw [stored, List.map_append, List.sum_append, stored, stored]

theorem stored_perm (k : List UInt8) {l₁ l₂ : List (ListNode α)} (h : l₁.Perm l₂) :
    stored k l₁ = stored k l₂ := (h.map _).sum_nat

theorem stored_pos {k : List UInt8} {list : List (ListNode α)} :
    0 < stored k list ↔ ∃ l ∈ list, l.data = k := by
  induction list with
  | nil => simp [stored]
  | cons l list ih =>
      rw [stored_cons, List.exists_mem_cons_iff, ← ih]
      by_cases hk : l.data = k
      · simp only [hk, if_true, true_or, iff_true]
        omega
      · simp [hk]

/-- How many second hashes a list has. -/
def kinds (list : List (ListNode α)) : Nat := (list.map ListNode.hash).dedup.length

theorem kinds_perm {l₁ l₂ : List (ListNode α)} (h : l₁.Perm l₂) : kinds l₁ = kinds l₂ :=
  (h.map _).dedup.length_eq

theorem kinds_cons (l : ListNode α) (list : List (ListNode α)) :
    kinds (l :: list) = kinds list + if l.hash ∈ list.map ListNode.hash then 0 else 1 := by
  rw [kinds, List.map_cons, kinds]
  by_cases hmem : l.hash ∈ list.map ListNode.hash
  · rw [List.dedup_cons_of_mem hmem, if_pos hmem, Nat.add_zero]
  · rw [List.dedup_cons_of_notMem hmem, if_neg hmem, List.length_cons]

theorem kinds_singleton (l : ListNode α) : kinds [l] = 1 := by
  simp [kinds]

theorem kinds_lt {list : List (ListNode α)} {h : UInt32} (hlen : 2 ≤ (chain h list).length) :
    kinds list < list.length := by
  have hsub := List.dedup_sublist (list.map ListNode.hash)
  have hle := hsub.length_le
  rw [List.length_map] at hle
  refine Nat.lt_of_le_of_ne hle fun heq => ?_
  have hnodup : (list.map ListNode.hash).Nodup := by
    rw [← hsub.eq_of_length (by rw [List.length_map]; exact heq)]
    exact List.nodup_dedup _
  have hcount := List.nodup_iff_count_le_one.mp hnodup h
  rw [List.count, List.countP_map, List.countP_eq_length_filter] at hcount
  have hsame : list.filter ((fun x => x == h) ∘ ListNode.hash) = chain h list :=
    List.filter_congr fun x _ => by simp [Bool.beq_eq_decide_eq]
  rw [hsame] at hcount
  omega

/-! ## The lists of the nodes -/

section Pairwise

variable {β : Type} {R : β → β → Prop} {pre post : List β}

theorem pairwise_insert (h : (pre ++ post).Pairwise R) {b : β} (hpre : ∀ x ∈ pre, R x b)
    (hpost : ∀ x ∈ post, R b x) : (pre ++ b :: post).Pairwise R := by
  obtain ⟨h₁, h₂, h₁₂⟩ := List.pairwise_append.mp h
  refine List.pairwise_append.mpr ⟨h₁, List.pairwise_cons.mpr ⟨hpost, h₂⟩, fun x hx => ?_⟩
  exact List.forall_mem_cons.mpr ⟨hpre x hx, h₁₂ x hx⟩

theorem pairwise_replace {a b : β} (h : (pre ++ a :: post).Pairwise R)
    (hpre : ∀ x ∈ pre, R x a → R x b) (hpost : ∀ x ∈ post, R a x → R b x) :
    (pre ++ b :: post).Pairwise R := by
  obtain ⟨h₁, h₂, h₁₂⟩ := List.pairwise_append.mp h
  obtain ⟨ha, h₂⟩ := List.pairwise_cons.mp h₂
  refine List.pairwise_append.mpr ⟨h₁, List.pairwise_cons.mpr ⟨fun x hx => ?_, h₂⟩,
    fun x hx => List.forall_mem_cons.mpr
      ⟨hpre x hx (h₁₂ x hx a List.mem_cons_self), fun y hy => ?_⟩⟩
  · exact hpost x hx (ha x hx)
  · exact h₁₂ x hx y (List.mem_cons_of_mem _ hy)

end Pairwise

/-- What holds of each tree node. -/
structure Pool (dupascoll : Bool) (n : TreeNode α) : Prop where
  nonempty : n.list ≠ []
  elms : n.elms = weight n.list
  first : ∀ l ∈ n.list, fnvHash l.data = n.firstHash
  ordered : Ordered n.list ∨ ∃ l, n.list = [l] ∧ l.hash = 0 ∧ l.dup = 0
  heads : HeadsCount n.list
  single : dupascoll = true → ∀ l ∈ n.list, l.dup = 0
  collide : dupascoll = true → n.list.length = n.collisions + kinds n.list

theorem length_le_weight (list : List (ListNode α)) : list.length ≤ weight list := by
  induction list with
  | nil => exact Nat.le_refl _
  | cons l list ih =>
      rw [List.length_cons, weight_cons]
      omega

namespace Pool

variable {dupascoll : Bool} {n : TreeNode α}

/-- A node with one entry, whose second hash nobody has asked for. -/
theorem one {l : ListNode α} (hlist : n.list = [l]) (hcoll : n.collisions = 0)
    (helms : n.elms = 1) (hhash : l.hash = 0) (hdup : l.dup = 0)
    (hfirst : fnvHash l.data = n.firstHash) : Pool dupascoll n where
  nonempty := by simp [hlist]
  elms := by simp [helms, hlist, weight, hdup]
  first := by simp [hlist, hfirst]
  ordered := Or.inr ⟨l, hlist, hhash, hdup⟩
  heads := hlist ▸ List.pairwise_singleton _ l
  single _ := by simp [hlist, hdup]
  collide _ := by simp [hlist, hcoll, kinds_singleton]

theorem alone (hp : Pool dupascoll n) (hone : n.elms = 1) :
    ∃ l, n.list = [l] ∧ l.dup = 0 := by
  have hweight : weight n.list = 1 := hp.elms.symm.trans hone
  obtain ⟨l, rest, hlist⟩ := List.exists_cons_of_ne_nil hp.nonempty
  rw [hlist, weight_cons] at hweight
  have hlen := length_le_weight rest
  have hnil : rest = [] := List.length_eq_zero_iff.mp (by omega)
  exact ⟨l, by rw [hlist, hnil], by omega⟩

theorem ordered_of_many (hp : Pool dupascoll n) (hmany : n.elms ≠ 1) : Ordered n.list := by
  obtain hord | ⟨l, hlist, -, hdup⟩ := hp.ordered
  · exact hord
  · refine absurd ?_ hmany
    rw [hp.elms, hlist]
    simp [weight, hdup]

/-- The second hash of a first entry is computed before a second one comes in. -/
theorem settled (hp : Pool dupascoll n) (t : Table α) (l : ListNode α) :
    ∃ list, Pool dupascoll { n with list := list } ∧ Ordered list ∧
      (∀ k, stored k list = stored k n.list) ∧
      insertNode t l n.list = insertEntry t { l with hash := oatHash l.data } list := by
  obtain hord | ⟨x, hlist, hzero, hdup⟩ := hp.ordered
  · cases hlist : n.list with
    | nil => exact absurd hlist hp.nonempty
    | cons first rest =>
        rw [hlist] at hord
        -- The hash is there already, and computing it again changes nothing.
        have hsame : (if first.hash = 0 then { first with hash := oatHash first.data }
            else first) = first := by
          split
          · rw [← hord.2 first List.mem_cons_self]
          · rfl
        refine ⟨first :: rest, ?_, hord, fun k => rfl, ?_⟩
        · rw [← hlist]
          exact hp
        · rw [insertNode, hsame]
  · have hord : Ordered [{ x with hash := oatHash x.data }] := by
      refine ⟨List.pairwise_singleton _ _, fun l hl => ?_⟩
      rw [List.mem_singleton.mp hl]
    refine ⟨[{ x with hash := oatHash x.data }], ⟨List.cons_ne_nil _ _, ?_, ?_, Or.inl hord,
      List.pairwise_singleton _ _, ?_, fun hd => ?_⟩, hord, fun k => ?_, ?_⟩
    · rw [hp.elms, hlist, weight_cons, weight_cons]
    · intro l hl
      rw [List.mem_singleton.mp hl]
      exact hp.first x (by rw [hlist]; exact List.mem_singleton_self x)
    · intro _ l hl
      rw [List.mem_singleton.mp hl]
      exact hdup
    · have hcollide := hp.collide hd
      rw [hlist, kinds_singleton, List.length_singleton] at hcollide
      rw [kinds_singleton, List.length_singleton]
      exact hcollide
    · simp only [hlist, stored, List.map_cons, List.map_nil]
    · rw [hlist, insertNode, if_pos hzero]

/-- An entry is put into a place where it fits. -/
theorem insert (hp : Pool dupascoll n) (hord : Ordered n.list) {pre post : List (ListNode α)}
    (hlist : n.list = pre ++ post) {l : ListNode α} (hdup : l.dup = 0)
    (hhash : l.hash = oatHash l.data) (hfirst : fnvHash l.data = n.firstHash)
    (hpre : ∀ x ∈ pre, x.hash ≤ l.hash)
    (hpost : ∀ x ∈ post, l.hash ≤ x.hash ∧ (l.hash = x.hash → x.dup = 0)) :
    Pool dupascoll { n with
      list := pre ++ l :: post
      collisions := n.collisions + if l.hash ∈ n.list.map ListNode.hash then 1 else 0
      elms := n.elms + 1 } := by
  have hperm : (pre ++ l :: post).Perm (l :: n.list) := hlist ▸ List.perm_middle
  have hall : ∀ {P : ListNode α → Prop}, P l → (∀ x ∈ n.list, P x) →
      ∀ x ∈ pre ++ l :: post, P x := fun hl hn x hx =>
    List.forall_mem_cons.mpr ⟨hl, hn⟩ x (hperm.mem_iff.mp hx)
  have hsorted := hord.1
  have hheads := hp.heads
  rw [hlist] at hsorted
  rw [HeadsCount, hlist] at hheads
  refine ⟨by simp, ?_, hall hfirst hp.first, Or.inl ⟨?_, hall hhash hord.2⟩, ?_,
    fun hd => hall hdup (hp.single hd), fun hd => ?_⟩
  · have helms := hp.elms
    rw [hlist, weight_append] at helms
    show n.elms + 1 = weight (pre ++ l :: post)
    rw [weight_append, weight_cons, hdup]
    omega
  · exact pairwise_insert hsorted hpre fun x hx => (hpost x hx).1
  · exact pairwise_insert hheads (fun x hx _ => hdup) fun x hx => (hpost x hx).2
  · have hcollide := hp.collide hd
    show (pre ++ l :: post).length = _ + kinds (pre ++ l :: post)
    rw [kinds_perm hperm, kinds_cons, hperm.length_eq, List.length_cons]
    by_cases hmem : l.hash ∈ n.list.map ListNode.hash
    · simp only [if_pos hmem]
      omega
    · simp only [if_neg hmem]
      omega

/-- The first entry of a chain counts other duplicates. -/
theorem recount (hp : Pool dupascoll n) (hd : dupascoll = false) (hord : Ordered n.list)
    {pre post : List (ListNode α)} {c : ListNode α} (hlist : n.list = pre ++ c :: post)
    (hpre : ∀ x ∈ pre, x.hash ≠ c.hash) {dup elms : Nat} (helms : elms + c.dup = n.elms + dup) :
    Pool dupascoll { n with list := pre ++ { c with dup := dup } :: post, elms := elms } := by
  have hall : ∀ {P : ListNode α → Prop}, (P c → P { c with dup := dup }) →
      (∀ x ∈ n.list, P x) → ∀ x ∈ pre ++ { c with dup := dup } :: post, P x := by
    intro P hc hn x hx
    rw [hlist] at hn
    obtain hx | hx := List.mem_append.mp hx
    · exact hn x (List.mem_append_left _ hx)
    · obtain rfl | hx := List.mem_cons.mp hx
      · exact hc (hn c (by simp))
      · exact hn x (by simp [hx])
  have hsorted := hord.1
  have hheads := hp.heads
  rw [hlist] at hsorted
  rw [HeadsCount, hlist] at hheads
  refine ⟨by simp, ?_, hall id hp.first, Or.inl ⟨?_, hall id hord.2⟩, ?_,
    fun h => absurd (hd.symm.trans h) Bool.false_ne_true,
    fun h => absurd (hd.symm.trans h) Bool.false_ne_true⟩
  · have hold := hp.elms
    rw [hlist, weight_append, weight_cons] at hold
    rw [weight_append, weight_cons]
    dsimp only
    omega
  · exact pairwise_replace hsorted (fun _ _ h => h) fun _ _ h => h
  · exact pairwise_replace hheads (fun x hx _ heq => absurd heq (hpre x hx)) fun _ _ h => h

/-- The node that an addition leaves, as long as its number of entries is an `int`. -/
theorem places (hp : Pool t.dupascoll n) (hord : Ordered n.list) (hfew : n.elms + 1 < 2 ^ 31)
    {l : ListNode α} (hdup : l.dup = 0) (hhash : l.hash = oatHash l.data)
    (hfirst : fnvHash l.data = n.firstHash) {r : Inserted α} (h : Places t l n.list r) :
    Pool t.dupascoll { n with
        list := r.list, collisions := n.collisions + r.collisions, elms := n.elms + 1 } ∧
      ∀ k, stored k r.list = stored k n.list + if l.data = k then 1 else 0 := by
  generalize hlist : n.list = list at h
  cases h with
  | @alone pre post r hpre hpost hr hcoll =>
      have hnot : l.hash ∉ n.list.map ListNode.hash := by
        rw [hlist, List.mem_map]
        rintro ⟨x, hx, heq⟩
        obtain hx | hx := List.mem_append.mp hx
        · exact UInt32.ne_of_lt (hpre x hx) heq
        · exact UInt32.ne_of_lt (hpost x hx) heq.symm
      have hpool := hp.insert hord hlist hdup hhash hfirst
        (fun x hx => UInt32.le_of_lt (hpre x hx))
        fun x hx => ⟨UInt32.le_of_lt (hpost x hx), fun heq =>
          absurd heq (UInt32.ne_of_lt (hpost x hx))⟩
      rw [if_neg hnot] at hpool
      rw [hr, hcoll]
      refine ⟨hpool, fun k => ?_⟩
      rw [stored_perm k List.perm_middle, stored_cons, hdup, Nat.add_comm]
  | @counted pre post c r hpre hc hdata hd hr hcoll =>
      have hsmall : (c.dup + 1) % 2 ^ 32 = c.dup + 1 := by
        have helms := hp.elms
        rw [hlist, weight_append, weight_cons] at helms
        exact Nat.mod_eq_of_lt (by omega)
      rw [hr, hcoll, hsmall]
      have hpool := hp.recount hd hord hlist (fun x hx => hc ▸ UInt32.ne_of_lt (hpre x hx))
        (show n.elms + 1 + c.dup = n.elms + (c.dup + 1) by omega)
      refine ⟨hpool, fun k => ?_⟩
      rw [stored_append, stored_append, stored_cons, stored_cons, hdata]
      dsimp only
      split <;> omega
  | @behind pre post c r hpre hc hr hcoll =>
      have hmem : l.hash ∈ n.list.map ListNode.hash :=
        List.mem_map.mpr ⟨c, by simp [hlist], hc⟩
      have hlist' : n.list = (pre ++ [c]) ++ post := by rw [hlist, List.append_assoc]; rfl
      have hsorted := hord.1
      have hheads := hp.heads
      rw [hlist] at hsorted
      rw [HeadsCount, hlist] at hheads
      have hbehind := (List.pairwise_cons.mp (List.pairwise_append.mp hsorted).2.1).1
      have hlater := (List.pairwise_cons.mp (List.pairwise_append.mp hheads).2.1).1
      have hpool := hp.insert hord hlist' hdup hhash hfirst
        (fun x hx => by
          obtain hx | hx := List.mem_append.mp hx
          · exact UInt32.le_of_lt (hpre x hx)
          · rw [List.mem_singleton.mp hx, hc]
            exact UInt32.le_refl _)
        fun x hx => ⟨hc ▸ hbehind x hx, fun heq => hlater x hx (hc.trans heq)⟩
      have hsame : pre ++ [c] ++ l :: post = pre ++ c :: l :: post := by simp
      rw [if_pos hmem, hsame] at hpool
      rw [hr, hcoll]
      refine ⟨hpool, fun k => ?_⟩
      rw [← hsame, stored_perm k List.perm_middle, stored_cons, hdup, ← hlist', hlist, Nat.add_comm]

/-- Every entry is one of the elements of its node. -/
theorem small (hp : Pool dupascoll n) (hfew : n.elms < 2 ^ 31) (hd : dupascoll = true) :
    n.collisions < 2 ^ 31 := by
  have hcollide := hp.collide hd
  have hlen := length_le_weight n.list
  rw [← hp.elms] at hlen
  omega

/-- An entry without duplicates is taken out, and another one of its chain stays when
entries are kept apart. -/
theorem erase (hp : Pool dupascoll n) (hfew : n.elms < 2 ^ 31) {l : ListNode α}
    (hperm : n.list.Perm (l :: n.list.eraseP (·.addr = l.addr))) (hdup : l.dup = 0) {ecoll : Bool}
    (hne : (n.erase l.addr ecoll).elms ≠ 0)
    (hchain : dupascoll = true → ecoll = true ∧ 2 ≤ (chain l.hash n.list).length) :
    Pool dupascoll (n.erase l.addr ecoll) := by
  have hsub : (n.list.eraseP (·.addr = l.addr)).Sublist n.list := List.eraseP_sublist
  have hweight : n.elms = weight (n.list.eraseP (·.addr = l.addr)) + 1 := by
    rw [hp.elms, weight, (hperm.map _).sum_nat, List.map_cons, List.sum_cons, hdup, weight]
    omega
  have helms : (n.erase l.addr ecoll).elms = n.elms - 1 := rfl
  have hrest : n.list.eraseP (·.addr = l.addr) ≠ [] := by
    intro hnil
    rw [hnil] at hweight
    rw [helms, hweight] at hne
    exact hne rfl
  have hord : Ordered n.list := by
    obtain hord | ⟨x, hlist, -⟩ := hp.ordered
    · exact hord
    · have hlen := hperm.length_eq
      rw [List.length_cons] at hlen
      have hpos := List.length_pos_of_ne_nil hrest
      rw [hlist, List.length_singleton, ← hlist] at hlen
      omega
  refine ⟨hrest, by rw [helms, hweight]; rfl, fun x hx => hp.first x (hsub.subset hx),
    Or.inl ⟨hord.1.sublist hsub, fun x hx => hord.2 x (hsub.subset hx)⟩, hp.heads.sublist hsub,
    fun hd x hx => hp.single hd x (hsub.subset hx), fun hd => ?_⟩
  obtain ⟨rfl, hlen⟩ := hchain hd
  have hcollide := hp.collide hd
  have hsmall := hp.small hfew hd
  have hmem : l.hash ∈ (n.list.eraseP (·.addr = l.addr)).map ListNode.hash := by
    have hchain := (hperm.filter fun x => decide (x.hash = l.hash)).length_eq
    rw [List.filter_cons_of_pos (by simp), List.length_cons] at hchain
    have hpos : 0 < (chain l.hash (n.list.eraseP (·.addr = l.addr))).length := by
      simp only [chain] at hlen ⊢
      omega
    obtain ⟨x, hx⟩ := List.exists_mem_of_length_pos hpos
    exact List.mem_map.mpr ⟨x, (mem_chain.mp hx).1, (mem_chain.mp hx).2⟩
  have hle : kinds (n.list.eraseP (·.addr = l.addr)) ≤
      (n.list.eraseP (·.addr = l.addr)).length := by
    have hsublist := (List.dedup_sublist
      ((n.list.eraseP (·.addr = l.addr)).map ListNode.hash)).length_le
    rwa [List.length_map] at hsublist
  rw [kinds_perm hperm, kinds_cons, if_pos hmem, hperm.length_eq, List.length_cons] at hcollide
  show (n.list.eraseP (·.addr = l.addr)).length =
    (if n.elms - 1 ≠ 0 ∧ true = true then sizeSub n.collisions 1 else n.collisions) +
      kinds (n.list.eraseP (·.addr = l.addr))
  rw [if_pos ⟨hne, rfl⟩, sizeSub_of_le (by omega) (by omega)]
  omega

/-- A duplicate of an entry is taken off. -/
theorem discount (hp : Pool dupascoll n) (hd : dupascoll = false) {pre post : List (ListNode α)}
    {l : ListNode α} (hlist : n.list = pre ++ l :: post) (hdup : 0 < l.dup) :
    Pool dupascoll { n with
      list := pre ++ { l with dup := l.dup - 1 } :: post, elms := n.elms - 1 } := by
  have hord : Ordered n.list := by
    obtain hord | ⟨x, hx, -, hzero⟩ := hp.ordered
    · exact hord
    · have hmem : l ∈ n.list := by simp [hlist]
      rw [hx, List.mem_singleton] at hmem
      rw [hmem, hzero] at hdup
      exact absurd hdup (Nat.lt_irrefl 0)
  have hheads := hp.heads
  rw [HeadsCount, hlist] at hheads
  have hpre : ∀ x ∈ pre, x.hash ≠ l.hash := fun x hx heq => by
    have hzero := (List.pairwise_append.mp hheads).2.2 x hx l List.mem_cons_self heq
    omega
  have hweight := hp.elms
  rw [hlist, weight_append, weight_cons] at hweight
  exact hp.recount hd hord hlist hpre (by omega)

end Pool

namespace Table

/-- The table of `ALLOWCOLL` and `CHMATCH` without a cache, no node of which has more entries
than an `int` can count. -/
structure Pooled (t : Table α) : Prop where
  chmatch : t.chmatch = true
  allowcoll : t.allowcoll = true
  cache : t.cache = []
  wf : t.Wf
  sorted : t.tree.Pairwise (·.firstHash < ·.firstHash)
  pool : ∀ n ∈ t.tree, Pool t.dupascoll n
  few : ∀ n ∈ t.tree, n.elms < 2 ^ 31

/-- The key is in a node with other entries, and no entry of its chain gives way to it. -/
def Hides (t : Table α) (k : List UInt8) : Prop :=
  t.dupascoll = true ∧ ∃ n, t.rbFind (fnvHash k) = some n ∧ n.elms ≠ 1 ∧
    (∃ l ∈ n.list, l.data = k) ∧ ¬ Seen k (chain (oatHash k) n.list)

/-- How a search with `ALLOWCOLL` may have come to an entry of a node. -/
def Gives (t : Table α) (n : TreeNode α) (l : ListNode α) (ret : Ret) : Prop :=
  (ret = .ok ∧ n.elms = 1) ∨ (ret = .dup ∧ t.dupascoll = false) ∨
    (ret = .ecoll ∧ l.dup = 0 ∧ (t.dupascoll = true → 2 ≤ (chain l.hash n.list).length))

theorem Pooled.searchInCache (ht : t.Pooled) (hi : HashT α) : t.searchInCache hi = .ok none := by
  simp [Table.searchInCache, visited, ht.cache, ring, searchSlots]

/-- The entries of a key are in the node of its first hash. -/
theorem Pooled.mem_node (ht : t.Pooled) {l : ListNode α} (hl : l ∈ t.nodes) :
    ∃ n, t.rbFind (fnvHash l.data) = some n ∧ l ∈ n.list := by
  obtain ⟨n, hn, hln⟩ := mem_nodes.mp hl
  refine ⟨n, ?_, hln⟩
  rw [(ht.pool n hn).first l hln]
  exact rbFind_sorted ht.sorted hn

/-- The entries of a key are found where its duplicates are counted. -/
theorem Pooled.searchList_counted (ht : t.Pooled) (hd : t.dupascoll = false) {n : TreeNode α}
    (hn : n ∈ t.tree) (hmany : n.elms ≠ 1) (k : List UInt8) :
    (∃ l ∈ n.list, l.data = k ∧ ∃ ret,
        t.searchList n.collisions k (oatHash k) none n.list = some (l, ret) ∧ t.Gives n l ret) ∨
      ((∀ l ∈ n.list, l.data ≠ k) ∧
        t.searchList n.collisions k (oatHash k) none n.list = none) := by
  have hp := ht.pool n hn
  obtain ⟨l, hl, hk, hfound⟩ | ⟨hnone, hfound⟩ := Hash.searchList_counted (c := n.collisions)
    (k := k) (h := oatHash k) ht.allowcoll hd hp.heads none
      fun p hp => absurd hp (Option.not_mem_none p)
  · refine Or.inl ⟨l, hl, hk, ?_⟩
    obtain hfound | ⟨hfound, hdup⟩ := hfound
    · exact ⟨_, hfound, Or.inr (Or.inl ⟨rfl, hd⟩)⟩
    · exact ⟨_, hfound, Or.inr (Or.inr ⟨rfl, hdup,
        fun h => absurd (hd.symm.trans h) Bool.false_ne_true⟩)⟩
  · refine Or.inr ⟨fun l hl hk => hnone l hl ?_ hk, hfound⟩
    rw [(hp.ordered_of_many hmany).2 l hl, hk]

/-- Where they are kept apart, the chain of the key decides. -/
theorem Pooled.searchList_chain (ht : t.Pooled) (hd : t.dupascoll = true) {n : TreeNode α}
    (hn : n ∈ t.tree) (hmany : n.elms ≠ 1) (k : List UInt8) :
    (∃ l ∈ n.list, l.data = k ∧ Seen k (chain (oatHash k) n.list) ∧ ∃ ret,
        t.searchList n.collisions k (oatHash k) none n.list = some (l, ret) ∧ t.Gives n l ret) ∨
      (¬ Seen k (chain (oatHash k) n.list) ∧
        t.searchList n.collisions k (oatHash k) none n.list = none) := by
  have hp := ht.pool n hn
  have hord := hp.ordered_of_many hmany
  obtain ⟨pre, post, hsplit, hpre, hpost⟩ := chain_split hord.1 (oatHash k)
  have hcollide := hp.collide hd
  have hseen := Hash.searchList_chain (c := n.collisions) (k := k) ht.allowcoll hd
    (chain (oatHash k) n.list) (fun x hx => (mem_chain.mp hx).2)
    (fun y hy => (UInt32.ne_of_lt (hpost y hy)).symm)
    (fun hlen => by
      have hlt := kinds_lt hlen
      omega)
    (pre.getLast?.or none)
    (fun p hp => by
      rw [Option.or_none] at hp
      exact UInt32.ne_of_lt (hpre p (List.mem_of_getLast? hp)))
  rw [← searchList_skip fun x hx => UInt32.ne_of_lt (hpre x hx), ← hsplit] at hseen
  cases hfound : t.searchList n.collisions k (oatHash k) none n.list with
  | none =>
      rw [hfound] at hseen
      exact Or.inr ⟨fun h => absurd (hseen.mpr h) Bool.false_ne_true, rfl⟩
  | some r =>
      obtain ⟨l, ret⟩ := r
      rw [hfound] at hseen
      have hs := hseen.mp rfl
      have hl : l ∈ n.list := (searchList_mem hfound).resolve_left (Option.not_mem_none l)
      obtain ⟨hk, ⟨-, hcontra⟩ | ⟨rfl, -⟩⟩ := searchList_sound ht.allowcoll hfound
      · exact absurd (hd.symm.trans hcontra) Bool.false_ne_true.symm
      · refine Or.inl ⟨l, hl, hk, hs, _, rfl, Or.inr (Or.inr ⟨rfl, hp.single hd l hl, fun _ => ?_⟩)⟩
        rw [hord.2 l hl, hk]
        exact two_le_length_of_seen hs

/-- The list of a node with more entries than one is searched. -/
theorem Pooled.searchList (ht : t.Pooled) {n : TreeNode α} (hn : n ∈ t.tree) (hmany : n.elms ≠ 1)
    (k : List UInt8) :
    (∃ l ∈ n.list, l.data = k ∧ ∃ ret, t.searchList n.collisions k (oatHash k) none n.list =
        some (l, ret) ∧ t.Gives n l ret ∧
        (t.dupascoll = true → Seen k (chain (oatHash k) n.list))) ∨
      (((∀ l ∈ n.list, l.data ≠ k) ∨
          t.dupascoll = true ∧ ¬ Seen k (chain (oatHash k) n.list)) ∧
        t.searchList n.collisions k (oatHash k) none n.list = none) := by
  cases hd : t.dupascoll with
  | false =>
      obtain ⟨l, hl, hk, ret, hfound, hgives⟩ | ⟨hnone, hfound⟩ :=
        ht.searchList_counted hd hn hmany k
      · exact Or.inl ⟨l, hl, hk, ret, hfound, hgives, fun h => absurd h Bool.false_ne_true⟩
      · exact Or.inr ⟨Or.inl hnone, hfound⟩
  | true =>
      obtain ⟨l, hl, hk, hs, ret, hfound, hgives⟩ | ⟨hnot, hfound⟩ :=
        ht.searchList_chain hd hn hmany k
      · exact Or.inl ⟨l, hl, hk, ret, hfound, hgives, fun _ => hs⟩
      · exact Or.inr ⟨Or.inr ⟨rfl, hnot⟩, hfound⟩

/-- A search finds a key that the table has and does not hide. -/
theorem Pooled.searchInTable (ht : t.Pooled) (k : List UInt8) (a : α) :
    (∃ n ∈ t.tree, ∃ l ∈ n.list, l.data = k ∧ ¬ t.Hides k ∧ ∃ ret,
      t.searchInTable (hashNew k a) = .ok ({ hashNew k a with
        tnode := some n.addr, lnode := some l.addr }, ret) ∧ t.Gives n l ret) ∨
    (((∀ l ∈ t.nodes, l.data ≠ k) ∨ t.Hides k) ∧ ∃ hi,
      t.searchInTable (hashNew k a) = .ok (hi, .enotfound)) := by
  have hdata : (hashNew k a).data = k := rfl
  have hhash : (hashNew k a).hash = fnvHash k := rfl
  unfold Table.searchInTable
  simp only [ht.searchInCache, bind, Except.bind, hhash, hdata]
  cases hfind : t.rbFind (fnvHash k) with
  | none =>
      refine Or.inr ⟨Or.inl fun l hl hlk => ?_, _, rfl⟩
      obtain ⟨n, hnode, -⟩ := ht.mem_node hl
      rw [hlk, hfind] at hnode
      cases hnode
  | some n =>
      have hn := (rbFind_some hfind).1
      have hp := ht.pool n hn
      -- An entry of the key can only be in this node.
      have honly : ∀ l ∈ t.nodes, l.data = k → l ∈ n.list := by
        intro l hl hlk
        obtain ⟨m, hnode, hlm⟩ := ht.mem_node hl
        rw [hlk, hfind] at hnode
        cases hnode
        exact hlm
      by_cases helms : n.elms = 1
      · simp only [if_pos helms]
        obtain ⟨l, hlist, -⟩ := hp.alone helms
        have hshown : ¬ t.Hides k := by
          rintro ⟨-, m, hm, hmany, -⟩
          rw [hfind] at hm
          cases hm
          exact hmany helms
        simp only [hlist]
        by_cases hlk : l.data = k
        · refine Or.inl ⟨n, hn, l, by simp [hlist], hlk, hshown, .ok, ?_, Or.inl ⟨rfl, helms⟩⟩
          rw [if_pos (Or.inr hlk)]
        · refine Or.inr ⟨Or.inl fun x hx hxk => hlk ?_,
            { hashNew k a with tnode := some n.addr, lnode := some l.addr }, ?_⟩
          · have hmem := honly x hx hxk
            rw [hlist, List.mem_singleton] at hmem
            rw [← hmem, hxk]
          · rw [if_neg (by simp [ht.chmatch, hlk])]
            rfl
      · simp only [if_neg helms]
        obtain ⟨l, hl, hlk, ret, hfound, hgives, hseen⟩ | ⟨hnone, hfound⟩ :=
          ht.searchList hn helms k
        · refine Or.inl ⟨n, hn, l, hl, hlk, ?_, ret, by rw [hfound], hgives⟩
          rintro ⟨hd, m, hm, -, -, hnot⟩
          rw [hfind] at hm
          cases hm
          exact hnot (hseen hd)
        · refine Or.inr ⟨?_, { hashNew k a with tnode := some n.addr }, by rw [hfound]; rfl⟩
          by_cases hstored : ∃ l ∈ n.list, l.data = k
          · obtain hnone | ⟨hd, hnot⟩ := hnone
            · obtain ⟨l, hl, hlk⟩ := hstored
              exact absurd hlk (hnone l hl)
            · exact Or.inr ⟨hd, n, hfind, helms, hstored, hnot⟩
          · exact Or.inl fun l hl hlk => hstored ⟨l, honly l hl hlk, hlk⟩

theorem Pooled.coherent (ht : t.Pooled) : t.Coherent := by
  intro e hmem
  rw [ht.cache] at hmem
  exact absurd hmem List.not_mem_nil

/-- `hashtable_find` succeeds for the keys that the table has, less those that it hides. -/
theorem Pooled.hashtableFind (ht : t.Pooled) (k : List UInt8) (a : α) :
    ∃ hi ret, t.hashtableFind (hashNew k a) = .ok (t, hi, ret) ∧
      (ret = .ok ↔ 0 < stored k t.nodes ∧ ¬ t.Hides k) := by
  have hspec := searchInTable_spec ht.coherent (sound_hashNew t k a).live
  obtain ⟨n, hn, l, hl, hlk, hshown, ret, hsearch, hgives⟩ | ⟨hnone, hi, hsearch⟩ :=
    ht.searchInTable k a
  · obtain ⟨hi, hreset⟩ : ∃ hi, t.hinfoReset { hashNew k a with
        tnode := some n.addr, lnode := some l.addr, collnode := none } ret = .ok hi :=
      ⟨_, ht.wf.hinfoReset_entry hn hl { hashNew k a with collnode := none } ret⟩
    have hret : ret ≠ .enotfound := by
      obtain ⟨rfl, -⟩ | ⟨rfl, -⟩ | ⟨rfl, -⟩ := hgives <;> decide
    have hcache : t.cache.length = 0 := congrArg List.length ht.cache
    refine ⟨hi, .ok, ?_, iff_of_true rfl ⟨?_, hshown⟩⟩
    · unfold Table.hashtableFind
      rw [hsearch]
      simp only [bind, Except.bind, hreset]
      rw [if_neg hret, addCache, if_pos hcache]
    · exact stored_pos.mpr ⟨l, mem_nodes.mpr ⟨n, hn, hl⟩, hlk⟩
  · obtain ⟨hi', hreset, -⟩ := hinfoReset_spec
      (show t.Live { hi with collnode := none } from (hspec.of_eq_ok hsearch).1) .enotfound
    refine ⟨hi', .enotfound, ?_, iff_of_false (by decide) ?_⟩
    · unfold Table.hashtableFind
      rw [hsearch]
      simp only [bind, Except.bind, hreset, if_true]
    · rintro ⟨hpos, hshown⟩
      obtain ⟨l, hl, hlk⟩ := stored_pos.mp hpos
      exact hnone.elim (fun h => h l hl hlk) hshown

/-! ## Adding and deleting -/

/-- One node is changed into a good one. -/
theorem Pooled.modify (ht : t.Pooled) {n : TreeNode α} (hn : n ∈ t.tree)
    {f : TreeNode α → TreeNode α} (hw : (t.modify n.addr f).Wf)
    (hfirst : ∀ m, (f m).firstHash = m.firstHash) (hp : Pool t.dupascoll (f n))
    (hfew : (f n).elms < 2 ^ 31) : (t.modify n.addr f).Pooled where
  chmatch := ht.chmatch
  allowcoll := ht.allowcoll
  cache := ht.cache
  wf := hw
  sorted := sorted_modify ht.sorted hfirst
  pool m hm := by
    obtain ⟨hm, -⟩ | ⟨x, hx, hxa, rfl⟩ := mem_modify.mp hm
    · exact ht.pool m hm
    · rw [ht.wf.eq_of_addr hx hn hxa]
      exact hp
  few m hm := by
    obtain ⟨hm, -⟩ | ⟨x, hx, hxa, rfl⟩ := mem_modify.mp hm
    · exact ht.few m hm
    · rw [ht.wf.eq_of_addr hx hn hxa]
      exact hfew

theorem stored_modify (hw : t.Wf) {n : TreeNode α} (hn : n ∈ t.tree)
    (f : TreeNode α → TreeNode α) (k : List UInt8) :
    stored k (t.modify n.addr f).nodes + stored k n.list =
      stored k t.nodes + stored k (f n).list := by
  obtain ⟨rest, hold, hnew⟩ := nodes_addr_modify hw.trees hn f
  rw [stored_perm k hold, stored_perm k hnew, stored_append, stored_append]
  omega

/-- The node of a key, if there is one, may take another entry. -/
def Room (t : Table α) (k : List UInt8) : Prop :=
  ∀ n ∈ t.tree, n.firstHash = fnvHash k → n.elms + 1 < 2 ^ 31

/-- What an addition does to the node of its key. -/
def swell (r : Inserted α) (n : TreeNode α) : TreeNode α :=
  { n with list := r.list, collisions := n.collisions + r.collisions, elms := n.elms + 1 }

theorem hashtableAdd_allowcoll (hallow : t.allowcoll = true) (hcache : t.cache = [])
    {k : List UInt8} (hk : k ≠ []) (a : α) (tnew lnew : Nat) :
    (t.hashtableAdd (hashNew k a) tnew lnew).1 =
        (t.setupNode (fnvHash k) tnew).1.modify (t.setupNode (fnvHash k) tnew).2.addr
          (swell (insertNode t ⟨lnew, 0, 0, k, a⟩ (t.setupNode (fnvHash k) tnew).2.list)) ∧
      (t.hashtableAdd (hashNew k a) tnew lnew).2.2 = .ok := by
  have hcache' : (t.setupNode (fnvHash k) tnew).1.cache = [] := by
    rw [← hcache]
    unfold Table.setupNode
    split <;> rfl
  rw [Table.hashtableAdd, if_neg (show (hashNew k a).data ≠ [] from hk)]
  simp only [hashNew, hallow, addCache, modify, hcache', or_true, List.length_nil, if_true]
  exact ⟨rfl, trivial⟩

theorem Pooled.add_found (ht : t.Pooled) {n : TreeNode α} (hn : n ∈ t.tree) {k : List UInt8}
    {a : α} {lnew : Nat} (hfirst : n.firstHash = fnvHash k) (hroom : n.elms + 1 < 2 ^ 31)
    (hw : (t.modify n.addr (swell (insertNode t ⟨lnew, 0, 0, k, a⟩ n.list))).Wf) :
    (t.modify n.addr (swell (insertNode t ⟨lnew, 0, 0, k, a⟩ n.list))).Pooled ∧
      ∀ k', stored k' (t.modify n.addr (swell (insertNode t ⟨lnew, 0, 0, k, a⟩ n.list))).nodes =
        stored k' t.nodes + if k = k' then 1 else 0 := by
  obtain ⟨list, hp, hord, hstored, hnode⟩ := (ht.pool n hn).settled t ⟨lnew, 0, 0, k, a⟩
  let entry : ListNode α := ⟨lnew, oatHash k, 0, k, a⟩
  have hdup : entry.dup = 0 := rfl
  have hhash : entry.hash = oatHash entry.data := rfl
  have hplaces := insertEntry_places ht.allowcoll entry hord.1
  obtain ⟨hpool, hgrown⟩ := hp.places hord hroom hdup hhash hfirst.symm hplaces
  rw [show insertEntry t entry list = _ from hnode.symm] at hpool hgrown
  generalize insertNode t ⟨lnew, 0, 0, k, a⟩ n.list = r at hw hpool hgrown ⊢
  refine ⟨ht.modify hn hw (fun _ => rfl) hpool hroom, fun k' => ?_⟩
  have hmod := stored_modify ht.wf hn (swell r) k'
  rw [show (swell r n).list = r.list from rfl, hgrown k', hstored k',
    show entry.data = k from rfl] at hmod
  omega

/-- A node that is made for the key has it as its only entry. -/
theorem Pooled.add_new (ht : t.Pooled) {n : TreeNode α} {k : List UInt8} {a : α} {lnew : Nat}
    (hnone : ∀ m ∈ t.tree, m.firstHash ≠ fnvHash k) (hfirst : n.firstHash = fnvHash k)
    (hcoll : n.collisions = 0) (helms : n.elms = 0) (hlist : n.list = [])
    (hws : Wf { t with tree := rbInsert n t.tree })
    (hnodes : (nodes { t with tree := rbInsert n t.tree }).Perm t.nodes)
    (hw : (Table.modify { t with tree := rbInsert n t.tree } n.addr
      (swell (insertNode t ⟨lnew, 0, 0, k, a⟩ n.list))).Wf) :
    (Table.modify { t with tree := rbInsert n t.tree } n.addr
        (swell (insertNode t ⟨lnew, 0, 0, k, a⟩ n.list))).Pooled ∧
      ∀ k', stored k' (Table.modify { t with tree := rbInsert n t.tree } n.addr
          (swell (insertNode t ⟨lnew, 0, 0, k, a⟩ n.list))).nodes =
        stored k' t.nodes + if k = k' then 1 else 0 := by
  have hmem : n ∈ rbInsert n t.tree := mem_rbInsert.mpr (Or.inl rfl)
  have hsingle : insertNode t ⟨lnew, 0, 0, k, a⟩ n.list =
      ⟨.ok, [⟨lnew, 0, 0, k, a⟩], ⟨lnew, 0, 0, k, a⟩, none, 0⟩ := by
    rw [hlist]
    rfl
  have hpool : Pool t.dupascoll (swell (insertNode t ⟨lnew, 0, 0, k, a⟩ n.list) n) := by
    rw [hsingle]
    exact Pool.one rfl hcoll (by rw [swell, helms]) rfl rfl hfirst.symm
  have hfew : (swell (insertNode t ⟨lnew, 0, 0, k, a⟩ n.list) n).elms < 2 ^ 31 := by
    show n.elms + 1 < 2 ^ 31
    omega
  have hstored : ∀ k', stored k' (swell (insertNode t ⟨lnew, 0, 0, k, a⟩ n.list) n).list =
      if k = k' then 1 else 0 := by
    intro k'
    rw [hsingle]
    exact stored_cons k' ⟨lnew, 0, 0, k, a⟩ []
  have hmod := stored_modify hws hmem (swell (insertNode t ⟨lnew, 0, 0, k, a⟩ n.list))
  have hkept : ∀ m, (swell (insertNode t ⟨lnew, 0, 0, k, a⟩ n.list) m).firstHash = m.firstHash :=
    fun _ => rfl
  generalize swell (insertNode t ⟨lnew, 0, 0, k, a⟩ n.list) = f
    at hw hpool hfew hstored hmod hkept ⊢
  have hgood : ∀ m ∈ (Table.modify { t with tree := rbInsert n t.tree } n.addr f).tree,
      Pool t.dupascoll m ∧ m.elms < 2 ^ 31 := by
    intro m hm
    obtain ⟨hm, hma⟩ | ⟨x, hx, hxa, rfl⟩ := mem_modify.mp hm
    · have hold := (mem_rbInsert.mp hm).resolve_left fun h => hma (by rw [h])
      exact ⟨ht.pool m hold, ht.few m hold⟩
    · rw [hws.eq_of_addr hx hmem hxa]
      exact ⟨hpool, hfew⟩
  have hsorted := rbInsert_sorted ht.sorted (fun m hm => hfirst ▸ hnone m hm)
  refine ⟨⟨ht.chmatch, ht.allowcoll, ht.cache, hw, sorted_modify hsorted hkept,
    fun m hm => (hgood m hm).1, fun m hm => (hgood m hm).2⟩, fun k' => ?_⟩
  have hcount := hmod k'
  have hnil : stored k' n.list = 0 := by rw [hlist]; rfl
  rw [hnil, hstored k', stored_perm k' hnodes] at hcount
  exact hcount

/-- `hashtable_add` keeps one more of the key. -/
theorem Pooled.hashtableAdd (ht : t.Pooled) {k : List UInt8} (hk : k ≠ []) (a : α)
    {tnew lnew : Nat} (hf : t.Fresh tnew lnew) (hroom : t.Room k) :
    (t.hashtableAdd (hashNew k a) tnew lnew).1.Pooled ∧
      (t.hashtableAdd (hashNew k a) tnew lnew).2.2 = .ok ∧
      ∀ k', stored k' (t.hashtableAdd (hashNew k a) tnew lnew).1.nodes =
        stored k' t.nodes + if k = k' then 1 else 0 := by
  have hwf : (t.hashtableAdd (hashNew k a) tnew lnew).1.Wf := by
    obtain ⟨s, ta, la, hadd, -, hws, -, -⟩ := hashtableAdd_linked ht.wf (hashNew k a) hk hf
    rw [hadd]
    exact hws.addCache _ _
  obtain ⟨htable, hret⟩ := hashtableAdd_allowcoll ht.allowcoll ht.cache hk a tnew lnew
  rw [htable] at hwf ⊢
  obtain ⟨n, hn, hfirst, hsetup⟩ | ⟨hnone, n, hhash, hcoll, helms, hlist, hsetup⟩ :=
    setupNode_sorted ht.sorted (fnvHash k) tnew
  · simp only [hsetup] at hwf ⊢
    obtain ⟨hpooled, hstored⟩ := ht.add_found hn hfirst (hroom n hn hfirst) hwf
    exact ⟨hpooled, hret, hstored⟩
  · obtain ⟨hws, -, hnodes, -⟩ := setupNode_spec ht.wf (fnvHash k) hf
    simp only [hsetup] at hwf hws hnodes ⊢
    obtain ⟨hpooled, hstored⟩ :=
      ht.add_new hnone hhash hcoll helms hlist hws hnodes hwf
    exact ⟨hpooled, hret, hstored⟩

/-- Taking out an entry without duplicates takes its key out once. -/
theorem Pooled.unlink (ht : t.Pooled) {n : TreeNode α} (hn : n ∈ t.tree) {l : ListNode α}
    (hl : l ∈ n.list) (hdup : l.dup = 0) {ecoll : Bool}
    (hchain : n.elms ≠ 1 → t.dupascoll = true →
      ecoll = true ∧ 2 ≤ (chain l.hash n.list).length) :
    (t.unlink n.addr l.addr ecoll).Pooled ∧
      ∀ k, stored k (t.unlink n.addr l.addr ecoll).nodes + (if l.data = k then 1 else 0) =
        stored k t.nodes := by
  have hp := ht.pool n hn
  have hfew := ht.few n hn
  have hperm := erase_perm ht.wf hn hl
  have helms : (n.erase l.addr ecoll).elms = n.elms - 1 := rfl
  have hweight : n.elms = weight (n.list.eraseP (·.addr = l.addr)) + 1 := by
    rw [hp.elms, weight, (hperm.map _).sum_nat, List.map_cons, List.sum_cons, hdup, weight]
    omega
  have hsame : ∀ m ∈ t.tree, m.addr = n.addr → m = n := fun m hm => ht.wf.eq_of_addr hm hn
  have hempty : ∀ m ∈ (t.modify n.addr (·.erase l.addr ecoll)).tree,
      m.addr = n.addr ∧ m.elms = 0 → m.list = [] := by
    rintro m hm ⟨hma, hzero⟩
    obtain ⟨-, hne⟩ | ⟨x, hx, hxa, rfl⟩ := mem_modify.mp hm
    · exact absurd hma hne
    · rw [hsame x hx hxa] at hzero ⊢
      rw [helms, hweight, Nat.add_sub_cancel] at hzero
      have hlen := length_le_weight (n.list.eraseP (·.addr = l.addr))
      rw [hzero] at hlen
      exact List.length_eq_zero_iff.mp (Nat.le_zero.mp hlen)
  have hnodes : (t.unlink n.addr l.addr ecoll).nodes =
      (t.modify n.addr (·.erase l.addr ecoll)).nodes := by
    refine flatMap_filter_list _ _ fun m hm hm' => hempty m hm ?_
    simpa using hm'
  have hsorted := sorted_modify (a := n.addr) (f := (·.erase l.addr ecoll)) ht.sorted fun _ => rfl
  have hgood : ∀ m ∈ (t.unlink n.addr l.addr ecoll).tree,
      Pool t.dupascoll m ∧ m.elms < 2 ^ 31 := by
    intro m hm
    obtain ⟨hm, hkept⟩ := List.mem_filter.mp hm
    obtain ⟨hm, -⟩ | ⟨x, hx, hxa, rfl⟩ := mem_modify.mp hm
    · exact ⟨ht.pool m hm, ht.few m hm⟩
    · rw [hsame x hx hxa] at hkept ⊢
      have hne : (n.erase l.addr ecoll).elms ≠ 0 := by
        have haddr : (n.erase l.addr ecoll).addr = n.addr := rfl
        simpa [haddr] using hkept
      refine ⟨hp.erase hfew hperm hdup hne (hchain ?_), by omega⟩
      rw [helms] at hne
      omega
  refine ⟨⟨ht.chmatch, ht.allowcoll, ht.cache, (unlink_spec ht.wf hn hl ecoll).1,
    hsorted.sublist List.filter_sublist, fun m hm => (hgood m hm).1, fun m hm => (hgood m hm).2⟩,
    fun k => ?_⟩
  have hmod := stored_modify ht.wf hn (·.erase l.addr ecoll) k
  have hlist : (n.erase l.addr ecoll).list = n.list.eraseP (·.addr = l.addr) := rfl
  rw [hlist, stored_perm k hperm, stored_cons, hdup, Nat.zero_add] at hmod
  rw [hnodes]
  omega

/-- Taking off a duplicate takes the key out once. -/
theorem Pooled.dropDup (ht : t.Pooled) (hd : t.dupascoll = false) {n : TreeNode α}
    (hn : n ∈ t.tree) {l : ListNode α} (hl : l ∈ n.list) (hdup : 0 < l.dup) :
    (t.dropDup n.addr l.addr).Pooled ∧
      ∀ k, stored k (t.dropDup n.addr l.addr).nodes + (if l.data = k then 1 else 0) =
        stored k t.nodes := by
  have hp := ht.pool n hn
  obtain ⟨pre, post, hlist⟩ := List.append_of_mem hl
  -- No other entry of the list has the address.
  have hnodup : (n.list.map ListNode.addr).Nodup :=
    ((List.sublist_flatten_of_mem (List.mem_map_of_mem hn)).map ListNode.addr).nodup ht.wf.cells
  have hother : ∀ x ∈ pre ++ post, x.addr ≠ l.addr := by
    intro x hx heq
    rw [hlist, List.map_append, List.map_cons] at hnodup
    have hmid := (List.nodup_cons.mp (List.nodup_middle.mp hnodup)).1
    rw [← List.map_append] at hmid
    exact hmid (List.mem_map.mpr ⟨x, hx, heq⟩)
  have hkept : ∀ xs : List (ListNode α), (∀ x ∈ xs, x.addr ≠ l.addr) →
      xs.map (fun x => if x.addr = l.addr then { x with dup := x.dup - 1 } else x) = xs := by
    intro xs hxs
    exact (List.map_congr_left fun x hx => if_neg (hxs x hx)).trans (List.map_id xs)
  have hdrop : n.dropDup l.addr = { n with
      list := pre ++ { l with dup := l.dup - 1 } :: post, elms := n.elms - 1 } := by
    rw [TreeNode.dropDup, hlist, List.map_append, List.map_cons, if_pos rfl,
      hkept pre fun x hx => hother x (List.mem_append_left _ hx),
      hkept post fun x hx => hother x (List.mem_append_right _ hx)]
  have hfew := ht.few n hn
  refine ⟨ht.modify hn (dropDup_spec ht.wf hn hl hdup).1 (fun _ => rfl) ?_ ?_, fun k => ?_⟩
  · rw [hdrop]
    exact hp.discount hd hlist hdup
  · show n.elms - 1 < 2 ^ 31
    omega
  · have hmod := stored_modify ht.wf hn (·.dropDup l.addr) k
    rw [hdrop, hlist, stored_append, stored_append, stored_cons, stored_cons] at hmod
    dsimp only at hmod
    show stored k (t.modify n.addr (·.dropDup l.addr)).nodes + _ = _
    by_cases hk : l.data = k
    · simp only [if_pos hk] at hmod ⊢
      omega
    · simp only [if_neg hk] at hmod ⊢
      omega

/-- `hashtable_del` takes out once what it finds. -/
theorem Pooled.hashtableDel (ht : t.Pooled) {k : List UInt8} (hk : k ≠ []) (a : α) :
    ∃ t' hi ret, t.hashtableDel (hashNew k a) = .ok (t', hi, ret) ∧ t'.Pooled ∧
      ∀ k', stored k' t'.nodes + (if k = k' ∧ ret = .ok then 1 else 0) = stored k' t.nodes := by
  have hspec := searchInTable_spec ht.coherent (sound_hashNew t k a).live
  rw [Table.hashtableDel, if_neg (show (hashNew k a).data ≠ [] from hk),
    show ({ hashNew k a with collnode := none } : HashT α) = hashNew k a from rfl]
  obtain ⟨n, hn, l, hl, hlk, -, ret, hsearch, hgives⟩ | ⟨-, hi, hsearch⟩ := ht.searchInTable k a
  · have hlocate := locate_search (show (hashNew k a).lnode = none from rfl) hsearch
      (ht.wf.hinfoReset_entry hn hl (hashNew k a) ret)
    have hcache : t.delCache (some l.addr) = t := by
      rw [delCache, ht.cache, List.mapIdx_nil, ← ht.cache]
    have hany : n.list.any (·.addr = l.addr) = true :=
      List.any_eq_true.mpr ⟨l, hl, decide_eq_true rfl⟩
    have hlnode := ht.wf.lnodeAt (mem_nodes.mpr ⟨n, hn, hl⟩)
    have hcount : ∀ {t' : Table α}, (t'.Pooled ∧ ∀ k', stored k' t'.nodes +
        (if l.data = k' then 1 else 0) = stored k' t.nodes) → t'.Pooled ∧ ∀ k', stored k' t'.nodes +
        (if k = k' ∧ Ret.ok = .ok then 1 else 0) = stored k' t.nodes := by
      rintro t' ⟨hpooled, hstored⟩
      refine ⟨hpooled, fun k' => ?_⟩
      rw [← hstored k', hlk]
      simp
    rw [hlocate]
    obtain ⟨rfl, helms⟩ | ⟨rfl, hd⟩ | ⟨rfl, hdup, hchain⟩ := hgives
    · -- The node goes with its only entry.
      obtain ⟨x, hlist, hone⟩ := (ht.pool n hn).alone helms
      have hdup : l.dup = 0 := by
        rw [hlist] at hl
        rw [List.mem_singleton.mp hl, hone]
      simp only [bind, Except.bind, ht.wf.tnodeAt hn, removeEntry, hany, hcache, if_true]
      exact ⟨_, _, _, rfl, hcount (ht.unlink hn hl hdup fun hmany => absurd helms hmany)⟩
    · by_cases hdup : 0 < l.dup
      · simp only [bind, Except.bind, hlnode, if_pos hdup]
        exact ⟨_, _, _, rfl, hcount (ht.dropDup hd hn hl hdup)⟩
      · simp only [bind, Except.bind, hlnode, if_neg hdup, ht.wf.tnodeAt hn, removeEntry, hany,
          hcache, if_true, hd]
        exact ⟨_, _, _, rfl, hcount (ht.unlink hn hl (Nat.eq_zero_of_not_pos hdup)
          fun _ h => absurd (hd.symm.trans h) Bool.false_ne_true)⟩
    · simp only [bind, Except.bind, ht.wf.tnodeAt hn, removeEntry, hany, hcache, if_true]
      exact ⟨_, _, _, rfl, hcount (ht.unlink hn hl hdup fun _ h => ⟨rfl, hchain h⟩)⟩
  · obtain ⟨hi', hreset, -⟩ := hinfoReset_spec (hspec.of_eq_ok hsearch).1 .enotfound
    rw [locate_search rfl hsearch hreset]
    simp only [bind, Except.bind]
    exact ⟨t, hi', .enotfound, rfl, ht, fun k' => by simp⟩

end Table

/-! ## Runs -/

namespace Call

/-- The cells given to an addition are not in use, and its node may take another entry. -/
def Takes (t : Table α) (c : Call α) : Prop :=
  ∀ k a tnew lnew, c = add k a tnew lnew → t.Fresh tnew lnew ∧ t.Room k

def AllTake (t : Table α) : List (Call α) → Prop
  | [] => True
  | c :: cs => c.Takes t ∧ ∀ t' r, c.run t = .ok (t', r) → AllTake t' cs

def adds (k : List UInt8) : Call α → Bool
  | add k' .. => k' = k
  | _ => false

def dels (k : List UInt8) : Call α → Bool
  | del k' _ => k' = k
  | _ => false

/-- How many calls of a kind have succeeded in a run. -/
def succeeded (kind : Call α → Bool) (cs : List (Call α)) (rs : List (Answer α)) : Nat :=
  (cs.zip rs).countP fun p => kind p.1 && p.2.1 = .ok

theorem succeeded_cons (kind : Call α → Bool) (c : Call α) (cs : List (Call α)) (r : Answer α)
    (rs : List (Answer α)) : succeeded kind (c :: cs) (r :: rs) =
      succeeded kind cs rs + if kind c = true ∧ r.1 = .ok then 1 else 0 := by
  rw [succeeded, List.zip_cons_cons, List.countP_cons, succeeded]
  simp

variable {t : Table α}

/-- A call keeps `stored` in step with the additions and deletions that succeed. -/
theorem run_pooled (ht : t.Pooled) {c : Call α} (hc : c.Takes t) :
    ∃ t' r, c.run t = .ok (t', r) ∧ t'.Pooled ∧ ∀ k,
      stored k t'.nodes + (if c.dels k = true ∧ r.1 = .ok then 1 else 0) =
        stored k t.nodes + if c.adds k = true ∧ r.1 = .ok then 1 else 0 := by
  cases c with
  | add k a tnew lnew =>
      obtain ⟨hfresh, hroom⟩ := hc k a tnew lnew rfl
      by_cases hk : k = []
      · have hadd : t.hashtableAdd (hashNew k a) tnew lnew = (t, hashNew k a, .einval) := by
          rw [Table.hashtableAdd, if_pos (show (hashNew k a).data = [] from hk)]
        refine ⟨t, (.einval, none), by rw [run, hadd], ht, fun k' => ?_⟩
        simp
      · obtain ⟨hpooled, hret, hstored⟩ := ht.hashtableAdd hk a hfresh hroom
        refine ⟨_, _, rfl, hpooled, fun k' => ?_⟩
        rw [if_neg (fun h => Bool.false_ne_true h.1), Nat.add_zero, hstored k']
        simp [adds, hret]
  | find k a =>
      obtain ⟨hi, ret, hfind, -⟩ := ht.hashtableFind k a
      refine ⟨t, (ret, if ret = .ok then some hi.arg else none), ?_, ht, fun k' => ?_⟩
      · rw [run, hfind]
        rfl
      · rw [if_neg (fun h => Bool.false_ne_true h.1), if_neg (fun h => Bool.false_ne_true h.1)]
  | del k a =>
      by_cases hk : k = []
      · have hdel : t.hashtableDel (hashNew k a) = .ok (t, hashNew k a, .einval) := by
          rw [Table.hashtableDel, if_pos (show (hashNew k a).data = [] from hk)]
        refine ⟨t, (.einval, none), ?_, ht, fun k' => ?_⟩
        · rw [run, hdel]
          rfl
        · simp
      · obtain ⟨t', hi, ret, hdel, hpooled, hstored⟩ := ht.hashtableDel hk a
        refine ⟨t', (ret, none), ?_, hpooled, fun k' => ?_⟩
        · rw [run, hdel]
          rfl
        · rw [← hstored k']
          simp [adds, dels]

theorem runAll_pooled (ht : t.Pooled) (cs : List (Call α)) (hcs : AllTake t cs) :
    ∃ t' rs, runAll t cs = .ok (t', rs) ∧ t'.Pooled ∧ ∀ k,
      stored k t'.nodes + succeeded (dels k) cs rs =
        stored k t.nodes + succeeded (adds k) cs rs := by
  induction cs generalizing t with
  | nil => exact ⟨t, [], rfl, ht, fun _ => rfl⟩
  | cons c cs ih =>
      obtain ⟨t₁, r, hrun, hpooled, hstep⟩ := run_pooled ht hcs.1
      obtain ⟨t₂, rs, hrest, hpooled', hall⟩ := ih hpooled (hcs.2 t₁ r hrun)
      refine ⟨t₂, r :: rs, ?_, hpooled', fun k => ?_⟩
      · rw [runAll, hrun]
        simp only [bind, Except.bind, hrest]
      · have h₁ := hstep k
        have h₂ := hall k
        rw [succeeded_cons, succeeded_cons]
        omega

end Call

theorem hashtableNew_pooled (dupascoll : Bool) :
    (hashtableNew true true dupascoll 0 : Table α).Pooled where
  chmatch := rfl
  allowcoll := rfl
  cache := rfl
  wf := hashtableNew_wf true true dupascoll 0
  sorted := List.Pairwise.nil
  pool _ hn := absurd hn List.not_mem_nil
  few _ hn := absurd hn List.not_mem_nil

/-- `hashtable_find_id` writes all that it returns. -/
def Table.Fills (t : Table α) (id : UInt32) : Prop :=
  (t.hashtableFindId id).1 ≤ (t.hashtableFindId id).2.length

/-- It does where no entry counts a duplicate, and writes no more than it has room for. -/
theorem Table.Pooled.fills_iff (ht : t.Pooled) (id : UInt32) :
    (t.Fills id ↔ ∀ n, t.rbFind id = some n → ∀ l ∈ n.list, l.dup = 0) ∧
      ((t.hashtableFindId id).2.length : Int) ≤ (t.hashtableFindId id).1 := by
  unfold Table.Fills hashtableFindId
  cases hfind : t.rbFind id with
  | none =>
      have hnone : ∀ n, n ∉ (none : Option (TreeNode α)) := Option.not_mem_none
      exact ⟨iff_of_true (Int.le_refl 0) fun n hn => absurd hn (hnone n), Int.le_refl 0⟩
  | some n =>
      have hn := (rbFind_some hfind).1
      have hfew := ht.few n hn
      have helms := (ht.pool n hn).elms
      have hlen := length_le_weight n.list
      have hint : (n.elms : Int).bmod (2 ^ 32) = n.elms := by
        refine Int.bmod_eq_of_le ?_ ?_ <;> omega
      dsimp only
      rw [hint, List.length_map]
      refine ⟨⟨fun hle m hm l hl => ?_, fun hzero => ?_⟩, by omega⟩
      · cases hm
        obtain ⟨pre, post, hlist⟩ := List.append_of_mem hl
        have hpre := length_le_weight pre
        have hpost := length_le_weight post
        rw [hlist, weight_append, weight_cons] at helms
        rw [hlist, List.length_append, List.length_cons] at hle
        omega
      · have hsame : weight n.list = n.list.length := by
          rw [weight, List.map_congr_left fun l hl => by rw [hzero n rfl l hl]]
          simp
        omega

/-- In every run whose nodes keep fewer than 2 ^ 31 entries the table is a multiset of its keys,
but for the keys that it hides, and a search for a number returns what it has not written
where an entry counts duplicates. -/
theorem multiset_iff (dupascoll : Bool) (cs : List (Call α))
    (hcs : Call.AllTake (hashtableNew true true dupascoll 0) cs) :
    ∃ t rs, Call.runAll (hashtableNew true true dupascoll 0) cs = .ok (t, rs) ∧
      (∀ k a, ∃ hi ret, t.hashtableFind (hashNew k a) = .ok (t, hi, ret) ∧
        ((ret = .ok ↔ Call.succeeded (Call.dels k) cs rs < Call.succeeded (Call.adds k) cs rs) ↔
          ¬ t.Hides k)) ∧
      ∀ id, t.Fills id ↔ ∀ n, t.rbFind id = some n → ∀ l ∈ n.list, l.dup = 0 := by
  obtain ⟨t, rs, hrun, ht, hstored⟩ := Call.runAll_pooled (hashtableNew_pooled dupascoll) cs hcs
  refine ⟨t, rs, hrun, fun k a => ?_, fun id => (ht.fills_iff id).1⟩
  obtain ⟨hi, ret, hfind, hret⟩ := ht.hashtableFind k a
  have hcount : 0 < stored k t.nodes ↔
      Call.succeeded (Call.dels k) cs rs < Call.succeeded (Call.adds k) cs rs := by
    have hk := hstored k
    have hnew : stored k (hashtableNew true true dupascoll 0 : Table α).nodes = 0 := rfl
    omega
  refine ⟨hi, ret, hfind, ?_⟩
  rw [hret, hcount]
  constructor
  · intro h hhides
    have hhas : 0 < stored k t.nodes := by
      obtain ⟨-, n, hn, -, ⟨l, hl, hlk⟩, -⟩ := hhides
      exact stored_pos.mpr ⟨l, Table.mem_nodes.mpr ⟨n, (Table.rbFind_some hn).1, hl⟩, hlk⟩
    exact (h.mpr (hcount.mp hhas)).2 hhides
  · exact fun h => ⟨And.left, fun hhas => ⟨hhas, h⟩⟩

theorem Call.AllTake.cons {t t' : Table α} {c : Call α} {cs : List (Call α)} {r : Answer α}
    (htakes : c.Takes t) (hrun : c.run t = .ok (t', r)) (hcs : AllTake t' cs) :
    AllTake t (c :: cs) := by
  refine ⟨htakes, fun t₁ r₁ hrun₁ => ?_⟩
  rw [hrun] at hrun₁
  cases hrun₁
  exact hcs

/-- A key is added twice, another one once, and an entry of the first is deleted. -/
def addsAndDel : List (Call Nat) :=
  [.add [97] 7 0 0, .add [98] 8 1 1, .add [97] 9 2 2, .del [97] 0]

theorem multiset_iff_addsAndDel :
    ∃ t rs, Call.runAll (hashtableNew true true true 0) addsAndDel = .ok (t, rs) ∧
      (∀ k a, ∃ hi ret, t.hashtableFind (hashNew k a) = .ok (t, hi, ret) ∧
        ((ret = .ok ↔ Call.succeeded (Call.dels k) addsAndDel rs <
            Call.succeeded (Call.adds k) addsAndDel rs) ↔ ¬ t.Hides k)) ∧
      ∀ id, t.Fills id ↔ ∀ n, t.rbFind id = some n → ∀ l ∈ n.list, l.dup = 0 := by
  refine multiset_iff true addsAndDel (.cons (fun k a tnew lnew heq => ?_) rfl
    (.cons (fun k a tnew lnew heq => ?_) rfl (.cons (fun k a tnew lnew heq => ?_) rfl
      (.cons (fun k a tnew lnew heq => ?_) rfl trivial))))
  · cases heq
    exact ⟨⟨by decide, by decide⟩, fun n hn => absurd hn List.not_mem_nil⟩
  · cases heq
    exact ⟨⟨by decide, by decide⟩, by unfold Table.Room; decide⟩
  · cases heq
    exact ⟨⟨by decide, by decide⟩, by unfold Table.Room; decide⟩
  · cases heq

/-- Two keys with the same first hash. -/
def twoAdds : List (Call Nat) := [.add (ascii "creamwove") 1 0 0, .add (ascii "quists") 2 1 1]

/-- With `DUPASCOLL` neither of the two is found when both are there, and without it two entries
are returned for a key that was added twice, and one is written. -/
theorem multiset_fails :
    (∃ t rs hi, Call.runAll (hashtableNew true true true 0) twoAdds = .ok (t, rs) ∧
      Call.succeeded (Call.adds (ascii "creamwove")) twoAdds rs = 1 ∧
      Call.succeeded (Call.dels (ascii "creamwove")) twoAdds rs = 0 ∧
      t.hashtableFind (hashNew (ascii "creamwove") 0) = .ok (t, hi, .enotfound)) ∧
    ∃ t rs, Call.runAll (hashtableNew true true false 0) [.add [97] 1 0 0, .add [97] 2 1 1] =
        .ok (t, rs) ∧
      (t.hashtableFindId (fnvHash [97])).1 = 2 ∧ (t.hashtableFindId (fnvHash [97])).2.length = 1 :=
  ⟨⟨_, _, _, rfl, rfl, rfl, rfl⟩, _, _, rfl, by decide +kernel, by decide +kernel⟩

end Hash
end IrC6
