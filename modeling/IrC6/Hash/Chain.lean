import Mathlib.Data.List.Dedup
import IrC6.Hash.Exact

/-!
# The entries of a node that collide

With `ALLOWCOLL` the entries of a node that have the same second hash stand one behind the
other in its list.  They are a chain.  A new entry comes behind the first one of its chain,
or is counted there.

With `DUPASCOLL` the search accepts no entry for itself.  It looks at the one behind it, and
at the one in front when none of the chain is behind.
-/

namespace IrC6
namespace Hash

variable {α : Type} {t : Table α}

/-- The second hashes of a list are computed and do not decrease. -/
def Ordered (list : List (ListNode α)) : Prop :=
  list.Pairwise (·.hash ≤ ·.hash) ∧ ∀ l ∈ list, l.hash = oatHash l.data

def chain (h : UInt32) (list : List (ListNode α)) : List (ListNode α) := list.filter (·.hash = h)

theorem mem_chain {h : UInt32} {list : List (ListNode α)} {l : ListNode α} :
    l ∈ chain h list ↔ l ∈ list ∧ l.hash = h := by
  simp [chain]

/-- A chain stands in one piece. -/
theorem chain_split {list : List (ListNode α)} (hsorted : list.Pairwise (·.hash ≤ ·.hash))
    (h : UInt32) : ∃ pre post, list = pre ++ (chain h list ++ post) ∧
      (∀ x ∈ pre, x.hash < h) ∧ ∀ x ∈ post, h < x.hash := by
  induction list with
  | nil => exact ⟨[], [], rfl, nofun, nofun⟩
  | cons lent rest ih =>
      obtain ⟨hlent, hrest⟩ := List.pairwise_cons.mp hsorted
      obtain ⟨pre, post, hsplit, hpre, hpost⟩ := ih hrest
      by_cases hlt : lent.hash < h
      · refine ⟨lent :: pre, post, ?_, List.forall_mem_cons.mpr ⟨hlt, hpre⟩, hpost⟩
        rw [chain, List.filter_cons_of_neg (by simpa using UInt32.ne_of_lt hlt)]
        exact congrArg (lent :: ·) hsplit
      · have hge := UInt32.not_lt.mp hlt
        by_cases heq : lent.hash = h
        · have hnil : pre = [] := by
            refine List.eq_nil_iff_forall_not_mem.mpr fun x hx => ?_
            have hle := hlent x (by rw [hsplit]; exact List.mem_append_left _ hx)
            exact UInt32.not_lt.mpr (UInt32.le_trans hge hle) (hpre x hx)
          refine ⟨[], post, ?_, nofun, hpost⟩
          rw [chain, List.filter_cons_of_pos (by simpa using heq)]
          rw [hnil] at hsplit
          exact congrArg (lent :: ·) hsplit
        · have hgt : h < lent.hash := UInt32.lt_of_le_of_ne hge (Ne.symm heq)
          have hall : ∀ x ∈ lent :: rest, h < x.hash := List.forall_mem_cons.mpr
            ⟨hgt, fun x hx => UInt32.lt_of_lt_of_le hgt (hlent x hx)⟩
          have hnone : chain h (lent :: rest) = [] :=
            List.filter_eq_nil_iff.mpr fun x hx => by simpa using (UInt32.ne_of_lt (hall x hx)).symm
          exact ⟨[], lent :: rest, by rw [hnone]; rfl, nofun, hall⟩

/-! ## Searching -/

section Search

variable {c : Nat} {k : List UInt8} {h : UInt32}

/-- Entries with other hashes are passed over. -/
theorem searchList_skip {pre : List (ListNode α)} (hpre : ∀ x ∈ pre, x.hash ≠ h)
    (prev : Option (ListNode α)) (rest : List (ListNode α)) :
    t.searchList c k h prev (pre ++ rest) =
      t.searchList c k h (pre.getLast?.or prev) rest := by
  induction pre generalizing prev with
  | nil => rfl
  | cons x pre ih =>
      rw [List.cons_append, Table.searchList, if_neg (hpre x List.mem_cons_self),
        ih fun y hy => hpre y (List.mem_cons_of_mem _ hy)]
      cases pre with
      | nil => rfl
      | cons y pre => simp [List.getLast?_cons]

theorem searchList_none {post : List (ListNode α)} (hpost : ∀ x ∈ post, x.hash ≠ h)
    (prev : Option (ListNode α)) : t.searchList c k h prev post = none := by
  rw [← List.append_nil post, searchList_skip hpost]
  rfl

/-- With `ALLOWCOLL` an entry is accepted for itself, or gives way to its neighbour. -/
theorem checkEntry_sound (hallow : t.allowcoll = true) {lent l : ListNode α}
    {prev next : Option (ListNode α)} {ret : Ret}
    (hcheck : t.checkEntry c k h lent prev next = some (l, ret)) :
    l.data = k ∧ (l = lent ∧ ret = .dup ∧ t.dupascoll = false ∨
      (next = some l ∨ prev = some l) ∧ l.hash = h ∧ ret = .ecoll ∧ 0 < c) := by
  rw [Table.checkEntry, if_neg (by simp [hallow])] at hcheck
  split at hcheck
  · rename_i hown
    cases hcheck
    exact ⟨hown.2, Or.inl ⟨rfl, rfl, hown.1⟩⟩
  · split at hcheck
    · rename_i hc
      obtain ⟨x, hx, heq⟩ := Option.map_eq_some_iff.mp hcheck
      cases heq
      obtain ⟨hnear, hdata⟩ := Option.filter_eq_some_iff.mp hx
      refine ⟨of_decide_eq_true hdata, Or.inr ?_⟩
      split at hnear
      · rename_i y hy
        cases hnear
        obtain ⟨hnext, hhash⟩ := Option.filter_eq_some_iff.mp hy
        exact ⟨Or.inl hnext, of_decide_eq_true hhash, rfl, hc⟩
      · obtain ⟨hprev, hhash⟩ := Option.filter_eq_some_iff.mp hnear
        exact ⟨Or.inr hprev, of_decide_eq_true hhash, rfl, hc⟩
    · cases hcheck

theorem searchList_sound (hallow : t.allowcoll = true) {list : List (ListNode α)}
    {prev : Option (ListNode α)} {l : ListNode α} {ret : Ret}
    (hfound : t.searchList c k h prev list = some (l, ret)) :
    l.data = k ∧ (ret = .dup ∧ t.dupascoll = false ∨ ret = .ecoll ∧ 0 < c) := by
  induction list generalizing prev with
  | nil => cases hfound
  | cons lent rest ih =>
      rw [Table.searchList] at hfound
      split at hfound
      · split at hfound
        · rename_i r hcheck
          obtain rfl := Option.some.inj hfound
          obtain ⟨hk, ⟨-, hret⟩ | ⟨-, -, hret⟩⟩ := checkEntry_sound hallow hcheck
          · exact ⟨hk, Or.inl hret⟩
          · exact ⟨hk, Or.inr hret⟩
        · exact ih hfound
      · exact ih hfound

/-! ### Without `DUPASCOLL` -/

/-- Of two entries with one second hash the later one counts no duplicates. -/
def HeadsCount (list : List (ListNode α)) : Prop :=
  list.Pairwise fun l l' => l.hash = l'.hash → l'.dup = 0

/-- Every entry is accepted for itself, or by the one in front of it. -/
theorem searchList_counted (hallow : t.allowcoll = true) (hdup : t.dupascoll = false)
    {list : List (ListNode α)} (hheads : HeadsCount list) (prev : Option (ListNode α))
    (hprev : ∀ p ∈ prev, p.hash = h → p.data ≠ k) :
    (∃ l ∈ list, l.data = k ∧ (t.searchList c k h prev list = some (l, .dup) ∨
        t.searchList c k h prev list = some (l, .ecoll) ∧ l.dup = 0)) ∨
      ((∀ l ∈ list, l.hash = h → l.data ≠ k) ∧ t.searchList c k h prev list = none) := by
  induction list generalizing prev with
  | nil => exact Or.inr ⟨nofun, rfl⟩
  | cons lent rest ih =>
      obtain ⟨hlent, hrest⟩ := List.pairwise_cons.mp hheads
      -- The rest is searched when `lent` is not the one, and nor is its neighbour.
      have hon : (lent.hash = h → lent.data ≠ k) →
          t.searchList c k h prev (lent :: rest) = t.searchList c k h (some lent) rest →
          (∃ l ∈ lent :: rest, l.data = k ∧
            (t.searchList c k h prev (lent :: rest) = some (l, .dup) ∨
              t.searchList c k h prev (lent :: rest) = some (l, .ecoll) ∧ l.dup = 0)) ∨
          ((∀ l ∈ lent :: rest, l.hash = h → l.data ≠ k) ∧
            t.searchList c k h prev (lent :: rest) = none) := by
        intro hother hstep
        rw [hstep]
        obtain ⟨l, hl, hfound⟩ | ⟨hnone, hfound⟩ := ih hrest (some lent) fun p hp => by
          obtain rfl := Option.mem_some.mp hp
          exact hother
        · exact Or.inl ⟨l, List.mem_cons_of_mem _ hl, hfound⟩
        · exact Or.inr ⟨List.forall_mem_cons.mpr ⟨hother, hnone⟩, hfound⟩
      by_cases hhash : lent.hash = h
      · by_cases hdata : lent.data = k
        · refine Or.inl ⟨lent, List.mem_cons_self, hdata, Or.inl ?_⟩
          rw [Table.searchList, if_pos hhash]
          simp [Table.checkEntry, hallow, hdup, hdata]
        · cases hcheck : t.checkEntry c k h lent prev rest.head? with
          | none =>
              refine hon (fun _ => hdata) ?_
              rw [Table.searchList, if_pos hhash, hcheck]
          | some r =>
              obtain ⟨l, ret⟩ := r
              have hfound : t.searchList c k h prev (lent :: rest) = some (l, ret) := by
                rw [Table.searchList, if_pos hhash, hcheck]
              obtain ⟨hkey, ⟨rfl, -⟩ | ⟨hnext | hlast, hnear, rfl, -⟩⟩ :=
                checkEntry_sound hallow hcheck
              · exact absurd hkey hdata
              · have hmem := List.mem_of_mem_head? hnext
                refine Or.inl ⟨l, List.mem_cons_of_mem _ hmem, hkey, Or.inr ⟨hfound, ?_⟩⟩
                exact hlent l hmem (hhash.trans hnear.symm)
              · exact absurd hkey (hprev l hlast hnear)
      · refine hon (fun hh => absurd hh hhash) ?_
        rw [Table.searchList, if_neg hhash]

/-! ### With `DUPASCOLL` -/

/-- The key is behind the first entry of its chain, or in a chain of two. -/
def Seen (k : List UInt8) (cs : List (ListNode α)) : Prop :=
  (∃ x ∈ cs.tail, x.data = k) ∨ (cs.length = 2 ∧ ∃ x ∈ cs, x.data = k)

theorem two_le_length_of_seen {cs : List (ListNode α)} (h : Seen k cs) : 2 ≤ cs.length := by
  obtain ⟨x, hx, -⟩ | ⟨hlen, -⟩ := h
  · have hpos := List.length_pos_of_mem hx
    rw [List.length_tail] at hpos
    omega
  · omega

/-- An entry with one of its chain behind it gives way to that one. -/
theorem searchList_next (hallow : t.allowcoll = true) (hdup : t.dupascoll = true) (hc : 0 < c)
    {x y : ListNode α} (hx : x.hash = h) (hy : y.hash = h) (prev : Option (ListNode α))
    (rest : List (ListNode α)) :
    t.searchList c k h prev (x :: y :: rest) =
      if y.data = k then some (y, .ecoll) else t.searchList c k h (some x) (y :: rest) := by
  have hcheck : t.checkEntry c k h x prev (some y) =
      if y.data = k then some (y, .ecoll) else none := by
    have hnext : (some y).filter (fun l => decide (l.hash = h)) = some y :=
      Option.filter_eq_some_iff.mpr ⟨rfl, decide_eq_true hy⟩
    rw [Table.checkEntry, if_neg (by simp [hallow]), if_neg (by simp [hdup]), if_pos hc]
    by_cases hk : y.data = k <;> simp [hnext, hk]
  rw [Table.searchList, if_pos hx, List.head?_cons, hcheck]
  by_cases hk : y.data = k
  · rw [if_pos hk, if_pos hk]
  · rw [if_neg hk, if_neg hk]

/-- The last entry of a chain gives way to the one in front of it. -/
theorem searchList_last (hallow : t.allowcoll = true) (hdup : t.dupascoll = true) (hc : 0 < c)
    {x : ListNode α} (hx : x.hash = h) {post : List (ListNode α)} (hpost : ∀ y ∈ post, y.hash ≠ h)
    (prev : Option (ListNode α)) :
    t.searchList c k h prev (x :: post) =
      ((prev.filter (·.hash = h)).filter (·.data = k)).map fun l => (l, .ecoll) := by
  have hnext : post.head?.filter (·.hash = h) = none := by
    cases post with
    | nil => rfl
    | cons y post => simpa using hpost y List.mem_cons_self
  have hcheck : t.checkEntry c k h x prev post.head? =
      ((prev.filter (·.hash = h)).filter (·.data = k)).map fun l => (l, .ecoll) := by
    rw [Table.checkEntry, if_neg (by simp [hallow]), if_neg (by simp [hdup]), if_pos hc, hnext]
  rw [Table.searchList, if_pos hx, hcheck]
  split
  · rename_i r heq
    exact heq.symm
  · rename_i heq
    rw [heq]
    exact searchList_none hpost _

/-- A walk that has come to the second entry of a chain. -/
theorem searchList_behind (hallow : t.allowcoll = true) (hdup : t.dupascoll = true) (hc : 0 < c)
    {rest post : List (ListNode α)} (hpost : ∀ y ∈ post, y.hash ≠ h) {p x : ListNode α}
    (hp : p.hash = h) (hx : x.hash = h) (hrest : ∀ y ∈ rest, y.hash = h) :
    (t.searchList c k h (some p) (x :: (rest ++ post))).isSome ↔
      (∃ y ∈ rest, y.data = k) ∨ (rest = [] ∧ p.data = k) ∨ (rest.length = 1 ∧ x.data = k) := by
  induction rest generalizing p x with
  | nil =>
      rw [List.nil_append, searchList_last hallow hdup hc hx hpost]
      by_cases hk : p.data = k <;> simp [hp, hk]
  | cons y rest ih =>
      have hy := hrest y List.mem_cons_self
      rw [List.cons_append, searchList_next hallow hdup hc hx hy]
      by_cases hk : y.data = k
      · rw [if_pos hk]
        exact iff_of_true rfl (Or.inl ⟨y, List.mem_cons_self, hk⟩)
      · rw [if_neg hk, ih hx hy fun z hz => hrest z (List.mem_cons_of_mem _ hz)]
        simp [hk]

/-- A chain gives a key that is seen in it. -/
theorem searchList_chain (hallow : t.allowcoll = true) (hdup : t.dupascoll = true)
    (cs : List (ListNode α)) {post : List (ListNode α)} (hcs : ∀ x ∈ cs, x.hash = h)
    (hpost : ∀ y ∈ post, y.hash ≠ h) (hc : 2 ≤ cs.length → 0 < c) (prev : Option (ListNode α))
    (hprev : ∀ p ∈ prev, p.hash ≠ h) :
    (t.searchList c k h prev (cs ++ post)).isSome ↔ Seen k cs := by
  match cs with
  | [] => simp [searchList_none hpost, Seen]
  | [x] =>
      have hnone : prev.filter (·.hash = h) = none := by
        cases prev with
        | none => rfl
        | some p => simpa using hprev p rfl
      have hx := hcs x List.mem_cons_self
      by_cases hpos : 0 < c
      · rw [List.singleton_append, searchList_last hallow hdup hpos hx hpost, hnone]
        simp [Seen]
      · have hcheck : t.checkEntry c k h x prev post.head? = none := by
          rw [Table.checkEntry, if_neg (by simp [hallow]), if_neg (by simp [hdup]), if_neg hpos]
        rw [List.singleton_append, Table.searchList, if_pos hx, hcheck]
        dsimp only
        simp [searchList_none hpost, Seen]
  | x :: y :: rest =>
      have hpos := hc (by simp)
      have hx := hcs x List.mem_cons_self
      have hy := hcs y (List.mem_cons_of_mem _ List.mem_cons_self)
      have hrest : ∀ z ∈ rest, z.hash = h := fun z hz =>
        hcs z (List.mem_cons_of_mem _ (List.mem_cons_of_mem _ hz))
      rw [List.cons_append, List.cons_append, searchList_next hallow hdup hpos hx hy]
      by_cases hk : y.data = k
      · rw [if_pos hk]
        exact iff_of_true rfl (Or.inl ⟨y, List.mem_cons_self, hk⟩)
      · rw [if_neg hk, searchList_behind hallow hdup hpos hpost hx hy hrest]
        have hlen : (x :: y :: rest).length = 2 ↔ rest = [] := by
          rw [← List.length_eq_zero_iff, List.length_cons, List.length_cons]
          omega
        simp only [Seen, List.tail_cons, hlen, List.mem_cons, exists_eq_or_imp, hk, false_or,
          and_false, or_false]
        constructor
        · exact fun hseen => hseen.imp_right (And.imp_right Or.inl)
        · rintro (hbehind | ⟨hnil, hfirst | hbehind⟩)
          · exact Or.inl hbehind
          · exact Or.inr ⟨hnil, hfirst⟩
          · exact Or.inl hbehind

end Search

/-! ## Inserting -/

/-- What an insertion leaves in a list: the entry in a place of its own, counted by the first
of its chain, or behind that one. -/
inductive Places (t : Table α) (l : ListNode α) : List (ListNode α) → Inserted α → Prop where
  | alone (pre post : List (ListNode α)) {r : Inserted α} (hpre : ∀ x ∈ pre, x.hash < l.hash)
      (hpost : ∀ x ∈ post, l.hash < x.hash) (hlist : r.list = pre ++ l :: post)
      (hcoll : r.collisions = 0) : Places t l (pre ++ post) r
  | counted (pre post : List (ListNode α)) {c : ListNode α} {r : Inserted α}
      (hpre : ∀ x ∈ pre, x.hash < l.hash) (hc : c.hash = l.hash) (hdata : l.data = c.data)
      (hdup : t.dupascoll = false)
      (hlist : r.list = pre ++ { c with dup := (c.dup + 1) % 2 ^ 32 } :: post)
      (hcoll : r.collisions = 0) : Places t l (pre ++ c :: post) r
  | behind (pre post : List (ListNode α)) {c : ListNode α} {r : Inserted α}
      (hpre : ∀ x ∈ pre, x.hash < l.hash) (hc : c.hash = l.hash)
      (hlist : r.list = pre ++ c :: l :: post) (hcoll : r.collisions = 1) :
      Places t l (pre ++ c :: post) r

theorem Places.cons {l lent : ListNode α} (hlent : lent.hash < l.hash) {list : List (ListNode α)}
    {r : Inserted α} (h : Places t l list r) :
    Places t l (lent :: list) { r with list := lent :: r.list } := by
  cases h with
  | alone pre post hpre hpost hlist hcoll =>
      exact Places.alone (lent :: pre) post (List.forall_mem_cons.mpr ⟨hlent, hpre⟩) hpost
        (by simp [hlist]) hcoll
  | counted pre post hpre hc hdata hdup hlist hcoll =>
      exact Places.counted (lent :: pre) post (List.forall_mem_cons.mpr ⟨hlent, hpre⟩) hc hdata
        hdup (by simp [hlist]) hcoll
  | behind pre post hpre hc hlist hcoll =>
      exact Places.behind (lent :: pre) post (List.forall_mem_cons.mpr ⟨hlent, hpre⟩) hc
        (by simp [hlist]) hcoll

theorem insertEntry_places (hallow : t.allowcoll = true) (l : ListNode α)
    {list : List (ListNode α)} (hsorted : list.Pairwise (·.hash ≤ ·.hash)) :
    Places t l list (insertEntry t l list) := by
  induction list with
  | nil => exact Places.alone [] [] nofun nofun rfl rfl
  | cons lent rest ih =>
      obtain ⟨hlent, hrest⟩ := List.pairwise_cons.mp hsorted
      rw [insertEntry]
      by_cases heq : l.hash = lent.hash
      · rw [if_pos heq, insertCollision, if_pos hallow]
        by_cases hown : l.data = lent.data ∧ t.dupascoll = false
        · rw [if_pos hown]
          exact Places.counted [] rest nofun heq.symm hown.1 hown.2 rfl rfl
        · rw [if_neg hown]
          exact Places.behind [] rest nofun heq.symm rfl rfl
      · rw [if_neg heq]
        by_cases hlt : l.hash < lent.hash
        · rw [if_pos hlt]
          have hpost : ∀ x ∈ lent :: rest, l.hash < x.hash := List.forall_mem_cons.mpr
            ⟨hlt, fun x hx => UInt32.lt_of_lt_of_le hlt (hlent x hx)⟩
          exact Places.alone [] (lent :: rest) nofun hpost rfl rfl
        · rw [if_neg hlt]
          have hgt : lent.hash < l.hash :=
            UInt32.lt_of_le_of_ne (UInt32.not_lt.mp hlt) (Ne.symm heq)
          exact (ih hrest).cons hgt

end Hash
end IrC6
