import Mathlib.Logic.Function.Basic
import IrC6.Hash.Exact

/-!
# The table as a finite map

The keys that the table refuses are the ones it has and the ones that agree with a
key it has in both hashes.  Apart from that it is a finite map: `Call.apply` is what
an operation does to the map and answers, and a run of the table gives the same
answers.  A walk over the table meets the keys of the map once each.
-/

namespace IrC6
namespace Hash

variable {α : Type}

/-! ## The map -/

/-- An operation on a key, with the argument of its fresh `hash_t`.  An addition comes
with the cells that it is given. -/
inductive Call (α : Type) where
  | add (k : List UInt8) (a : α) (tnew lnew : Nat)
  | find (k : List UInt8) (a : α)
  | del (k : List UInt8) (a : α)

/-- The result of an operation, and the argument that a search yields. -/
abbrev Answer (α : Type) := Ret × Option α

namespace Call

def key : Call α → List UInt8
  | add k _ _ _ | find k _ | del k _ => k

noncomputable def apply (M : List UInt8 → Option α) (c : Call α) :
    (List UInt8 → Option α) × Answer α :=
  open Classical in
  match c with
  | add k a _ _ =>
      if M k ≠ none then (M, .dup, none)
      else if ∃ k', k' ≠ k ∧ M k' ≠ none ∧ fnvHash k' = fnvHash k ∧ oatHash k' = oatHash k then
        (M, .ecoll, none)
      else (Function.update M k (some a), .ok, none)
  | find k _ => if M k = none then (M, .enotfound, none) else (M, .ok, M k)
  | del k _ =>
      if M k = none then (M, .enotfound, none) else (Function.update M k none, .ok, none)

/-- The map behind a sequence of operations, and their answers. -/
noncomputable def applyAll (M : List UInt8 → Option α) :
    List (Call α) → (List UInt8 → Option α) × List (Answer α)
  | [] => (M, [])
  | c :: cs => ((applyAll (c.apply M).1 cs).1, (c.apply M).2 :: (applyAll (c.apply M).1 cs).2)

def run (t : Table α) : Call α → Except Fault (Table α × Answer α)
  | add k a tnew lnew =>
      .ok ((t.hashtableAdd (hashNew k a) tnew lnew).1,
        (t.hashtableAdd (hashNew k a) tnew lnew).2.2, none)
  | find k a => do
      let (t, hi, ret) ← t.hashtableFind (hashNew k a)
      .ok (t, ret, if ret = .ok then some hi.arg else none)
  | del k a => do
      let (t, _, ret) ← t.hashtableDel (hashNew k a)
      .ok (t, ret, none)

def runAll (t : Table α) : List (Call α) → Except Fault (Table α × List (Answer α))
  | [] => .ok (t, [])
  | c :: cs => do
      let (t, r) ← c.run t
      let (t, rs) ← runAll t cs
      .ok (t, r :: rs)

/-- Keys are not empty, and an addition gets cells that are not in use. -/
def Allowed (t : Table α) (c : Call α) : Prop :=
  c.key ≠ [] ∧ ∀ k a tnew lnew, c = add k a tnew lnew → t.Fresh tnew lnew

/-- Each operation of a run is allowed where it comes. -/
def AllAllowed (t : Table α) : List (Call α) → Prop
  | [] => True
  | c :: cs => c.Allowed t ∧ ∀ t' r, c.run t = .ok (t', r) → AllAllowed t' cs

end Call

/-- The two hashes of a key, the first one in front. -/
def walkKey (k : List UInt8) : Nat := (fnvHash k).toNat * 2 ^ 32 + (oatHash k).toNat

namespace Table

/-- The table holds the pairs of a map. -/
def Represents (t : Table α) (M : List UInt8 → Option α) : Prop :=
  ∀ k a, (k, a) ∈ t.entries ↔ M k = some a

variable {t : Table α} {M : List UInt8 → Option α}

theorem Represents.none_iff (hr : t.Represents M) (k : List UInt8) :
    M k = none ↔ ∀ l ∈ t.nodes, l.data ≠ k := by
  rw [Option.eq_none_iff_forall_ne_some]
  constructor
  · intro h l hl hlk
    exact h l.arg ((hr k l.arg).mp (mem_entries.mpr ⟨l, hl, hlk, rfl⟩))
  · intro h a ha
    obtain ⟨l, hl, hlk, -⟩ := mem_entries.mp ((hr k a).mpr ha)
    exact h l hl hlk

theorem Represents.perm {t' : Table α} (hr : t.Represents M) (hperm : t'.entries.Perm t.entries) :
    t'.Represents M :=
  fun k a => hperm.mem_iff.trans (hr k a)

theorem Represents.cons {t' : Table α} (hr : t.Represents M) {k : List UInt8} {a : α}
    (hk : M k = none) (hperm : t'.entries.Perm ((k, a) :: t.entries)) :
    t'.Represents (Function.update M k (some a)) := by
  intro k' a'
  rw [hperm.mem_iff, List.mem_cons, hr k' a']
  by_cases hkk : k' = k
  · subst hkk
    simp [hk, eq_comm]
  · simp [hkk]

/-- The pair of a key that goes was the only one of that key. -/
theorem Represents.erase {t' : Table α} (hr : t.Represents M)
    (hkeys : (t.entries.map Prod.fst).Nodup) {k : List UInt8} {a : α}
    (hperm : t.entries.Perm ((k, a) :: t'.entries)) :
    t'.Represents (Function.update M k none) := by
  rw [(hperm.map Prod.fst).nodup_iff, List.map_cons, List.nodup_cons] at hkeys
  intro k' a'
  by_cases hkk : k' = k
  · subst hkk
    simp only [Function.update_self, reduceCtorEq, iff_false]
    exact fun hmem => hkeys.1 (List.mem_map.mpr ⟨_, hmem, rfl⟩)
  · have hiff := hr k' a'
    rw [hperm.mem_iff, List.mem_cons] at hiff
    simpa [hkk] using hiff

/-! ## One operation -/

theorem represents_add (he : t.Exact) (hr : t.Represents M) {k : List UInt8} (hk : k ≠ []) (a : α)
    {tnew lnew : Nat} (hf : t.Fresh tnew lnew) :
    ∃ t', (Call.add k a tnew lnew).run t = .ok (t', ((Call.add k a tnew lnew).apply M).2) ∧
      t'.Exact ∧ t'.Represents ((Call.add k a tnew lnew).apply M).1 := by
  obtain ⟨hexact, hcases⟩ := he.hashtableAdd hk a hf
  rw [Call.run, Call.apply]
  rcases hcases with ⟨p, hp, hfnv, hoat, hperm, hret⟩ | ⟨hnone, hperm, hret⟩
  · have hp' : M p.1 = some p.2 := (hr p.1 p.2).mp hp
    by_cases hkp : k = p.1
    · have hin : M k ≠ none := by simp [hkp, hp']
      rw [if_pos hin, hret, if_pos hkp]
      exact ⟨_, rfl, hexact, hr.perm hperm⟩
    · have hout : ¬ M k ≠ none := by
        intro hin
        obtain ⟨b, hb⟩ := Option.ne_none_iff_exists'.mp hin
        obtain ⟨l, hl, hlk, -⟩ := mem_entries.mp ((hr k b).mpr hb)
        obtain ⟨l', hl', hlp, -⟩ := mem_entries.mp (show (p.1, p.2) ∈ t.entries from hp)
        have heq := he.eq_of_hashes hl hl' (by rw [hlk, hlp, hfnv]) (by rw [hlk, hlp, hoat])
        exact hkp (by rw [← hlk, heq, hlp])
      rw [if_neg hout, if_pos ⟨p.1, fun h => hkp h.symm, by simp [hp'], hfnv, hoat⟩, hret,
        if_neg hkp]
      exact ⟨_, rfl, hexact, hr.perm hperm⟩
  · have hfree : ∀ k', M k' ≠ none → fnvHash k' = fnvHash k → oatHash k' ≠ oatHash k := by
      intro k' hin
      obtain ⟨b, hb⟩ := Option.ne_none_iff_exists'.mp hin
      exact hnone (k', b) ((hr k' b).mpr hb)
    have hout : ¬ M k ≠ none := fun hin => hfree k hin rfl rfl
    rw [if_neg hout, if_neg (fun ⟨k', _, hin, hfnv, hoat⟩ => hfree k' hin hfnv hoat), hret]
    exact ⟨_, rfl, hexact, hr.cons (not_not.mp hout) hperm⟩

theorem represents_find (he : t.Exact) (hr : t.Represents M) (k : List UInt8) (a : α) :
    (Call.find k a).run t = .ok (t, ((Call.find k a).apply M).2) ∧
      ((Call.find k a).apply M).1 = M := by
  rw [Call.run, Call.apply]
  rcases he.hashtableFind k a with ⟨l, hl, hlk, hi, hfind, harg⟩ | ⟨hnone, hi, hfind⟩
  · have hin : M k = some l.arg := (hr k l.arg).mp (mem_entries.mpr ⟨l, hl, hlk, rfl⟩)
    rw [hfind, if_neg (by simp [hin]), hin, ← harg]
    exact ⟨rfl, rfl⟩
  · rw [hfind, if_pos ((hr.none_iff k).mpr hnone)]
    exact ⟨rfl, rfl⟩

theorem represents_del (he : t.Exact) (hr : t.Represents M) {k : List UInt8} (hk : k ≠ []) (a : α) :
    ∃ t', (Call.del k a).run t = .ok (t', ((Call.del k a).apply M).2) ∧
      t'.Exact ∧ t'.Represents ((Call.del k a).apply M).1 := by
  rw [Call.run, Call.apply]
  rcases he.hashtableDel hk a with ⟨l, hl, hlk, t', hi, hdel, hexact, hperm⟩ | ⟨hnone, hi, hdel⟩
  · have hin : M k ≠ none := fun h => (hr.none_iff k).mp h l hl hlk
    rw [hdel, if_neg hin]
    exact ⟨t', rfl, hexact, hr.erase he.keys_nodup hperm⟩
  · rw [hdel, if_pos ((hr.none_iff k).mpr hnone)]
    exact ⟨t, rfl, he, hr⟩

/-- An allowed operation on the table answers as on the map and keeps the two together. -/
theorem represents_step (he : t.Exact) (hr : t.Represents M) {c : Call α} (hc : c.Allowed t) :
    ∃ t', c.run t = .ok (t', (c.apply M).2) ∧ t'.Exact ∧ t'.Represents (c.apply M).1 := by
  cases c with
  | add k a tnew lnew => exact represents_add he hr hc.1 a (hc.2 k a tnew lnew rfl)
  | find k a =>
      obtain ⟨hrun, hmap⟩ := represents_find he hr k a
      exact ⟨t, hrun, he, by rwa [hmap]⟩
  | del k a => exact represents_del he hr hc.1 a

theorem represents_run (cs : List (Call α)) (he : t.Exact) (hr : t.Represents M)
    (hcs : Call.AllAllowed t cs) :
    ∃ t', Call.runAll t cs = .ok (t', (Call.applyAll M cs).2) ∧ t'.Exact ∧
      t'.Represents (Call.applyAll M cs).1 := by
  induction cs generalizing t M with
  | nil => exact ⟨t, rfl, he, hr⟩
  | cons c cs ih =>
      obtain ⟨t₁, hrun, he₁, hr₁⟩ := represents_step he hr hcs.1
      obtain ⟨t₂, hrest, he₂, hr₂⟩ := ih he₁ hr₁ (hcs.2 t₁ _ hrun)
      refine ⟨t₂, ?_, he₂, hr₂⟩
      rw [Call.runAll, hrun]
      simp only [bind, Except.bind, hrest]
      rfl

/-! ## The walk -/

theorem slistNext_append {pre post : List (ListNode α)} {l : ListNode α}
    (hnodup : ((pre ++ l :: post).map ListNode.addr).Nodup) :
    slistNext l.addr (pre ++ l :: post) = post.head? := by
  induction pre with
  | nil => simp [slistNext]
  | cons x pre ih =>
      rw [List.cons_append, List.map_cons, List.nodup_cons] at hnodup
      have hne : x.addr ≠ l.addr := fun h => hnodup.1 (by rw [h]; simp)
      rw [List.cons_append, slistNext, if_neg hne, ih hnodup.2]

theorem rbNext_append {pre post : List (TreeNode α)} {n : TreeNode α}
    (hnodup : ((pre ++ n :: post).map TreeNode.addr).Nodup) :
    rbNext n.addr (pre ++ n :: post) = post.head? := by
  induction pre with
  | nil => simp [rbNext]
  | cons x pre ih =>
      rw [List.cons_append, List.map_cons, List.nodup_cons] at hnodup
      have hne : x.addr ≠ n.addr := fun h => hnodup.1 (by rw [h]; simp)
      rw [List.cons_append, rbNext, if_neg hne, ih hnodup.2]

/-- The next entry is the next one of the list, or the first one of the next node. -/
theorem hashtableNext_pointTo (hw : t.Wf) {pre post : List (TreeNode α)} {n : TreeNode α}
    (htree : t.tree = pre ++ n :: post) {before after : List (ListNode α)} {l : ListNode α}
    (hlist : n.list = before ++ l :: after) (hi : HashT α) :
    t.hashtableNext (pointTo hi (some n) (some l)) =
      match after.head? with
      | some l' => pointTo { pointTo hi (some n) (some l) with collnode := none } n (some l')
      | none => pointTo { pointTo hi (some n) (some l) with collnode := none } post.head?
          (post.head?.bind fun m => m.list.head?) := by
  have hsub : n.list.Sublist t.nodes := by
    rw [nodes, htree, List.flatMap_append, List.flatMap_cons]
    exact (List.sublist_append_left _ _).trans (List.sublist_append_right _ _)
  have hcells := (hsub.map ListNode.addr).nodup hw.cells
  have hsl := slistNext_append (hlist ▸ hcells)
  have hrb := rbNext_append (htree ▸ hw.trees)
  rw [← hlist] at hsl
  rw [← htree] at hrb
  have hn : n ∈ t.tree := by rw [htree]; simp
  rw [hashtableNext]
  cases hafter : after.head? with
  | some l' => simp only [pointTo, Option.bind_some, hw.tnodeAt hn, hsl, hafter]
  | none => simp only [pointTo, Option.bind_some, hw.tnodeAt hn, hsl, hrb, hafter]

/-- From an entry on, a walk meets the rest of its list and the nodes behind. -/
theorem turns_from (he : t.Exact) (fuel : Nat) {pre post : List (TreeNode α)} {n : TreeNode α}
    (htree : t.tree = pre ++ n :: post) {before after : List (ListNode α)} {l : ListNode α}
    (hlist : n.list = before ++ l :: after) (hi : HashT α)
    (hfuel : (after ++ post.flatMap TreeNode.list).length < fuel) :
    t.turns fuel (pointTo hi (some n) (some l)) =
      (l.data, l.arg) :: pairs (after ++ post.flatMap TreeNode.list) := by
  induction fuel generalizing pre post n before after l hi with
  | zero => exact absurd hfuel (Nat.not_lt_zero _)
  | succ fuel ih =>
      have hnext := hashtableNext_pointTo he.wf htree hlist hi
      rw [turns, if_neg (by simp [hashtableEnd, pointTo]), hnext]
      refine congrArg ((l.data, l.arg) :: ·) ?_
      cases after with
      | cons l' after =>
          rw [List.cons_append, List.length_cons] at hfuel
          have hlist' : n.list = (before ++ [l]) ++ l' :: after := by simp [hlist]
          exact ih htree hlist' _ (by omega)
      | nil =>
          cases post with
          | nil =>
              -- The walk has come to its end.
              cases fuel with
              | zero => rfl
              | succ fuel => rfl
          | cons m post =>
              cases hm : m.list with
              | nil => exact absurd hm (he.bucket m (by rw [htree]; simp)).nonempty
              | cons l' after =>
                  simp only [List.flatMap_cons, hm, List.nil_append, List.cons_append,
                    List.length_cons] at hfuel ⊢
                  have htree' : t.tree = (pre ++ [n]) ++ m :: post := by simp [htree]
                  have hrest := ih htree' (show m.list = [] ++ l' :: after from hm)
                    { pointTo hi (some n) (some l) with collnode := none } (by omega)
                  simpa [hm, pairs] using hrest

/-- A walk meets the pairs of the table in their order. -/
theorem turns_begin (he : t.Exact) (hi : HashT α) {fuel : Nat} (hfuel : t.nodes.length < fuel) :
    t.turns fuel (t.hashtableBegin hi) = t.entries := by
  cases htree : t.tree with
  | nil =>
      have hnodes : t.entries = [] := by rw [entries, nodes, htree]; rfl
      cases fuel with
      | zero => exact absurd hfuel (Nat.not_lt_zero _)
      | succ fuel => simp [turns, hashtableBegin, htree, hashtableEnd, pointTo, hnodes]
  | cons n post =>
      cases hlist : n.list with
      | nil => exact absurd hlist (he.bucket n (by rw [htree]; simp)).nonempty
      | cons l after =>
          rw [nodes, htree, List.flatMap_cons, hlist, List.cons_append, List.length_cons] at hfuel
          have hfrom := turns_from he fuel (show t.tree = [] ++ n :: post from htree)
            (show n.list = [] ++ l :: after from hlist) { hi with collnode := none } (by omega)
          rw [entries, nodes, htree, List.flatMap_cons, hlist]
          simpa [hashtableBegin, htree, hlist, pairs] using hfrom

/-- A walk goes through the tree in the order of the first hash, and through the list of a node
in that of the second. -/
theorem Exact.sorted_entries (he : t.Exact) :
    t.entries.Pairwise fun p p' => walkKey p.1 < walkKey p'.1 := by
  rw [entries, pairs, List.pairwise_map, nodes, List.pairwise_flatMap]
  constructor
  · intro n hn
    have hb := he.bucket n hn
    rcases hb.second with ⟨l, hl⟩ | ⟨hpair, hcomp⟩
    · rw [hl]
      exact List.pairwise_singleton _ _
    · refine List.Pairwise.imp_of_mem (fun {l l'} hl hl' hlt => ?_) hpair
      rw [hcomp l hl, hcomp l' hl'] at hlt
      show walkKey l.data < walkKey l'.data
      rw [walkKey, walkKey, hb.first l hl, hb.first l' hl']
      exact Nat.add_lt_add_left hlt _
  · refine List.Pairwise.imp_of_mem (fun {n m} hn hm hlt => ?_) he.sorted
    intro l hl l' hl'
    have hlt : n.firstHash.toNat < m.firstHash.toNat := hlt
    have hoat := (oatHash l.data).toNat_lt
    show walkKey l.data < walkKey l'.data
    rw [walkKey, walkKey, (he.bucket n hn).first l hl, (he.bucket m hm).first l' hl']
    omega

end Table

theorem hashtableNew_exact (dupascoll : Bool) :
    (hashtableNew false true dupascoll 0 : Table α).Exact where
  chmatch := rfl
  allowcoll := rfl
  cache := rfl
  wf := hashtableNew_wf _ _ _ _
  sorted := List.Pairwise.nil
  bucket := fun _ hn => absurd hn List.not_mem_nil

/-- A run of a table with `CHMATCH` alone gives the answers of the map, and a walk over
the table that it leaves behind meets each key of the map once, with its argument. -/
theorem run_exact_map (dupascoll : Bool) (cs : List (Call α))
    (hcs : Call.AllAllowed (hashtableNew false true dupascoll 0) cs) :
    ∃ t, Call.runAll (hashtableNew false true dupascoll 0) cs =
        .ok (t, (Call.applyAll (fun _ => none) cs).2) ∧
      ∀ hi : HashT α, ∃ turns,
        (∀ fuel, t.nodes.length < fuel → t.turns fuel (t.hashtableBegin hi) = turns) ∧
        (turns.map Prod.fst).Nodup ∧
        ∀ k a, (k, a) ∈ turns ↔ (Call.applyAll (fun _ => none) cs).1 k = some a := by
  have hr : (hashtableNew false true dupascoll 0 : Table α).Represents (fun _ => none) := by
    intro k a
    simp [Table.entries, pairs, Table.nodes, hashtableNew]
  obtain ⟨t, hrun, he, hrt⟩ := Table.represents_run cs (hashtableNew_exact dupascoll) hr hcs
  exact ⟨t, hrun, fun hi => ⟨t.entries, fun fuel hfuel => Table.turns_begin he hi hfuel,
    he.keys_nodup, hrt⟩⟩

/-- A key that is added, found and deleted. -/
def threeCalls : List (Call Nat) := [.add [97] 7 0 0, .find [97] 0, .del [97] 0]

theorem run_exact_map_threeCalls :
    ∃ t, Call.runAll (hashtableNew false true false 0) threeCalls =
        .ok (t, (Call.applyAll (fun _ => none) threeCalls).2) ∧
      ∀ hi : HashT Nat, ∃ turns,
        (∀ fuel, t.nodes.length < fuel → t.turns fuel (t.hashtableBegin hi) = turns) ∧
        (turns.map Prod.fst).Nodup ∧
        ∀ k a, (k, a) ∈ turns ↔ (Call.applyAll (fun _ => none) threeCalls).1 k = some a := by
  refine run_exact_map false threeCalls ⟨⟨by simp [Call.key], ?_⟩, fun t r _ => ?_⟩
  · intro k a tnew lnew _
    exact ⟨List.not_mem_nil, List.not_mem_nil⟩
  · refine ⟨⟨by simp [Call.key], fun _ _ _ _ h => by cases h⟩, fun t' r' _ => ?_⟩
    exact ⟨⟨by simp [Call.key], fun _ _ _ _ h => by cases h⟩, fun _ _ _ => trivial⟩

end Hash
end IrC6
