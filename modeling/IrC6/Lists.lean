import Mathlib.Data.List.AList
import Mathlib.Data.List.Sort
import IrC6.Base.Runs
import IrC6.Hash.Map

/-!
# The lists of rooms and nicks

`list.c` keeps the rooms of a connection, the nicks of each room and the nicks of the
console in hash tables.  A table is a finite map here, and an addition may refuse a key
that the map does not have: the empty one, and those that `refuses` names.  The table of
`hash.c` refuses the keys that agree with one it has in both hashes, and a table that
refuses none of them is an exact map.
-/

namespace IrC6

open Hash

/-- A table as the map from its keys to their arguments. -/
abbrev Dict (α : Type) := AList fun _ : List UInt8 => α

/-- What a table with some keys refuses. -/
abbrev Refusal := List (List UInt8) → List UInt8 → Bool

/-- An exact map. -/
def exact : Refusal := fun _ _ => false

/-- `hashtable_add` without `ALLOWCOLL`. -/
def clashes : Refusal := fun keys k =>
  keys.any fun k' => fnvHash k' = fnvHash k ∧ oatHash k' = oatHash k

section Tables

variable {α : Type} (refuses : Refusal)

def hashtableAddD (t : Dict α) (k : List UInt8) (a : α) : Dict α × Ret :=
  if k = [] then (t, .einval)
  else if k ∈ t then (t, .dup)
  else if refuses t.keys k then (t, .ecoll)
  else (t.insert k a, .ok)

def hashtableDelD (t : Dict α) (k : List UInt8) : Dict α × Ret :=
  if k ∈ t then (t.erase k, .ok) else (t, .enotfound)

/-- `HASHTABLE_FOREACH`. -/
def hashtableForeachD (t : Dict α) : List (List UInt8 × α) :=
  (t.entries.map fun s => (s.1, s.2)).insertionSort fun p p' => walkKey p.1 ≤ walkKey p'.1

variable {refuses}

/-- Adding to a table that may refuse the key. -/
theorem hashtableAddD_cases (t : Dict α) {k : List UInt8} (hk : k ≠ []) (a : α) :
    (k ∈ t ∧ hashtableAddD refuses t k a = (t, .dup)) ∨
    (k ∉ t ∧ refuses t.keys k ∧ hashtableAddD refuses t k a = (t, .ecoll)) ∨
    (k ∉ t ∧ hashtableAddD refuses t k a = (t.insert k a, .ok)) := by
  rw [hashtableAddD, if_neg hk]
  by_cases hmem : k ∈ t
  · exact Or.inl ⟨hmem, if_pos hmem⟩
  · rw [if_neg hmem]
    by_cases hrefuse : refuses t.keys k = true
    · exact Or.inr (Or.inl ⟨hmem, hrefuse, if_pos hrefuse⟩)
    · exact Or.inr (Or.inr ⟨hmem, if_neg hrefuse⟩)

/-- The table of `hash.c` as a map answers the same, and changes the same way. -/
theorem hashtableAddD_clashes (t : Dict α) {k : List UInt8} (hk : k ≠ []) (a : α)
    (tnew lnew : Nat) :
    (Call.add k a tnew lnew).apply (t.lookup ·) =
      (((hashtableAddD clashes t k a).1.lookup ·), (hashtableAddD clashes t k a).2, none) := by
  have hnone : ∀ k', t.lookup k' ≠ none ↔ k' ∈ t := fun k' => AList.lookup_eq_none.not_left
  have hclash : k ∉ t → ((∃ k', k' ≠ k ∧ t.lookup k' ≠ none ∧ fnvHash k' = fnvHash k ∧
      oatHash k' = oatHash k) ↔ clashes t.keys k = true) := by
    intro hmem
    simp only [clashes, List.any_eq_true, decide_eq_true_eq, hnone, ← AList.mem_keys]
    constructor
    · rintro ⟨k', -, hk', hhash⟩
      exact ⟨k', hk', hhash⟩
    · rintro ⟨k', hk', hhash⟩
      exact ⟨k', fun h => hmem (h ▸ hk'), hk', hhash⟩
  rw [Call.apply, hashtableAddD, if_neg hk]
  by_cases hmem : k ∈ t
  · rw [if_pos ((hnone k).mpr hmem), if_pos hmem]
  · rw [if_neg (fun h => hmem ((hnone k).mp h)), if_neg hmem]
    by_cases hrefuse : clashes t.keys k = true
    · rw [if_pos ((hclash hmem).mpr hrefuse), if_pos hrefuse]
    · rw [if_neg (fun h => hrefuse ((hclash hmem).mp h)), if_neg hrefuse]
      refine Prod.ext (funext fun k' => ?_) rfl
      by_cases hkk : k' = k
      · subst hkk
        simp
      · simp [hkk, AList.lookup_insert_ne hkk]

theorem hashtableDelD_apply (t : Dict α) (k : List UInt8) (a : α) :
    (Call.del k a).apply (t.lookup ·) =
      (((hashtableDelD t k).1.lookup ·), (hashtableDelD t k).2, none) := by
  rw [Call.apply, hashtableDelD]
  by_cases hmem : k ∈ t
  · rw [if_neg (fun h => AList.lookup_eq_none.mp h hmem), if_pos hmem]
    refine Prod.ext (funext fun k' => ?_) rfl
    by_cases hkk : k' = k
    · subst hkk
      simp
    · simp [hkk, AList.lookup_erase_ne hkk]
  · rw [if_pos (AList.lookup_eq_none.mpr hmem), if_neg hmem]

/-- An operation on the map of a table. -/
def dictCall (t : Dict α) : Call α → Dict α × Answer α
  | .add k a _ _ => ((hashtableAddD clashes t k a).1, (hashtableAddD clashes t k a).2, none)
  | .find k _ =>
      match t.lookup k with
      | none => (t, .enotfound, none)
      | some a => (t, .ok, some a)
  | .del k _ => ((hashtableDelD t k).1, (hashtableDelD t k).2, none)

theorem dictCall_apply (t : Dict α) {c : Call α} (hc : c.key ≠ []) :
    c.apply (t.lookup ·) = (((dictCall t c).1.lookup ·), (dictCall t c).2) := by
  cases c with
  | add k a tnew lnew => exact hashtableAddD_clashes t hc a tnew lnew
  | find k a =>
      rw [Call.apply, dictCall]
      cases hlookup : t.lookup k with
      | none => rw [if_pos rfl]
      | some b => rw [if_neg (Option.some_ne_none b)]
  | del k a => exact hashtableDelD_apply t k a

/-- A table that holds a map goes through the operations as the map does. -/
theorem dictCalls_refines {t : Table α} {d : Dict α} (he : t.Exact)
    (hr : t.Represents (d.lookup ·)) (cs : List (Call α)) (hcs : Call.AllAllowed t cs) :
    ∃ t', Call.runAll t cs = .ok (t', (answers dictCall d cs).2) ∧ t'.Exact ∧
      t'.Represents ((answers dictCall d cs).1.lookup ·) := by
  induction cs generalizing t d with
  | nil => exact ⟨t, rfl, he, hr⟩
  | cons c cs ih =>
      obtain ⟨t₁, hrun, he₁, hr₁⟩ := Table.represents_step he hr hcs.1
      rw [dictCall_apply d hcs.1.1] at hrun hr₁
      obtain ⟨t₂, hrest, he₂, hr₂⟩ := ih he₁ hr₁ (hcs.2 t₁ _ hrun)
      refine ⟨t₂, ?_, he₂, hr₂⟩
      rw [Call.runAll, hrun]
      show (Call.runAll t₁ cs >>= _) = _
      rw [hrest]
      rfl

theorem mem_hashtableForeachD {d : Dict α} {k : List UInt8} {a : α} :
    (k, a) ∈ hashtableForeachD d ↔ d.lookup k = some a := by
  rw [hashtableForeachD, List.mem_insertionSort, ← Option.mem_def, AList.mem_lookup_iff,
    List.mem_map]
  constructor
  · rintro ⟨s, hs, heq⟩
    cases heq
    exact hs
  · exact fun hs => ⟨⟨k, a⟩, hs, rfl⟩

theorem nodup_hashtableForeachD (d : Dict α) : (hashtableForeachD d).Nodup := by
  refine (List.perm_insertionSort _ _).nodup_iff.mpr (List.Nodup.of_map Prod.fst ?_)
  rw [List.map_map]
  exact d.keys_nodup

/-- The entries of a table that holds a map come in the order of the walk. -/
theorem entries_eq_foreach {t : Table α} {d : Dict α} (he : t.Exact)
    (hr : t.Represents (d.lookup ·)) : t.entries = hashtableForeachD d := by
  have hsorted : (hashtableForeachD d).Pairwise fun p p' => walkKey p.1 ≤ walkKey p'.1 := by
    have htotal : Std.Total fun p p' : List UInt8 × α => walkKey p.1 ≤ walkKey p'.1 :=
      ⟨fun p p' => Nat.le_total _ _⟩
    have htrans : IsTrans (List UInt8 × α) fun p p' => walkKey p.1 ≤ walkKey p'.1 :=
      ⟨fun _ _ _ => Nat.le_trans⟩
    exact List.pairwise_insertionSort _ _
  have hperm : t.entries.Perm (hashtableForeachD d) := by
    refine (List.perm_ext_iff_of_nodup (he.keys_nodup.of_map _)
      (nodup_hashtableForeachD d)).mpr fun p => ?_
    exact (hr p.1 p.2).trans mem_hashtableForeachD.symm
  -- no two entries of the table have the same place
  have hplaces : (t.entries.map fun p => walkKey p.1).Nodup := by
    rw [List.nodup_iff_pairwise_ne, List.pairwise_map]
    exact he.sorted_entries.imp fun h => Nat.ne_of_lt h
  refine hperm.eq_of_pairwise (fun p p' hp hp' hle hle' => ?_)
    (he.sorted_entries.imp fun h => Nat.le_of_lt h) hsorted
  exact List.inj_on_of_nodup_map hplaces hp (hperm.mem_iff.mpr hp') (Nat.le_antisymm hle hle')

/-- In every run the table of `hash.c` gives the answers of the map that stands for it here, and
a walk over it meets the pairs of the map in the order that the map is walked in. -/
theorem dict_run (dupascoll : Bool) (cs : List (Call α))
    (hcs : Call.AllAllowed (hashtableNew false true dupascoll 0) cs) :
    ∃ t, Call.runAll (hashtableNew false true dupascoll 0) cs = .ok (t, (answers dictCall ∅ cs).2) ∧
      ∀ (hi : HashT α) (fuel : Nat), t.nodes.length < fuel →
        t.turns fuel (t.hashtableBegin hi) = hashtableForeachD (answers dictCall ∅ cs).1 := by
  have hr : (hashtableNew false true dupascoll 0 : Table α).Represents
      ((∅ : Dict α).lookup ·) := fun k a => by
    simp [Table.entries, pairs, Table.nodes, hashtableNew]
  obtain ⟨t, hrun, he, hrt⟩ := dictCalls_refines (hashtableNew_exact dupascoll) hr cs hcs
  refine ⟨t, hrun, fun hi fuel hfuel => ?_⟩
  rw [Table.turns_begin he hi hfuel]
  exact entries_eq_foreach he hrt

/-- Two keys are added, one of them twice, and one is found and deleted. -/
def fiveCalls : List (Call Nat) :=
  [.add [97] 7 0 0, .add [97] 8 1 1, .add [98] 9 1 1, .find [97] 0, .del [97] 0]

theorem dict_run_fiveCalls :
    ∃ t, Call.runAll (hashtableNew false true false 0) fiveCalls =
        .ok (t, [(.ok, none), (.dup, none), (.ok, none), (.ok, some 7), (.ok, none)]) ∧
      ∀ (hi : HashT Nat) (fuel : Nat), t.nodes.length < fuel →
        t.turns fuel (t.hashtableBegin hi) =
          hashtableForeachD (answers dictCall ∅ fiveCalls).1 := by
  refine dict_run false fiveCalls ⟨⟨by simp [Call.key], ?_⟩, fun t r ht => ?_⟩
  · intro k a tnew lnew _
    exact ⟨List.not_mem_nil, List.not_mem_nil⟩
  cases ht
  refine ⟨⟨by simp [Call.key], ?_⟩, fun t r ht => ?_⟩
  · intro k a tnew lnew hadd
    cases hadd
    exact ⟨by decide, by decide⟩
  cases ht
  refine ⟨⟨by simp [Call.key], ?_⟩, fun t r _ => ?_⟩
  · intro k a tnew lnew hadd
    cases hadd
    exact ⟨by decide, by decide⟩
  · refine ⟨⟨by simp [Call.key], fun _ _ _ _ h => by cases h⟩, fun _ _ _ => ?_⟩
    exact ⟨⟨by simp [Call.key], fun _ _ _ _ h => by cases h⟩, fun _ _ _ => trivial⟩

end Tables

/-! ## Rooms -/

/-- `struct chanlist`. -/
structure Chan where
  name : List UInt8
  cname : List UInt8
  nicks : Dict Unit

/-- The key of a nick in `cl->nicks`, with its NUL. -/
def nickKey (nick : List UInt8) : List UInt8 := nick ++ [0]

def Chan.has (cl : Chan) (nick : List UInt8) : Prop := nickKey nick ∈ cl.nicks

/-- `struct nicklist`, under the name that is its key. -/
structure NickInfo where
  status : UInt8
  blackList : Bool
deriving DecidableEq, Repr

/-- The part of `connection_t` that the lists belong to. -/
structure Conn where
  nick : List UInt8
  chans : Dict Chan
  nicks : Dict NickInfo

/-- A connection that has no rooms and no nicks yet. -/
def connNew (nick : List UInt8) : Conn := { nick := nick, chans := ∅, nicks := ∅ }

section Functions

variable (refuses : Refusal)

/-- `chanlist_add`, which returns 1 also for a room that the table refuses. -/
def chanlistAdd (list : Dict Chan) (room croom : List UInt8) : Dict Chan × Int :=
  match hashtableAddD refuses list room { name := room, cname := croom, nicks := ∅ } with
  | (list, .ok) => (list, 1)
  | (list, .dup) => (list, 0)
  | (list, _) => (list, 1)

def chanlistDel (list : Dict Chan) (room : List UInt8) : Dict Chan × Bool :=
  match hashtableDelD list room with
  | (list, ret) => (list, ret = .ok)

def chanlistGetstruct (list : Dict Chan) (room : List UInt8) : Option Chan := list.lookup room

def chanlistAddnick (cl : Chan) (nick : List UInt8) : Chan × Int :=
  match hashtableAddD refuses cl.nicks (nickKey nick) () with
  | (nicks, .ok) => ({ cl with nicks := nicks }, 1)
  | (nicks, .dup) => ({ cl with nicks := nicks }, 0)
  | (nicks, _) => ({ cl with nicks := nicks }, -1)

def chanlistDelnick (cl : Chan) (nick : List UInt8) : Chan × Bool :=
  match hashtableDelD cl.nicks (nickKey nick) with
  | (nicks, ret) => ({ cl with nicks := nicks }, ret = .ok)

/-- `nicklist_add`, with the structure of `a_new0`. -/
def nicklistAdd (list : Dict NickInfo) (nick : List UInt8) : Dict NickInfo × Int :=
  match hashtableAddD refuses list nick { status := 0, blackList := false } with
  | (list, .ok) => (list, 1)
  | (list, .dup) => (list, 0)
  | (list, _) => (list, -1)

def nicklistDel (list : Dict NickInfo) (nick : List UInt8) : Dict NickInfo × Bool :=
  match hashtableDelD list nick with
  | (list, ret) => (list, ret = .ok)

def nicklistGetstruct (list : Dict NickInfo) (nick : List UInt8) : Option NickInfo :=
  list.lookup nick

end Functions

/-! ## What the functions do to an exact map -/

theorem hashtableAddD_exact {α : Type} (t : Dict α) {k : List UInt8} (hk : k ≠ []) (a : α) :
    hashtableAddD exact t k a = if k ∈ t then (t, .dup) else (t.insert k a, .ok) := by
  simp [hashtableAddD, hk, exact]

theorem chanlistAdd_exact (list : Dict Chan) {room : List UInt8} (hroom : room ≠ [])
    (croom : List UInt8) :
    chanlistAdd exact list room croom =
      if room ∈ list then (list, 0)
      else (list.insert room { name := room, cname := croom, nicks := ∅ }, 1) := by
  rw [chanlistAdd, hashtableAddD_exact list hroom]
  by_cases hmem : room ∈ list
  · rw [if_pos hmem, if_pos hmem]
  · rw [if_neg hmem, if_neg hmem]

theorem nickKey_ne_nil (nick : List UInt8) : nickKey nick ≠ [] :=
  List.append_ne_nil_of_right_ne_nil nick (List.cons_ne_nil 0 [])

theorem nickKey_inj {nick nick' : List UInt8} : nickKey nick = nickKey nick' ↔ nick = nick' :=
  List.append_left_inj [0]

theorem chanlistAddnick_exact (cl : Chan) (nick : List UInt8) :
    chanlistAddnick exact cl nick =
      if nickKey nick ∈ cl.nicks then (cl, 0)
      else ({ cl with nicks := cl.nicks.insert (nickKey nick) () }, 1) := by
  rw [chanlistAddnick, hashtableAddD_exact cl.nicks (nickKey_ne_nil nick)]
  by_cases hmem : nickKey nick ∈ cl.nicks
  · rw [if_pos hmem, if_pos hmem]
  · rw [if_neg hmem, if_neg hmem]

theorem chanlistDelnick_eq (cl : Chan) (nick : List UInt8) :
    chanlistDelnick cl nick =
      if nickKey nick ∈ cl.nicks then ({ cl with nicks := cl.nicks.erase (nickKey nick) }, true)
      else (cl, false) := by
  rw [chanlistDelnick, hashtableDelD]
  by_cases hmem : nickKey nick ∈ cl.nicks
  · rw [if_pos hmem, if_pos hmem]
    rfl
  · rw [if_neg hmem, if_neg hmem]
    rfl

theorem chanlistDel_eq (list : Dict Chan) (room : List UInt8) :
    chanlistDel list room = if room ∈ list then (list.erase room, true) else (list, false) := by
  rw [chanlistDel, hashtableDelD]
  by_cases hmem : room ∈ list
  · rw [if_pos hmem, if_pos hmem]
    rfl
  · rw [if_neg hmem, if_neg hmem]
    rfl

theorem has_chanlistAddnick (cl : Chan) (nick n : List UInt8) :
    (chanlistAddnick exact cl nick).1.has n ↔ n = nick ∨ cl.has n := by
  rw [chanlistAddnick_exact]
  by_cases hmem : nickKey nick ∈ cl.nicks
  · rw [if_pos hmem]
    constructor
    · exact Or.inr
    · rintro (rfl | hn)
      · exact hmem
      · exact hn
  · rw [if_neg hmem, Chan.has, AList.mem_insert, nickKey_inj]
    rfl

theorem has_chanlistDelnick (cl : Chan) (nick n : List UInt8) :
    (chanlistDelnick cl nick).1.has n ↔ n ≠ nick ∧ cl.has n := by
  rw [chanlistDelnick_eq]
  by_cases hmem : nickKey nick ∈ cl.nicks
  · rw [if_pos hmem, Chan.has, AList.mem_erase, Ne, nickKey_inj]
    rfl
  · rw [if_neg hmem]
    constructor
    · exact fun hn => ⟨fun h => hmem (h ▸ hn), hn⟩
    · exact And.right

end IrC6
