import Mathlib.Order.Compare
import Mathlib.Order.Lattice
import IrC6.Base.Runs
import IrC6.RbTree.Remove
import IrC6.RbTree.Search

/-!
# Runs of a tree

The users of a tree make the calls of `Call`, one after the other.  For them the tree is the
list of its elements in the order of their keys, and the links keep to it: a run from
`RB_INIT` follows no null pointer, and no loop of it makes more turns than twice the logarithm
of the number of elements, and a few.
-/

namespace IrC6
namespace RbTree

open RedBlack RedBlack.Tree

variable {α κ : Type}

/-- What is called on a tree. -/
inductive Call (α κ : Type) where
  | insert (a : α)
  | remove (a : α)
  | find (k : κ)
  | min
  | max
  | next (a : α)

section Order

variable [LinearOrder κ] {key : α → κ} {l : List α} {a : α} {k : κ}

/-- The comparison of a key with those of the elements. -/
def byKey (key : α → κ) (k : κ) (b : α) : Ordering := compare k (key b)

/-- The elements in the order of their keys, and no key twice. -/
def Sorted (key : α → κ) (l : List α) : Prop := l.Pairwise fun a b => key a < key b

theorem Sorted.cuts (h : Sorted key l) (k : κ) : Cuts (byKey key k) l :=
  h.imp fun {a b} hab => by
    rcases lt_or_ge (key a) k with hlt | hge
    · exact Or.inl (compare_gt_iff_gt.mpr hlt)
    · exact Or.inr (compare_lt_iff_lt.mpr (lt_of_le_of_lt hge hab))

theorem Sorted.place (h : Sorted key l) (hne : ∀ b ∈ l, byKey key (key a) b ≠ .eq) :
    Sorted key (RedBlack.place (byKey key (key a)) a l) := by
  obtain ⟨u, v, rfl, hplace, hu, hv⟩ := (h.cuts (key a)).exists_place hne a
  obtain ⟨hsu, hsv, huv⟩ := List.pairwise_append.mp h
  rw [hplace]
  refine List.pairwise_append.mpr ⟨hsu, List.pairwise_cons.mpr ⟨fun b hb => ?_, hsv⟩,
    fun b hb w hw => ?_⟩
  · exact compare_lt_iff_lt.mp (hv b hb)
  · rcases List.mem_cons.mp hw with rfl | hw
    · exact compare_gt_iff_gt.mp (hu b hb)
    · exact huv b hb w hw

end Order

section Spec

variable [LinearOrder κ] [DecidableEq α]

/-- What the calls do to the list of the elements, and what they give back. -/
def Call.spec (key : α → κ) (l : List α) : Call α κ → List α × Option α
  | .insert a =>
      match l.find? (byKey key (key a) · = .eq) with
      | some b => (l, some b)
      | none => (place (byKey key (key a)) a l, none)
  | .remove a => (l.erase a, some a)
  | .find k => (l, l.find? (byKey key k · = .eq))
  | .min => (l, l.head?)
  | .max => (l, l.getLast?)
  | .next a => (l, (l.dropWhile (· ≠ a)).tail.head?)

/-- `RB_REMOVE` and `RB_NEXT` are called for elements of the tree. -/
def Call.Legal (l : List α) : Call α κ → Prop
  | .remove a | .next a => a ∈ l
  | _ => True

/-- The macros behind the calls. -/
def Call.run (key : α → κ) (depth : Nat) (t : Links α) : Call α κ → Option (Links α × Option α)
  | .insert a => t.rbInsert (byKey key (key a)) depth a
  | .remove a => (t.rbRemove depth a).map fun t => (t, some a)
  | .find k => (t.rbFind (byKey key k) depth).map fun r => (t, r)
  | .min => (t.rbMin depth).map fun r => (t, r)
  | .max => (t.rbMax depth).map fun r => (t, r)
  | .next a => (t.rbNext depth a).map fun r => (t, r)

/-- The links are those of a red-black tree with the elements of a list, which is in order. -/
structure Holds (key : α → κ) (t : Links α) (l : List α) : Prop where
  tree : ∃ T, t.Has T ∧ T.Valid ∧ T.toList = l
  sorted : Sorted key l

variable {key : α → κ} {t : Links α} {l : List α} {depth bound : Nat}

omit [DecidableEq α] in
theorem Holds.congr {key' : α → κ} (h : Holds key t l) (hkey : ∀ a ∈ l, key' a = key a) :
    Holds key' t l :=
  ⟨h.tree, h.sorted.imp_of_mem fun {a b} ha hb hab => by rwa [hkey a ha, hkey b hb]⟩

/-- The turns that the loops may need for a number of elements. -/
def turns (n : Nat) : Nat := 2 * Nat.log 2 (n + 1) + 2

omit [LinearOrder κ] [DecidableEq α] in
theorem turns_mono {m n : Nat} (h : m ≤ n) : turns m ≤ turns n := by
  have hlog := Nat.log_mono_right (b := 2) (Nat.add_le_add_right h 1)
  unfold turns
  omega

theorem Holds.insert (h : Holds key t l) (a : α) (hdepth : turns l.length ≤ depth) :
    ∃ t', t.rbInsert (byKey key (key a)) depth a =
        some (t', ((Call.insert a : Call α κ).spec key l).2) ∧
      Holds key t' ((Call.insert a : Call α κ).spec key l).1 := by
  obtain ⟨T, hT, hvalid, rfl⟩ := h.tree
  have hcuts := h.sorted.cuts (key a)
  have hturns := hvalid.depth_le
  unfold turns at hdepth
  rcases hT.rbInsert hvalid hcuts (compare_eq_iff_eq.mpr rfl)
      (by omega : T.depth + 2 ≤ depth)
    with ⟨b, hb, heq, hrun⟩ | ⟨hne, t', T', hrun, hT', hvalid', hlist⟩
  · refine ⟨t, ?_, ?_⟩
    · rw [hrun, Call.spec, Links.find?_of_cuts hcuts hb heq]
    · rw [Call.spec, Links.find?_of_cuts hcuts hb heq]
      exact h
  · have hnone : T.toList.find? (byKey key (key a) · = .eq) = none :=
      List.find?_eq_none.mpr fun b hb => by simp [hne b hb]
    refine ⟨t', ?_, ?_⟩
    · rw [hrun, Call.spec, hnone]
    · rw [Call.spec, hnone]
      exact ⟨⟨T', hT', hvalid', hlist⟩, h.sorted.place hne⟩

/-- An element with a new key is put in its place. -/
theorem Holds.insert_new (h : Holds key t l) {a : α} (hnew : ∀ b ∈ l, key b ≠ key a)
    (hdepth : turns l.length ≤ depth) :
    ∃ t', t.rbInsert (byKey key (key a)) depth a = some (t', none) ∧
      Holds key t' (place (byKey key (key a)) a l) := by
  have hnone : l.find? (byKey key (key a) · = .eq) = none :=
    List.find?_eq_none.mpr fun b hb => by
      rw [decide_eq_true_iff, byKey, compare_eq_iff_eq]
      exact fun heq => hnew b hb heq.symm
  obtain ⟨t', hrun, h'⟩ := h.insert a hdepth
  rw [Call.spec, hnone] at hrun h'
  exact ⟨t', hrun, h'⟩

theorem Holds.remove (h : Holds key t l) {a : α} (ha : a ∈ l) (hdepth : turns l.length ≤ depth) :
    ∃ t', t.rbRemove depth a = some t' ∧ Holds key t' (l.erase a) := by
  obtain ⟨T, hT, hvalid, rfl⟩ := h.tree
  have hturns := hvalid.depth_le
  unfold turns at hdepth
  obtain ⟨t', T', hrun, hT', hvalid', hlist⟩ := hT.rbRemove hvalid ha
    (by omega : T.depth + 2 ≤ depth)
  exact ⟨t', hrun, ⟨T', hT', hvalid', hlist⟩, h.sorted.sublist List.erase_sublist⟩

omit [DecidableEq α] in
theorem Holds.find (h : Holds key t l) (k : κ) (hdepth : turns l.length ≤ depth) :
    t.rbFind (byKey key k) depth = some (l.find? (byKey key k · = .eq)) := by
  obtain ⟨T, hT, hvalid, rfl⟩ := h.tree
  have hturns := hvalid.depth_le
  unfold turns at hdepth
  exact hT.rbFind (h.sorted.cuts k) (by omega)

omit [DecidableEq α] in
theorem Holds.min (h : Holds key t l) (hdepth : turns l.length ≤ depth) :
    t.rbMin depth = some l.head? := by
  obtain ⟨T, hT, hvalid, rfl⟩ := h.tree
  have hturns := hvalid.depth_le
  unfold turns at hdepth
  exact hT.rbMin (by omega)

omit [DecidableEq α] in
theorem Holds.max (h : Holds key t l) (hdepth : turns l.length ≤ depth) :
    t.rbMax depth = some l.getLast? := by
  obtain ⟨T, hT, hvalid, rfl⟩ := h.tree
  have hturns := hvalid.depth_le
  unfold turns at hdepth
  exact hT.rbMax (by omega)

theorem Holds.next (h : Holds key t l) {u v : List α} {a : α} (hl : l = u ++ a :: v)
    (hdepth : turns l.length ≤ depth) : t.rbNext depth a = some v.head? := by
  obtain ⟨T, hT, hvalid, rfl⟩ := h.tree
  have hturns := hvalid.depth_le
  unfold turns at hdepth
  exact hT.rbNext hl (by omega)

theorem Holds.foreach (h : Holds key t l) (hdepth : turns l.length ≤ depth) {n : Nat}
    (hn : l.length ≤ n) : t.rbForeach depth n l.head? = some l := by
  obtain ⟨T, hT, hvalid, rfl⟩ := h.tree
  have hturns := hvalid.depth_le
  unfold turns at hdepth
  exact hT.rbForeach_from (l := []) (by omega) rfl hn

/-- A call does to the links what it does to the list. -/
theorem Holds.step (h : Holds key t l) {o : Call α κ} (ho : o.Legal l)
    (hdepth : turns l.length ≤ depth) : ∃ t', o.run key depth t = some (t', (o.spec key l).2) ∧
      Holds key t' (o.spec key l).1 := by
  cases o with
  | insert a => exact h.insert a hdepth
  | remove a =>
      obtain ⟨t', hrun, h'⟩ := h.remove ho hdepth
      exact ⟨t', by rw [Call.run, hrun]; rfl, h'⟩
  | find k => exact ⟨t, by rw [Call.run, h.find k hdepth]; rfl, h⟩
  | min => exact ⟨t, by rw [Call.run, h.min hdepth]; rfl, h⟩
  | max => exact ⟨t, by rw [Call.run, h.max hdepth]; rfl, h⟩
  | next a =>
      obtain ⟨u, v, rfl⟩ := List.append_of_mem ho
      have hnodup : (u ++ a :: v).Nodup := by
        obtain ⟨T, hT, -, hlist⟩ := h.tree
        exact hlist ▸ hT.nodup
      have hdrop : (u ++ a :: v).dropWhile (· ≠ a) = a :: v := by
        have hu : ∀ b ∈ u, decide (b ≠ a) = true := fun b hb => decide_eq_true fun hba =>
          (List.nodup_cons.mp (List.nodup_middle.mp hnodup)).1 (List.mem_append_left _ (hba ▸ hb))
        rw [List.dropWhile_append_of_pos hu]
        exact List.dropWhile_cons_of_neg (by simp)
      refine ⟨t, ?_, h⟩
      rw [Call.run, h.next rfl hdepth, Call.spec, hdrop]
      rfl

theorem length_spec_le (key : α → κ) (l : List α) (o : Call α κ) :
    (o.spec key l).1.length ≤ l.length + 1 := by
  cases o with
  | insert a =>
      rw [Call.spec]
      split
      · exact Nat.le_succ _
      · exact (place_perm _ a l).length_eq.le
  | remove a => exact List.length_erase_le.trans (Nat.le_succ _)
  | find k => exact Nat.le_succ _
  | min => exact Nat.le_succ _
  | max => exact Nat.le_succ _
  | next a => exact Nat.le_succ _

/-- A whole run does to the links what it does to the list. -/
theorem Holds.calls (h : Holds key t l) {os : List (Call α κ)}
    (hos : Allowed (fun l o => Call.Legal l o) (fun l o => o.spec key l) l os)
    (hbound : l.length + os.length ≤ bound) (hdepth : turns bound ≤ depth) :
    ∃ t', IrC6.calls (fun t o => o.run key depth t) t os =
        some (t', (answers (fun l o => o.spec key l) l os).2) ∧
      Holds key t' (answers (fun l o => o.spec key l) l os).1 ∧
      (answers (fun l o => o.spec key l) l os).1.length ≤ l.length + os.length := by
  refine simulate (R := Holds key) (m := List.length) (fun t l o h ho hl => ?_) h hos hbound
  obtain ⟨t', hrun, h'⟩ := h.step ho ((turns_mono (Nat.le_of_lt hl)).trans hdepth)
  exact ⟨t', hrun, h', length_spec_le key l o⟩

/-- After `RB_INIT`, whatever is in the entries. -/
def init (entry : α → Entry α) : Links α := { root := none, entry := entry }

omit [DecidableEq α] in
theorem holds_init (key : α → κ) (entry : α → Entry α) : Holds key (init entry) [] :=
  ⟨⟨.nil, ⟨rfl, trivial, List.nodup_nil⟩, valid_nil, rfl⟩, List.Pairwise.nil⟩

/-- From `RB_INIT` on every run gives the answers of the ordered list, and leaves a red-black
tree of its elements, through which `RB_FOREACH` walks in their order. -/
theorem run_from_init (key : α → κ) (entry : α → Entry α) (os : List (Call α κ)) (depth : Nat)
    (hos : Allowed (fun l o => Call.Legal l o) (fun l o => o.spec key l) [] os)
    (hdepth : turns os.length ≤ depth) :
    ∃ t T l, IrC6.calls (fun t o => o.run key depth t) (init entry) os =
        some (t, (answers (fun l o => o.spec key l) [] os).2) ∧
      l = (answers (fun l o => o.spec key l) [] os).1 ∧ t.Has T ∧ T.Valid ∧ T.toList = l ∧
      Sorted key l ∧ T.depth ≤ 2 * Nat.log 2 (l.length + 1) ∧
      t.rbForeach depth l.length l.head? = some l := by
  have hempty : ([] : List α).length + os.length = os.length := Nat.zero_add _
  obtain ⟨t, hrun, h, hlength⟩ := (holds_init key entry).calls hos hempty.le hdepth
  obtain ⟨T, hT, hvalid, hlist⟩ := h.tree
  have hturns := (turns_mono (hlength.trans hempty.le)).trans hdepth
  exact ⟨t, T, _, hrun, rfl, hT, hvalid, hlist, h.sorted, hlist ▸ hvalid.depth_le,
    h.foreach hturns (Nat.le_refl _)⟩

/-- Two elements go in and one comes out. -/
def threeCalls : List (Call Nat Nat) := [.insert 2, .insert 1, .remove 2]

theorem run_from_init_threeCalls : ∃ t T l,
    IrC6.calls (fun t o => o.run id 6 t) (init fun _ => ⟨none, none, none, .red⟩) threeCalls =
        some (t, (answers (fun l o => o.spec id l) [] threeCalls).2) ∧
      l = (answers (fun l o => o.spec id l) [] threeCalls).1 ∧ t.Has T ∧ T.Valid ∧ T.toList = l ∧
      Sorted id l ∧ T.depth ≤ 2 * Nat.log 2 (l.length + 1) ∧
      t.rbForeach 6 l.length l.head? = some l :=
  run_from_init id _ threeCalls 6 ⟨trivial, trivial,
    show 2 ∈ [1, 2] by decide, trivial⟩ (by decide)

end Spec

end RbTree
end IrC6
