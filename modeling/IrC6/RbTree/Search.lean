import IrC6.RbTree.Insert

/-!
# Searching and walking

`RB_FIND` finds in a linked tree what a search in the list of its elements finds, `RB_MIN`
and `RB_MAX` are the ends of that list, and `RB_NEXT` goes from each element to the one behind
it.  No loop makes more turns than the tree is deep.
-/

namespace IrC6
namespace RbTree

open RedBlack RedBlack.Tree RedBlack.Path

variable {α : Type}

/-- `RB_FOREACH`: the elements that the loop visits. -/
def Links.rbForeach [DecidableEq α] (depth : Nat) (t : Links α) :
    Nat → Option α → Option (List α)
  | _, none => some []
  | 0, some _ => none
  | turns + 1, some x => do
      let next ← t.rbNext depth x
      let rest ← rbForeach depth t turns next
      return x :: rest

namespace Links

variable {t : Links α} {q : RedBlack.Path α} {x T : RedBlack.Tree α} {s : Side} {c : Color}
  {a : α} {l r : List α}
variable {cmp : α → Ordering} {depth : Nat}

/-! ## Finding -/

theorem find?_of_cuts (hcuts : Cuts cmp l) (ha : a ∈ l) (heq : cmp a = .eq) :
    l.find? (cmp · = .eq) = some a := by
  obtain ⟨u, v, rfl⟩ := List.append_of_mem ha
  refine List.find?_eq_some_iff_append.mpr ⟨decide_eq_true heq, u, v, rfl, fun b hb => ?_⟩
  have hpair := (List.pairwise_append.mp hcuts).2.2 b hb a List.mem_cons_self
  rw [heq] at hpair
  rw [hpair.resolve_right nofun]
  rfl

/-- `RB_FIND` finds what a search in the list of the elements finds. -/
theorem Has.rbFind (h : t.Has T) (hcuts : Cuts cmp T.toList) (hdepth : T.depth ≤ depth) :
    t.rbFind cmp depth = some (T.toList.find? (cmp · = .eq)) := by
  unfold Links.rbFind
  rw [h.root, show none = last ([] : RedBlack.Path α) from rfl]
  rcases Has.descend (q := []) h hcuts ⟨nofun, nofun⟩ hdepth with
    ⟨b, hb, heq, hrun⟩ | ⟨q, hrun, hplug, haims⟩
  · rw [hrun, find?_of_cuts hcuts hb heq]
    rfl
  · have hnone : T.toList.find? (cmp · = .eq) = none := by
      refine List.find?_eq_none.mpr fun b hb => ?_
      rw [show T = plug q nil from hplug.symm, toList_plug, toList, List.append_nil,
        List.mem_append] at hb
      rcases hb with hb | hb
      · rw [haims.before b hb]
        decide
      · rw [haims.after b hb]
        decide
    rw [hrun, hnone]
    rfl

/-! ## The two ends -/

/-- The element of a list that is at the end on a given side. -/
def outer (s : Side) (l : List α) : Option α :=
  match s with
  | .left => l.head?
  | .right => l.getLast?

theorem outer_fork (s : Side) (c : Color) (x : RedBlack.Tree α) (a : α) (y : RedBlack.Tree α) :
    outer s (fork s c x a y).toList = some ((outer s x.toList).getD a) := by
  cases s with
  | left =>
      show (x.toList ++ a :: y.toList).head? = some (x.toList.head?.getD a)
      cases x.toList <;> rfl
  | right =>
      show (y.toList ++ a :: x.toList).getLast? = some (x.toList.getLast?.getD a)
      cases x.toList <;> simp [List.getLast?_cons]

/-- `RB_MINMAX` goes down on one side to the end of the list. -/
theorem Has.rbMinMax (h : t.Has (plug q x)) (hdepth : x.depth ≤ depth) (p : Option α) :
    rbMinMax s t depth x.root? p = some ((outer s x.toList).or p) := by
  induction depth generalizing q x p with
  | zero =>
      cases x with
      | nil =>
          rw [RedBlack.Tree.root?, Links.rbMinMax]
          cases s <;> rfl
      | node c l b r => cases hdepth
  | succ depth ih =>
      cases hx : x.root? with
      | none =>
          obtain rfl := root?_eq_none.mp hx
          rw [Links.rbMinMax]
          cases s <;> rfl
      | some a =>
          obtain ⟨c, y, z, rfl⟩ := exists_fork s hx
          have hbelow : t.Has (plug (⟨s, c, a, z⟩ :: q) y) := h
          have hy : y.depth ≤ depth := by
            have hle := length_le_depth [⟨s, c, a, z⟩] y
            have hplug : (plug [⟨s, c, a, z⟩] y).depth ≤ depth + 1 := hdepth
            rw [List.length_singleton] at hle
            omega
          rw [Links.rbMinMax, h.child, ih hbelow hy, outer_fork]
          cases outer s y.toList <;> rfl

theorem Has.rbMin (h : t.Has T) (hdepth : T.depth ≤ depth) :
    t.rbMin depth = some T.toList.head? := by
  unfold Links.rbMin
  rw [h.root, Has.rbMinMax (q := []) h hdepth none, Option.or_none]
  rfl

theorem Has.rbMax (h : t.Has T) (hdepth : T.depth ≤ depth) :
    t.rbMax depth = some T.toList.getLast? := by
  unfold Links.rbMax
  rw [h.root, Has.rbMinMax (q := []) h hdepth none, Option.or_none]
  rfl

/-! ## The next element -/

variable [DecidableEq α]

omit [DecidableEq α] in
/-- A node is the child of its parent on one side only. -/
theorem Has.child_parent {f : Frame α} (h : t.Has (plug (f :: q) x)) (hx : x.root? = some a) :
    (t.child .left f.val = some a ↔ f.side = .left) ∧
      (t.child .right f.val = some a ↔ f.side = .right) := by
  obtain ⟨side, c, p, sib⟩ := f
  have hnode : t.Has (plug q (fork side c x p sib)) := h
  have hsib : sib.root? ≠ some a := hnode.children_ne hx
  have hchild : t.child side p = some a := hnode.child.trans hx
  have hother : t.child side.flip p ≠ some a := by rwa [hnode.child_flip]
  cases side with
  | left => exact ⟨iff_of_true hchild rfl, iff_of_false hother nofun⟩
  | right => exact ⟨iff_of_false hother nofun, iff_of_true hchild rfl⟩

/-- Going up from right children leads to the first element behind the subtree. -/
theorem Has.climb (h : t.Has (plug q x)) (hx : x.root? = some a) (hdepth : q.length < depth) :
    t.climb depth a = some (after q).head? := by
  induction depth generalizing q x a with
  | zero => omega
  | succ depth ih =>
      have hparent := h.parent hx
      rw [Links.climb, hparent]
      cases q with
      | nil => rfl
      | cons f q =>
          obtain ⟨hleft, hright⟩ := h.child_parent hx
          show (if t.child .right f.val = some a then Links.climb t depth f.val
            else some (some f.val)) = _
          rw [List.length_cons] at hdepth
          obtain ⟨side, c, p, sib⟩ := f
          cases side with
          | left =>
              rw [if_neg fun hr => nomatch hright.mp hr]
              rfl
          | right =>
              have hup : t.Has (plug q (fork .right c x p sib)) := h
              rw [if_pos (hright.mpr rfl), ih hup root?_fork (by omega)]
              rfl

/-- `RB_NEXT` gives the element behind a given one. -/
theorem Has.rbNext (h : t.Has T) (hlist : T.toList = l ++ a :: r) (hdepth : T.depth < depth) :
    t.rbNext depth a = some r.head? := by
  have hmem : a ∈ T.toList := by
    rw [hlist]
    exact List.mem_append_right _ List.mem_cons_self
  obtain ⟨q, c, x, y, rfl⟩ := exists_plug hmem
  have hlength := length_le_depth q (fork .left c x a y)
  have hmax : max x.depth y.depth + 1 = (fork .left c x a y).depth := rfl
  obtain rfl : r = y.toList ++ after q := by
    have hsplit : (plug q (fork .left c x a y)).toList =
        (before q ++ x.toList) ++ a :: (y.toList ++ after q) := by
      rw [toList_plug]
      simp [fork, toList]
    have hnodup := h.nodup
    rw [hlist] at hnodup hsplit
    have hout := (List.nodup_cons.mp (List.nodup_middle.mp hnodup)).1
    rw [List.mem_append, not_or] at hout
    exact ((List.append_cons_inj_of_notMem hout.1 hout.2).mp hsplit).2.2
  have hright : t.child .right a = y.root? := h.child_flip
  unfold Links.rbNext
  rw [hright]
  cases hy : y.root? with
  | some b =>
      obtain ⟨p, c', w, z, rfl, hp, hrun⟩ := h.flip.leftmost hy (by omega : y.depth ≤ depth)
      have hhead : (plug p (fork .left c' nil w z)).toList = w :: (z.toList ++ after p) := by
        rw [toList_plug, hp]
        rfl
      simp only [hrun, hhead]
      rfl
  | none =>
      obtain rfl := root?_eq_none.mp hy
      have hclimb := h.climb root?_fork (by omega : q.length < depth)
      have hparent : t.parent a = top q := h.parent root?_fork
      cases q with
      | nil =>
          have htop : t.parent a = none := hparent
          simp only [htop]
          exact hclimb
      | cons f q =>
          have hside := (h.child_parent (a := a) root?_fork).1
          have htop : t.parent a = some f.val := hparent
          simp only [htop]
          by_cases hleft : f.side = .left
          · rw [if_pos (hside.mpr hleft)]
            obtain ⟨side, c', p, sib⟩ := f
            obtain rfl : side = .left := hleft
            rfl
          · rw [if_neg fun hchild => hleft (hside.mp hchild)]
            exact hclimb

/-- `RB_FOREACH` visits the elements in their order. -/
theorem Has.rbForeach_from (h : t.Has T) (hdepth : T.depth < depth) {turns : Nat}
    (hlist : T.toList = l ++ r) (hturns : r.length ≤ turns) :
    t.rbForeach depth turns r.head? = some r := by
  induction r generalizing l turns with
  | nil => rw [List.head?_nil, Links.rbForeach]
  | cons b r ih =>
      obtain ⟨n, rfl⟩ : ∃ n, turns = n + 1 := ⟨turns - 1, by rw [List.length_cons] at hturns; omega⟩
      have hrest := ih (l := l ++ [b]) (by rw [hlist, List.append_assoc]; rfl)
        (Nat.le_of_succ_le_succ hturns)
      rw [List.head?_cons, Links.rbForeach, h.rbNext hlist hdepth]
      simp only [hrest, Option.bind_eq_bind, Option.bind_some, Option.pure_def]

end Links
end RbTree
end IrC6
