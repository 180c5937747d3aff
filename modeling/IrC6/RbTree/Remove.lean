import IrC6.RbTree.Shape

/-!
# Removing

`RB_REMOVE` takes out a node with at most one child.  When the element that is removed has two
children, its successor is taken out and then put in its place.  `RB_REMOVE_COLOR` starts with
a subtree that is one black short, and goes up until it can borrow one.
-/

namespace IrC6
namespace RbTree
namespace Links

open RedBlack RedBlack.Tree RedBlack.Path

variable {α : Type}
variable {t : Links α} {q : RedBlack.Path α} {x y z sib : RedBlack.Tree α} {s : Side}
  {c c' : Color} {a b b' : α} {n m depth : Nat}

/-! ## Taking out a node -/

section Unlink

variable [DecidableEq α]

/-- A node with at most one child is taken out. -/
theorem Has.unlink (h : t.Has (plug q (fork s c nil a y))) :
    ((t.setParentOf y.root? (top q)).turnLink (top q) a y.root?).Has (plug q y) := by
  have hnodup : (a :: (y.toList ++ spine q)).Nodup := by
    have hperm := (fork_perm s c nil a y).append_right (spine q)
    exact hperm.nodup_iff.mp h.nodup_plug
  obtain ⟨ha, hyq⟩ := List.nodup_cons.mp hnodup
  rw [List.mem_append, not_or] at ha
  have hdisjoint := List.disjoint_of_nodup_append hyq
  obtain ⟨-, -, hy⟩ := rep_fork.mp h.rep_subtree
  have htop : ∀ w ∈ y.toList, top q ≠ some w := fun w hw hq =>
    hdisjoint hw (mem_spine_of_top hq)
  have hpath : RepPath (t.setParentOf y.root? (top q)).entry q (some a) := by
    have hq := h.rep_path
    rw [root?_fork] at hq
    exact hq.congr fun w hw => entry_setParentOf_of_ne fun hroot =>
      hdisjoint (mem_of_root? hroot) hw
  refine h.turn ?_ (turnLink_path hpath (List.nodup_append.mp hyq).2.1 ha.2) ?_ hyq
  · rw [root_turnLink, root_setParentOf]
  · refine hy.hang (List.nodup_append.mp hyq).1 (fun w hw => ?_) fun w hw hroot => ?_
    · rw [entry_turnLink_of_ne (htop w (mem_of_root? hw)), entry_setParentOf_self hw]
    · rw [entry_turnLink_of_ne (htop w hw), entry_setParentOf_of_ne hroot]

/-- The link to `a` and the parents of its children are turned to `b`, which gets its entry. -/
def replace (t : Links α) (q : RedBlack.Path α) (x y : RedBlack.Tree α) (a b : α) : Links α :=
  (((({ t with entry := Function.update t.entry b (t.entry a) } : Links α).turnLink (top q) a
    (some b)).setParentOf x.root? (some b)).setParentOf y.root? (some b))

theorem Has.replace (h : t.Has (plug q (fork s c x a y)))
    (hb : b ∉ (plug q (fork s c x a y)).toList) :
    (t.replace q x y a b).Has (plug q (fork s c x b y)) := by
  have hperm : (plug q (fork s c x a y)).toList.Perm (a :: (x.toList ++ y.toList) ++ spine q) :=
    (plug_perm q _).trans ((fork_perm s c x a y).append_right _)
  rw [hperm.mem_iff] at hb
  have hnodup := hperm.nodup_iff.mp h.nodup
  simp only [List.cons_append, List.mem_cons, List.mem_append, not_or] at hb
  simp only [List.cons_append, List.nodup_cons, List.nodup_append, List.mem_append, not_or]
    at hnodup
  obtain ⟨hba, ⟨hbx, hby⟩, hbq⟩ := hb
  obtain ⟨⟨⟨hax, hay⟩, haq⟩, ⟨hx, hy, hxy⟩, hq, hxyq⟩ := hnodup
  obtain ⟨ha, hrx, hry⟩ := rep_fork.mp h.rep_subtree
  let t₁ : Links α := { t with entry := Function.update t.entry b (t.entry a) }
  let t₂ := t₁.turnLink (top q) a (some b)
  let t₃ := t₂.setParentOf x.root? (some b)
  have h₁ : ∀ w, w ≠ b → t₁.entry w = t.entry w := fun w hw => Function.update_of_ne hw _ _
  have h₂ : ∀ w, top q ≠ some w → w ≠ b → t₂.entry w = t.entry w := fun w hwq hwb =>
    (entry_turnLink_of_ne hwq).trans (h₁ w hwb)
  have htop : ∀ w, w ∉ spine q → top q ≠ some w := fun w hw hwq => hw (mem_spine_of_top hwq)
  have hxroot : ∀ w, w ∉ x.toList → x.root? ≠ some w := fun w hw hwx => hw (mem_of_root? hwx)
  have hyroot : ∀ w, w ∉ y.toList → y.root? ≠ some w := fun w hw hwy => hw (mem_of_root? hwy)
  have hfinal : ∀ w, w ∉ x.toList → w ∉ y.toList →
      (t.replace q x y a b).entry w = t₂.entry w := fun w hwx hwy =>
    (entry_setParentOf_of_ne (hyroot w hwy)).trans (entry_setParentOf_of_ne (hxroot w hwx))
  have hxq : ∀ w ∈ x.toList, w ∉ spine q := fun w hw hwq => hxyq w (Or.inl hw) w hwq rfl
  have hyq : ∀ w ∈ y.toList, w ∉ spine q := fun w hw hwq => hxyq w (Or.inr hw) w hwq rfl
  have hyx : ∀ w ∈ y.toList, w ∉ x.toList := fun w hw hwx => hxy w hwx w hw rfl
  have hpath : RepPath t₁.entry q (some a) := by
    have hpath := h.rep_path
    rw [root?_fork] at hpath
    exact hpath.congr fun w hw => h₁ w fun hwb => hbq (hwb ▸ hw)
  refine h.turn ?_ ?_ (rep_fork.mpr ⟨?_, ?_, ?_⟩) ?_
  · rw [root?_fork]
    show Links.root (setParentOf (setParentOf t₂ _ _) _ _) = _
    rw [root_setParentOf, root_setParentOf, root_turnLink]
  · rw [root?_fork]
    refine (turnLink_path hpath hq haq).congr fun w hw => hfinal w (fun hwx => ?_) fun hwy => ?_
    · exact hxq w hwx hw
    · exact hyq w hwy hw
  · rw [hfinal b hbx hby]
    refine (entry_turnLink_of_ne (htop b hbq)).trans ?_
    exact (Function.update_self _ _ _).trans ha
  · have hkeep : ∀ w ∈ x.toList, (t.replace q x y a b).entry w = t₃.entry w := fun w hw =>
      entry_setParentOf_of_ne (hyroot w fun hwy => hyx w hwy hw)
    have hwb : ∀ w ∈ x.toList, w ≠ b := fun w hw hwb => hbx (hwb ▸ hw)
    refine hrx.hang hx (fun w hw => ?_) fun w hw hroot => ?_
    · have hmem := mem_of_root? hw
      rw [hkeep w hmem, entry_setParentOf_self hw, h₂ w (htop w (hxq w hmem)) (hwb w hmem)]
    · rw [hkeep w hw, entry_setParentOf_of_ne hroot, h₂ w (htop w (hxq w hw)) (hwb w hw)]
  · have hkeep : ∀ w ∈ y.toList, t₃.entry w = t.entry w := fun w hw =>
      (entry_setParentOf_of_ne (hxroot w (hyx w hw))).trans
        (h₂ w (htop w (hyq w hw)) fun hwb => hby (hwb ▸ hw))
    refine hry.hang hy (fun w hw => ?_) fun w hw hroot => ?_
    · rw [← hkeep w (mem_of_root? hw)]
      exact entry_setParentOf_self hw
    · rw [← hkeep w hw]
      exact entry_setParentOf_of_ne hroot
  · refine ((fork_perm s c x b y).append_right _).nodup_iff.mpr ?_
    simp only [List.cons_append, List.nodup_cons, List.nodup_append, List.mem_append, not_or]
    exact ⟨⟨⟨hbx, hby⟩, hbq⟩, ⟨hx, hy, hxy⟩, hq, hxyq⟩

end Unlink

/-! ## Borrowing a black node -/

section Borrow

variable [DecidableEq α]

/-- The sibling takes the place of the parent, and its outer child is painted black. -/
theorem Has.siblingUp (h : t.Has (plug q (fork s c x a (fork s c' y b z)))) :
    ∃ t', t.siblingUp s a b = some t' ∧
      t'.Has (paint .black (plug q (fork s c (fork s .black x a y) b (paint .black z)))) := by
  have hcolor : t.color a = c := (Has.color h root?_fork).trans color_fork
  have h₁ := h.flip.setColor root?_fork c
  rw [paint_fork, plug, Frame.fill, fork_flip] at h₁
  have h₂ := Has.setColor (q := q) h₁ root?_fork .black
  rw [paint_fork] at h₂
  have h₃ := (h₂.flip.flip).setColorOf .black
  rw [plug, Frame.fill, fork_flip, plug, Frame.fill, fork_flip] at h₃
  have hchild : ((t.setColor b c).setColor a .black).child s.flip b = z.root? := h₂.flip.child_flip
  obtain ⟨t', hrun, h'⟩ := h₃.rbRotate
  have hroot := Has.setColorOf (q := []) h' .black
  refine ⟨t'.setColorOf t'.root .black, ?_, by rwa [h'.root]⟩
  unfold Links.siblingUp
  simp only [hcolor, hchild, hrun, Option.bind_eq_bind, Option.bind_some, Option.pure_def]

/-- A red inner child takes the place of the sibling. -/
theorem Has.redOuter (h : t.Has (plug q (fork s c x a (fork s .black y b z))))
    (hyz : y.color = .red ∨ z.color = .red) :
    ∃ t' c' y' b' z', t.redOuter s a b = some (t', b') ∧
      t'.Has (plug q (fork s c x a (fork s c' y' b' z'))) ∧
      (fork s c' y' b' z').toList = (fork s .black y b z).toList ∧
      ((y.BlackHeight n ∧ z.BlackHeight n) →
        y'.BlackHeight n ∧ (paint .black z').BlackHeight (n + 1)) ∧
      ((y.NoRedRed ∧ z.NoRedRed) → y'.NoRedRed ∧ (paint .black z').NoRedRed) := by
  have houter : t.child s.flip b = z.root? := h.flip.child_flip
  have hinner : t.child s b = y.root? := h.flip.child
  unfold Links.redOuter
  rw [houter, hinner, h.flip.isBlack_flip]
  cases hz : z.color with
  | red =>
      rw [if_neg (by decide)]
      exact ⟨t, .black, y, b, z, rfl, h, rfl, fun hn => ⟨hn.1, hn.2.paint_red hz⟩,
        fun hr => ⟨hr.1, hr.2.paint_black⟩⟩
  | black =>
      have hy : y.color = .red := hyz.resolve_right fun hred => by
        rw [hz] at hred
        cases hred
      rw [if_pos (by decide)]
      obtain ⟨v, hv⟩ : ∃ v, y.root? = some v := Option.ne_none_iff_exists'.mp fun hnone => by
        rw [root?_eq_none.mp hnone] at hy
        cases hy
      obtain ⟨cy, y₁, y₂, rfl⟩ := exists_fork s hv
      obtain rfl : cy = .red := color_fork.symm.trans hy
      have h₁ := Has.setColorOf (q := ⟨s, .black, b, z⟩ :: ⟨s.flip, c, a, x⟩ :: q) h.flip .black
      rw [paint_fork] at h₁
      have h₂ := Has.setColor (q := ⟨s.flip, c, a, x⟩ :: q) h₁ root?_fork .red
      rw [Frame.fill, paint_fork] at h₂
      have h₃ : ((t.setColorOf (fork s .red y₁ v y₂).root? .black).setColor b .red).Has
          (plug (⟨s.flip, c, a, x⟩ :: q) (fork s.flip .red z b (fork s.flip .black y₂ v y₁))) := by
        rw [fork_flip, fork_flip]
        exact h₂
      obtain ⟨t', hrun, h'⟩ := h₃.rbRotate
      rw [fork_flip, fork_flip, plug, Frame.fill, fork_flip] at h'
      have hchild : t'.child s.flip a = some v := by rw [h'.child_flip, root?_fork]
      refine ⟨t', .black, y₁, v, fork s .red y₂ b z, ?_, h', ?_, fun hn => ?_, fun hr => ?_⟩
      · simp only [hrun, hchild, Option.bind_eq_bind, Option.bind_some, Option.pure_def]
      · exact toList_rotate.symm
      · obtain ⟨hy₁, hy₂⟩ := blackHeight_red.mp hn.1
        rw [paint_fork, blackHeight_black]
        exact ⟨hy₁, n, rfl, hy₂, hn.2⟩
      · obtain ⟨-, hy₁, hy₂⟩ := noRedRed_fork.mp hr.1
        rw [paint_fork, noRedRed_fork]
        exact ⟨hy₁, fun hred => absurd hred (by decide), hy₂, hr.2⟩

end Borrow

/-! ## The way up -/

/-- The subtree at the end of a path is one black short. -/
def Short (q : RedBlack.Path α) (x : RedBlack.Tree α) : Prop :=
  ∃ m, x.BlackHeight m ∧ (paint .black x).NoRedRed ∧
    ∀ y : RedBlack.Tree α, y.BlackHeight (m + 1) → y.NoRedRed → y.color = .black → (plug q y).Valid

theorem paint_of_black (hx : x.color = .black) : paint .black x = x := by
  cases x with
  | nil => rfl
  | node c l a r =>
      obtain rfl : c = .black := hx
      rfl

theorem red_of_not_black (h : ¬ (x.color = .black ∧ y.color = .black)) :
    x.color = .red ∨ y.color = .red := by
  cases hx : x.color with
  | red => exact Or.inl rfl
  | black =>
      cases hy : y.color with
      | red => exact Or.inr rfl
      | black => exact absurd ⟨hx, hy⟩ h

/-- What is known of the sibling, and what may be put in the place of the parent. -/
theorem Short.parent (h : Short (⟨s, c, a, sib⟩ :: q) x) (hx : x.color = .black) :
    ∃ m k, x.BlackHeight m ∧ x.NoRedRed ∧ sib.BlackHeight (m + 1) ∧ sib.NoRedRed ∧
      (c = .red → sib.color = .black) ∧ k = (if c = .black then m + 2 else m + 1) ∧
      ∀ y : RedBlack.Tree α, y.BlackHeight k → y.NoRedRed → y.color = .black ∨ c = .red →
        (plug q y).Valid := by
  obtain ⟨m, hm, hreds, htakes⟩ := h
  rw [paint_of_black hx] at hreds
  have hvalid := htakes (fork .left .black x a x) (blackHeight_black.mpr ⟨m, rfl, hm, hm⟩)
    (noRedRed_fork.mpr ⟨nofun, hreds, hreds⟩) color_fork
  obtain ⟨hfill, k, hk, hplug⟩ := valid_plug (p := q) hvalid
  rw [Frame.fill, color_fork] at hplug
  obtain ⟨hcolor, -, hsib⟩ := noRedRed_fork.mp hfill
  refine ⟨m, k, hm, hreds, ?_⟩
  cases c with
  | black =>
      obtain ⟨j, rfl, hj, hsibHeight⟩ := blackHeight_black.mp hk
      obtain rfl : j = m + 1 := hj.unique (blackHeight_black.mpr ⟨m, rfl, hm, hm⟩)
      exact ⟨hsibHeight, hsib, nofun, rfl, hplug⟩
  | red =>
      obtain ⟨hj, hsibHeight⟩ := blackHeight_red.mp hk
      obtain rfl : k = m + 1 := hj.unique (blackHeight_black.mpr ⟨m, rfl, hm, hm⟩)
      exact ⟨hsibHeight, hsib, fun hred => (hcolor hred).2, rfl, hplug⟩

/-- With a red sibling the loop makes its last turn under it. -/
theorem Short.redSibling (h : Short (⟨s, c, a, fork s .red y b z⟩ :: q) x) (hx : x.color = .black) :
    c = .black ∧ y.color = .black ∧ (∃ w, y.root? = some w) ∧
      Short (⟨s, .red, a, y⟩ :: ⟨s, .black, b, z⟩ :: q) x := by
  obtain ⟨m, k, hm, hreds, hsib, hsibReds, hcolor, rfl, hplug⟩ := h.parent hx
  obtain rfl : c = .black := by
    cases c with
    | black => rfl
    | red =>
        have hred := hcolor rfl
        rw [color_fork] at hred
        cases hred
  obtain ⟨hy, hz⟩ := blackHeight_red.mp hsib
  obtain ⟨hblack, hyReds, hzReds⟩ := noRedRed_fork.mp hsibReds
  refine ⟨rfl, (hblack rfl).1, hy.exists_root, m, hm, by rwa [paint_of_black hx],
    fun u hu huReds huColor => ?_⟩
  refine hplug _ ?_ ?_ (Or.inl color_fork)
  · exact blackHeight_black.mpr ⟨m + 1, rfl, blackHeight_red.mpr ⟨hu, hy⟩, hz⟩
  · exact noRedRed_fork.mpr ⟨nofun, noRedRed_fork.mpr ⟨fun _ => ⟨huColor, (hblack rfl).1⟩, huReds,
      hyReds⟩, hzReds⟩

/-- A black sibling with black children is painted red, and the parent is then short. -/
theorem Short.up (h : Short (⟨s, c, a, fork s .black y b z⟩ :: q) x) (hx : x.color = .black)
    (hy : y.color = .black) (hz : z.color = .black) :
    Short q (fork s c x a (fork s .red y b z)) := by
  obtain ⟨m, k, hm, hreds, hsib, hsibReds, -, rfl, hplug⟩ := h.parent hx
  obtain ⟨j, hj, hyHeight, hzHeight⟩ := blackHeight_black.mp hsib
  obtain rfl : m = j := by omega
  obtain ⟨-, hyReds, hzReds⟩ := noRedRed_fork.mp hsibReds
  have hpainted : (paint .black (fork s c x a (fork s .red y b z))).NoRedRed := by
    rw [paint_fork]
    exact noRedRed_fork.mpr ⟨nofun, hreds, noRedRed_fork.mpr ⟨fun _ => ⟨hy, hz⟩, hyReds, hzReds⟩⟩
  have hred : (fork s .red y b z).BlackHeight m := blackHeight_red.mpr ⟨hyHeight, hzHeight⟩
  cases c with
  | black =>
      exact ⟨m + 1, blackHeight_black.mpr ⟨m, rfl, hm, hred⟩, hpainted,
        fun u hu huReds huColor => hplug u hu huReds (Or.inl huColor)⟩
  | red =>
      exact ⟨m, blackHeight_red.mpr ⟨hm, hred⟩, hpainted,
        fun u hu huReds huColor => hplug u hu huReds (Or.inl huColor)⟩

section RemoveColor

variable [DecidableEq α]

/-- A black sibling with a red child has a black node to lend. -/
theorem Has.borrow (h : t.Has (plug q (fork s c x a (fork s .black y b z))))
    (hshort : Short (⟨s, c, a, fork s .black y b z⟩ :: q) x) (hx : x.color = .black)
    (hyz : y.color = .red ∨ z.color = .red) :
    ∃ t₁ b' t' T, t.redOuter s a b = some (t₁, b') ∧ t₁.siblingUp s a b' = some t' ∧ t'.Has T ∧
      T.Valid ∧ T.toList = (plug q (fork s c x a (fork s .black y b z))).toList := by
  obtain ⟨m, k, hm, hreds, hsib, hsibReds, -, rfl, hplug⟩ := hshort.parent hx
  obtain ⟨j, hj, hyHeight, hzHeight⟩ := blackHeight_black.mp hsib
  obtain rfl : m = j := by omega
  obtain ⟨-, hyReds, hzReds⟩ := noRedRed_fork.mp hsibReds
  obtain ⟨t₁, c', y', b', z', hrun₁, h₁, hlist, hheight, hnoRedRed⟩ := h.redOuter (n := m) hyz
  obtain ⟨hy', hz'⟩ := hheight ⟨hyHeight, hzHeight⟩
  obtain ⟨hyReds', hzReds'⟩ := hnoRedRed ⟨hyReds, hzReds⟩
  obtain ⟨t', hrun', h'⟩ := h₁.siblingUp
  refine ⟨t₁, b', t', _, hrun₁, hrun', h', Valid.paint_black (hplug _ ?_ ?_ ?_), ?_⟩
  · have hleft : (fork s .black x a y').BlackHeight (m + 1) :=
      blackHeight_black.mpr ⟨m, rfl, hm, hy'⟩
    cases c with
    | black => exact blackHeight_black.mpr ⟨m + 1, rfl, hleft, hz'⟩
    | red => exact blackHeight_red.mpr ⟨hleft, hz'⟩
  · exact noRedRed_fork.mpr ⟨fun _ => ⟨color_fork, color_paint_black⟩,
      noRedRed_fork.mpr ⟨nofun, hreds, hyReds'⟩, hzReds'⟩
  · rw [color_fork]
    cases c
    · exact Or.inl rfl
    · exact Or.inr rfl
  · rw [toList_paint]
    have hpaint : (fork s c y' b' (paint .black z')).toList = (fork s c' y' b' z').toList :=
      toList_fork_congr rfl toList_paint
    refine toList_plug_congr q ?_
    calc (fork s c (fork s .black x a y') b' (paint .black z')).toList
        = (fork s c x a (fork s c y' b' (paint .black z'))).toList := toList_rotate
      _ = (fork s c x a (fork s .black y b z)).toList :=
          toList_fork_congr rfl (hpaint.trans hlist)

omit [DecidableEq α] in
theorem Has.children_black (h : t.Has (plug q (fork s c x a y))) :
    (t.isBlack (t.child .left a) = true ∧ t.isBlack (t.child .right a) = true) ↔
      x.color = .black ∧ y.color = .black := by
  have hx : t.isBlack (t.child s a) = true ↔ x.color = .black := by
    rw [h.child, Has.isBlack (q := ⟨s, c, a, y⟩ :: q) h, decide_eq_true_iff]
  have hy : t.isBlack (t.child s.flip a) = true ↔ y.color = .black := by
    rw [h.child_flip, h.isBlack_flip, decide_eq_true_iff]
  cases s
  · exact and_congr hx hy
  · exact and_comm.trans (and_congr hx hy)

/-- The loop ends at a red node, or at the root. -/
theorem Has.removeColor_end (h : t.Has (plug q x)) (hshort : Short q x)
    (hend : x.color = .red ∨ q = []) (depth : Nat) :
    ∃ t' T, rbRemoveColor (depth + 1) t (top q) x.root? = some t' ∧ t'.Has T ∧ T.Valid ∧
      T.toList = (plug q x).toList := by
  obtain ⟨m, hm, hreds, htakes⟩ := hshort
  have hcond : ¬ (t.isBlack x.root? = true ∧ x.root? ≠ t.root) := fun hcond => by
    rcases hend with hred | rfl
    · rw [h.isBlack, hred] at hcond
      exact absurd hcond.1 (by decide)
    · exact hcond.2 h.root.symm
  refine ⟨_, _, by rw [Links.rbRemoveColor, if_neg hcond]; rfl, h.setColorOf .black, ?_,
    toList_plug_congr q toList_paint⟩
  rcases hend with hred | rfl
  · exact htakes _ (hm.paint_red hred) hreds color_paint_black
  · exact ⟨hm.paint_black, hreds, color_paint_black⟩

omit [DecidableEq α] in
/-- The root of the tree is not below a node of it. -/
theorem Has.root_ne {f : Frame α} (h : t.Has (plug (f :: q) x)) : x.root? ≠ t.root := fun heq => by
  rw [h.root, root?_plug_cons f q x nil] at heq
  have hspine : ∀ b, b ∈ (plug (f :: q) nil).toList ↔ b ∈ spine (f :: q) := fun b =>
    (plug_perm (f :: q) nil).mem_iff
  cases hr : (plug (f :: q) nil).root? with
  | none =>
      have hmem := (hspine f.val).mpr (mem_spine_cons.mpr (Or.inl rfl))
      rw [root?_eq_none.mp hr] at hmem
      cases hmem
  | some r =>
      rw [hr] at heq
      exact h.disjoint (mem_of_root? heq) ((hspine r).mp (mem_of_root? hr))

/-- A red sibling goes up, and its inner child becomes the sibling. -/
theorem Has.blackSibling (h : t.Has (plug q (fork s .black x a (fork s .red y b z))))
    (hy : y.root? = some b') :
    ∃ t', t.blackSibling s a b = some (t', b') ∧
      t'.Has (plug (⟨s, .black, b, z⟩ :: q) (fork s .red x a y)) := by
  have hcolor : t.color b = .red := (h.flip.color root?_fork).trans color_fork
  have h₁ := h.flip.setColor root?_fork .black
  rw [paint_fork, plug, Frame.fill, fork_flip] at h₁
  have h₂ := Has.setColor (q := q) h₁ root?_fork .red
  rw [paint_fork] at h₂
  obtain ⟨t', hrun, h'⟩ := h₂.rbRotate
  have hchild : t'.child s.flip a = some b' :=
    (Has.child_flip (q := ⟨s, .black, b, z⟩ :: q) h').trans hy
  refine ⟨t', ?_, h'⟩
  rw [Links.blackSibling, if_pos hcolor, rbSetBlackRed, hrun]
  simp only [hchild, Option.bind_eq_bind, Option.bind_some, Option.pure_def]

/-- A black sibling is left alone. -/
theorem Has.blackSibling_black (h : t.Has (plug q (fork s c x a (fork s .black y b z)))) :
    t.blackSibling s a b = some (t, b) := by
  have hcolor : t.color b = .black := (h.flip.color root?_fork).trans color_fork
  rw [Links.blackSibling, if_neg (by rw [hcolor]; decide)]

/-- A turn of the loop at a black node that is not the root. -/
theorem Has.removeColor_turn (h : t.Has (plug q (fork s c x a (fork s cb y b z))))
    (hx : x.color = .black) (depth : Nat) :
    rbRemoveColor (depth + 1) t (some a) x.root? =
      (t.blackSibling s a b).bind fun (t, tmp) =>
        if t.isBlack (t.child .left tmp) = true ∧ t.isBlack (t.child .right tmp) = true then
          rbRemoveColor depth (t.setColor tmp .red) ((t.setColor tmp .red).parent a) (some a)
        else (t.redOuter s a tmp).bind fun (t, tmp) => t.siblingUp s a tmp := by
  have hx' : t.Has (plug (⟨s, c, a, fork s cb y b z⟩ :: q) x) := h
  have hloop : t.isBlack x.root? = true ∧ x.root? ≠ t.root :=
    ⟨by rw [hx'.isBlack, hx]; rfl, hx'.root_ne⟩
  have hside : t.sideOf a x.root? = s :=
    h.sideOf fun heq => h.children_ne (heq.trans root?_fork) root?_fork
  have htmp : t.child s.flip a = some b := h.child_flip.trans root?_fork
  rw [Links.rbRemoveColor, if_pos hloop]
  simp only [hside, htmp, Option.bind_eq_bind, Option.bind_some]

/-- A black sibling with a red child ends the loop. -/
theorem Has.removeColor_borrow (h : t.Has (plug q (fork s c x a (fork s .black y b z))))
    (hshort : Short (⟨s, c, a, fork s .black y b z⟩ :: q) x) (hx : x.color = .black)
    (hyz : ¬ (y.color = .black ∧ z.color = .black)) (depth : Nat) :
    ∃ t' T, rbRemoveColor (depth + 1) t (some a) x.root? = some t' ∧ t'.Has T ∧ T.Valid ∧
      T.toList = (plug q (fork s c x a (fork s .black y b z))).toList := by
  obtain ⟨t₁, b', t', T, hrun₁, hrun', h'⟩ := h.borrow hshort hx (red_of_not_black hyz)
  refine ⟨t', T, ?_, h'⟩
  rw [h.removeColor_turn hx, h.blackSibling_black, Option.bind_some]
  simp only [h.flip.children_black, if_neg hyz, hrun₁, Option.bind_some, hrun']

/-- With black children the sibling is painted red, and the loop goes on at the parent. -/
theorem Has.removeColor_up (h : t.Has (plug q (fork s c x a (fork s .black y b z))))
    (hx : x.color = .black) (hyz : y.color = .black ∧ z.color = .black) (depth : Nat) :
    ∃ t', rbRemoveColor (depth + 1) t (some a) x.root? =
        rbRemoveColor depth t' (top q) (fork s c x a (fork s .red y b z)).root? ∧
      t'.Has (plug q (fork s c x a (fork s .red y b z))) := by
  have h' := h.flip.setColor root?_fork .red
  rw [paint_fork, plug, Frame.fill, fork_flip] at h'
  refine ⟨t.setColor b .red, ?_, h'⟩
  rw [h.removeColor_turn hx, h.blackSibling_black, Option.bind_some]
  simp only [h.flip.children_black, if_pos hyz, h'.parent root?_fork, root?_fork]

omit [DecidableEq α] in
theorem toList_recolor :
    (plug q (fork s c x a (fork s c' y b z))).toList =
      (plug q (fork s c x a (fork s cb y b z))).toList :=
  toList_plug_congr q (toList_fork_congr rfl (toList_fork_congr rfl rfl))

/-- A red sibling makes place for a black one, and the loop ends with it: in its turn, or at the
parent, which is red by then. -/
theorem Has.removeColor_redSibling (h : t.Has (plug q (fork s c x a (fork s .red y b z))))
    (hshort : Short (⟨s, c, a, fork s .red y b z⟩ :: q) x) (hx : x.color = .black) (depth : Nat) :
    ∃ t' T, rbRemoveColor (depth + 2) t (some a) x.root? = some t' ∧ t'.Has T ∧ T.Valid ∧
      T.toList = (plug q (fork s c x a (fork s .red y b z))).toList := by
  obtain ⟨rfl, hy, ⟨w, hw⟩, hshort'⟩ := hshort.redSibling hx
  obtain ⟨t₁, hrun₁, h₁⟩ := h.blackSibling hw
  obtain ⟨cw, y₁, y₂, rfl⟩ := exists_fork s hw
  obtain rfl : cw = .black := color_fork.symm.trans hy
  have hturn : rbRemoveColor (depth + 2) t (some a) x.root? =
      rbRemoveColor (depth + 2) t₁ (some a) x.root? := by
    rw [h.removeColor_turn hx, hrun₁, h₁.removeColor_turn hx, h₁.blackSibling_black]
  have hlist₁ :
      (plug (⟨s, .black, b, z⟩ :: q) (fork s .red x a (fork s .black y₁ w y₂))).toList =
      (plug q (fork s .black x a (fork s .red (fork s .black y₁ w y₂) b z))).toList :=
    toList_plug_congr q toList_rotate
  rw [hturn, ← hlist₁]
  by_cases hyz : y₁.color = .black ∧ y₂.color = .black
  · obtain ⟨t₂, hrun₂, h₂⟩ := h₁.removeColor_up hx hyz (depth + 1)
    obtain ⟨t', T, hrun', h', hvalid, hlist⟩ :=
      h₂.removeColor_end (hshort'.up hx hyz.1 hyz.2) (Or.inl color_fork) depth
    exact ⟨t', T, hrun₂.trans hrun', h', hvalid, hlist.trans toList_recolor⟩
  · exact h₁.removeColor_borrow hshort' hx hyz (depth + 1)

/-- `RB_REMOVE_COLOR` makes the tree red-black, and moves no element. -/
theorem Has.rbRemoveColor (h : t.Has (plug q x)) (hshort : Short q x)
    (hdepth : q.length + 2 ≤ depth) :
    ∃ t' T, rbRemoveColor depth t (top q) x.root? = some t' ∧ t'.Has T ∧ T.Valid ∧
      T.toList = (plug q x).toList := by
  induction depth generalizing t q x with
  | zero => omega
  | succ depth ih =>
  cases hx : x.color with
  | red => exact h.removeColor_end hshort (Or.inl hx) depth
  | black =>
  cases q with
  | nil => exact h.removeColor_end hshort (Or.inr rfl) depth
  | cons f q =>
  obtain ⟨s, c, a, sib⟩ := f
  obtain ⟨m, -, -, -, hsib, -⟩ := hshort.parent hx
  obtain ⟨b, hb⟩ := hsib.exists_root
  obtain ⟨cb, y, z, rfl⟩ := exists_fork s hb
  have hnode : t.Has (plug q (fork s c x a (fork s cb y b z))) := h
  rw [List.length_cons] at hdepth
  cases cb with
  | red =>
      obtain ⟨d, rfl⟩ : ∃ d, depth = d + 1 := ⟨depth - 1, by omega⟩
      exact hnode.removeColor_redSibling hshort hx d
  | black =>
      by_cases hyz : y.color = .black ∧ z.color = .black
      · obtain ⟨t₁, hrun₁, h₁⟩ := hnode.removeColor_up hx hyz depth
        obtain ⟨t', T, hrun', h', hvalid, hlist⟩ :=
          ih h₁ (hshort.up hx hyz.1 hyz.2) (by omega)
        exact ⟨t', T, hrun₁.trans hrun', h', hvalid, hlist.trans toList_recolor⟩
      · exact hnode.removeColor_borrow hshort hx hyz depth

end RemoveColor

/-! ## The whole removal -/

theorem short_unlink (h : (plug q (fork s c nil a y)).Valid) :
    (c = .red → (plug q y).Valid) ∧ (c = .black → Short q y) := by
  obtain ⟨hreds, k, hk, hplug⟩ := valid_plug h
  obtain ⟨hcolor, -, hy⟩ := noRedRed_fork.mp hreds
  refine ⟨fun hc => ?_, fun hc => ?_⟩
  · subst hc
    exact hplug y (blackHeight_red.mp hk).2 hy (Or.inl (hcolor rfl).2)
  · subst hc
    obtain ⟨m, rfl, hm, hyHeight⟩ := blackHeight_black.mp hk
    exact ⟨m, hyHeight, hy.paint_black,
      fun u hu huReds huColor => hplug u hu huReds (Or.inl huColor)⟩

theorem erase_middle [DecidableEq α] {l r : List α} (h : (l ++ a :: r).Nodup) :
    (l ++ a :: r).erase a = l ++ r := by
  obtain ⟨ha, -⟩ := List.nodup_cons.mp (List.nodup_middle.mp h)
  rw [List.erase_append_right _ fun hl => ha (List.mem_append_left _ hl), List.erase_cons_head]

theorem exists_middle (s : Side) (c : Color) (q : RedBlack.Path α) (y : RedBlack.Tree α) (a : α) :
    ∃ l r, (plug q (fork s c nil a y)).toList = l ++ a :: r ∧ (plug q y).toList = l ++ r := by
  cases s with
  | left => exact ⟨before q, y.toList ++ after q, by simp [toList_plug, fork, toList],
      by simp [toList_plug]⟩
  | right => exact ⟨before q ++ y.toList, after q, by simp [toList_plug, fork, toList],
      by simp [toList_plug]⟩

section Remove

variable [DecidableEq α]

/-- What is left to do after a node is taken out. -/
theorem Has.unlinked (h : t.Has (plug q y)) (hvalid : (plug q (fork s c nil a y)).Valid)
    (hdepth : q.length + 2 ≤ depth) :
    ∃ t' T, (if c = .black then t.rbRemoveColor depth (top q) y.root? else some t) = some t' ∧
      t'.Has T ∧ T.Valid ∧ T.toList = (plug q y).toList := by
  obtain ⟨hred, hblack⟩ := short_unlink hvalid
  cases c with
  | red => exact ⟨t, plug q y, if_neg nofun, h, hred rfl, rfl⟩
  | black =>
      rw [if_pos rfl]
      exact h.rbRemoveColor (hblack rfl) hdepth

/-- The removal of a node with at most one child. -/
theorem Has.removeOne (h : t.Has (plug q (fork s c nil a y)))
    (hvalid : (plug q (fork s c nil a y)).Valid) (hdepth : q.length + 2 ≤ depth) :
    ∃ t' T, t.rbRemove depth a = some t' ∧ t'.Has T ∧ T.Valid ∧
      T.toList = (plug q (fork s c nil a y)).toList.erase a := by
  obtain ⟨t', T, hrun, h', hvalid', hlist⟩ := h.unlink.unlinked hvalid hdepth
  refine ⟨t', T, ?_, h', hvalid', ?_⟩
  · have hparent : t.parent a = top q := h.parent root?_fork
    have hcolor : t.color a = c := (h.color root?_fork).trans color_fork
    rw [Links.rbRemove]
    cases s with
    | left =>
        have hl : t.child .left a = none := h.child
        have hr : t.child .right a = y.root? := h.child_flip
        simp only [hl, hr, hparent, hcolor, if_true]
        exact hrun
    | right =>
        have hr : t.child .right a = none := h.child
        have hl : t.child .left a = y.root? := h.child_flip
        cases hy : y.root? with
        | none =>
            rw [hy] at hrun
            simp only [hl, hr, hparent, hcolor, hy, if_true]
            exact hrun
        | some w =>
            rw [hy] at hrun
            simp only [hl, hr, hparent, hcolor, hy, reduceCtorEq, if_false]
            exact hrun
  · obtain ⟨u, v, hwith, hwithout⟩ := exists_middle s c q y a
    rw [hlist, hwithout, hwith, erase_middle (hwith ▸ h.nodup)]

/-- A node that is taken out keeps its links. -/
theorem Has.entry_unlink (h : t.Has (plug q (fork s c nil a y))) :
    ((t.setParentOf y.root? (top q)).turnLink (top q) a y.root?).entry a = t.entry a ∧
      a ∉ (plug q y).toList := by
  have hspine : a ∉ spine q := h.disjoint (mem_of_root? root?_fork)
  have hy : a ∉ y.toList := by
    have hnodup := (fork_perm s c nil a y).nodup_iff.mp h.nodup_subtree
    exact (List.nodup_cons.mp hnodup).1
  constructor
  · rw [entry_turnLink_of_ne fun htop => hspine (mem_spine_of_top htop),
      entry_setParentOf_of_ne fun hroot => hy (mem_of_root? hroot)]
  · rw [(plug_perm q y).mem_iff, List.mem_append, not_or]
    exact ⟨hy, hspine⟩

section Successor

variable {p : RedBlack.Path α} {l r : RedBlack.Tree α} {e v : α}

/-- The parent of the successor is the one that it replaces only if there is nothing between
them. -/
theorem Has.top_successor (h : t.Has (plug q (fork .left c l a (plug p y)))) (e : α) :
    (if top (p ++ ⟨.right, c, a, l⟩ :: q) = some a then some e
      else top (p ++ ⟨.right, c, a, l⟩ :: q)) = top (p ++ ⟨.right, c, e, l⟩ :: q) := by
  cases p with
  | nil => exact if_pos rfl
  | cons f p =>
      refine if_neg fun hfa => ?_
      have hmem : f.val ∈ (plug (f :: p) y).toList :=
        (plug_perm (f :: p) y).mem_iff.mpr
          (List.mem_append_right _ (mem_spine_cons.mpr (Or.inl rfl)))
      refine h.flip.disjoint hmem (mem_spine_cons.mpr (Or.inl ?_))
      exact Option.some.inj hfa

/-- What the source reads of the old element while its links are turned: they are those that
it had, and the steps are those of `replace`. -/
theorem Has.replace_run (h : t.Has (plug q (fork .left c l a r))) (hl : l.root? = some v)
    (hea : e ≠ a) :
    let t₂ : Links α := { t with entry := Function.update t.entry e (t.entry a) }
    let t₃ := t₂.turnLink (t₂.parent a) a (some e)
    t₃.child .left a = some v ∧
      (t₃.setParent v (some e)).setParentOf ((t₃.setParent v (some e)).child .right a) (some e) =
        t.replace q l r a e := by
  intro t₂ t₃
  have hparent : t₂.parent a = top q := by
    rw [Links.parent, show t₂.entry a = t.entry a from Function.update_of_ne hea.symm _ _]
    exact h.parent root?_fork
  have hentry : t₃.entry a = cell .left c l.root? r.root? (top q) := by
    have htop : top q ≠ some a := fun htop =>
      h.disjoint (mem_of_root? root?_fork) (mem_spine_of_top htop)
    rw [← hparent] at htop
    exact ((entry_turnLink_of_ne htop).trans (Function.update_of_ne hea.symm _ _)).trans h.entry
  have hright : (t₃.setParent v (some e)).child .right a = r.root? := by
    have hva : a ≠ v := fun hva => by
      have hperm := (fork_perm .left c l a r).nodup_iff.mp h.nodup_subtree
      exact (List.nodup_cons.mp hperm).1 (List.mem_append_left _ (hva ▸ mem_of_root? hl))
    rw [Links.child, show (t₃.setParent v (some e)).entry a = t₃.entry a from
      Function.update_of_ne hva _ _, hentry]
    rfl
  constructor
  · rw [Links.child, hentry, child_cell, hl]
  · rw [hright, Links.replace, hl, ← hparent]
    rfl

/-- The elements without the old one, which its successor stands for. -/
theorem erase_successor {ce : Color} (hp : before p = [])
    (hnodup : (plug q (fork .left c l a (plug p (fork .left ce nil e y)))).toList.Nodup) :
    (plug (p ++ ⟨.right, c, e, l⟩ :: q) y).toList =
      (plug q (fork .left c l a (plug p (fork .left ce nil e y)))).toList.erase a := by
  have hsucc : (plug p (fork .left ce nil e y)).toList = e :: (plug p y).toList := by
    rw [toList_plug, toList_plug, hp]
    rfl
  have hbefore : (plug q (fork .left c l a (plug p (fork .left ce nil e y)))).toList =
      (before q ++ l.toList) ++ a :: (e :: (plug p y).toList ++ after q) := by
    rw [toList_plug, fork, toList, hsucc]
    simp
  rw [hbefore] at hnodup ⊢
  rw [erase_middle hnodup, plug_append, plug, Frame.fill, fork, toList_plug, toList]
  simp

end Successor

/-- The removal of a node with two children. -/
theorem Has.removeTwo {l r : RedBlack.Tree α} {vl vr : α} (h : t.Has (plug q (fork .left c l a r)))
    (hvalid : (plug q (fork .left c l a r)).Valid) (hl : l.root? = some vl)
    (hr : r.root? = some vr) (hdepth : (plug q (fork .left c l a r)).depth + 2 ≤ depth) :
    ∃ t' T, t.rbRemove depth a = some t' ∧ t'.Has T ∧ T.Valid ∧
      T.toList = (plug q (fork .left c l a r)).toList.erase a := by
  have hchildL : t.child .left a = some vl := h.child.trans hl
  have hchildR : t.child .right a = some vr := h.child_flip.trans hr
  have hlength := length_le_depth q (fork .left c l a r)
  have hrdepth : max l.depth r.depth + 1 = (fork .left c l a r).depth := rfl
  obtain ⟨p, ce, e, y, rfl, hp, hleftmost⟩ := h.flip.leftmost hr (by omega : r.depth ≤ depth)
  -- The successor is taken out at the end of its path.
  have he : t.Has (plug (p ++ ⟨.right, c, a, l⟩ :: q) (fork .left ce nil e y)) := by
    rw [plug_append]
    exact h
  have hplength := length_le_depth p (fork .left ce nil e y)
  have hchild : t.child .right e = y.root? := he.child_flip
  have hparent : t.parent e = top (p ++ ⟨.right, c, a, l⟩ :: q) := he.parent root?_fork
  have hcolor : t.color e = ce := (he.color root?_fork).trans color_fork
  obtain ⟨hentry₁, hout⟩ := he.entry_unlink
  have h₁ := he.unlink
  generalize ht₁ : (t.setParentOf y.root? (top (p ++ ⟨.right, c, a, l⟩ :: q))).turnLink
    (top (p ++ ⟨.right, c, a, l⟩ :: q)) e y.root? = t₁ at h₁ hentry₁
  have hparent₁ : t₁.parent e = top (p ++ ⟨.right, c, a, l⟩ :: q) :=
    (congrArg Entry.parent hentry₁).trans hparent
  rw [plug_append] at h₁ hout
  have h₁ : t₁.Has (plug q (fork .left c l a (plug p y))) := h₁
  -- It is put in the place of the old element.
  obtain ⟨hleft, hreplace⟩ := h₁.replace_run hl fun hea : e = a => hout (hea ▸ mem_plug)
  have h₂ : (t₁.replace q l (plug p y) a e).Has (plug (p ++ ⟨.right, c, e, l⟩ :: q) y) := by
    rw [plug_append]
    exact h₁.replace hout
  have hvalid₂ : (plug (p ++ ⟨.right, c, e, l⟩ :: q) (fork .left ce nil e y)).Valid := by
    rw [plug_append]
    exact ((Alike.relabel .left c l _ a e).plug q).valid hvalid
  have hpath : (p ++ ⟨.right, c, e, l⟩ :: q).length + 2 ≤ depth := by
    rw [List.length_append, List.length_cons]
    omega
  obtain ⟨t', T, hrun, h', hvalid', hlist⟩ := h₂.unlinked hvalid₂ hpath
  refine ⟨t', T, ?_, h', hvalid', hlist.trans (erase_successor hp h.nodup)⟩
  unfold Links.rbRemove
  simp only [hchildL, hchildR, hleftmost, hchild, hparent, hcolor, ht₁, Option.bind_eq_bind,
    Option.bind_some, hparent₁, h₁.top_successor, hleft, hreplace]
  exact hrun

/-- `RB_REMOVE` takes the element out and leaves the others in their order. -/
theorem Has.rbRemove {T : RedBlack.Tree α} (h : t.Has T) (hvalid : T.Valid) (ha : a ∈ T.toList)
    (hdepth : T.depth + 2 ≤ depth) :
    ∃ t' T', t.rbRemove depth a = some t' ∧ t'.Has T' ∧ T'.Valid ∧
      T'.toList = T.toList.erase a := by
  obtain ⟨q, c, l, r, rfl⟩ := exists_plug ha
  have hlength := length_le_depth q (fork .left c l a r)
  cases hl : l.root? with
  | none =>
      obtain rfl := root?_eq_none.mp hl
      exact h.removeOne hvalid (by omega)
  | some vl =>
      cases hr : r.root? with
      | none =>
          obtain rfl := root?_eq_none.mp hr
          rw [← fork_flip] at h hvalid ⊢
          exact h.removeOne hvalid (by omega)
      | some vr => exact h.removeTwo hvalid hl hr hdepth

end Remove

end Links
end RbTree
end IrC6
