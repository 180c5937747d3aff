import IrC6.RbTree.Shape

/-!
# Inserting

`RB_INSERT` goes down to the place of the new element, links it there as a red leaf, and goes
up again to part it from a red parent.  The elements come out in the order in which the
comparison has them, and the tree stays red-black.
-/

namespace IrC6
namespace RbTree
namespace Links

open RedBlack RedBlack.Tree RedBlack.Path

variable {α : Type} [DecidableEq α]
variable {t : Links α} {q : RedBlack.Path α} {x y : RedBlack.Tree α} {s : Side} {a : α}
  {n depth : Nat}

/-! ## The way up -/

/-- At a black parent the root is painted, and that is all. -/
theorem Has.insertColor_black {f : Frame α} (h : t.Has (plug (f :: q) x)) (hx : x.root? = some a)
    (hf : f.color = .black) (depth : Nat) :
    ∃ t', t.rbInsertColor (depth + 1) a = some t' ∧ t'.Has (paint .black (plug (f :: q) x)) := by
  have hparent : t.parent a = some f.val := h.parent hx
  have hcolor : t.color f.val = .black := by
    have hfill : t.Has (plug q (f.fill x)) := h
    rw [hfill.color root?_fork, Frame.fill, color_fork, hf]
  have hsome : (plug (f :: q) x).root? ≠ none := fun hnone => by
    have hlist := toList_plug (f :: q) x
    rw [root?_eq_none.mp hnone] at hlist
    have hmem : a ∈ before (f :: q) ++ x.toList ++ after (f :: q) :=
      List.mem_append_left _ (List.mem_append_right _ (mem_of_root? hx))
    rw [← hlist] at hmem
    cases hmem
  obtain ⟨r, hr⟩ := Option.ne_none_iff_exists'.mp hsome
  refine ⟨t.setColor r .black, ?_, Has.setColor (q := []) h hr .black⟩
  rw [rbInsertColor]
  simp only [hparent, hcolor, if_true]
  rw [h.root, hr]
  rfl

/-- What the way up may start from: a red node whose only fault is a red parent. -/
structure Risen (q : RedBlack.Path α) (x : RedBlack.Tree α) : Prop where
  red : x.color = .red
  height : ∃ n, (plug q x).BlackHeight n
  reds : x.NoRedRed
  above : ∀ y : RedBlack.Tree α, y.NoRedRed → y.color = .black → (plug q y).NoRedRed
  root : q ≠ [] → (plug q x).color = .black

omit [DecidableEq α] in
/-- A red parent is not the root, and its parent is black. -/
theorem Risen.grandparent {f : Frame α} (h : Risen (f :: q) x) (hf : f.color = .red) :
    ∃ g q', q = g :: q' ∧ g.color = .black ∧ f.sibling.color = .black ∧
      f.sibling.NoRedRed ∧ g.sibling.NoRedRed ∧
      ∀ y : RedBlack.Tree α, y.NoRedRed → y.color = .black → (plug q' y).NoRedRed := by
  obtain ⟨hfill, -⟩ := noRedRed_plug (p := q) (t := f.fill nil) (h.above nil trivial rfl)
  cases q with
  | nil =>
      have hroot := h.root (List.cons_ne_nil f [])
      rw [plug, plug, Frame.fill, color_fork, hf] at hroot
      cases hroot
  | cons g q =>
      obtain ⟨hgfill, hplug⟩ := noRedRed_plug (p := q) (t := g.fill (f.fill nil))
        (h.above nil trivial rfl)
      obtain ⟨hgred, -, hgsib⟩ := noRedRed_fork.mp hgfill
      obtain ⟨hfred, -, hfsib⟩ := noRedRed_fork.mp hfill
      refine ⟨g, q, rfl, ?_, (hfred hf).2, hfsib, hgsib, fun y hy hc => hplug y hy (Or.inl hc)⟩
      cases hg : g.color with
      | black => rfl
      | red =>
          have hc := (hgred hg).1
          rw [Frame.fill, color_fork, hf] at hc
          cases hc

/-- A red uncle is painted with the parent, and the fault goes up two nodes. -/
theorem Has.paintUncle {sf sg : Side} {p g : α} {sib uncle : RedBlack.Tree α}
    (h : t.Has (plug q (fork sg .black (fork sf .red x p sib) g uncle))) :
    ((t.setColorOf uncle.root? .black).rbSetBlackRed p g).Has
      (plug q (fork sg .red (fork sf .black x p sib) g (paint .black uncle))) := by
  have h₁ : (t.setColorOf uncle.root? .black).Has
      (plug q (fork sg .black (fork sf .red x p sib) g (paint .black uncle))) := by
    have hflip := h.flip.setColorOf .black
    rwa [plug, Frame.fill, fork_flip] at hflip
  have h₂ := Has.setColor (q := ⟨sg, .black, g, paint .black uncle⟩ :: q) h₁ root?_fork .black
  rw [paint_fork] at h₂
  have h₃ := Has.setColor (q := q) h₂ root?_fork .red
  rwa [Frame.fill, paint_fork] at h₃

/-- With a black uncle the parent takes the place of its own parent. -/
theorem Has.parentUp {p g : α} {sib uncle : RedBlack.Tree α}
    (h : t.Has (plug q (fork s .black (fork s .red x p sib) g uncle))) :
    ∃ t', (t.rbSetBlackRed p g).rbRotate s.flip g = some t' ∧
      t'.Has (plug q (fork s .black x p (fork s .red sib g uncle))) := by
  have h₁ := Has.setColor (q := ⟨s, .black, g, uncle⟩ :: q) h root?_fork .black
  rw [paint_fork] at h₁
  have h₂ := Has.setColor (q := q) h₁ root?_fork .red
  rw [Frame.fill, paint_fork] at h₂
  have h₃ : (t.rbSetBlackRed p g).Has
      (plug q (fork s.flip .red uncle g (fork s.flip .black sib p x))) := by
    rw [fork_flip, fork_flip]
    exact h₂
  obtain ⟨t', hrun, h'⟩ := h₃.rbRotate
  rw [fork_flip, fork_flip] at h'
  exact ⟨t', hrun, h'⟩

/-- The way up from `a` comes to its end, and leaves a red-black tree of some elements. -/
def Mends (t : Links α) (depth : Nat) (a : α) (xs : List α) : Prop :=
  ∃ t' T, t.rbInsertColor depth a = some t' ∧ t'.Has T ∧ T.Valid ∧ T.toList = xs

theorem Has.insertColor_root (h : t.Has x) (hx : x.root? = some a) (hrisen : Risen [] x)
    (depth : Nat) : t.Mends (depth + 1) a x.toList := by
  obtain ⟨N, hN⟩ := hrisen.height
  have hparent : t.parent a = none := Has.parent (q := []) h hx
  refine ⟨t.setColor a .black, paint .black x, ?_, Has.setColor (q := []) h hx .black,
    valid_paint hN hrisen.reds, toList_paint⟩
  rw [Links.rbInsertColor]
  simp only [hparent]
  rw [h.root, hx]
  rfl

omit [DecidableEq α] in
theorem Risen.valid_black {f : Frame α} (hrisen : Risen (f :: q) x) (hf : f.color = .black) :
    (paint .black (plug (f :: q) x)).Valid := by
  obtain ⟨N, hN⟩ := hrisen.height
  obtain ⟨hfill, hplug⟩ := noRedRed_plug (p := q) (t := f.fill nil) (hrisen.above nil trivial rfl)
  have hx : (f.fill x).NoRedRed := by
    refine noRedRed_fork.mpr ⟨fun hc => ?_, hrisen.reds, (noRedRed_fork.mp hfill).2.2⟩
    rw [hf] at hc
    cases hc
  exact valid_paint hN (hplug _ hx (Or.inl (color_fork.trans hf)))

section Family

variable {sf sg : Side} {p g : α} {sib uncle : RedBlack.Tree α}

omit [DecidableEq α] in
/-- The black heights around a red parent. -/
theorem Risen.heights (hrisen : Risen (⟨sf, .red, p, sib⟩ :: ⟨sg, .black, g, uncle⟩ :: q) x) :
    ∃ N k, x.BlackHeight k ∧ sib.BlackHeight k ∧ uncle.BlackHeight k ∧
      ∀ y : RedBlack.Tree α, y.BlackHeight (k + 1) → (plug q y).BlackHeight N := by
  obtain ⟨N, hN⟩ := hrisen.height
  obtain ⟨m, hm, hheight⟩ := blackHeight_plug (p := q)
    (t := fork sg .black (fork sf .red x p sib) g uncle) hN
  obtain ⟨k, rfl, hfork, huncle⟩ := blackHeight_black.mp hm
  obtain ⟨hx, hsib⟩ := blackHeight_red.mp hfork
  exact ⟨N, k, hx, hsib, huncle, hheight⟩

omit [DecidableEq α] in
/-- Behind a red uncle the fault has gone up two nodes. -/
theorem Risen.raise (hrisen : Risen (⟨sf, .red, p, sib⟩ :: ⟨sg, .black, g, uncle⟩ :: q) x)
    (huncle : uncle.color = .red) :
    Risen q (fork sg .red (fork sf .black x p sib) g (paint .black uncle)) := by
  obtain ⟨N, k, hxHeight, hsibHeight, huncleHeight, hheight⟩ := hrisen.heights
  obtain ⟨g', q', heq, -, -, hsibRed, huncleRed, habove⟩ := hrisen.grandparent rfl
  cases heq
  refine ⟨color_fork, ⟨N, hheight _ (blackHeight_red.mpr
    ⟨blackHeight_black.mpr ⟨k, rfl, hxHeight, hsibHeight⟩, huncleHeight.paint_red huncle⟩)⟩,
    ?_, habove, fun hne => ?_⟩
  · exact noRedRed_fork.mpr ⟨fun _ => ⟨color_fork, color_paint_black⟩,
      noRedRed_fork.mpr ⟨nofun, hrisen.reds, hsibRed⟩, huncleRed.paint_black⟩
  · cases q with
    | nil => exact absurd rfl hne
    | cons e q => exact (color_plug_cons e q _ _).trans (hrisen.root nofun)

omit [DecidableEq α] in
/-- With a black uncle the node that comes up is black, and its children have the height that
they had. -/
theorem Risen.valid_turned {A C : RedBlack.Tree α} {b : α} {N k : Nat}
    (hrisen : Risen (⟨sf, .red, p, sib⟩ :: ⟨sg, .black, g, uncle⟩ :: q) x)
    (huncle : uncle.color = .black) (huncleHeight : uncle.BlackHeight k)
    (hheight : ∀ y : RedBlack.Tree α, y.BlackHeight (k + 1) → (plug q y).BlackHeight N)
    (hA : A.BlackHeight k) (hAred : A.NoRedRed) (hC : C.BlackHeight k) (hCred : C.NoRedRed)
    (hCblack : C.color = .black) :
    (paint .black (plug q (fork sg .black A b (fork sg .red C g uncle)))).Valid := by
  obtain ⟨g', q', heq, -, -, -, huncleRed, habove⟩ := hrisen.grandparent rfl
  cases heq
  refine valid_paint (hheight _ (blackHeight_black.mpr ⟨k, rfl, hA, blackHeight_red.mpr
    ⟨hC, huncleHeight⟩⟩)) (habove _ (noRedRed_fork.mpr ⟨nofun, hAred, ?_⟩) color_fork)
  exact noRedRed_fork.mpr ⟨fun _ => ⟨hCblack, huncle⟩, hCred, huncleRed⟩

/-- One turn of the loop below a red parent. -/
theorem Has.rbInsertColor_eq (h : t.Has (plug q (fork sg .black (fork sf .red x p sib) g uncle)))
    (hx : x.root? = some a) (depth : Nat) :
    t.rbInsertColor (depth + 1) a =
      if uncle.color = .red then
        ((t.setColorOf uncle.root? .black).rbSetBlackRed p g).rbInsertColor depth g
      else if sf = sg then
        ((t.rbSetBlackRed p g).rbRotate sg.flip g).bind fun t => t.rbInsertColor depth a
      else
        (t.rbRotate sg p).bind fun t =>
          ((t.rbSetBlackRed a g).rbRotate sg.flip g).bind fun t => t.rbInsertColor depth p := by
  have hp : t.Has (plug (⟨sg, .black, g, uncle⟩ :: q) (fork sf .red x p sib)) := h
  have ha : t.Has (plug (⟨sf, .red, p, sib⟩ :: ⟨sg, .black, g, uncle⟩ :: q) x) := h
  have hparent : t.parent a = some p := ha.parent hx
  have hcolor : t.color p = .red := (hp.color root?_fork).trans color_fork
  have hgparent : t.parent p = some g := hp.parent root?_fork
  have hside : t.sideOf g (some p) = sg := by
    have hne : (fork sf .red x p sib).root? ≠ uncle.root? := fun hroot =>
      h.children_ne root?_fork (hroot.symm.trans root?_fork)
    have hside := h.sideOf hne
    rwa [root?_fork] at hside
  have htmp : t.child sg.flip g = uncle.root? := h.child_flip
  have hinner : t.child sg.flip p = some a ↔ sf ≠ sg := by
    by_cases hs : sf = sg
    · subst hs
      rw [hp.child_flip]
      exact iff_of_false (hp.children_ne hx) (not_not.mpr rfl)
    · obtain rfl : sf = sg.flip := by cases sf <;> cases sg <;> first | rfl | exact absurd rfl hs
      rw [hp.child, hx]
      exact iff_of_true rfl hs
  rw [Links.rbInsertColor]
  simp only [hparent, hcolor, hgparent, hside, htmp, h.isBlack_flip, hinner, reduceCtorEq,
    if_false, Option.bind_eq_bind, Option.bind_some]
  cases uncle.color <;> by_cases hs : sf = sg <;> simp [hs]

/-- On the outer side the parent comes up. -/
theorem Has.insertColor_outer
    (h : t.Has (plug q (fork s .black (fork s .red x p sib) g uncle))) (hx : x.root? = some a)
    (hrisen : Risen (⟨s, .red, p, sib⟩ :: ⟨s, .black, g, uncle⟩ :: q) x)
    (huncle : uncle.color = .black) (depth : Nat) :
    t.Mends (depth + 2) a (plug q (fork s .black (fork s .red x p sib) g uncle)).toList := by
  obtain ⟨N, k, hxHeight, hsibHeight, huncleHeight, hheight⟩ := hrisen.heights
  obtain ⟨-, -, -, -, hsib, hsibRed, -⟩ := hrisen.grandparent rfl
  obtain ⟨t₁, hrotate, h₁⟩ := h.parentUp
  obtain ⟨t', hrun, h'⟩ := Has.insertColor_black (q := q)
    (f := ⟨s, .black, p, fork s .red sib g uncle⟩) h₁ hx rfl depth
  refine ⟨t', _, ?_, h', hrisen.valid_turned huncle huncleHeight hheight hxHeight hrisen.reds
    hsibHeight hsibRed hsib, ?_⟩
  · rw [h.rbInsertColor_eq hx, if_neg (by rw [huncle]; decide), if_pos rfl, hrotate]
    exact hrun
  · rw [toList_paint]
    exact toList_plug_congr q toList_rotate.symm

/-- On the inner side the node itself comes up, past its parent and then past the parent of
that. -/
theorem Has.insertColor_inner
    (h : t.Has (plug q (fork s .black (fork s.flip .red x p sib) g uncle)))
    (hx : x.root? = some a)
    (hrisen : Risen (⟨s.flip, .red, p, sib⟩ :: ⟨s, .black, g, uncle⟩ :: q) x)
    (huncle : uncle.color = .black) (depth : Nat) :
    t.Mends (depth + 2) a
      (plug q (fork s .black (fork s.flip .red x p sib) g uncle)).toList := by
  obtain ⟨N, k, hxHeight, hsibHeight, huncleHeight, hheight⟩ := hrisen.heights
  obtain ⟨-, -, -, -, hsib, hsibRed, -⟩ := hrisen.grandparent rfl
  have heq := h.rbInsertColor_eq hx (depth + 1)
  obtain ⟨c, x₁, x₂, rfl⟩ := exists_fork s hx
  obtain rfl : c = .red := color_fork.symm.trans hrisen.red
  have hp : t.Has (plug (⟨s, .black, g, uncle⟩ :: q)
    (fork s .red sib p (fork s .red x₁ a x₂))) := by rwa [← fork_flip]
  obtain ⟨t₁, hturn, h₁⟩ := hp.rbRotate
  obtain ⟨t₂, hrotate, h₂⟩ := Has.parentUp (q := q) h₁
  obtain ⟨t', hrun, h'⟩ := Has.insertColor_black (q := q)
    (f := ⟨s, .black, a, fork s .red x₂ g uncle⟩) h₂ root?_fork rfl depth
  obtain ⟨hred, hx₁, hx₂⟩ := noRedRed_fork.mp hrisen.reds
  obtain ⟨hx₁Height, hx₂Height⟩ := blackHeight_red.mp hxHeight
  refine ⟨t', _, ?_, h', hrisen.valid_turned huncle huncleHeight hheight
    (blackHeight_red.mpr ⟨hsibHeight, hx₁Height⟩)
    (noRedRed_fork.mpr ⟨fun _ => ⟨hsib, (hred rfl).1⟩, hsibRed, hx₁⟩) hx₂Height hx₂
    (hred rfl).2, ?_⟩
  · rw [heq, if_neg (by rw [huncle]; decide), if_neg (by cases s <;> decide), hturn,
      Option.bind_some, hrotate]
    exact hrun
  · rw [toList_paint]
    refine toList_plug_congr q ?_
    cases s <;> simp [Frame.fill, fork, toList, Side.flip]

end Family

/-- `RB_INSERT_COLOR` makes the tree red-black, and moves no element. -/
theorem Has.rbInsertColor (h : t.Has (plug q x)) (hx : x.root? = some a) (hrisen : Risen q x)
    (hdepth : q.length + 2 ≤ depth) : t.Mends depth a (plug q x).toList := by
  induction depth generalizing t q x a with
  | zero => omega
  | succ depth ih =>
  cases q with
  | nil => exact Has.insertColor_root h hx hrisen depth
  | cons f q =>
  cases hf : f.color with
  | black =>
      obtain ⟨t', hrun, h'⟩ := h.insertColor_black hx hf depth
      exact ⟨t', _, hrun, h', hrisen.valid_black hf, toList_paint⟩
  | red =>
  obtain ⟨g, q, rfl, hg, -⟩ := hrisen.grandparent hf
  obtain ⟨sf, cf, p, sib⟩ := f
  obtain ⟨sg, cg, g, uncle⟩ := g
  obtain rfl : cf = .red := hf
  obtain rfl : cg = .black := hg
  have hfork : t.Has (plug q (fork sg .black (fork sf .red x p sib) g uncle)) := h
  rw [List.length_cons, List.length_cons] at hdepth
  cases huncle : uncle.color with
  | red =>
      obtain ⟨t', T, hrun, h', hvalid, hlist⟩ :=
        ih hfork.paintUncle root?_fork (hrisen.raise huncle) (by omega)
      refine ⟨t', T, ?_, h', hvalid, hlist.trans (toList_plug_congr q ?_)⟩
      · rw [hfork.rbInsertColor_eq hx, if_pos huncle, hrun]
      · exact toList_fork_congr (toList_fork_congr rfl rfl) toList_paint
  | black =>
      obtain ⟨d, rfl⟩ : ∃ d, depth = d + 1 := Nat.exists_eq_add_one_of_ne_zero (by omega)
      by_cases hs : sf = sg
      · subst hs
        exact hfork.insertColor_outer hx hrisen huncle d
      · obtain rfl : sf = sg.flip := by cases sf <;> cases sg <;> first | rfl | exact absurd rfl hs
        exact hfork.insertColor_inner hx hrisen huncle d

/-! ## The way down -/

/-- The last node of a path, with the side that was taken there. -/
def last (q : RedBlack.Path α) : Option (α × Side) := q.head?.map fun f => (f.val, f.side)

/-- All in front of the subtree are less than what is compared, and all behind it greater. -/
structure Aims (cmp : α → Ordering) (q : RedBlack.Path α) : Prop where
  before : ∀ b ∈ before q, cmp b = .gt
  after : ∀ b ∈ after q, cmp b = .lt

variable {cmp : α → Ordering}

omit [DecidableEq α] in
theorem Aims.left {c : Color} (h : Aims cmp q) (hcuts : Cuts cmp (fork .left c x a y).toList)
    (ha : cmp a = .lt) : Aims cmp (⟨.left, c, a, y⟩ :: q) := by
  refine ⟨fun b hb => h.before b (by simpa [RedBlack.Path.before] using hb), fun b hb => ?_⟩
  simp only [RedBlack.Path.after, List.cons_append, List.mem_cons, List.mem_append] at hb
  have hpair := (List.pairwise_append.mp hcuts).2.1
  rcases hb with rfl | hy | hafter
  · exact ha
  · refine ((List.pairwise_cons.mp hpair).1 b hy).resolve_left fun hgt => ?_
    rw [ha] at hgt
    cases hgt
  · exact h.after b hafter

omit [DecidableEq α] in
theorem Aims.right {c : Color} (h : Aims cmp q) (hcuts : Cuts cmp (fork .left c x a y).toList)
    (ha : cmp a = .gt) : Aims cmp (⟨.right, c, a, x⟩ :: q) := by
  refine ⟨fun b hb => ?_, fun b hb => h.after b (by simpa [RedBlack.Path.after] using hb)⟩
  simp only [RedBlack.Path.before, List.mem_append, List.mem_singleton] at hb
  rcases hb with hbefore | hx | rfl
  · exact h.before b hbefore
  · have hpair := (List.pairwise_append.mp hcuts).2.2 b hx a List.mem_cons_self
    refine hpair.resolve_right fun hlt => ?_
    rw [ha] at hlt
    cases hlt
  · exact ha

omit [DecidableEq α] in
/-- The loop ends at an equal element, or at the place of a new one. -/
theorem Has.descend (h : t.Has (plug q x)) (hcuts : Cuts cmp x.toList) (haims : Aims cmp q)
    (hdepth : x.depth ≤ depth) :
    (∃ b ∈ x.toList, cmp b = .eq ∧ descend cmp t depth x.root? (last q) = some (.inl b)) ∨
    ∃ q', descend cmp t depth x.root? (last q) = some (.inr (last q')) ∧
      plug q' nil = plug q x ∧ Aims cmp q' := by
  induction depth generalizing q x with
  | zero =>
      cases x with
      | nil => exact Or.inr ⟨q, by rw [RedBlack.Tree.root?, Links.descend], rfl, haims⟩
      | node c l b r => cases hdepth
  | succ depth ih =>
      cases x with
      | nil => exact Or.inr ⟨q, by rw [RedBlack.Tree.root?, Links.descend], rfl, haims⟩
      | node c l b r =>
          have hchildren : max l.depth r.depth + 1 ≤ depth + 1 := hdepth
          have hnode : t.Has (plug q (fork .left c l b r)) := h
          have hl : t.child .left b = l.root? := hnode.child
          have hr : t.child .right b = r.root? := hnode.child_flip
          have hpair := List.pairwise_append.mp hcuts
          simp only [RedBlack.Tree.root?, Links.descend, hl, hr, RedBlack.Tree.toList]
          cases hcmp : cmp b with
          | eq => exact Or.inl ⟨b, by simp, hcmp, rfl⟩
          | lt =>
              rcases ih (q := ⟨.left, c, b, r⟩ :: q) h hpair.1 (haims.left hcuts hcmp) (by omega)
                with ⟨w, hw, heq, hrun⟩ | hplace
              · exact Or.inl ⟨w, List.mem_append_left _ hw, heq, hrun⟩
              · exact Or.inr hplace
          | gt =>
              rcases ih (q := ⟨.right, c, b, l⟩ :: q) h hpair.2.1.of_cons
                (haims.right hcuts hcmp) (by omega) with ⟨w, hw, heq, hrun⟩ | hplace
              · exact Or.inl ⟨w, List.mem_append_right _ (List.mem_cons_of_mem _ hw), heq, hrun⟩
              · exact Or.inr hplace

/-! ## The new leaf -/

/-- The new element is linked where the path ends. -/
theorem Has.linkLeaf {f : Frame α} (h : t.Has (plug (f :: q) nil))
    (ha : a ∉ (plug (f :: q) nil).toList) :
    ((t.rbSet a (some f.val)).setChild f.side f.val (some a)).Has
      (plug (f :: q) (fork .left .red nil a nil)) := by
  have hmem : a ∉ spine (f :: q) := fun hs =>
    ha ((plug_perm (f :: q) nil).mem_iff.mpr (List.mem_append_right _ hs))
  have hfa : f.val ≠ a := fun hfa => hmem (mem_spine_cons.mpr (Or.inl hfa.symm))
  have hnodup : (a :: spine (f :: q)).Nodup := List.nodup_cons.mpr ⟨hmem, h.nodup_plug⟩
  have hspine := (spine_cons_perm f q).nodup_iff.mp h.nodup_plug
  rw [List.cons_append, List.nodup_cons, List.mem_append, not_or] at hspine
  have hother : ∀ b, b ≠ f.val → b ≠ a →
      ((t.rbSet a (some f.val)).setChild f.side f.val (some a)).entry b = t.entry b :=
    fun b hbf hba => (Function.update_of_ne hbf _ _).trans (Function.update_of_ne hba _ _)
  obtain ⟨hf, hsib, hq⟩ := h.rep_path
  refine h.turn ?_ ⟨?_, hsib.congr fun b hb => hother b (fun hbf => hspine.1.1 (hbf ▸ hb))
    (fun hba => hmem ?_), hq.congr fun b hb => hother b (fun hbf => hspine.1.2 (hbf ▸ hb))
    (fun hba => hmem ?_)⟩ (rep_fork.mpr ⟨?_, trivial, trivial⟩) ?_
  · rw [if_neg nofun]
    rfl
  · show Function.update _ f.val _ f.val = _
    rw [Function.update_self]
    show Entry.setChild (Function.update t.entry a _ f.val) f.side (some a) = _
    rw [Function.update_of_ne hfa, hf, setChild_cell, root?_fork]
  · exact mem_spine_cons.mpr (Or.inr (Or.inl (hba ▸ hb)))
  · exact mem_spine_cons.mpr (Or.inr (Or.inr (hba ▸ hb)))
  · refine (Function.update_of_ne (Ne.symm hfa) _ _).trans ?_
    exact Function.update_self _ _ _
  · exact hnodup

omit [DecidableEq α] in
theorem risen_leaf (h : (plug q nil).Valid) : Risen q (fork .left .red nil a nil) := by
  obtain ⟨N, hN⟩ := h.height
  obtain ⟨m, hm, hplug⟩ := blackHeight_plug hN
  obtain ⟨-, habove⟩ := noRedRed_plug h.reds
  refine ⟨rfl, ⟨N, hplug _ ⟨hm, hm⟩⟩, ⟨fun _ => ⟨rfl, rfl⟩, trivial, trivial⟩,
    fun y hy hc => habove y hy (Or.inl hc), fun hne => ?_⟩
  cases q with
  | nil => exact absurd rfl hne
  | cons f q => exact (color_plug_cons f q _ nil).trans h.root

/-- The first element is linked to the head. -/
theorem has_leaf (t : Links α) (a : α) :
    ({ t.rbSet a none with root := some a } : Links α).Has
      (plug ([] : RedBlack.Path α) (fork .left .red nil a nil)) where
  root := rfl
  rep := ⟨Function.update_self _ _ _, trivial, trivial⟩
  nodup := List.nodup_singleton a

omit [DecidableEq α] in
/-- A path that ends at no equal element has none beside it. -/
theorem Aims.ne (h : Aims cmp q) : ∀ b ∈ (plug q nil).toList, cmp b ≠ .eq := fun b hb heq => by
  rw [toList_plug, toList, List.append_nil, List.mem_append] at hb
  rcases hb with hb | hb
  · rw [h.before b hb] at heq
    cases heq
  · rw [h.after b hb] at heq
    cases heq

omit [DecidableEq α] in
theorem Aims.place (h : Aims cmp q) :
    (plug q (fork .left .red nil a nil)).toList = place cmp a (plug q nil).toList := by
  rw [toList_plug, toList_plug, toList, List.append_nil, place_append h.before h.after,
    List.append_assoc]
  rfl

/-- `RB_INSERT` gives back an equal element, or puts the new one in its place. -/
theorem Has.rbInsert {T : RedBlack.Tree α} (h : t.Has T) (hvalid : T.Valid)
    (hcuts : Cuts cmp T.toList) (hself : cmp a = .eq) (hdepth : T.depth + 2 ≤ depth) :
    (∃ b ∈ T.toList, cmp b = .eq ∧ t.rbInsert cmp depth a = some (t, some b)) ∨
    (∀ b ∈ T.toList, cmp b ≠ .eq) ∧
      ∃ t' T', t.rbInsert cmp depth a = some (t', none) ∧ t'.Has T' ∧ T'.Valid ∧
        T'.toList = place cmp a T.toList := by
  have haims : Aims cmp ([] : RedBlack.Path α) := ⟨nofun, nofun⟩
  unfold Links.rbInsert
  rw [h.root]
  rcases Has.descend (q := []) h hcuts haims (by omega : T.depth ≤ depth) with
    ⟨b, hb, heq, hrun⟩ | ⟨q, hrun, hplug, haims⟩
  · refine Or.inl ⟨b, hb, heq, ?_⟩
    rw [show none = last ([] : RedBlack.Path α) from rfl, hrun]
    rfl
  · rw [show none = last ([] : RedBlack.Path α) from rfl, hrun]
    have hplug : plug q nil = T := hplug
    subst hplug
    have ha : a ∉ (plug q nil).toList := fun hmem => haims.ne a hmem hself
    have hlength := length_le_depth q nil
    refine Or.inr ⟨haims.ne, ?_⟩
    cases q with
    | nil =>
        obtain ⟨t', T', hcolor, h', hvalid', hT'⟩ :=
          (has_leaf t a).rbInsertColor rfl (risen_leaf hvalid) (by omega : 0 + 2 ≤ depth)
        refine ⟨t', T', ?_, h', hvalid', hT'.trans haims.place⟩
        show ((Links.rbInsertColor depth { t.rbSet a none with root := some a } a).bind _) = _
        rw [hcolor]
        rfl
    | cons f q =>
        obtain ⟨t', T', hcolor, h', hvalid', hT'⟩ :=
          (h.linkLeaf ha).rbInsertColor rfl (risen_leaf hvalid)
            (by omega : (f :: q).length + 2 ≤ depth)
        refine ⟨t', T', ?_, h', hvalid', hT'.trans haims.place⟩
        show ((Links.rbInsertColor depth ((t.rbSet a (some f.val)).setChild f.side f.val (some a))
          a).bind _) = _
        rw [hcolor]
        rfl

end Links
end RbTree
end IrC6
