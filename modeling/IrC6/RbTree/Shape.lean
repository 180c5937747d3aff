import Mathlib.Data.List.Nodup
import IrC6.RbTree.Macros

/-!
# Linked trees

`Has` says that the entries of the elements are linked like a tree.  The parts of the macros
that move a link or paint a node change the tree at the end of a path, and leave the entries
of the path and of the rest of memory as they were.
-/

namespace IrC6
namespace RbTree

open RedBlack RedBlack.Tree RedBlack.Path

variable {α : Type}

/-- The entry of a node with the child `x` on the given side. -/
def cell (s : Side) (c : Color) (x y p : Option α) : Entry α :=
  match s with
  | .left => { left := x, right := y, parent := p, color := c }
  | .right => { left := y, right := x, parent := p, color := c }

section Cell

variable (s : Side) (c c' : Color) (x y z p q : Option α)

@[simp] theorem child_cell : (cell s c x y p).child s = x := by cases s <;> rfl

@[simp] theorem child_flip_cell : (cell s c x y p).child s.flip = y := by cases s <;> rfl

@[simp] theorem parent_cell : (cell s c x y p).parent = p := by cases s <;> rfl

@[simp] theorem color_cell : (cell s c x y p).color = c := by cases s <;> rfl

@[simp] theorem setChild_cell : (cell s c x y p).setChild s z = cell s c z y p := by
  cases s <;> rfl

@[simp] theorem setChild_flip_cell : (cell s c x y p).setChild s.flip z = cell s c x z p := by
  cases s <;> rfl

@[simp] theorem setParent_cell :
    ({ cell s c x y p with parent := q } : Entry α) = cell s c x y q := by
  cases s <;> rfl

@[simp] theorem setColor_cell :
    ({ cell s c x y p with color := c' } : Entry α) = cell s c' x y p := by
  cases s <;> rfl

end Cell

/-! ## Entries linked like a tree -/

section Rep

variable {e e' : α → Entry α} {p : Option α} {s : Side} {c : Color} {a : α}
  {x y t : RedBlack.Tree α}

/-- The entries are those of the nodes of a tree below a given parent. -/
def Rep (e : α → Entry α) (p : Option α) : RedBlack.Tree α → Prop
  | nil => True
  | node c l a r =>
      e a = { left := l.root?, right := r.root?, parent := p, color := c } ∧
        Rep e (some a) l ∧ Rep e (some a) r

theorem rep_fork : Rep e p (fork s c x a y) ↔
    e a = cell s c x.root? y.root? p ∧ Rep e (some a) x ∧ Rep e (some a) y := by
  cases s
  · exact Iff.rfl
  · exact and_congr_right fun _ => and_comm

/-- The entries are those of the nodes of a path, which leads to a given root. -/
def RepPath (e : α → Entry α) : RedBlack.Path α → Option α → Prop
  | [], _ => True
  | f :: q, r =>
      e f.val = cell f.side f.color r f.sibling.root? (top q) ∧
        Rep e (some f.val) f.sibling ∧ RepPath e q (some f.val)

theorem rep_plug {q : RedBlack.Path α} :
    Rep e none (plug q t) ↔ Rep e (top q) t ∧ RepPath e q t.root? := by
  induction q generalizing t with
  | nil => exact (and_iff_left trivial).symm
  | cons f q ih =>
      rw [plug, ih, Frame.fill, rep_fork, root?_fork, RepPath]
      have htop : top (f :: q) = some f.val := rfl
      rw [htop]
      tauto

theorem Rep.congr (h : Rep e p t) (heq : ∀ a ∈ t.toList, e' a = e a) : Rep e' p t := by
  induction t generalizing p with
  | nil => trivial
  | node c l a r ihl ihr =>
      simp only [toList, List.mem_append, List.mem_cons] at heq
      obtain ⟨ha, hl, hr⟩ := h
      exact ⟨(heq a (Or.inr (Or.inl rfl))).trans ha, ihl hl fun b hb => heq b (Or.inl hb),
        ihr hr fun b hb => heq b (Or.inr (Or.inr hb))⟩

/-- A tree is hung under another parent. -/
theorem Rep.hang (h : Rep e p t) (hnodup : t.toList.Nodup) {p' : Option α}
    (hroot : ∀ r, t.root? = some r → e' r = { e r with parent := p' })
    (heq : ∀ a ∈ t.toList, t.root? ≠ some a → e' a = e a) : Rep e' p' t := by
  cases t with
  | nil => trivial
  | node c l a r =>
      obtain ⟨ha, hl, hr⟩ := h
      rw [toList, List.nodup_middle, List.nodup_cons, List.mem_append, not_or] at hnodup
      refine ⟨by rw [hroot a rfl, ha], hl.congr fun b hb => heq b ?_ fun hab => ?_,
        hr.congr fun b hb => heq b ?_ fun hab => ?_⟩
      · exact List.mem_append_left _ hb
      · exact hnodup.1.1 (Option.some.inj hab ▸ hb)
      · exact List.mem_append_right _ (List.mem_cons_of_mem _ hb)
      · exact hnodup.1.2 (Option.some.inj hab ▸ hb)

/-- The elements of a path. -/
def spine (q : RedBlack.Path α) : List α := before q ++ after q

theorem mem_spine_cons {f : Frame α} {q : RedBlack.Path α} {b : α} :
    b ∈ spine (f :: q) ↔ b = f.val ∨ b ∈ f.sibling.toList ∨ b ∈ spine q := by
  unfold spine
  rw [before, after]
  cases f.side <;> simp only [List.mem_append, List.mem_cons, List.not_mem_nil, or_false] <;> tauto

theorem mem_spine_of_top {q : RedBlack.Path α} (h : top q = some a) : a ∈ spine q := by
  cases q with
  | nil => cases h
  | cons f q =>
      obtain rfl := Option.some.inj h
      exact mem_spine_cons.mpr (Or.inl rfl)

theorem RepPath.congr {q : RedBlack.Path α} {r : Option α} (h : RepPath e q r)
    (heq : ∀ a ∈ spine q, e' a = e a) : RepPath e' q r := by
  induction q generalizing r with
  | nil => trivial
  | cons f q ih =>
      simp only [mem_spine_cons] at heq
      obtain ⟨hf, hsib, hq⟩ := h
      exact ⟨(heq f.val (Or.inl rfl)).trans hf,
        hsib.congr fun b hb => heq b (Or.inr (Or.inl hb)),
        ih hq fun b hb => heq b (Or.inr (Or.inr hb))⟩

/-- The elements of a tree and those of the path to it. -/
theorem plug_perm (q : RedBlack.Path α) (t : RedBlack.Tree α) :
    (plug q t).toList.Perm (t.toList ++ spine q) := by
  rw [toList_plug, spine, ← List.append_assoc]
  exact List.perm_append_comm.append_right _

end Rep

namespace Links

variable {t t' : Links α} {q : RedBlack.Path α} {x y z x' : RedBlack.Tree α} {s : Side}
  {c c' : Color} {a b : α}

/-- The entries are linked like a tree, and the head points to its root. -/
structure Has (t : Links α) (x : RedBlack.Tree α) : Prop where
  root : t.root = x.root?
  rep : Rep t.entry none x
  nodup : x.toList.Nodup

namespace Has

theorem nodup_plug (h : t.Has (plug q x)) : (x.toList ++ spine q).Nodup :=
  (plug_perm q x).nodup_iff.mp h.nodup

theorem disjoint (h : t.Has (plug q x)) (ha : a ∈ x.toList) : a ∉ spine q :=
  fun hq => List.disjoint_of_nodup_append h.nodup_plug ha hq

theorem nodup_subtree (h : t.Has (plug q x)) : x.toList.Nodup :=
  (List.nodup_append.mp h.nodup_plug).1

theorem rep_subtree (h : t.Has (plug q x)) : Rep t.entry (top q) x := (rep_plug.mp h.rep).1

theorem rep_path (h : t.Has (plug q x)) : RepPath t.entry q x.root? := (rep_plug.mp h.rep).2

theorem entry (h : t.Has (plug q (fork s c x a y))) :
    t.entry a = cell s c x.root? y.root? (top q) :=
  (rep_fork.mp h.rep_subtree).1

theorem child (h : t.Has (plug q (fork s c x a y))) : t.child s a = x.root? := by
  rw [Links.child, h.entry, child_cell]

theorem child_flip (h : t.Has (plug q (fork s c x a y))) : t.child s.flip a = y.root? := by
  rw [Links.child, h.entry, child_flip_cell]

theorem parent (h : t.Has (plug q x)) (ha : x.root? = some a) : t.parent a = top q := by
  obtain ⟨c, l, r, rfl⟩ := exists_fork .left ha
  rw [Links.parent, h.entry, parent_cell]

theorem color (h : t.Has (plug q x)) (ha : x.root? = some a) : t.color a = x.color := by
  obtain ⟨c, l, r, rfl⟩ := exists_fork .left ha
  rw [Links.color, h.entry, color_cell, color_fork]

theorem isBlack (h : t.Has (plug q x)) : t.isBlack x.root? = decide (x.color = .black) := by
  cases hx : x.root? with
  | none =>
      rw [root?_eq_none.mp hx]
      rfl
  | some a =>
      rw [Links.isBlack, h.color hx]

theorem flip (h : t.Has (plug q (fork s c x a y))) :
    t.Has (plug (⟨s.flip, c, a, x⟩ :: q) y) := by
  show t.Has (plug q (fork s.flip c y a x))
  rwa [fork_flip]

theorem isBlack_flip (h : t.Has (plug q (fork s c x a y))) :
    t.isBlack y.root? = decide (y.color = .black) :=
  h.flip.isBlack

/-- The two children of a node are different elements. -/
theorem children_ne (h : t.Has (plug q (fork s c x a y))) (hx : x.root? = some b) :
    y.root? ≠ some b := fun hy => by
  refine h.flip.disjoint (mem_of_root? hy) (mem_spine_cons.mpr (Or.inr (Or.inl ?_)))
  exact mem_of_root? hx

theorem sideOf [DecidableEq α] (h : t.Has (plug q (fork s c x a y)))
    (hne : x.root? ≠ y.root?) : t.sideOf a x.root? = s := by
  have hleft : t.child .left a = x.root? ↔ s = .left := by
    rw [Links.child, h.entry]
    cases s
    · exact iff_of_true rfl rfl
    · exact iff_of_false (fun hyx => hne hyx.symm) nofun
  unfold Links.sideOf
  cases s
  · exact if_pos (hleft.mpr rfl)
  · exact if_neg fun hl => by cases hleft.mp hl

/-- The subtree at the end of a path is replaced by another with the same root. -/
theorem subtree (h : t.Has (plug q x)) (hroot : t'.root = t.root) (hx : x'.root? = x.root?)
    (hkeep : ∀ b ∈ spine q, t'.entry b = t.entry b) (hrep : Rep t'.entry (top q) x')
    (hperm : x'.toList.Perm x.toList) : t'.Has (plug q x') where
  root := by
    rw [hroot, h.root]
    cases q with
    | nil => exact hx.symm
    | cons f q => exact root?_plug_cons f q x x'
  rep := rep_plug.mpr ⟨hrep, hx ▸ h.rep_path.congr hkeep⟩
  nodup := (plug_perm q x').nodup_iff.mpr ((hperm.append_right _).nodup_iff.mpr h.nodup_plug)

variable [DecidableEq α]

theorem setColor (h : t.Has (plug q x)) (hx : x.root? = some a) (c : Color) :
    (t.setColor a c).Has (plug q (paint c x)) := by
  obtain ⟨c', l, r, rfl⟩ := exists_fork .left hx
  have hmem : a ∈ (fork .left c' l a r).toList := mem_of_root? hx
  have hnodup := h.nodup_subtree
  have hout := List.nodup_cons.mp (List.nodup_middle.mp hnodup)
  have hother : ∀ b, b ≠ a → (t.setColor a c).entry b = t.entry b := fun b hb =>
    Function.update_of_ne hb _ _
  obtain ⟨ha, hl, hr⟩ := rep_fork.mp h.rep_subtree
  refine h.subtree rfl root?_paint (fun b hb => hother b fun hba => ?_) ?_
    (List.Perm.of_eq toList_paint)
  · exact h.disjoint hmem (hba ▸ hb)
  · rw [paint_fork, rep_fork]
    refine ⟨?_, hl.congr fun b hb => hother b fun hba => ?_,
      hr.congr fun b hb => hother b fun hba => ?_⟩
    · show Function.update t.entry a _ a = _
      rw [Function.update_self, ha, setColor_cell]
    · exact hout.1 (List.mem_append_left _ (hba ▸ hb))
    · exact hout.1 (List.mem_append_right _ (hba ▸ hb))

theorem setColorOf (h : t.Has (plug q x)) (c : Color) :
    (t.setColorOf x.root? c).Has (plug q (paint c x)) := by
  cases hx : x.root? with
  | none =>
      rw [root?_eq_none.mp hx] at h ⊢
      exact h
  | some a => exact h.setColor hx c

end Has

/-! ## The leftmost node -/

/-- The leftmost node of a subtree has no left child, and nothing of the subtree is in front
of it. -/
theorem Has.leftmost {depth : Nat} (h : t.Has (plug q x)) (hx : x.root? = some a)
    (hdepth : x.depth ≤ depth) : ∃ p c b y, x = plug p (fork .left c nil b y) ∧ before p = [] ∧
      t.leftmost depth a = some b := by
  induction depth generalizing q x a with
  | zero =>
      cases x with
      | nil => cases hx
      | node c l b r => cases hdepth
  | succ depth ih =>
      obtain ⟨c, l, r, rfl⟩ := exists_fork .left hx
      have hchild : t.child .left a = l.root? := h.child
      have hmax : max l.depth r.depth + 1 ≤ depth + 1 := hdepth
      rw [Links.leftmost, hchild]
      cases hl : l.root? with
      | none =>
          obtain rfl := root?_eq_none.mp hl
          exact ⟨[], c, a, r, rfl, rfl, rfl⟩
      | some b =>
          have hbelow : t.Has (plug (⟨.left, c, a, r⟩ :: q) l) := h
          obtain ⟨p, c', b', y, rfl, hp, hrun⟩ := ih hbelow hl (by omega)
          refine ⟨p ++ [⟨.left, c, a, r⟩], c', b', y, ?_, ?_, hrun⟩
          · rw [plug_append]
            rfl
          · rw [before_append, hp]
            rfl

/-! ## Turning a link -/

theorem spine_cons_perm (f : Frame α) (q : RedBlack.Path α) :
    (spine (f :: q)).Perm (f.val :: f.sibling.toList ++ spine q) := by
  unfold spine
  rw [before, after]
  cases f.side
  · simp only [List.append_nil]
    exact List.perm_append_comm_assoc _ _ _
  · rw [List.append_assoc, List.nil_append]
    refine (List.perm_append_comm_assoc _ _ _).trans (List.Perm.append_right _ ?_)
    exact List.perm_append_comm

section TurnLink

variable [DecidableEq α] {r p : Option α}

theorem root_turnLink : (t.turnLink p a r).root = if p = none then r else t.root := by
  cases p with
  | none => rfl
  | some p =>
      unfold turnLink
      dsimp only
      split <;> rfl

theorem entry_turnLink_of_ne (h : p ≠ some b) : (t.turnLink p a r).entry b = t.entry b := by
  cases p with
  | none => rfl
  | some p =>
      have hne : b ≠ p := fun hb => h (by rw [hb])
      unfold turnLink
      dsimp only
      split <;> exact Function.update_of_ne hne _ _

/-- The path leads to the new root. -/
theorem turnLink_path (h : RepPath t.entry q (some a)) (hnodup : (spine q).Nodup)
    (ha : a ∉ spine q) : RepPath (t.turnLink (top q) a r).entry q r := by
  cases q with
  | nil => trivial
  | cons f q =>
      obtain ⟨hf, hsib, hq⟩ := h
      rw [(spine_cons_perm f q).nodup_iff, List.cons_append, List.nodup_cons, List.mem_append,
        not_or] at hnodup
      have hother : ∀ b, b ≠ f.val →
          (t.turnLink (top (f :: q)) a r).entry b = t.entry b := fun b hb =>
        entry_turnLink_of_ne fun hfb => hb (Option.some.inj hfb).symm
      refine ⟨?_, hsib.congr fun b hb => hother b fun hbf => hnodup.1.1 (hbf ▸ hb),
        hq.congr fun b hb => hother b fun hbf => hnodup.1.2 (hbf ▸ hb)⟩
      have hleft : t.child .left f.val = some a ↔ f.side = .left := by
        obtain ⟨side, c, v, sib⟩ := f
        rw [Links.child, hf]
        cases side
        · exact iff_of_true rfl rfl
        · refine iff_of_false (fun hroot => ha ?_) nofun
          exact mem_spine_cons.mpr (Or.inr (Or.inl (mem_of_root? hroot)))
      show (if t.child .left f.val = some a then t.setChild .left f.val r
        else t.setChild .right f.val r).entry f.val = _
      obtain ⟨side, c, v, sib⟩ := f
      cases side
      · rw [if_pos (hleft.mpr rfl)]
        show Function.update t.entry v _ v = _
        rw [Function.update_self, hf]
        rfl
      · rw [if_neg fun hl => by cases hleft.mp hl]
        show Function.update t.entry v _ v = _
        rw [Function.update_self, hf]
        rfl

omit [DecidableEq α] in
/-- The subtree at the end of a path is replaced by another, and the link to it is turned. -/
theorem Has.turn (h : t.Has (plug q x))
    (hroot : t'.root = if top q = none then x'.root? else t.root)
    (hpath : RepPath t'.entry q x'.root?) (hrep : Rep t'.entry (top q) x')
    (hnodup : (x'.toList ++ spine q).Nodup) : t'.Has (plug q x') where
  root := by
    rw [hroot]
    cases q with
    | nil => rfl
    | cons f q =>
        rw [if_neg (by nofun), h.root]
        exact root?_plug_cons f q x x'
  rep := rep_plug.mpr ⟨hrep, hpath⟩
  nodup := (plug_perm q x').nodup_iff.mpr hnodup

end TurnLink

/-! ## Rotating -/

theorem fork_perm (s : Side) (c : Color) (x : RedBlack.Tree α) (a : α) (y : RedBlack.Tree α) :
    (fork s c x a y).toList.Perm (a :: (x.toList ++ y.toList)) := by
  cases s
  · exact List.perm_middle
  · exact List.perm_middle.trans (List.perm_append_comm.cons a)

section Rotate

variable [DecidableEq α] {r p : Option α}

theorem entry_setParentOf_of_ne (h : r ≠ some b) : (t.setParentOf r p).entry b = t.entry b := by
  cases r with
  | none => rfl
  | some r => exact Function.update_of_ne (fun hb => h (by rw [hb])) _ _

theorem entry_setParentOf_self (h : r = some b) :
    (t.setParentOf r p).entry b = { t.entry b with parent := p } := by
  subst h
  exact Function.update_self _ _ _

theorem root_setParentOf : (t.setParentOf r p).root = t.root := by cases r <;> rfl

/-- The elements around a rotation are different. -/
structure Parted (q : RedBlack.Path α) (x : RedBlack.Tree α) (a : α) (y : RedBlack.Tree α) (b : α)
    (z : RedBlack.Tree α) : Prop where
  ne : a ≠ b
  inner : y.root? ≠ some a ∧ y.root? ≠ some b
  above : top q ≠ some a ∧ top q ≠ some b
  outer : ∀ w ∈ x.toList ++ z.toList, w ≠ a ∧ w ≠ b ∧ y.root? ≠ some w ∧ top q ≠ some w
  moved : ∀ w ∈ y.toList, w ≠ a ∧ w ≠ b ∧ top q ≠ some w
  path : ∀ w ∈ spine q, w ≠ a ∧ w ≠ b ∧ y.root? ≠ some w

omit [DecidableEq α] in
theorem Has.parted (h : t.Has (plug q (fork s c x a (fork s c' y b z)))) :
    Parted q x a y b z := by
  have hperm : (fork s c x a (fork s c' y b z)).toList.Perm
      (a :: b :: (x.toList ++ (y.toList ++ z.toList))) := by
    refine (fork_perm s c x a _).trans (List.Perm.cons a ?_)
    exact (((fork_perm s c' y b z).append_left x.toList).trans List.perm_middle)
  have hnodup := ((hperm.append_right (spine q)).nodup_iff).mp h.nodup_plug
  rw [List.cons_append, List.cons_append, List.nodup_cons, List.nodup_cons, List.nodup_append,
    List.nodup_append, List.nodup_append] at hnodup
  simp only [List.mem_cons, List.mem_append, not_or] at hnodup
  obtain ⟨⟨hab, ⟨hax, hay, haz⟩, haq⟩, ⟨⟨hbx, hby, hbz⟩, hbq⟩, ⟨-, ⟨-, -, hyz⟩, hxyz⟩, -,
    hxyzq⟩ := hnodup
  refine ⟨hab, ⟨fun hr => hay (mem_of_root? hr), fun hr => hby (mem_of_root? hr)⟩,
    ⟨fun hp => haq (mem_spine_of_top hp), fun hp => hbq (mem_spine_of_top hp)⟩,
    fun w hw => ?_, fun w hw => ?_, fun w hw => ?_⟩
  · rcases List.mem_append.mp hw with hw | hw
    · exact ⟨fun hwa => hax (hwa ▸ hw), fun hwb => hbx (hwb ▸ hw),
        fun hr => hxyz w hw w (Or.inl (mem_of_root? hr)) rfl,
        fun hp => hxyzq w (Or.inl hw) w (mem_spine_of_top hp) rfl⟩
    · exact ⟨fun hwa => haz (hwa ▸ hw), fun hwb => hbz (hwb ▸ hw),
        fun hr => hyz w (mem_of_root? hr) w hw rfl,
        fun hp => hxyzq w (Or.inr (Or.inr hw)) w (mem_spine_of_top hp) rfl⟩
  · exact ⟨fun hwa => hay (hwa ▸ hw), fun hwb => hby (hwb ▸ hw),
      fun hp => hxyzq w (Or.inr (Or.inl hw)) w (mem_spine_of_top hp) rfl⟩
  · exact ⟨fun hwa => haq (hwa ▸ hw), fun hwb => hbq (hwb ▸ hw),
      fun hr => hxyzq w (Or.inr (Or.inl (mem_of_root? hr))) w hw rfl⟩

/-- The links after a rotation, with the subtree that changes its parent and the top of the
path. -/
def rotated (t : Links α) (s : Side) (a b : α) (inner p : Option α) : Links α :=
  let t := (t.setChild s.flip a inner).setParentOf inner (some a)
  let t := (t.setParent b p).turnLink p a (some b)
  (t.setChild s b (some a)).setParent a (some b)

theorem rotated_of_ne {w : α} (hwa : w ≠ a) (hwb : w ≠ b) (hinner : r ≠ some w)
    (htop : p ≠ some w) : (t.rotated s a b r p).entry w = t.entry w := by
  refine (Function.update_of_ne hwa _ _).trans ((Function.update_of_ne hwb _ _).trans ?_)
  refine (entry_turnLink_of_ne htop).trans ((Function.update_of_ne hwb _ _).trans ?_)
  exact (entry_setParentOf_of_ne hinner).trans (Function.update_of_ne hwa _ _)

theorem rotated_inner {w : α} (hwa : w ≠ a) (hwb : w ≠ b) (hinner : r = some w)
    (htop : p ≠ some w) :
    (t.rotated s a b r p).entry w = { t.entry w with parent := some a } := by
  refine (Function.update_of_ne hwa _ _).trans ((Function.update_of_ne hwb _ _).trans ?_)
  refine (entry_turnLink_of_ne htop).trans ((Function.update_of_ne hwb _ _).trans ?_)
  rw [entry_setParentOf_self hinner]
  rw [show (t.setChild s.flip a r).entry w = t.entry w from Function.update_of_ne hwa _ _]

section Ends

variable {rx rz : Option α}

theorem rotated_down (ha : t.entry a = cell s c rx (some b) p) (hab : a ≠ b) (hinner : r ≠ some a)
    (htop : p ≠ some a) : (t.rotated s a b r p).entry a = cell s c rx r (some b) := by
  have hturned : ((((t.setChild s.flip a r).setParentOf r (some a)).setParent b p).turnLink p a
      (some b)).entry a = cell s c rx r p := by
    refine (entry_turnLink_of_ne htop).trans ((Function.update_of_ne hab _ _).trans ?_)
    rw [entry_setParentOf_of_ne hinner]
    show Function.update t.entry a _ a = _
    rw [Function.update_self, ha, setChild_flip_cell]
  refine (Function.update_self _ _ _).trans ?_
  rw [show (Links.setChild _ s b (some a)).entry a = _ from Function.update_of_ne hab _ _, hturned,
    setParent_cell]

theorem rotated_up (hb : t.entry b = cell s c' r rz (some a)) (hab : a ≠ b) (hinner : r ≠ some b)
    (htop : p ≠ some b) : (t.rotated s a b r p).entry b = cell s c' (some a) rz p := by
  have hset : ∀ u : Links α, (u.setParent b p).entry b = { u.entry b with parent := p } :=
    fun u => Function.update_self _ _ _
  refine (Function.update_of_ne (Ne.symm hab) _ _).trans ((Function.update_self _ _ _).trans ?_)
  rw [entry_turnLink_of_ne htop, hset, entry_setParentOf_of_ne hinner,
    show (t.setChild s.flip a r).entry b = t.entry b from Function.update_of_ne (Ne.symm hab) _ _,
    hb, setParent_cell, setChild_cell]

end Ends

/-- `RB_ROTATE_LEFT` and `RB_ROTATE_RIGHT` make these assignments. -/
theorem Has.rbRotate_eq (h : t.Has (plug q (fork s c x a (fork s c' y b z)))) :
    t.rbRotate s a = some (t.rotated s a b y.root? (top q)) := by
  have hd := h.parted
  obtain ⟨ha, -, hrb⟩ := rep_fork.mp h.rep_subtree
  obtain ⟨hb, -, -⟩ := rep_fork.mp hrb
  have hinner : t.child s b = y.root? := by rw [Links.child, hb, child_cell]
  have hp₁ : ((t.setChild s.flip a y.root?).setParentOf y.root? (some a)).parent a = top q := by
    rw [Links.parent, entry_setParentOf_of_ne hd.inner.1]
    show (Function.update t.entry a _ a).parent = _
    rw [Function.update_self, ha, setChild_flip_cell, parent_cell]
  have hp₂ : (((t.setChild s.flip a y.root?).setParentOf y.root? (some a)).setParent b
      (top q)).parent a = top q := by
    rw [Links.parent, ← hp₁]
    exact congrArg Entry.parent (Function.update_of_ne hd.ne _ _)
  unfold Links.rbRotate
  rw [h.child_flip, root?_fork]
  show some (Links.setParent (Links.setChild (Links.turnLink _ _ a (some b)) s b (some a)) a
    (some b)) = some _
  rw [hinner, hp₁, hp₂]
  rfl

/-- The path leads to the node that has come up. -/
theorem Has.rotated_path (h : t.Has (plug q (fork s c x a (fork s c' y b z)))) :
    RepPath (t.rotated s a b y.root? (top q)).entry q (some b) := by
  have hd := h.parted
  have hpath := h.rep_path
  rw [root?_fork] at hpath
  have hpath₂ : RepPath (((t.setChild s.flip a y.root?).setParentOf y.root? (some a)).setParent b
      (top q)).entry q (some a) := by
    refine hpath.congr fun w hw => ?_
    obtain ⟨hwa, hwb, hwy⟩ := hd.path w hw
    refine (Function.update_of_ne hwb _ _).trans ?_
    exact (entry_setParentOf_of_ne hwy).trans (Function.update_of_ne hwa _ _)
  have hnodup := h.nodup_plug
  refine (turnLink_path hpath₂ (List.Nodup.of_append_right hnodup)
    fun ha => (hd.path a ha).1 rfl).congr fun w hw => ?_
  obtain ⟨hwa, hwb, -⟩ := hd.path w hw
  exact (Function.update_of_ne hwa _ _).trans (Function.update_of_ne hwb _ _)

/-- The node at the end of a path goes down, and its child on the other side up. -/
theorem Has.rbRotate (h : t.Has (plug q (fork s c x a (fork s c' y b z)))) :
    ∃ t', t.rbRotate s a = some t' ∧ t'.Has (plug q (fork s c' (fork s c x a y) b z)) := by
  have hd := h.parted
  have hnodup := h.nodup_plug
  obtain ⟨ha, hrx, hrb⟩ := rep_fork.mp h.rep_subtree
  obtain ⟨hb, hry, hrz⟩ := rep_fork.mp hrb
  rw [root?_fork] at ha
  have hpath := h.rotated_path
  refine ⟨_, h.rbRotate_eq, h.turn ?_ ?_ (rep_fork.mpr ⟨?_, rep_fork.mpr ⟨?_, ?_, ?_⟩, ?_⟩) ?_⟩
  · rw [root?_fork]
    show (Links.turnLink _ (top q) a (some b)).root = _
    rw [root_turnLink]
    show (if top q = none then some b else (Links.setParentOf _ y.root? (some a)).root) = _
    rw [root_setParentOf]
    rfl
  · rwa [root?_fork]
  · rw [root?_fork, rotated_up hb hd.ne hd.inner.2 hd.above.2]
  · exact rotated_down ha hd.ne hd.inner.1 hd.above.1
  · refine hrx.congr fun w hw => ?_
    obtain ⟨hwa, hwb, hwy, hwq⟩ := hd.outer w (List.mem_append_left _ hw)
    exact rotated_of_ne hwa hwb hwy hwq
  · have hy : y.toList.Nodup := by
      have hfork := List.Nodup.of_append_left hnodup
      rw [(fork_perm s c x a _).nodup_iff, List.nodup_cons, List.nodup_append,
        (fork_perm s c' y b z).nodup_iff, List.nodup_cons] at hfork
      exact List.Nodup.of_append_left hfork.2.2.1.2
    refine hry.hang hy (fun w hwy => ?_) fun w hw hwy => ?_
    · obtain ⟨hwa, hwb, hwq⟩ := hd.moved w (mem_of_root? hwy)
      exact rotated_inner hwa hwb hwy hwq
    · obtain ⟨hwa, hwb, hwq⟩ := hd.moved w hw
      exact rotated_of_ne hwa hwb hwy hwq
  · refine hrz.congr fun w hw => ?_
    obtain ⟨hwa, hwb, hwy, hwq⟩ := hd.outer w (List.mem_append_right _ hw)
    exact rotated_of_ne hwa hwb hwy hwq
  · rw [(toList_rotate : _ = (fork s c x a (fork s c' y b z)).toList)]
    exact hnodup

end Rotate

end Links

end RbTree
end IrC6
