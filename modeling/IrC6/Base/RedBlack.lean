import Mathlib.Data.List.Basic
import Mathlib.Algebra.Group.Nat.Defs
import Mathlib.Data.Nat.Log

/-!
# Red-black trees

Binary trees with coloured nodes, and paths that lead from a subtree to the root of the tree.
The two sides of a node are named by a `Side`, so that what is said of one side holds of the
other.  `BlackHeight` and `NoRedRed` are the two conditions on the colours, and each says what
may be put at the end of a path without breaking it.
-/

namespace IrC6
namespace RedBlack

inductive Color where
  | black
  | red
deriving DecidableEq, Repr

inductive Side where
  | left
  | right
deriving DecidableEq, Repr

def Side.flip : Side → Side
  | .left => .right
  | .right => .left

inductive Tree (α : Type) where
  | nil
  | node (c : Color) (l : Tree α) (a : α) (r : Tree α)

variable {α : Type}

namespace Tree

def root? : Tree α → Option α
  | nil => none
  | node _ _ a _ => some a

/-- The leaves are black. -/
def color : Tree α → Color
  | nil => .black
  | node c _ _ _ => c

def toList : Tree α → List α
  | nil => []
  | node _ l a r => l.toList ++ a :: r.toList

def depth : Tree α → Nat
  | nil => 0
  | node _ l _ r => max l.depth r.depth + 1

/-- A node with a given subtree on one side. -/
def fork (s : Side) (c : Color) (x : Tree α) (a : α) (y : Tree α) : Tree α :=
  match s with
  | .left => node c x a y
  | .right => node c y a x

/-- The root is painted. -/
def paint (c : Color) : Tree α → Tree α
  | nil => nil
  | node _ l a r => node c l a r

variable {s : Side} {c : Color} {a : α} {x y t : Tree α} {n m : Nat}

@[simp] theorem root?_fork : (fork s c x a y).root? = some a := by cases s <;> rfl

@[simp] theorem color_fork : (fork s c x a y).color = c := by cases s <;> rfl

@[simp] theorem fork_flip : fork s.flip c x a y = fork s c y a x := by cases s <;> rfl

@[simp] theorem root?_paint : (paint c t).root? = t.root? := by cases t <;> rfl

@[simp] theorem toList_paint : (paint c t).toList = t.toList := by cases t <;> rfl

@[simp] theorem paint_fork {c' : Color} : paint c' (fork s c x a y) = fork s c' x a y := by
  cases s <;> rfl

theorem toList_fork : (fork s c x a y).toList =
    match s with
    | .left => x.toList ++ a :: y.toList
    | .right => y.toList ++ a :: x.toList := by
  cases s <;> rfl

theorem toList_fork_congr {c' : Color} {x' y' : Tree α} (hx : x'.toList = x.toList)
    (hy : y'.toList = y.toList) : (fork s c' x' a y').toList = (fork s c x a y).toList := by
  rw [toList_fork, toList_fork, hx, hy]

theorem toList_rotate {c' d d' : Color} {b : α} {z : Tree α} :
    (fork s c' (fork s c x a y) b z).toList = (fork s d x a (fork s d' y b z)).toList := by
  cases s <;> simp [fork, toList]

theorem root?_eq_none : t.root? = none ↔ t = nil := by
  cases t with
  | nil => exact iff_of_true rfl rfl
  | node c l a r => exact iff_of_false nofun nofun

theorem mem_of_root? (h : t.root? = some a) : a ∈ t.toList := by
  cases t with
  | nil => cases h
  | node c l b r =>
      obtain rfl := Option.some.inj h
      simp [toList]

/-- A tree with a root, seen from a given side. -/
theorem exists_fork (s : Side) (h : t.root? = some a) : ∃ c x y, t = fork s c x a y := by
  cases t with
  | nil => cases h
  | node c l b r =>
      obtain rfl := Option.some.inj h
      cases s
      · exact ⟨c, l, r, rfl⟩
      · exact ⟨c, r, l, rfl⟩

/-! ## The conditions on the colours -/

/-- The number of black nodes on every way down. -/
def BlackHeight : Tree α → Nat → Prop
  | nil, n => n = 0
  | node .red l _ r, n => l.BlackHeight n ∧ r.BlackHeight n
  | node .black l _ r, n => ∃ m, n = m + 1 ∧ l.BlackHeight m ∧ r.BlackHeight m

/-- No red node has a red child. -/
def NoRedRed : Tree α → Prop
  | nil => True
  | node c l _ r => (c = .red → l.color = .black ∧ r.color = .black) ∧ l.NoRedRed ∧ r.NoRedRed

structure Valid (t : Tree α) : Prop where
  height : ∃ n, t.BlackHeight n
  reds : t.NoRedRed
  root : t.color = .black

theorem blackHeight_red :
    (fork s .red x a y).BlackHeight n ↔ x.BlackHeight n ∧ y.BlackHeight n := by
  cases s
  · exact Iff.rfl
  · exact and_comm

theorem blackHeight_black : (fork s .black x a y).BlackHeight n ↔
    ∃ m, n = m + 1 ∧ x.BlackHeight m ∧ y.BlackHeight m := by
  cases s
  · exact Iff.rfl
  · exact exists_congr fun m => and_congr_right fun _ => and_comm

theorem noRedRed_fork : (fork s c x a y).NoRedRed ↔
    (c = .red → x.color = .black ∧ y.color = .black) ∧ x.NoRedRed ∧ y.NoRedRed := by
  cases s
  · exact Iff.rfl
  · exact and_congr (imp_congr_right fun _ => and_comm) and_comm

theorem BlackHeight.unique (hn : t.BlackHeight n) (hm : t.BlackHeight m) : n = m := by
  induction t generalizing n m with
  | nil => exact hn.trans hm.symm
  | node c l a r ihl _ =>
      cases c with
      | red => exact ihl hn.1 hm.1
      | black =>
          obtain ⟨n', rfl, hl, -⟩ := hn
          obtain ⟨m', rfl, hl', -⟩ := hm
          rw [ihl hl hl']

theorem NoRedRed.paint_black (h : t.NoRedRed) : (paint .black t).NoRedRed := by
  cases t with
  | nil => trivial
  | node c l a r => exact ⟨nofun, h.2⟩

theorem color_paint_black : (paint .black t).color = .black := by cases t <;> rfl

theorem BlackHeight.paint_black (h : t.BlackHeight n) : ∃ m, (paint .black t).BlackHeight m := by
  cases t with
  | nil => exact ⟨n, h⟩
  | node c l a r =>
      cases c with
      | red => exact ⟨n + 1, n, rfl, h⟩
      | black => exact ⟨n, h⟩

theorem BlackHeight.paint_red (h : t.BlackHeight n) (hc : t.color = .red) :
    (paint .black t).BlackHeight (n + 1) := by
  cases t with
  | nil => cases hc
  | node c l a r =>
      obtain rfl : c = .red := hc
      exact ⟨n, rfl, h⟩

theorem BlackHeight.exists_root (h : t.BlackHeight (n + 1)) : ∃ a, t.root? = some a := by
  cases t with
  | nil => cases h
  | node c l a r => exact ⟨a, rfl⟩

/-! ## The depth -/

theorem BlackHeight.depth_le (h : t.BlackHeight n) (hr : t.NoRedRed) :
    t.depth ≤ 2 * n + 1 ∧ (t.color = .black → t.depth ≤ 2 * n) := by
  induction t generalizing n with
  | nil =>
      rw [depth]
      omega
  | node c l a r ihl ihr =>
      obtain ⟨hc, hl, hr⟩ := hr
      rw [depth]
      cases c with
      | red =>
          have hl' := (ihl h.1 hl).2 (hc rfl).1
          have hr' := (ihr h.2 hr).2 (hc rfl).2
          refine ⟨by omega, nofun⟩
      | black =>
          obtain ⟨m, rfl, hml, hmr⟩ := h
          have hl' := (ihl hml hl).1
          have hr' := (ihr hmr hr).1
          omega

theorem BlackHeight.two_pow_le (h : t.BlackHeight n) : 2 ^ n ≤ t.toList.length + 1 := by
  induction t generalizing n with
  | nil =>
      rw [show n = 0 from h]
      exact Nat.le_refl _
  | node c l a r ihl ihr =>
      rw [toList, List.length_append, List.length_cons]
      cases c with
      | red =>
          have hl := ihl h.1
          omega
      | black =>
          obtain ⟨m, rfl, hl, hr⟩ := h
          have hl' := ihl hl
          have hr' := ihr hr
          rw [Nat.pow_succ]
          omega

/-- A red-black tree is not deeper than twice the logarithm of its size. -/
theorem Valid.depth_le (h : t.Valid) : t.depth ≤ 2 * Nat.log 2 (t.toList.length + 1) := by
  obtain ⟨n, hn⟩ := h.height
  have hdepth := (hn.depth_le h.reds).2 h.root
  have hlog : n ≤ Nat.log 2 (t.toList.length + 1) :=
    Nat.le_log_of_pow_le Nat.one_lt_two hn.two_pow_le
  omega

theorem valid_nil : (nil : Tree α).Valid := ⟨⟨0, rfl⟩, trivial, rfl⟩

theorem valid_paint (hn : t.BlackHeight n) (hr : t.NoRedRed) : (paint .black t).Valid :=
  ⟨hn.paint_black, hr.paint_black, color_paint_black⟩

theorem Valid.paint_black (h : t.Valid) : (paint .black t).Valid := by
  obtain ⟨n, hn⟩ := h.height
  exact valid_paint hn h.reds

end Tree

open RedBlack.Tree

/-! ## Paths -/

/-- A node on the way from a subtree to the root, with the side that the subtree is on. -/
structure Frame (α : Type) where
  side : Side
  color : Color
  val : α
  sibling : Tree α

def Frame.fill (f : Frame α) (t : Tree α) : Tree α := fork f.side f.color t f.val f.sibling

/-- The way to the root, with the parent in front. -/
abbrev Path (α : Type) := List (Frame α)

namespace Path

def plug : Path α → Tree α → Tree α
  | [], t => t
  | f :: p, t => plug p (f.fill t)

def top (p : Path α) : Option α := p.head?.map Frame.val

/-- The elements in front of the subtree, and those behind it. -/
def before : Path α → List α
  | [] => []
  | f :: p => before p ++
      match f.side with
      | .left => []
      | .right => f.sibling.toList ++ [f.val]

def after : Path α → List α
  | [] => []
  | f :: p =>
      (match f.side with
        | .left => f.val :: f.sibling.toList
        | .right => []) ++ after p

variable {p : Path α} {f : Frame α} {t t' : Tree α} {n : Nat}

theorem toList_plug (p : Path α) (t : Tree α) :
    (plug p t).toList = before p ++ t.toList ++ after p := by
  induction p generalizing t with
  | nil => simp [plug, before, after]
  | cons f p ih =>
      rw [plug, ih, Frame.fill, toList_fork, before, after]
      cases f.side <;> simp

theorem mem_plug {s : Side} {c : Color} {x y : Tree α} {a : α} :
    a ∈ (plug p (fork s c x a y)).toList := by
  rw [toList_plug]
  exact List.mem_append_left _ (List.mem_append_right _ (mem_of_root? root?_fork))

theorem toList_plug_congr (p : Path α) (h : t'.toList = t.toList) :
    (plug p t').toList = (plug p t).toList := by
  rw [toList_plug, toList_plug, h]

theorem root?_plug_cons (f : Frame α) (p : Path α) (t t' : Tree α) :
    (plug (f :: p) t).root? = (plug (f :: p) t').root? := by
  induction p generalizing f t t' with
  | nil => simp [plug, Frame.fill]
  | cons g p ih => exact ih g (f.fill t) (f.fill t')

theorem color_plug_cons (f : Frame α) (p : Path α) (t t' : Tree α) :
    (plug (f :: p) t).color = (plug (f :: p) t').color := by
  induction p generalizing f t t' with
  | nil => simp [plug, Frame.fill]
  | cons g p ih => exact ih g (f.fill t) (f.fill t')

theorem length_le_depth (p : Path α) (t : Tree α) : p.length + t.depth ≤ (plug p t).depth := by
  induction p generalizing t with
  | nil => rw [List.length_nil, Nat.zero_add, plug]
  | cons f p ih =>
      have hfill : t.depth + 1 ≤ (f.fill t).depth := by
        unfold Frame.fill fork
        cases f.side
        · exact Nat.succ_le_succ (Nat.le_max_left _ _)
        · exact Nat.succ_le_succ (Nat.le_max_right _ _)
      have hplug := ih (f.fill t)
      rw [List.length_cons, plug]
      omega

theorem plug_append (p q : Path α) (t : Tree α) : plug (p ++ q) t = plug q (plug p t) := by
  induction p generalizing t with
  | nil => rfl
  | cons f p ih => exact ih (f.fill t)

theorem before_append (p q : Path α) : before (p ++ q) = before q ++ before p := by
  induction p with
  | nil => exact (List.append_nil _).symm
  | cons f p ih => rw [List.cons_append, before, before, ih, List.append_assoc]

/-- Every element is the root of a subtree. -/
theorem exists_plug {a : α} (h : a ∈ t.toList) : ∃ p c l r, t = plug p (fork .left c l a r) := by
  induction t with
  | nil => cases h
  | node c l b r ihl ihr =>
      rw [toList, List.mem_append, List.mem_cons] at h
      rcases h with hl | rfl | hr
      · obtain ⟨p, c', x, y, rfl⟩ := ihl hl
        exact ⟨p ++ [⟨.left, c, b, r⟩], c', x, y, by rw [plug_append]; rfl⟩
      · exact ⟨[], c, l, r, rfl⟩
      · obtain ⟨p, c', x, y, rfl⟩ := ihr hr
        exact ⟨p ++ [⟨.right, c, b, l⟩], c', x, y, by rw [plug_append]; rfl⟩

/-- A subtree may be replaced by one of the same height. -/
theorem blackHeight_plug (h : (plug p t).BlackHeight n) :
    ∃ m, t.BlackHeight m ∧ ∀ t', t'.BlackHeight m → (plug p t').BlackHeight n := by
  induction p generalizing t with
  | nil => exact ⟨n, h, fun _ ht => ht⟩
  | cons f p ih =>
      obtain ⟨m, hm, hplug⟩ := ih h
      obtain ⟨side, c, a, sib⟩ := f
      cases c with
      | red =>
          rw [Frame.fill, blackHeight_red] at hm
          exact ⟨m, hm.1, fun t' ht' => hplug _ (blackHeight_red.mpr ⟨ht', hm.2⟩)⟩
      | black =>
          rw [Frame.fill, blackHeight_black] at hm
          obtain ⟨k, rfl, ht, hsib⟩ := hm
          exact ⟨k, ht, fun t' ht' => hplug _ (blackHeight_black.mpr ⟨k, rfl, ht', hsib⟩)⟩

/-- A subtree may be replaced by one that has a black root, or a red one as it had. -/
theorem noRedRed_plug (h : (plug p t).NoRedRed) :
    t.NoRedRed ∧ ∀ t' : Tree α, t'.NoRedRed → t'.color = .black ∨ t.color = .red →
      (plug p t').NoRedRed := by
  induction p generalizing t with
  | nil => exact ⟨h, fun _ ht _ => ht⟩
  | cons f p ih =>
      obtain ⟨hfill, hplug⟩ := ih h
      obtain ⟨hcolor, ht, hsib⟩ := noRedRed_fork.mp hfill
      refine ⟨ht, fun t' ht' hred => hplug _ (noRedRed_fork.mpr ⟨fun hc => ?_, ht', hsib⟩) ?_⟩
      · obtain ⟨hblack, hsibling⟩ := hcolor hc
        refine ⟨hred.resolve_right fun hr => ?_, hsibling⟩
        rw [hblack] at hr
        cases hr
      · rw [Frame.fill, Frame.fill, color_fork, color_fork]
        cases f.color
        · exact Or.inl rfl
        · exact Or.inr rfl

/-- A subtree of a red-black tree may be replaced. -/
theorem valid_plug (h : (plug p t).Valid) : t.NoRedRed ∧ ∃ k, t.BlackHeight k ∧
    ∀ t' : Tree α, t'.BlackHeight k → t'.NoRedRed → t'.color = .black ∨ t.color = .red →
      (plug p t').Valid := by
  obtain ⟨n, hn⟩ := h.height
  obtain ⟨k, hk, hheight⟩ := blackHeight_plug hn
  obtain ⟨ht, hreds⟩ := noRedRed_plug h.reds
  refine ⟨ht, k, hk, fun t' hk' ht' hc => ⟨⟨n, hheight t' hk'⟩, hreds t' ht' hc, ?_⟩⟩
  cases p with
  | nil =>
      refine hc.resolve_right fun hred => ?_
      have hroot : t.color = .black := h.root
      rw [hroot] at hred
      cases hred
  | cons f p => exact (color_plug_cons f p t' t).trans h.root

/-! ## Trees that differ in their elements only -/

/-- What is said of the colours of one tree is said of the other. -/
structure Alike (t t' : Tree α) : Prop where
  height : ∀ n, t.BlackHeight n ↔ t'.BlackHeight n
  reds : t.NoRedRed ↔ t'.NoRedRed
  color : t.color = t'.color

theorem Alike.relabel (s : Side) (c : Color) (x y : Tree α) (a b : α) :
    Alike (fork s c x a y) (fork s c x b y) := by
  refine ⟨fun n => ?_, by rw [noRedRed_fork, noRedRed_fork], by rw [color_fork, color_fork]⟩
  cases c
  · rw [blackHeight_black, blackHeight_black]
  · rw [blackHeight_red, blackHeight_red]

theorem Alike.valid (h : Alike t t') (hv : t.Valid) : t'.Valid := by
  obtain ⟨n, hn⟩ := hv.height
  exact ⟨⟨n, (h.height n).mp hn⟩, h.reds.mp hv.reds, h.color.symm.trans hv.root⟩

theorem Alike.plug (h : Alike t t') (p : Path α) : Alike (plug p t) (plug p t') := by
  induction p generalizing t t' with
  | nil => exact h
  | cons f p ih =>
      refine ih ⟨fun n => ?_, ?_, by rw [Frame.fill, Frame.fill, color_fork, color_fork]⟩
      · unfold Frame.fill
        cases f.color
        · simp only [blackHeight_black, h.height]
        · simp only [blackHeight_red, h.height]
      · rw [Frame.fill, Frame.fill, noRedRed_fork, noRedRed_fork, h.reds, h.color]

end Path

/-! ## Comparing with the elements -/

/-- A comparison with the elements of a list goes from greater to less, and at most one of
them is equal. -/
def Cuts (cmp : α → Ordering) (l : List α) : Prop :=
  l.Pairwise fun a b => cmp a = .gt ∨ cmp b = .lt

/-- The place of a new element. -/
def place (cmp : α → Ordering) (a : α) (l : List α) : List α :=
  l.takeWhile (cmp · = .gt) ++ a :: l.dropWhile (cmp · = .gt)

theorem place_append {cmp : α → Ordering} {a : α} {l r : List α} (hl : ∀ b ∈ l, cmp b = .gt)
    (hr : ∀ b ∈ r, cmp b = .lt) : place cmp a (l ++ r) = l ++ a :: r := by
  have hstop : ∀ b ∈ r, ¬ (decide (cmp b = .gt) = true) := fun b hb h => by
    rw [hr b hb] at h
    cases h
  have htake : r.takeWhile (cmp · = .gt) = [] := by
    cases r with
    | nil => rfl
    | cons b r => exact List.takeWhile_cons_of_neg (hstop b List.mem_cons_self)
  have hdrop : r.dropWhile (cmp · = .gt) = r := by
    cases r with
    | nil => rfl
    | cons b r => exact List.dropWhile_cons_of_neg (hstop b List.mem_cons_self)
  have hgt : ∀ b ∈ l, decide (cmp b = .gt) = true := fun b hb => decide_eq_true (hl b hb)
  rw [place, List.takeWhile_append_of_pos hgt, List.dropWhile_append_of_pos hgt, htake, hdrop,
    List.append_nil]

/-- The place of a new element parts a list. -/
theorem Cuts.exists_place {cmp : α → Ordering} {l : List α} (h : Cuts cmp l)
    (hne : ∀ b ∈ l, cmp b ≠ .eq) (a : α) : ∃ u v, l = u ++ v ∧ place cmp a l = u ++ a :: v ∧
      (∀ b ∈ u, cmp b = .gt) ∧ ∀ b ∈ v, cmp b = .lt := by
  induction l with
  | nil => exact ⟨[], [], rfl, rfl, nofun, nofun⟩
  | cons b l ih =>
      obtain ⟨hb, hl⟩ := List.pairwise_cons.mp h
      cases hcmp : cmp b with
      | eq => exact absurd hcmp (hne b List.mem_cons_self)
      | lt =>
          have hall : ∀ w ∈ b :: l, cmp w = .lt := fun w hw => by
            rcases List.mem_cons.mp hw with rfl | hw
            · exact hcmp
            · exact (hb w hw).resolve_left (by rw [hcmp]; nofun)
          exact ⟨[], b :: l, rfl, place_append (l := []) nofun hall, nofun, hall⟩
      | gt =>
          obtain ⟨u, v, rfl, -, hu, hv⟩ := ih hl fun w hw => hne w (List.mem_cons_of_mem _ hw)
          have hall : ∀ w ∈ b :: u, cmp w = .gt := fun w hw => by
            rcases List.mem_cons.mp hw with rfl | hw
            · exact hcmp
            · exact hu w hw
          exact ⟨b :: u, v, rfl, place_append hall hv, hall, hv⟩

theorem place_perm (cmp : α → Ordering) (a : α) (l : List α) : (place cmp a l).Perm (a :: l) := by
  refine List.perm_middle.trans (List.Perm.cons a ?_)
  rw [List.takeWhile_append_dropWhile]

end RedBlack
end IrC6
