import Mathlib.Logic.Function.Basic
import IrC6.Base.RedBlack

/-!
# The trees of `sys/tree.h`

Each element has an `RB_ENTRY` with pointers to its children and its parent and with its
colour, and the head has a pointer to the root.  A definition has the name of the macro that
it models.  The macros have each case twice, for the left and for the right side; here the
side is a parameter, and `RB_LEFT` and `RB_RIGHT` are the children on the two sides.

`none` as a result means that a null pointer was followed, or that a loop made as many turns
as `depth` allows.  `RB_AUGMENT` is empty, and so is the loop over it in `RB_REMOVE`.
-/

namespace IrC6
namespace RbTree

open RedBlack (Color Side)

variable {α : Type}

/-- `RB_ENTRY`. -/
structure Entry (α : Type) where
  left : Option α
  right : Option α
  parent : Option α
  color : Color
deriving DecidableEq

/-- `RB_LEFT` and `RB_RIGHT`. -/
def Entry.child (e : Entry α) : Side → Option α
  | .left => e.left
  | .right => e.right

def Entry.setChild (e : Entry α) (s : Side) (x : Option α) : Entry α :=
  match s with
  | .left => { e with left := x }
  | .right => { e with right := x }

/-- `RB_HEAD`, and the entry of every element. -/
structure Links (α : Type) where
  root : Option α
  entry : α → Entry α

namespace Links

def child (t : Links α) (s : Side) (elm : α) : Option α := (t.entry elm).child s

def parent (t : Links α) (elm : α) : Option α := (t.entry elm).parent

def color (t : Links α) (elm : α) : Color := (t.entry elm).color

/-- `elm == NULL || RB_COLOR(elm) == RB_BLACK`. -/
def isBlack (t : Links α) : Option α → Bool
  | none => true
  | some elm => t.color elm = .black

/-! ## Assignments -/

variable [DecidableEq α]

def setChild (t : Links α) (s : Side) (elm : α) (x : Option α) : Links α :=
  { t with entry := Function.update t.entry elm ((t.entry elm).setChild s x) }

def setParent (t : Links α) (elm : α) (p : Option α) : Links α :=
  { t with entry := Function.update t.entry elm { t.entry elm with parent := p } }

def setColor (t : Links α) (elm : α) (c : Color) : Links α :=
  { t with entry := Function.update t.entry elm { t.entry elm with color := c } }

/-- `if (elm) RB_PARENT(elm) = p`. -/
def setParentOf (t : Links α) (elm : Option α) (p : Option α) : Links α :=
  match elm with
  | none => t
  | some elm => t.setParent elm p

/-- `if (elm) RB_COLOR(elm) = c`. -/
def setColorOf (t : Links α) (elm : Option α) (c : Color) : Links α :=
  match elm with
  | none => t
  | some elm => t.setColor elm c

/-- `RB_SET`. -/
def rbSet (t : Links α) (elm : α) (p : Option α) : Links α :=
  let e : Entry α := { left := none, right := none, parent := p, color := .red }
  { t with entry := Function.update t.entry elm e }

/-- `RB_SET_BLACKRED`. -/
def rbSetBlackRed (t : Links α) (black red : α) : Links α :=
  (t.setColor black .black).setColor red .red

/-- The link from `parent` to `elm`, or from the head when there is no parent, is turned to
another element. -/
def turnLink (t : Links α) (parent : Option α) (elm : α) (x : Option α) : Links α :=
  match parent with
  | none => { t with root := x }
  | some p =>
      if t.child .left p = some elm then t.setChild .left p x else t.setChild .right p x

/-- `RB_ROTATE_LEFT` for the left side, `RB_ROTATE_RIGHT` for the right one: `elm` goes down
on that side. -/
def rbRotate (t : Links α) (s : Side) (elm : α) : Option (Links α) := do
  let tmp ← t.child s.flip elm
  let inner := t.child s tmp
  let t := (t.setChild s.flip elm inner).setParentOf inner (some elm)
  let t := t.setParent tmp (t.parent elm)
  let t := t.turnLink (t.parent elm) elm (some tmp)
  let t := t.setChild s tmp (some elm)
  return t.setParent elm (some tmp)

/-! ## Inserting -/

/-- The side of `p` that `elm` is tested for first, or the other one. -/
def sideOf (t : Links α) (p : α) (elm : Option α) : Side :=
  if t.child .left p = elm then .left else .right

/-- `RB_INSERT_COLOR`. -/
def rbInsertColor : Nat → Links α → α → Option (Links α)
  | 0, _, _ => none
  | depth + 1, t, elm =>
      let finish := t.root.map fun root => t.setColor root .black
      match t.parent elm with
      | none => finish
      | some parent =>
          if t.color parent = .black then finish
          else do
            let gparent ← t.parent parent
            let s := t.sideOf gparent (some parent)
            let tmp := t.child s.flip gparent
            if t.isBlack tmp = false then
              let t := (t.setColorOf tmp .black).rbSetBlackRed parent gparent
              rbInsertColor depth t gparent
            else if t.child s.flip parent = some elm then
              let t ← t.rbRotate s parent
              let t ← (t.rbSetBlackRed elm gparent).rbRotate s.flip gparent
              rbInsertColor depth t parent
            else
              let t ← (t.rbSetBlackRed parent gparent).rbRotate s.flip gparent
              rbInsertColor depth t elm

/-- The loop of `RB_INSERT`, with `parent` and the side that was taken there.  It ends at an
equal element, or where there is none. -/
def descend (cmp : α → Ordering) (t : Links α) :
    Nat → Option α → Option (α × Side) → Option (α ⊕ Option (α × Side))
  | _, none, parent => some (.inr parent)
  | 0, some _, _ => none
  | depth + 1, some tmp, _ =>
      match cmp tmp with
      | .lt => descend cmp t depth (t.child .left tmp) (some (tmp, .left))
      | .gt => descend cmp t depth (t.child .right tmp) (some (tmp, .right))
      | .eq => some (.inl tmp)

/-- `RB_INSERT`, where `cmp` compares `elm` with the others. -/
def rbInsert (cmp : α → Ordering) (depth : Nat) (t : Links α) (elm : α) :
    Option (Links α × Option α) := do
  match ← descend cmp t depth t.root none with
  | .inl tmp => return (t, some tmp)
  | .inr none =>
      let t := t.rbSet elm none
      let t ← rbInsertColor depth { t with root := some elm } elm
      return (t, none)
  | .inr (some (parent, s)) =>
      let t := t.rbSet elm (some parent)
      let t ← rbInsertColor depth (t.setChild s parent (some elm)) elm
      return (t, none)

/-! ## Removing -/

/-- In `RB_REMOVE_COLOR`: a red sibling `tmp` goes up, and a black one takes its place. -/
def blackSibling (t : Links α) (s : Side) (parent tmp : α) : Option (Links α × α) :=
  if t.color tmp = .red then do
    let t ← (t.rbSetBlackRed tmp parent).rbRotate s parent
    let tmp ← t.child s.flip parent
    return (t, tmp)
  else some (t, tmp)

/-- In the last turn of `RB_REMOVE_COLOR`: when only the inner child of `tmp` is red, it takes
the place of `tmp`. -/
def redOuter (t : Links α) (s : Side) (parent tmp : α) : Option (Links α × α) :=
  if t.isBlack (t.child s.flip tmp) = true then do
    let t := (t.setColorOf (t.child s tmp) .black).setColor tmp .red
    let t ← t.rbRotate s.flip tmp
    let tmp ← t.child s.flip parent
    return (t, tmp)
  else some (t, tmp)

/-- The rest of the last turn, up to `break` and the painting of the root. -/
def siblingUp (t : Links α) (s : Side) (parent tmp : α) : Option (Links α) := do
  let t := (t.setColor tmp (t.color parent)).setColor parent .black
  let t := t.setColorOf (t.child s.flip tmp) .black
  let t ← t.rbRotate s parent
  return t.setColorOf t.root .black

/-- `RB_REMOVE_COLOR`. -/
def rbRemoveColor : Nat → Links α → Option α → Option α → Option (Links α)
  | 0, _, _, _ => none
  | depth + 1, t, parent, elm =>
      if t.isBlack elm = true ∧ elm ≠ t.root then do
        let parent ← parent
        let s := t.sideOf parent elm
        let tmp ← t.child s.flip parent
        let (t, tmp) ← t.blackSibling s parent tmp
        if t.isBlack (t.child .left tmp) = true ∧ t.isBlack (t.child .right tmp) = true then
          let t := t.setColor tmp .red
          rbRemoveColor depth t (t.parent parent) (some parent)
        else
          let (t, tmp) ← t.redOuter s parent tmp
          t.siblingUp s parent tmp
      else return t.setColorOf elm .black

/-- `while ((left = RB_LEFT(elm))) elm = left`. -/
def leftmost (t : Links α) : Nat → α → Option α
  | 0, _ => none
  | depth + 1, elm =>
      match t.child .left elm with
      | none => some elm
      | some left => leftmost t depth left

/-- `RB_REMOVE`. -/
def rbRemove (depth : Nat) (t : Links α) (old : α) : Option (Links α) :=
  match t.child .left old, t.child .right old with
  | some _, some right => do
      let elm ← t.leftmost depth right
      let child := t.child .right elm
      let parent := t.parent elm
      let color := t.color elm
      let t := (t.setParentOf child parent).turnLink parent elm child
      let parent := if t.parent elm = some old then some elm else parent
      let t := { t with entry := Function.update t.entry elm (t.entry old) }
      let t := t.turnLink (t.parent old) old (some elm)
      let left ← t.child .left old
      let t := t.setParent left (some elm)
      let t := t.setParentOf (t.child .right old) (some elm)
      if color = .black then t.rbRemoveColor depth parent child else return t
  | left, right =>
      let child := if left = none then right else left
      let parent := t.parent old
      let color := t.color old
      let t := (t.setParentOf child parent).turnLink parent old child
      if color = .black then rbRemoveColor depth t parent child else some t

/-! ## Searching -/

/-- `RB_FIND`. -/
def rbFind (cmp : α → Ordering) (depth : Nat) (t : Links α) : Option (Option α) :=
  (descend cmp t depth t.root none).map fun r => r.getLeft?

/-- `RB_MINMAX`, which goes down on one side. -/
def rbMinMax (s : Side) (t : Links α) : Nat → Option α → Option α → Option (Option α)
  | _, none, parent => some parent
  | 0, some _, _ => none
  | depth + 1, some tmp, _ => rbMinMax s t depth (t.child s tmp) (some tmp)

def rbMin (depth : Nat) (t : Links α) : Option (Option α) := rbMinMax .left t depth t.root none

def rbMax (depth : Nat) (t : Links α) : Option (Option α) := rbMinMax .right t depth t.root none

/-- `while (RB_PARENT(elm) && elm == RB_RIGHT(RB_PARENT(elm))) elm = RB_PARENT(elm)`, and the
parent of what is left. -/
def climb (t : Links α) : Nat → α → Option (Option α)
  | 0, _ => none
  | depth + 1, elm =>
      match t.parent elm with
      | none => some none
      | some p => if t.child .right p = some elm then climb t depth p else some (some p)

/-- `RB_NEXT`. -/
def rbNext (depth : Nat) (t : Links α) (elm : α) : Option (Option α) :=
  match t.child .right elm with
  | some right => (t.leftmost depth right).map some
  | none =>
      match t.parent elm with
      | some p => if t.child .left p = some elm then some (some p) else climb t depth elm
      | none => climb t depth elm

end Links

end RbTree
end IrC6
