import IrC6.Area.Destroy
import IrC6.Signals.Emit

/-!
# Instances in memory

An instance lives in an area of its own, with its signals and their handlers, and goes with
that area.  It knows its parent and has a list of nodes.  Pointers are addresses, a pointer
to something that has gone is a fault, and an address is not used again.

`htable` finds a signal by its name.  The chunks that an instance takes from its area are
left out, and so is the table's own area.  The walks down the list of nodes and up the
parents come with how far they may go.
-/

namespace IrC6
namespace Signals

variable {σ φ β : Type}

/-- A null pointer, a pointer to what has gone, and a walk that would go on. -/
inductive Fault where
  | null
  | dangling
  | depth
  | area (e : Area.Fault)
deriving DecidableEq, Repr

/-- A marshal, as the conversions that it makes of its parameters. -/
structure Marshal (β : Type) where
  params : List (β → β)

/-- `struct handler`, with its address. -/
structure Cell (φ : Type) extends Handler φ where
  addr : Nat

/-- `struct signals`, with the area that it is in. -/
structure Signal (φ β : Type) where
  area : Nat
  flags : UInt32
  marshal : Marshal β
  handlers : List (Cell φ)

/-- `struct signals_instance`. -/
structure Siginst (σ : Type) where
  nodes : List Nat
  parent : Option Nat
  area : Nat
  htable : σ → Option Nat
  emitting : Nat
  quit : Bool
  destroyed : Bool

/-- The areas, and what has been made in them. -/
structure Heap (σ φ β : Type) where
  areas : Area.Heap
  insts : Nat → Option (Siginst σ)
  sigs : Nat → Option (Signal φ β)

def Signal.locked (s : Signal φ β) : Bool := s.flags &&& lock ≠ 0

/-- A function of `area.c`. -/
def ofArea {α : Type} (r : Except Area.Fault α) : Except Fault α := r.mapError .area

/-- What has been made in an area is there as long as the area. -/
def inArea {α : Type} (areas : Area.Heap) (area : α → Nat) : Option α → Except Fault α
  | none => .error .dangling
  | some x => if (areas.areas (area x)).isSome then .ok x else .error .dangling

theorem inArea_eq_ok {α : Type} {areas : Area.Heap} {area : α → Nat} {o : Option α} {x : α} :
    inArea areas area o = .ok x ↔ o = some x ∧ (areas.areas (area x)).isSome = true := by
  rcases o with _ | y
  · exact ⟨nofun, nofun⟩
  · rw [inArea]
    by_cases hy : (areas.areas (area y)).isSome = true
    · rw [if_pos hy]
      constructor
      · intro h
        injection h with h
        exact ⟨congrArg some h, h ▸ hy⟩
      · rintro ⟨h, -⟩
        injection h with h
        rw [h]
    · rw [if_neg hy]
      refine ⟨nofun, ?_⟩
      rintro ⟨h, hx⟩
      injection h with h
      exact absurd (h ▸ hx) hy

namespace Heap

def inst (h : Heap σ φ β) (p : Nat) : Except Fault (Siginst σ) :=
  inArea h.areas Siginst.area (h.insts p)

def signal (h : Heap σ φ β) (p : Nat) : Except Fault (Signal φ β) :=
  inArea h.areas Signal.area (h.sigs p)

theorem inst_eq_ok {h : Heap σ φ β} {p : Nat} {si : Siginst σ} : h.inst p = .ok si ↔
    h.insts p = some si ∧ (h.areas.areas si.area).isSome = true := inArea_eq_ok

theorem signal_eq_ok {h : Heap σ φ β} {p : Nat} {s : Signal φ β} : h.signal p = .ok s ↔
    h.sigs p = some s ∧ (h.areas.areas s.area).isSome = true := inArea_eq_ok

def setInst (h : Heap σ φ β) (p : Nat) (si : Siginst σ) : Heap σ φ β :=
  { h with insts := Function.update h.insts p (some si) }

def setSignal (h : Heap σ φ β) (p : Nat) (s : Signal φ β) : Heap σ φ β :=
  { h with sigs := Function.update h.sigs p (some s) }

theorem setInst_cases {h : Heap σ φ β} {p q : Nat} {si' qi : Siginst σ}
    (hq : (h.setInst p si').insts q = some qi) :
    (q = p ∧ qi = si') ∨ (q ≠ p ∧ h.insts q = some qi) := by
  by_cases heq : q = p
  · subst heq
    exact Or.inl ⟨rfl, Option.some.inj (hq.symm.trans (Function.update_self _ _ _))⟩
  · exact Or.inr ⟨heq, (Function.update_of_ne heq _ _).symm.trans hq⟩

def Live (h : Heap σ φ β) (p : Nat) : Prop := ∃ si, h.inst p = .ok si

/-- Nothing has been made yet in some areas. -/
def empty (areas : Area.Heap) : Heap σ φ β :=
  { areas := areas, insts := fun _ => none, sigs := fun _ => none }

/-- An address that no area has, and that no instance or signal has known as its area. -/
def FreshArea (h : Heap σ φ β) (anode : Nat) : Prop :=
  h.areas.areas anode = none ∧ (∀ p si, h.insts p = some si → si.area ≠ anode) ∧
    ∀ sp s, h.sigs sp = some s → s.area ≠ anode

/-! ## Making and destroying -/

/-- What `a_new0` and `SLIST_INIT` make of an instance in its area. -/
def blank (area : Nat) (parent : Option Nat) : Siginst σ where
  nodes := []
  parent := parent
  area := area
  htable := fun _ => none
  emitting := 0
  quit := false
  destroyed := false

/-- `sig_instance_new`, with the addresses of the instance and of its area. -/
def sigInstanceNew (h : Heap σ φ β) (area new anode : Nat) : Except Fault (Heap σ φ β) := do
  let areas ← ofArea (h.areas.areaNode area anode)
  .ok ({ h with areas := areas }.setInst new (blank anode none))

/-- `sig_instance_node`, which leaves the list of the parent as it is. -/
def sigInstanceNode (h : Heap σ φ β) (area parent : Option Nat) (new anode : Nat) :
    Except Fault (Heap σ φ β) := do
  let area ← match area, parent with
    | some area, _ => .ok area
    | none, none => .error .null
    | none, some parent => (h.inst parent).map Siginst.area
  let areas ← ofArea (h.areas.areaNode area anode)
  .ok ({ h with areas := areas }.setInst new (blank anode parent))

def sigInstanceQuit (h : Heap σ φ β) (cur : Nat) : Except Fault (Heap σ φ β) := do
  let si ← h.inst cur
  .ok (if si.emitting = 0 then h else h.setInst cur { si with quit := true })

/-- `SLIST_REMOVE`, which follows the list until it finds the instance. -/
def slistRemove (h : Heap σ φ β) (parent cur : Nat) : Except Fault (Heap σ φ β) := do
  let si ← h.inst parent
  if cur ∈ si.nodes then .ok (h.setInst parent { si with nodes := si.nodes.erase cur })
  else .error .null

mutual

/-- `sig_instance_destroy`. -/
def sigInstanceDestroy : Nat → Heap σ φ β → Nat → Except Fault (Heap σ φ β)
  | 0, _, _ => .error .depth
  | depth + 1, h, cur => do
      let si ← h.inst cur
      if si.emitting ≠ 0 then .ok (h.setInst cur { si with quit := true, destroyed := true })
      else do
        let h ← destroyNodes depth h cur si.nodes.head?
        let h ← (match si.parent with
          | some parent => h.slistRemove parent cur
          | none => .ok h)
        let si ← h.inst cur
        let areas ← ofArea (Area.Heap.areaDestroy depth h.areas si.area)
        .ok { h with areas := areas }

/-- The loop over the nodes.  The next one is read before the call. -/
def destroyNodes : Nat → Heap σ φ β → Nat → Option Nat → Except Fault (Heap σ φ β)
  | _, h, _, none => .ok h
  | 0, _, _, some _ => .error .depth
  | depth + 1, h, cur, some s => do
      let si ← h.inst cur
      let _ ← h.inst s
      let snext := Area.Heap.slistNext si.nodes s
      let h ← sigInstanceDestroy depth h s
      destroyNodes depth h cur snext

end

/-! ## Signals -/

/-- `sig_register`.  The signal is at `new` if the name was not there. -/
def sigRegister [DecidableEq σ] (h : Heap σ φ β) (p : Nat) (sig : σ) (mfunc : Marshal β)
    (new : Nat) : Except Fault (Heap σ φ β) := do
  let si ← h.inst p
  match si.htable sig with
  | some _ => .ok h
  | none =>
      let s : Signal φ β := { area := si.area, flags := 0, marshal := mfunc, handlers := [] }
      .ok ((h.setInst p { si with htable := Function.update si.htable sig (some new) }).setSignal
        new s)

def sigUnregister [DecidableEq σ] (h : Heap σ φ β) (p : Nat) (sig : σ) :
    Except Fault (Heap σ φ β) := do
  let si ← h.inst p
  .ok (h.setInst p { si with htable := Function.update si.htable sig none })

/-- The signal of the next ancestor that has the name. -/
def findUp : Nat → Heap σ φ β → Option Nat → σ → Except Fault (Option (Signal φ β))
  | _, _, none, _ => .ok none
  | 0, _, some _, _ => .error .depth
  | depth + 1, h, some tmp, sig => do
      let si ← h.inst tmp
      match si.htable sig with
      | none => findUp depth h si.parent sig
      | some sp => (h.signal sp).map some

def insertCell (c : Cell φ) (cs : List (Cell φ)) : List (Cell φ) :=
  match c.priority with
  | .first => c :: cs
  | .last => cs ++ [c]

def connectSignal (h : Heap σ φ β) (sp : Nat) (s : Signal φ β) (c : Cell φ) : Heap σ φ β :=
  h.setSignal sp { s with handlers := insertCell c s.handlers }

/-- `_sig_connect`, with the addresses of the handler and of a signal. -/
def sigConnect [DecidableEq σ] (depth : Nat) (h : Heap σ φ β) (p : Nat) (sig : σ) (c : Cell φ)
    (new : Nat) : Except Fault (Heap σ φ β) := do
  let si ← h.inst p
  match si.htable sig with
  | some sp => do
      let s ← h.signal sp
      .ok (h.connectSignal sp s c)
  | none => do
      match ← findUp depth h si.parent sig with
      | none => .ok h
      | some os =>
          let s : Signal φ β :=
            { area := si.area, flags := os.flags, marshal := os.marshal, handlers := [] }
          .ok ((h.setInst p { si with
            htable := Function.update si.htable sig (some new) }).connectSignal new s c)

/-- `_sig_disconnect`. -/
def sigDisconnect [DecidableEq φ] (h : Heap σ φ β) (p : Nat) (sig : σ) (cb : φ) :
    Except Fault (Heap σ φ β) := do
  let si ← h.inst p
  match si.htable sig with
  | none => .ok h
  | some sp => do
      let s ← h.signal sp
      .ok (h.setSignal sp { s with handlers := s.handlers.eraseP (·.func = cb) })

mutual

/-- `sig_set_flags` and `sig_unset_flags`, with what they make of the flags. -/
def changeFlags (f : UInt32 → UInt32) :
    Nat → Heap σ φ β → Nat → σ → Except Fault (Heap σ φ β × Bool)
  | 0, _, _, _ => .error .depth
  | depth + 1, h, p, sig => do
      let si ← h.inst p
      let (h, all) ← changeNodes f depth h si.nodes sig
      if all then
        match si.htable sig with
        | none => .ok (h, false)
        | some sp => do
            let s ← h.signal sp
            .ok (h.setSignal sp { s with flags := f s.flags }, true)
      else .ok (h, false)

/-- The loop over the nodes, which ends with the first one that gives 0. -/
def changeNodes (f : UInt32 → UInt32) :
    Nat → Heap σ φ β → List Nat → σ → Except Fault (Heap σ φ β × Bool)
  | _, h, [], _ => .ok (h, true)
  | 0, _, _ :: _, _ => .error .depth
  | depth + 1, h, tmp :: nodes, sig => do
      let (h, ok) ← changeFlags f depth h tmp sig
      if ok then changeNodes f depth h nodes sig else .ok (h, false)

end

def sigSetFlags (flags : UInt32) : Nat → Heap σ φ β → Nat → σ → Except Fault (Heap σ φ β × Bool) :=
  changeFlags (· ||| flags)

def sigUnsetFlags (flags : UInt32) :
    Nat → Heap σ φ β → Nat → σ → Except Fault (Heap σ φ β × Bool) :=
  changeFlags (· &&& ~~~flags)

end Heap
end Signals
end IrC6
