import IrC6.Area.Region

/-!
# The life of a connection

`main.c` keeps the connections in a list, and each has an area below the root area.  Its
`connection_t` lies there, and all that its callbacks allocate.  A callback runs with an area
of its own below that one, which it destroys at its end.  If it closes the connection, the
whole area of the connection goes, and `longjmp` leaves the callback.

What the callbacks do with areas is a parameter: calls that name areas of the connection,
destroy neither its area nor that of the callback, and leave its `connection_t` alone.
-/

namespace IrC6
namespace Lifecycle

open Area Heap

/-- `connection_t`: where it lies, its area, and whether `jmp` has been set. -/
structure Conn where
  ptr : Nat
  area : Nat
  jmp : Bool
deriving DecidableEq, Repr

/-- What `main.c` keeps, with `connection_list` from its head on. -/
structure Program where
  heap : Heap
  root : Nat
  connectionList : List Conn

/-- Calls one after the other. -/
def runCalls (h : Heap) : List Op → Except Fault Heap
  | [] => .ok h
  | o :: os => do
      let h ← o.call h
      runCalls h os

/-- The start of `main`: the root area and `ev_root`, which `sig_instance_new` puts into an area
of its own. -/
def startMain (root evRoot : Nat) (setup : List Op) : Except Fault Program := do
  let h ← (areaRoot root).areaNode root evRoot
  let h ← runCalls h setup
  return { heap := h, root := root, connectionList := [] }

/-- `irC6_new_connection`, with the calls of `sig_instance_node`, `hashtable_new` and the
modules. -/
def newConnection (sizeofConn : UInt64) (p : Program) (area ptr : Nat) (setup : List Op) :
    Except Fault Program := do
  let h ← p.heap.areaNode p.root area
  let h ← h.calloc area ptr 1 sizeofConn
  let h ← runCalls h setup
  return { p with heap := h, connectionList := ⟨ptr, area, false⟩ :: p.connectionList }

/-- `irC6_close_connection`, with the calls of the modules, and whether it ends in `longjmp`. -/
def closeConnection (depth : Nat) (p : Program) (ptr : Nat) (frees : List Op) :
    Except Fault (Program × Bool) :=
  match p.connectionList.find? (·.ptr = ptr) with
  | none => .error .dangling
  | some c => do
      let _ ← p.heap.chunk ptr
      let h ← runCalls p.heap frees
      let h ← areaDestroy depth h c.area
      return ({ p with heap := h, connectionList := p.connectionList.erase c }, c.jmp)

/-- `add_connection`, behind `accept`.  Without an address of its own the connection is closed
by `gui fatal`. -/
def addConnection (sizeofConn : UInt64) (depth : Nat) (p : Program) (area ptr : Nat)
    (setup frees : List Op) (getMyIp : Bool) : Except Fault Program := do
  let p ← newConnection sizeofConn p area ptr setup
  if getMyIp then return p
  else do
    let (p, jumps) ← closeConnection depth p ptr frees
    if jumps then return p
    else do
      -- `EMIT` and `event_set` go on with the connection.
      let _ ← p.heap.chunk ptr
      return p

/-- `setjmp` in a callback of the connection at `ptr`. -/
def setJmp (ptr : Nat) (d : Conn) : Conn := if d.ptr = ptr then { d with jmp := true } else d

/-- The end of a callback.  With calls for the modules it closes the connection. -/
def finish (depth : Nat) (p : Program) (ptr atmp : Nat) (close : Option (List Op)) :
    Except Fault Program :=
  match close with
  | none => do
      let h ← areaDestroy depth p.heap atmp
      return { p with heap := h }
  | some frees => do
      let (p, jumps) ← closeConnection depth p ptr frees
      if jumps then return p
      else do
        -- `irC6_callback_end` would read the area from the connection.
        let _ ← p.heap.chunk ptr
        return p

/-- A callback: `irC6_callback_start`, what it does, and its end. -/
def callback (depth : Nat) (p : Program) (ptr atmp : Nat) (body : List Op)
    (close : Option (List Op)) : Except Fault Program :=
  match p.connectionList.find? (·.ptr = ptr) with
  | none => .error .dangling
  | some c => do
      let h ← p.heap.areaNode c.area atmp
      let h ← runCalls h body
      finish depth { p with heap := h, connectionList := p.connectionList.map (setJmp ptr) }
        ptr atmp close

/-- `exit_program`, with the calls of the modules for all connections. -/
def exitProgram (depth : Nat) (p : Program) (frees : List Op) : Except Fault Heap := do
  let h ← runCalls p.heap frees
  areaDestroy depth h p.root

/-- What libevent calls: `add_connection` and the callbacks of the connections. -/
inductive Event where
  | accept (area ptr : Nat) (setup frees : List Op) (getMyIp : Bool)
  | wake (ptr atmp : Nat) (body : List Op) (close : Option (List Op))

def Event.run (sizeofConn : UInt64) (depth : Nat) (p : Program) :
    Event → Except Fault (Program × Unit)
  | .accept area ptr setup frees getMyIp =>
      (addConnection sizeofConn depth p area ptr setup frees getMyIp).map fun p => (p, ())
  | .wake ptr atmp body close => (callback depth p ptr atmp body close).map fun p => (p, ())

/-! ## Calls of one connection -/

/-- The call stays below `top` and destroys neither it nor `spare`, and is not given `ptr`.  The
depth that it comes with suffices. -/
structure CallOk (top spare : Nat) (ptr : Option Nat) (h : Heap) (o : Op) : Prop where
  allowed : o.Allowed h
  below : o.Below h top
  spares : o.destroys ≠ some spare
  chunk : ∀ cp, ptr = some cp → o.chunk ≠ some cp
  ends : o.call h ≠ .error .depth

def CallsOk (top spare : Nat) (ptr : Option Nat) : Heap → List Op → Prop
  | _, [] => True
  | h, o :: os =>
      CallOk top spare ptr h o ∧ ∀ h', o.call h = .ok h' → CallsOk top spare ptr h' os

/-- One call that destroys nothing. -/
theorem callsOk_singleton {top spare : Nat} {ptr : Option Nat} {h : Heap} {o : Op}
    (hok : o.Allowed h) (hareas : ∀ a ∈ o.areas, Forest.Below h.links top a)
    (hdes : o.destroys = none) (hchunk : ∀ cp, ptr = some cp → o.chunk ≠ some cp)
    (hends : o.call h ≠ .error .depth) : CallsOk top spare ptr h [o] := by
  have hkeeps : ∀ a, o.destroys ≠ some a := by
    intro a
    rw [hdes]
    exact (Option.some_ne_none a).symm
  exact ⟨⟨hok, ⟨hareas, hkeeps top⟩, hkeeps spare, hchunk, hends⟩, fun _ _ => trivial⟩

theorem CallsOk.ends {top spare : Nat} {ptr : Option Nat} {h : Heap} {os : List Op}
    (hok : CallsOk top spare ptr h os) : runCalls h os ≠ .error .depth := by
  induction os generalizing h with
  | nil => exact ok_ne_error
  | cons o os ih => exact bind_ne_error hok.1.ends fun h₁ hcall => ih (hok.2 h₁ hcall)

/-- There was no room for a block, or the depth did not suffice. -/
def Lacking {α : Type} (r : Except Fault α) : Prop := r = .error .outside ∨ r = .error .depth

theorem Lacking.map {α β : Type} {r : Except Fault α} (h : Lacking r) (f : α → β) :
    Lacking (r.map f) := by
  rcases h with rfl | rfl
  · exact Or.inl rfl
  · exact Or.inr rfl

theorem Lacking.bind {α β : Type} {r : Except Fault α} (h : Lacking r) (f : α → Except Fault β) :
    Lacking (r >>= f) := by
  rcases h with rfl | rfl
  · exact Or.inl rfl
  · exact Or.inr rfl

/-- What is kept of `top` through calls of `CallOk`: its chunk, and the area `spare` in it. -/
structure Held (top spare : Nat) (ptr : Option Nat) (h : Heap) : Prop where
  owned : Owned h
  place : ∃ p ns, h.links top = some (p, ns)
  chunk : ∀ cp, ptr = some cp → cp ∈ h.chunksOf top
  spare : spare = top ∨ ∃ ns, h.links spare = some (some top, ns)

variable {top spare : Nat} {ptr : Option Nat} {h h' : Heap}

theorem Held.call (hh : Held top spare ptr h) {o : Op} (hok : CallOk top spare ptr h o)
    (hrun : o.call h = .ok h') : Held top spare ptr h' ∧ Inside h top h' := by
  have ho := hh.owned
  -- what is destroyed has neither of the two below it
  have htop : ∀ d, o.destroys = some d → ¬Forest.Below h.links d top := by
    intro d hdes hbelow
    have hd : Forest.Below h.links top d := by
      cases o with
      | destroy a depth =>
          cases hdes
          exact hok.below.areas d List.mem_cons_self
      | _ => cases hdes
    obtain ⟨p, ns, hlinks⟩ := hh.place
    have hlive : (h.areas top).isSome := isSome_links.mp (by rw [hlinks]; rfl)
    obtain rfl := ho.below_antisymm hlive hd hbelow
    exact hok.below.keeps hdes
  have hspare : ∀ d, o.destroys = some d → ¬Forest.Below h.links d spare := by
    intro d hdes hbelow
    rcases hh.spare with rfl | ⟨ns, hlinks⟩
    · exact htop d hdes hbelow
    · have hne : spare ≠ d := fun hsd => hok.spares (hsd ▸ hdes)
      obtain ⟨q, ns', hlinks', hq⟩ := ho.below_up hbelow hne
      rw [hlinks] at hlinks'
      cases hlinks'
      exact htop d hdes hq
  obtain ⟨p, ns, hlinks⟩ := hh.place
  obtain ⟨⟨ns', hlinks'⟩, hchunks⟩ := Op.spares ho hok.allowed hrun hlinks htop
  refine ⟨⟨Op.owned ho hok.allowed hrun, ⟨p, ns', hlinks'⟩, fun cp hcp => ?_, ?_⟩,
    Op.inside ho hok.allowed hok.below hrun⟩
  · exact hchunks cp (hh.chunk cp hcp) (hok.chunk cp hcp)
  · rcases hh.spare with hst | ⟨ks, hks⟩
    · exact Or.inl hst
    · exact Or.inr (Op.spares ho hok.allowed hrun hks hspare).1

theorem Held.runCalls (hh : Held top spare ptr h) {os : List Op}
    (hok : CallsOk top spare ptr h os) :
    (∃ h', Lifecycle.runCalls h os = .ok h' ∧ Held top spare ptr h' ∧ Inside h top h') ∨
      Lacking (Lifecycle.runCalls h os) := by
  induction os generalizing h with
  | nil => exact Or.inl ⟨h, rfl, hh, .refl hh.owned top⟩
  | cons o os ih =>
      have hcall := Op.call_owned hh.owned hok.1.allowed
      rcases hcall with ⟨h₁, hrun, -⟩ | herr
      · obtain ⟨hh₁, hi⟩ := hh.call hok.1 hrun
        rw [Lifecycle.runCalls, hrun]
        rcases ih hh₁ (hok.2 h₁ hrun) with ⟨h', hruns, hh', hi'⟩ | hlacking
        · exact Or.inl ⟨h', hruns, hh', hi.trans hi' hh.owned⟩
        · exact Or.inr hlacking
      · exact Or.inr (Lacking.bind herr _)

/-- The area in `top` has been destroyed, which was made for the time. -/
theorem Held.destroyed (hh : Held top spare ptr h) {ns : List Nat}
    (hlinks : h.links spare = some (some top, ns)) (hd : Destroyed h spare h') (ho' : Owned h') :
    Held top top ptr h' ∧ Inside h top h' := by
  obtain ⟨node, hnode, hparent, -⟩ := exists_of_links hlinks
  obtain ⟨hnot, tnode, htop, hin, -⟩ := hd.parent node top hnode hparent
  have hlinks' : h.links top = some (tnode.parent, tnode.nodes) := by
    rw [Heap.links, htop]
    rfl
  obtain ⟨hchunks, ns', hplace, -⟩ := hd.spares hnot hlinks'
  refine ⟨⟨ho', ⟨_, ns', hplace⟩, fun cp hcp => ?_, Or.inl rfl⟩, ?_⟩
  · rw [hchunks]
    exact hh.chunk cp hcp
  · exact hh.owned.inside_destroyed (.child .refl hlinks' hin) (fun heq => hnot (heq ▸ .refl))
      hd ho'

end Lifecycle
end IrC6
