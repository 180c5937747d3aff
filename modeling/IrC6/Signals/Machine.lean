import IrC6.Base.Faults
import IrC6.Base.Runs
import IrC6.Signals.Instance

/-!
# Emissions in memory

`sig_emit` starts at an instance, climbs to its ancestors and runs the handlers that it
finds.  A handler makes calls of its own, emissions too, so that an emission is many steps
and the emissions that have not come back are a stack.

The `va_list` is a cursor.  A marshal reads from it what it hands to the handler, and the
next marshal goes on from there.  What `sig_vemit` does is the same, with the list that it is
given.  A frame also knows what it was given and how many handlers it has run, and the
machine keeps a record of the handlers that ran and of those that were released.
-/

namespace IrC6
namespace Signals

variable {σ φ β : Type}

/-! ## Marshals -/

/-- The parameters in turn, each read with `va_arg`, and the rest of the list.  There is
nothing to read past its end. -/
def readArgs : List (β → β) → List β → List (Option β) × List β
  | [], ap => ([], ap)
  | p :: ps, ap => ((ap.head?.map p) :: (readArgs ps ap.tail).1, (readArgs ps ap.tail).2)

/-- The arguments are those that the marshal reads, and its conversions leave them alone. -/
def Marshal.Matches (m : Marshal β) (args : List β) : Prop :=
  List.Forall₂ (fun p a => p a = a) m.params args

/-! ## The machine -/

/-- Where an emission is: at the signal of the next instance, in a handler, which has or has
not asked to quit its instance, or behind the handlers, with the counter at 0 or not. -/
inductive Phase where
  | seek
  | handler (sp hdl : Nat) (asked : Bool)
  | left (last : Bool)

/-- The variables of `sig_emit` and of its `sig_emit_real`, with the arguments that it was
given and the number of handlers that it has run. -/
structure Frame (σ β : Type) where
  sig : σ
  args : List β
  ap : List β
  calls : Nat
  si : Nat
  tmp : Option Nat
  phase : Phase

/-- A handler that ran: the instance that it is connected on, what the emission was given,
the handlers that ran before it, what it received, and if one before it on this instance
had asked to quit. -/
structure Handled (β : Type) where
  owner : Nat
  marshal : Marshal β
  args : List β
  nth : Nat
  got : List (Option β)
  afterQuit : Bool

/-- The instances, the emissions from the last one on, the handlers that ran, and those that
were released, by instance and with the area that `a_free` was given. -/
structure Machine (σ φ β : Type) where
  heap : Heap σ φ β
  stack : List (Frame σ β)
  calls : List (Handled β)
  released : List (Nat × Nat)

/-- The end of `sig_emit_real`, up to its last assignment, and if the counter is 0. -/
def Heap.leaveReal (depth : Nat) (h : Heap σ φ β) (p : Nat) : Except Fault (Heap σ φ β × Bool) := do
  let si ← h.inst p
  let h := h.setInst p { si with emitting := si.emitting - 1 }
  if si.emitting - 1 = 0 then do
    let h ← if si.destroyed then sigInstanceDestroy depth h p else .ok h
    .ok (h, true)
  else .ok (h, false)

namespace Machine

def start (heap : Heap σ φ β) : Machine σ φ β :=
  { heap := heap, stack := [], calls := [], released := [] }

/-- `si = tmp, tmp = tmp->parent`. -/
def climb (m : Machine σ φ β) (f : Frame σ β) (fs : List (Frame σ β)) (tmp : Nat) :
    Except Fault (Machine σ φ β) := do
  let ti ← m.heap.inst tmp
  .ok { m with stack := { f with si := tmp, tmp := ti.parent, phase := .seek } :: fs }

/-- The call of the marshal, which calls the handler. -/
def callHandler (m : Machine σ φ β) (f : Frame σ β) (fs : List (Frame σ β)) (tmp sp : Nat)
    (s : Signal φ β) (c : Cell φ) (asked : Bool) : Machine σ φ β :=
  let r := readArgs s.marshal.params f.ap
  { m with
    stack := { f with ap := r.2, calls := f.calls + 1, phase := .handler sp c.addr asked } :: fs
    calls := { owner := tmp, marshal := s.marshal, args := f.args, nth := f.calls, got := r.1,
               afterQuit := asked } :: m.calls }

def leave (depth : Nat) (m : Machine σ φ β) (f : Frame σ β) (fs : List (Frame σ β)) :
    Except Fault (Machine σ φ β) := do
  let (h, last) ← m.heap.leaveReal depth f.si
  .ok { m with heap := h, stack := { f with phase := .left last } :: fs }

/-- The start of `sig_emit_real`, up to the first handler. -/
def enter (depth : Nat) (m : Machine σ φ β) (f : Frame σ β) (fs : List (Frame σ β))
    (tmp sp : Nat) (s : Signal φ β) : Except Fault (Machine σ φ β) := do
  let si ← m.heap.inst f.si
  let m := { m with heap := m.heap.setInst f.si { si with emitting := si.emitting + 1 } }
  match s.handlers with
  | [] => m.leave depth f fs
  | c :: _ => .ok (m.callHandler f fs tmp sp s c false)

/-- The handler and the next one, if it is still in the list. -/
def nextHandler : List (Cell φ) → Nat → Option (Cell φ × Option (Cell φ))
  | [], _ => none
  | c :: cs, hdl => if c.addr = hdl then some (c, cs.head?) else nextHandler cs hdl

/-- The handlers when one has run, and if it was its last time. -/
def countHandler (cs : List (Cell φ)) (c : Cell φ) : List (Cell φ) × Bool :=
  if c.count = forever then (cs, false)
  else if c.count - 1 = 0 then (cs.eraseP (·.addr = c.addr), true)
  else (cs.map fun x => if x.addr = c.addr then { x with count := c.count - 1 } else x, false)

/-- What `sig_emit_real` does when a handler comes back. -/
def handlerReturns (depth : Nat) (m : Machine σ φ β) (f : Frame σ β) (fs : List (Frame σ β))
    (tmp sp hdl : Nat) (asked : Bool) : Except Fault (Machine σ φ β) := do
  let s ← m.heap.signal sp
  match nextHandler s.handlers hdl with
  | none => .error .dangling
  | some (c, next) => do
      let si ← m.heap.inst f.si
      let r := countHandler s.handlers c
      let m := { m with
        heap := m.heap.setSignal sp { s with handlers := r.1 }
        released := if r.2 then (tmp, si.area) :: m.released else m.released }
      if s.locked || si.quit then m.leave depth f fs
      else
        match next with
        | none => m.leave depth f fs
        | some c' => .ok (m.callHandler f fs tmp sp s c' asked)

/-- The next step of the last emission. -/
def go (depth : Nat) (m : Machine σ φ β) : Except Fault (Machine σ φ β) :=
  match m.stack with
  | [] => .ok m
  | f :: fs =>
      match f.tmp with
      | none => .ok { m with stack := fs }
      | some tmp =>
          match f.phase with
          | .seek => do
              let ti ← m.heap.inst tmp
              match ti.htable f.sig with
              | none => m.climb f fs tmp
              | some sp => do
                  let s ← m.heap.signal sp
                  if s.locked then m.climb f fs tmp else m.enter depth f fs tmp sp s
          | .handler sp hdl asked => m.handlerReturns depth f fs tmp sp hdl asked
          | .left true => do
              let si ← m.heap.inst f.si
              { m with heap := m.heap.setInst f.si { si with quit := false } }.climb f fs tmp
          | .left false => m.climb f fs tmp

end Machine

/-! ## Steps -/

/-- The calls that the program and its handlers make. -/
inductive Api (σ φ β : Type) where
  | quit (p : Nat)
  | destroy (p depth : Nat)
  | new (area si anode : Nat)
  | node (area parent : Option Nat) (si anode : Nat)
  | register (p : Nat) (sig : σ) (mfunc : Marshal β) (sp : Nat)
  | unregister (p : Nat) (sig : σ)
  | connect (p : Nat) (sig : σ) (c : Cell φ) (sp depth : Nat)
  | disconnect (p : Nat) (sig : σ) (cb : φ)
  | setFlags (p : Nat) (sig : σ) (flags : UInt32) (depth : Nat)
  | unsetFlags (p : Nat) (sig : σ) (flags : UInt32) (depth : Nat)

namespace Api

def call [DecidableEq σ] [DecidableEq φ] (h : Heap σ φ β) : Api σ φ β → Except Fault (Heap σ φ β)
  | quit p => h.sigInstanceQuit p
  | destroy p depth => Heap.sigInstanceDestroy depth h p
  | new area si anode => h.sigInstanceNew area si anode
  | node area parent si anode => h.sigInstanceNode area parent si anode
  | register p sig mfunc sp => h.sigRegister p sig mfunc sp
  | unregister p sig => h.sigUnregister p sig
  | connect p sig c sp depth => h.sigConnect depth p sig c sp
  | disconnect p sig cb => h.sigDisconnect p sig cb
  | setFlags p sig flags depth => (Heap.sigSetFlags flags depth h p sig).map Prod.fst
  | unsetFlags p sig flags depth => (Heap.sigUnsetFlags flags depth h p sig).map Prod.fst

/-- The addresses of what the call makes have not been used. -/
def Allowed (h : Heap σ φ β) : Api σ φ β → Prop
  | new _ si anode | node _ _ si anode => h.insts si = none ∧ h.FreshArea anode
  | register _ _ _ sp => h.sigs sp = none
  | connect _ _ c sp _ =>
      h.sigs sp = none ∧ ∀ sp' s, h.sigs sp' = some s → ∀ c' ∈ s.handlers, c'.addr ≠ c.addr
  | _ => True

end Api

/-- A handler that asks to quit its own instance. -/
def Frame.note (f : Frame σ β) (call : Api σ φ β) : Frame σ β :=
  match call, f.phase, f.tmp with
  | .quit p, .handler sp hdl _, some tmp =>
      if p = tmp then { f with phase := .handler sp hdl true } else f
  | _, _, _ => f

inductive Action (σ φ β : Type) where
  | emit (p : Nat) (sig : σ) (args : List β)
  | api (call : Api σ φ β)
  | go (depth : Nat)

namespace Machine

def run [DecidableEq σ] [DecidableEq φ] (m : Machine σ φ β) :
    Action σ φ β → Except Fault (Machine σ φ β × Unit)
  | .emit p sig args => .ok ({ m with
      stack := { sig := sig, args := args, ap := args, calls := 0, si := p, tmp := some p,
                 phase := .seek } :: m.stack }, ())
  | .api call => do
      let h ← call.call m.heap
      .ok ({ m with heap := h, stack := match m.stack with
        | [] => []
        | f :: fs => f.note call :: fs }, ())
  | .go depth => (m.go depth).map fun m => (m, ())

/-- It is the program or a handler that makes calls. -/
def Calling (m : Machine σ φ β) : Prop :=
  ∀ f ∈ m.stack.head?, ∃ sp hdl asked, f.phase = .handler sp hdl asked

def Allowed (m : Machine σ φ β) : Action σ φ β → Prop
  | .emit .. => m.Calling
  | .api call => m.Calling ∧ call.Allowed m.heap
  | .go _ => True

/-! ## What a step can do -/

/-- The emission has come to a signal of `tmp` that is not locked. -/
def Found (m : Machine σ φ β) (f : Frame σ β) (tmp sp : Nat) (s : Signal φ β) : Prop :=
  f.tmp = some tmp ∧ f.phase = .seek ∧
    (∃ ti, m.heap.inst tmp = .ok ti ∧ ti.htable f.sig = some sp) ∧
      m.heap.signal sp = .ok s ∧ s.locked = false

/-- The handlers of the signal as they are when one has run, and what was released. -/
def Counted (m : Machine σ φ β) (f : Frame σ β) (tmp sp : Nat) (asked : Bool) (s : Signal φ β)
    (si : Siginst σ) (m' : Machine σ φ β) : Prop :=
  f.tmp = some tmp ∧ (∃ hdl, f.phase = .handler sp hdl asked) ∧ m.heap.signal sp = .ok s ∧
    m.heap.inst f.si = .ok si ∧ ∃ cs released,
      (released = m.released ∨ released = (tmp, si.area) :: m.released) ∧
      m' = { m with heap := m.heap.setSignal sp { s with handlers := cs }, released := released }

/-- The steps of an emission, the last one on the stack. -/
inductive Went (m : Machine σ φ β) (f : Frame σ β) (fs : List (Frame σ β)) :
    Machine σ φ β → Prop where
  | back : f.tmp = none → Went m f fs { m with stack := fs }
  | climb {tmp : Nat} {ti : Siginst σ} : f.tmp = some tmp →
      (f.phase = .seek ∨ f.phase = .left false) →
      Went m f fs
        { m with stack := { f with si := tmp, tmp := ti.parent, phase := .seek } :: fs }
  | clear {tmp : Nat} {si ti : Siginst σ} : f.tmp = some tmp → f.phase = .left true →
      m.heap.inst f.si = .ok si →
      Went m f fs { m with
        heap := m.heap.setInst f.si { si with quit := false }
        stack := { f with si := tmp, tmp := ti.parent, phase := .seek } :: fs }
  | pass {tmp sp depth : Nat} {s : Signal φ β} {si : Siginst σ} {h : Heap σ φ β} {last : Bool} :
      m.Found f tmp sp s → s.handlers = [] → m.heap.inst f.si = .ok si →
      (m.heap.setInst f.si { si with emitting := si.emitting + 1 }).leaveReal depth f.si =
        .ok (h, last) →
      Went m f fs { m with heap := h, stack := { f with phase := .left last } :: fs }
  | first {tmp sp : Nat} {s : Signal φ β} {si : Siginst σ} {c : Cell φ} {cs : List (Cell φ)} :
      m.Found f tmp sp s → s.handlers = c :: cs → m.heap.inst f.si = .ok si →
      Went m f fs ({ m with
        heap := m.heap.setInst f.si { si with emitting := si.emitting + 1 } }.callHandler f fs tmp
          sp s c false)
  | last {tmp sp depth : Nat} {asked last : Bool} {s : Signal φ β} {si : Siginst σ}
      {m' : Machine σ φ β} {h : Heap σ φ β} : m.Counted f tmp sp asked s si m' →
      m'.heap.leaveReal depth f.si = .ok (h, last) →
      Went m f fs { m' with heap := h, stack := { f with phase := .left last } :: fs }
  | next {tmp sp : Nat} {asked : Bool} {s : Signal φ β} {si : Siginst σ} {m' : Machine σ φ β}
      {c : Cell φ} : m.Counted f tmp sp asked s si m' → si.quit = false →
      Went m f fs (m'.callHandler f fs tmp sp s c asked)

variable {m m' : Machine σ φ β} {f : Frame σ β} {fs : List (Frame σ β)} {depth tmp : Nat}

theorem climb_eq_ok (h : m.climb f fs tmp = .ok m') : ∃ ti : Siginst σ,
    m' = { m with stack := { f with si := tmp, tmp := ti.parent, phase := .seek } :: fs } := by
  obtain ⟨ti, -, h⟩ := exists_of_bind_eq_ok h
  injection h with h
  exact ⟨ti, h.symm⟩

theorem leave_eq_ok (h : m.leave depth f fs = .ok m') : ∃ h' last,
    m.heap.leaveReal depth f.si = .ok (h', last) ∧
      m' = { m with heap := h', stack := { f with phase := .left last } :: fs } := by
  obtain ⟨⟨h', last⟩, hleave, h⟩ := exists_of_bind_eq_ok h
  injection h with h
  exact ⟨h', last, hleave, h.symm⟩

theorem went_enter {sp : Nat} {s : Signal φ β} (hf : m.Found f tmp sp s)
    (h : m.enter depth f fs tmp sp s = .ok m') : Went m f fs m' := by
  obtain ⟨si, hsi, h⟩ := exists_of_bind_eq_ok h
  rcases hcs : s.handlers with _ | ⟨c, cs⟩
  · simp only [hcs] at h
    rcases leave_eq_ok h with ⟨h', last, hleave, rfl⟩
    exact .pass hf hcs hsi hleave
  · simp only [hcs] at h
    injection h with h
    exact h ▸ .first hf hcs hsi

theorem went_handlerReturns {sp hdl : Nat} {asked : Bool} (htmp : f.tmp = some tmp)
    (hphase : f.phase = .handler sp hdl asked)
    (h : m.handlerReturns depth f fs tmp sp hdl asked = .ok m') : Went m f fs m' := by
  obtain ⟨s, hs, h⟩ := exists_of_bind_eq_ok h
  rcases hnext : nextHandler s.handlers hdl with _ | ⟨c, next⟩
  · simp only [hnext] at h
    nomatch h
  · simp only [hnext] at h
    obtain ⟨si, hsi, h⟩ := exists_of_bind_eq_ok h
    have hcounted : m.Counted f tmp sp asked s si { m with
        heap := m.heap.setSignal sp { s with handlers := (countHandler s.handlers c).1 }
        released := if (countHandler s.handlers c).2 then (tmp, si.area) :: m.released
          else m.released } := by
      refine ⟨htmp, ⟨hdl, hphase⟩, hs, hsi, _, _, ?_, rfl⟩
      by_cases hlast : (countHandler s.handlers c).2 = true
      · exact Or.inr (if_pos hlast)
      · exact Or.inl (if_neg hlast)
    by_cases hstop : (s.locked || si.quit) = true
    · rw [if_pos hstop] at h
      rcases leave_eq_ok h with ⟨h', last, hleave, rfl⟩
      exact .last hcounted hleave
    · rw [if_neg hstop] at h
      rcases next with _ | c'
      · rcases leave_eq_ok h with ⟨h', last, hleave, rfl⟩
        exact .last hcounted hleave
      · injection h with h
        rw [Bool.or_eq_true, not_or] at hstop
        exact h ▸ .next hcounted (Bool.eq_false_iff.mpr hstop.2)

theorem went_go (hstack : m.stack = f :: fs) (h : m.go depth = .ok m') : Went m f fs m' := by
  rw [go, hstack] at h
  rcases htmp : f.tmp with _ | tmp
  · simp only [htmp] at h
    injection h with h
    exact h ▸ .back htmp
  · simp only [htmp] at h
    rcases hphase : f.phase with _ | ⟨sp, hdl, asked⟩ | ⟨_ | _⟩
    · simp only [hphase] at h
      obtain ⟨ti, hti, h⟩ := exists_of_bind_eq_ok h
      rcases hsp : ti.htable f.sig with _ | sp
      · simp only [hsp] at h
        rcases climb_eq_ok h with ⟨ti, rfl⟩
        exact .climb htmp (Or.inl hphase)
      · simp only [hsp] at h
        obtain ⟨s, hs, h⟩ := exists_of_bind_eq_ok h
        by_cases hlocked : s.locked = true
        · rw [if_pos hlocked] at h
          rcases climb_eq_ok h with ⟨ti, rfl⟩
          exact .climb htmp (Or.inl hphase)
        · rw [if_neg hlocked] at h
          exact went_enter ⟨htmp, hphase, ⟨ti, hti, hsp⟩, hs, Bool.eq_false_iff.mpr hlocked⟩ h
    · simp only [hphase] at h
      exact went_handlerReturns htmp hphase h
    · simp only [hphase] at h
      rcases climb_eq_ok h with ⟨ti, rfl⟩
      exact .climb htmp (Or.inr hphase)
    · simp only [hphase] at h
      obtain ⟨si, hsi, h⟩ := exists_of_bind_eq_ok h
      rcases climb_eq_ok h with ⟨ti, rfl⟩
      exact .clear htmp hphase hsi

variable [DecidableEq σ] [DecidableEq φ]

theorem go_of_run {u : Unit} (h : m.run (.go depth) = .ok (m', u)) : m.go depth = .ok m' := by
  change (m.go depth).map (fun m => (m, ())) = .ok (m', u) at h
  cases hm : m.go depth with
  | error e =>
      rw [hm] at h
      nomatch h
  | ok m₁ =>
      rw [hm] at h
      injection h with h
      exact congrArg Except.ok (congrArg Prod.fst h)

theorem run_go {u : Unit} (h : m.run (.go depth) = .ok (m', u)) :
    m.stack = [] ∧ m' = m ∨ ∃ f fs, m.stack = f :: fs ∧ Went m f fs m' := by
  have hgo := go_of_run h
  rcases hstack : m.stack with _ | ⟨f, fs⟩
  · rw [go, hstack] at hgo
    injection hgo with hgo
    exact Or.inl ⟨rfl, hgo.symm⟩
  · exact Or.inr ⟨f, fs, rfl, went_go hstack hgo⟩

theorem run_emit {p : Nat} {sig : σ} {args : List β} {u : Unit}
    (h : m.run (.emit p sig args) = .ok (m', u)) : m' = { m with stack :=
      { sig := sig, args := args, ap := args, calls := 0, si := p, tmp := some p,
        phase := .seek } :: m.stack } := by
  injection h with h
  exact (congrArg Prod.fst h).symm

theorem run_api {call : Api σ φ β} {u : Unit} (h : m.run (.api call) = .ok (m', u)) :
    ∃ heap, call.call m.heap = .ok heap ∧ m' = { m with heap := heap, stack :=
      match m.stack with
      | [] => []
      | f :: fs => f.note call :: fs } := by
  obtain ⟨heap, hcall, h⟩ := exists_of_bind_eq_ok h
  injection h with h
  exact ⟨heap, hcall, (congrArg Prod.fst h).symm⟩

end Machine

end Signals
end IrC6
