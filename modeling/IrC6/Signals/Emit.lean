import Mathlib.Logic.Function.Basic

/-!
# Signals

An instance holds a list of handlers for each signal that is registered with it.
An emission runs the handlers of an instance and of its ancestors.  A handler has a
count, and goes when it has run that often.

A handler's function is a name here, and an emission gives the names in the order in
which they are called.  The functions connected to the signals modelled so far write
lines and packets and leave the instances alone.  What their marshals read, and handlers
that make calls of their own, are in `Machine`.
-/

namespace IrC6
namespace Signals

/-- `SIGNALS_FIRST` and `SIGNALS_LAST`, the priorities that are used. -/
inductive Priority where
  | first
  | last
deriving DecidableEq, Repr

/-- `SIGNALS_FOREVER`. -/
def forever : UInt32 := 4294967295

/-- `SIGNALS_LOCK`. -/
def lock : UInt32 := 1

/-- `struct handler`. -/
structure Handler (φ : Type) where
  priority : Priority
  count : UInt32
  func : φ
deriving DecidableEq, Repr

/-- `struct signals`. -/
structure Sig (φ : Type) where
  flags : UInt32
  handlers : List (Handler φ)
deriving DecidableEq, Repr

/-- `struct signals_instance`, with its table of signals. -/
structure Instance (σ φ : Type) where
  signals : σ → Option (Sig φ)
  emitting : Nat
  quit : Bool

variable {σ φ : Type} [DecidableEq σ]

def Sig.locked (s : Sig φ) : Bool := s.flags &&& lock ≠ 0

def Instance.set (si : Instance σ φ) (sig : σ) (s : Sig φ) : Instance σ φ :=
  { si with signals := Function.update si.signals sig (some s) }

def sigInstanceNew : Instance σ φ := { signals := fun _ => none, emitting := 0, quit := false }

def sigRegister (si : Instance σ φ) (sig : σ) : Instance σ φ × Bool :=
  match si.signals sig with
  | some _ => (si, false)
  | none => (si.set sig { flags := 0, handlers := [] }, true)

/-! ## Connecting -/

def insertWithPriority (h : Handler φ) (hs : List (Handler φ)) : List (Handler φ) :=
  match h.priority with
  | .first => h :: hs
  | .last => hs ++ [h]

def connectSignal (s : Sig φ) (priority : Priority) (count : UInt32) (cb : φ) : Sig φ :=
  { s with
    handlers := insertWithPriority { priority := priority, count := count, func := cb } s.handlers }

/-- `_sig_connect`, on an instance and its ancestors.  A signal that only an ancestor
has is added to the instance, with the flags it has there. -/
def sigConnect (chain : List (Instance σ φ)) (sig : σ) (priority : Priority) (count : UInt32)
    (cb : φ) : List (Instance σ φ) × Bool :=
  match chain with
  | [] => ([], false)
  | si :: parents =>
      match si.signals sig with
      | some s => (si.set sig (connectSignal s priority count cb) :: parents, true)
      | none =>
          match parents.findSome? (·.signals sig) with
          | none => (si :: parents, false)
          | some os =>
              let s := { flags := os.flags, handlers := [] }
              (si.set sig (connectSignal s priority count cb) :: parents, true)

/-! ## Emitting -/

/-- A handler that has run once more.  It goes when its count comes down to zero. -/
def Handler.ran (h : Handler φ) : Option (Handler φ) :=
  if h.count = forever then some h
  else if h.count - 1 = 0 then none
  else some { h with count := h.count - 1 }

/-- The loop of `sig_emit_real`: the functions that it calls and the handlers that it
leaves.  It stops behind the first handler when `stop` is set. -/
def runHandlers (stop : Bool) : List (Handler φ) → List φ × List (Handler φ)
  | [] => ([], [])
  | h :: hs =>
      if stop then ([h.func], h.ran.toList ++ hs)
      else (h.func :: (runHandlers stop hs).1, h.ran.toList ++ (runHandlers stop hs).2)

/-- `sig_emit_real`: the instance, the signal and the functions called. -/
def sigEmitReal (si : Instance σ φ) (s : Sig φ) : Instance σ φ × Sig φ × List φ :=
  let r := runHandlers (s.locked || si.quit) s.handlers
  ({ si with quit := if si.emitting = 0 then false else si.quit },
    { s with handlers := r.2 }, r.1)

/-- `sig_emit` on the ancestors of `si`.  The instance that counts as emitting is the
one below the instance whose handlers are run. -/
def emitUp (sig : σ) (si : Instance σ φ) :
    List (Instance σ φ) → Instance σ φ × List (Instance σ φ) × List φ
  | [] => (si, [], [])
  | tmp :: rest =>
      match tmp.signals sig with
      | none =>
          let r := emitUp sig tmp rest
          (si, r.1 :: r.2.1, r.2.2)
      | some s =>
          if s.locked then
            let r := emitUp sig tmp rest
            (si, r.1 :: r.2.1, r.2.2)
          else
            let e := sigEmitReal si s
            let r := emitUp sig (tmp.set sig e.2.1) rest
            (e.1, r.1 :: r.2.1, e.2.2 ++ r.2.2)

/-- `sig_emit`, on an instance and its ancestors. -/
def sigEmit (chain : List (Instance σ φ)) (sig : σ) : List (Instance σ φ) × List φ :=
  match chain with
  | [] => ([], [])
  | si :: parents =>
      match si.signals sig with
      | none =>
          let r := emitUp sig si parents
          (r.1 :: r.2.1, r.2.2)
      | some s =>
          if s.locked then
            let r := emitUp sig si parents
            (r.1 :: r.2.1, r.2.2)
          else
            let e := sigEmitReal si s
            let r := emitUp sig (e.1.set sig e.2.1) parents
            (r.1 :: r.2.1, e.2.2 ++ r.2.2)

/-! ## One-shot handlers -/

/-- The handler that `CONNECT` makes. -/
def oneShot (cb : φ) : Handler φ := { priority := .first, count := 1, func := cb }

/-- An emission runs every one-shot handler, and leaves none. -/
theorem runHandlers_oneShot (cbs : List φ) :
    runHandlers false (cbs.map oneShot) = (cbs, []) := by
  induction cbs with
  | nil => rfl
  | cons cb cbs ih =>
      have hran : (oneShot cb).ran = none := by simp [Handler.ran, oneShot, forever]
      rw [List.map_cons, runHandlers, ih, hran]
      rfl

end Signals
end IrC6
