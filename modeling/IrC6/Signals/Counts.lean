import IrC6.Signals.Priority

/-!
# Counts

A handler is connected with a count.  `sig_emit_real` walks over the handlers of a signal,
calls each of them, reads where the next one is and counts the call.  A handler whose count
comes down to 0 is taken out of the queue and given back to the area while the walk goes on,
and its cell may be given to a handler that is connected later.

`Record` is what the counts are for: the list of all handlers that have been connected, each
with the number of its runs.  A handler is due until that number has reached its count, and the
queue holds the handlers that are due.

The functions leave the signal and its instance alone.
-/

namespace IrC6
namespace Signals

open Tailq (Queue Place)

variable {φ : Type}

/-- `SIGNALS_FIRST` and `SIGNALS_LAST` as they are stored. -/
def Priority.number : Priority → UInt32
  | .first => signalsFirst
  | .last => signalsLast

/-- A signal with its instance, and which handlers are in the area. -/
structure Emitter (φ : Type) where
  handlers : Handlers φ
  live : Nat → Bool
  flags : UInt32
  emitting : Nat
  quit : Bool

namespace Emitter

def locked (s : Emitter φ) : Bool := s.flags &&& lock ≠ 0

/-- An access to handlers, which must all be in the area. -/
def access (s : Emitter φ) (ps : List Nat) : Except Fault Unit :=
  if ps.all s.live then .ok () else .error .dangling

/-- The handler that a place is in. -/
def owner : Place Nat → List Nat
  | .first => []
  | .next p => [p]

/-- The handlers that `insert_with_priority` accesses besides the new one. -/
def neighbours (q : Queue Nat) : Priority → List Nat
  | .first => q.first.toList
  | .last => owner q.last

/-- `connect_signal`, with what the area finds for the new handler. -/
def connectSignal (s : Emitter φ) (cell : Option Nat) (priority : Priority) (count : UInt32)
    (cb : φ) : Except Fault (Emitter φ × Bool) :=
  match cell with
  | none => .ok (s, false)
  | some p => do
      s.access (neighbours s.handlers.queue priority)
      let h : Hdl φ := { priority := priority.number, count := count, func := cb }
      -- The priorities are those for which there is no loop.
      let (handlers, done) ← s.handlers.connectSignal 0 (some p) h
      .ok ({ s with handlers := handlers, live := Function.update s.live p true }, done)

def store (s : Emitter φ) (p : Nat) (h : Hdl φ) : Emitter φ :=
  { s with handlers := { s.handlers with hdl := Function.update s.handlers.hdl p h } }

def delHandler (s : Emitter φ) (hdl : Nat) : Except Fault (Emitter φ) := do
  let q := s.handlers.queue
  s.access (hdl :: (q.next hdl).toList ++ (q.prev hdl).toList.flatMap owner)
  match q.tailqRemove hdl with
  | none => .error .null
  | some q => .ok { s with
      handlers := { s.handlers with queue := q }, live := Function.update s.live hdl false }

/-- The test of the count in the loop, with what it does. -/
def countDown (s : Emitter φ) (hdl : Nat) : Except Fault (Emitter φ) :=
  let h := s.handlers.hdl hdl
  if h.count = forever then .ok s
  else
    let s := s.store hdl { h with count := h.count - 1 }
    if h.count - 1 = 0 then s.delHandler hdl else .ok s

/-- The loop of `sig_emit_real` from a handler on, with the handlers and functions called. -/
def emitLoop : Nat → Option Nat → Emitter φ → Except Fault (Emitter φ × List (Nat × φ))
  | 0, _, _ => .error .depth
  | _ + 1, none, s => .ok (s, [])
  | depth + 1, some hdl, s => do
      s.access [hdl]
      let called := (hdl, (s.handlers.hdl hdl).func)
      let nxt := s.handlers.queue.next hdl
      let s ← s.countDown hdl
      if s.locked || s.quit then .ok (s, [called])
      else do
        let (s, calls) ← emitLoop depth nxt s
        .ok (s, called :: calls)

def sigEmitReal (depth : Nat) (s : Emitter φ) : Except Fault (Emitter φ × List (Nat × φ)) := do
  let (s, calls) ← emitLoop depth s.handlers.queue.first { s with emitting := s.emitting + 1 }
  let emitting := s.emitting - 1
  .ok ({ s with emitting := emitting, quit := if emitting = 0 then false else s.quit }, calls)

end Emitter

/-! ## Calls -/

/-- A handler is connected, where the area finds a cell for it or nothing, or the signal is
emitted. -/
inductive Turn (φ : Type) where
  | connect (cell : Option Nat) (priority : Priority) (count : UInt32) (cb : φ)
  | emit

namespace Turn

/-- One turn, with the calls of the emission. -/
def run (depth : Nat) (s : Emitter φ) : Turn φ → Except Fault (Emitter φ × List (Nat × φ))
  | connect cell priority count cb =>
      (s.connectSignal cell priority count cb).map fun r => (r.1, [])
  | emit => s.sigEmitReal depth

def runAll (depth : Nat) (s : Emitter φ) :
    List (Turn φ) → Except Fault (Emitter φ × List (List (Nat × φ)))
  | [] => .ok (s, [])
  | t :: ts => do
      let (s, calls) ← t.run depth s
      let (s, callss) ← runAll depth s ts
      .ok (s, calls :: callss)

/-- A count is at least 1, and the area does not find a cell that is in use. -/
def Allowed (s : Emitter φ) : Turn φ → Prop
  | connect cell _ count _ => count ≠ 0 ∧ ∀ p, cell = some p → s.live p = false
  | emit => True

def AllAllowed (depth : Nat) (s : Emitter φ) : List (Turn φ) → Prop
  | [] => True
  | t :: ts => t.Allowed s ∧ ∀ s' calls, t.run depth s = .ok (s', calls) → AllAllowed depth s' ts

end Turn

/-! ## What the counts are for -/

/-- A handler that has been connected, with how often it has run. -/
structure Record (φ : Type) where
  cell : Nat
  count : UInt32
  func : φ
  runs : Nat

namespace Record

/-- It has not run as often as its count says. -/
def Due (r : Record φ) : Prop := r.count = forever ∨ r.runs < r.count.toNat

instance (r : Record φ) : Decidable r.Due := inferInstanceAs (Decidable (_ ∨ _))

def ran (r : Record φ) : Record φ := { r with runs := r.runs + 1 }

/-- What an emission makes of it. -/
def emitted (r : Record φ) : Record φ := if r.Due then r.ran else r

def called (r : Record φ) : Nat × φ := (r.cell, r.func)

end Record

/-- The handlers that are due, in the order of the list. -/
def due (rs : List (Record φ)) : List (Record φ) := rs.filter (·.Due)

namespace Turn

/-- A new handler goes to its end of the list, and an emission calls those that are due. -/
def apply (rs : List (Record φ)) : Turn φ → List (Record φ) × List (Nat × φ)
  | connect none _ _ _ => (rs, [])
  | connect (some p) .first count cb => (⟨p, count, cb, 0⟩ :: rs, [])
  | connect (some p) .last count cb => (rs ++ [⟨p, count, cb, 0⟩], [])
  | emit => (rs.map Record.emitted, (due rs).map Record.called)

def applyAll (rs : List (Record φ)) : List (Turn φ) → List (Record φ) × List (List (Nat × φ))
  | [] => (rs, [])
  | t :: ts =>
      let r := t.apply rs
      let rest := applyAll r.1 ts
      (rest.1, r.2 :: rest.2)

end Turn

/-- The count that is left of the one that a handler was connected with. -/
def Record.left (r : Record φ) : UInt32 :=
  if r.count = forever then forever else UInt32.ofNat (r.count.toNat - r.runs)

/-- The queue holds the handlers that are due, each with its function and what is left of its
count, and no other is in the area. -/
structure Emitter.Tracks (s : Emitter φ) (rs : List (Record φ)) : Prop where
  queue : s.handlers.queue.Holds ((due rs).map Record.cell)
  data : ∀ r ∈ due rs,
    (s.handlers.hdl r.cell).func = r.func ∧ (s.handlers.hdl r.cell).count = r.left
  live : ∀ p, s.live p = true ↔ p ∈ (due rs).map Record.cell
  unlocked : s.locked = false
  running : s.quit = false

/-- A signal without handlers. -/
structure Emitter.Opened (s : Emitter φ) : Prop where
  queue : s.handlers.queue = s.handlers.queue.tailqInit
  live : ∀ p, s.live p = false
  unlocked : s.locked = false
  running : s.quit = false

/-! ## The count of a record -/

namespace Record

variable {r : Record φ}

theorem left_forever (h : r.count = forever) : r.left = forever := if_pos h

theorem toNat_left (h : r.count ≠ forever) : r.left.toNat = r.count.toNat - r.runs := by
  have hlt := r.count.toNat_lt
  rw [left, if_neg h, UInt32.toNat_ofNat']
  omega

/-- A handler with a count that is due has something left of it, and one less after a run. -/
theorem left_ran (hdue : r.Due) (h : r.count ≠ forever) :
    r.left ≠ forever ∧ r.left - 1 = r.ran.left ∧ (r.left - 1 = 0 ↔ ¬ r.ran.Due) := by
  have hruns : r.runs < r.count.toNat := hdue.resolve_left h
  have hleft := toNat_left h
  have hran : r.ran.left.toNat = r.count.toNat - (r.runs + 1) := toNat_left (r := r.ran) h
  have hlt := r.count.toNat_lt
  have hne : r.count.toNat ≠ forever.toNat := fun heq => h (UInt32.toNat_inj.mp heq)
  have hforever : forever.toNat = 4294967295 := rfl
  have hone : (1 : UInt32).toNat = 1 := rfl
  have hsub : (r.left - 1).toNat = r.ran.left.toNat := by
    rw [UInt32.toNat_sub, hleft, hran, hone]
    omega
  refine ⟨fun heq => ?_, UInt32.toNat_inj.mp hsub, ?_⟩
  · rw [heq] at hleft
    omega
  · rw [← UInt32.toNat_inj, hsub, hran]
    have hdue' : r.ran.Due ↔ r.runs + 1 < r.count.toNat := or_iff_right h
    rw [hdue', UInt32.toNat_zero]
    omega

end Record

/-! ## The walk over the handlers -/

/-- What becomes of a handler that is called, or nothing where it goes. -/
def Hdl.ran (h : Hdl φ) : Option (Hdl φ) :=
  if h.count = forever then some h
  else if h.count - 1 = 0 then none
  else some { h with count := h.count - 1 }

namespace Emitter

variable {s s' s₁ : Emitter φ} {p : Nat} {ps l₁ l₂ : List Nat}

def stays (s : Emitter φ) (p : Nat) : Bool := (s.handlers.hdl p).ran.isSome

/-- What calls of the handlers `ps` have changed, besides the queue. -/
structure After (s s' : Emitter φ) (ps : List Nat) : Prop where
  live : ∀ p, s'.live p = true ↔ s.live p = true ∧ (p ∈ ps → s.stays p = true)
  hdl : ∀ p h, p ∈ ps → (s.handlers.hdl p).ran = some h → s'.handlers.hdl p = h
  others : ∀ p, p ∉ ps → s'.handlers.hdl p = s.handlers.hdl p
  flags : s'.flags = s.flags
  emitting : s'.emitting = s.emitting
  quit : s'.quit = s.quit

theorem After.nil (s : Emitter φ) : After s s [] where
  live _ := ⟨fun h => ⟨h, nofun⟩, And.left⟩
  hdl _ _ h := nomatch h
  others _ _ := rfl
  flags := rfl
  emitting := rfl
  quit := rfl

theorem After.stays_eq (h : After s s₁ ps) (hp : p ∉ ps) : s₁.stays p = s.stays p := by
  rw [stays, stays, h.others p hp]

theorem After.cons (h : After s s₁ [p]) (hrest : After s₁ s' ps) (hp : p ∉ ps) :
    After s s' (p :: ps) where
  live x := by
    rw [hrest.live, h.live]
    by_cases hx : x = p
    · subst hx
      simp [hp]
    · have hne : x ∉ [p] := fun hmem => hx (List.mem_singleton.mp hmem)
      rw [h.stays_eq hne]
      simp [hx]
  hdl x hdl hx hran := by
    rcases List.mem_cons.mp hx with rfl | hmem
    · rw [hrest.others x hp, h.hdl x hdl List.mem_cons_self hran]
    · have hne : x ∉ [p] := fun hx => hp (List.mem_singleton.mp hx ▸ hmem)
      exact hrest.hdl x hdl hmem (by rw [h.others x hne, hran])
  others x hx := by
    obtain ⟨hne, hout⟩ := not_or.mp fun hmem => hx (List.mem_cons.mpr hmem)
    rw [hrest.others x hout, h.others x (fun hmem => hne (List.mem_singleton.mp hmem))]
  flags := hrest.flags.trans h.flags
  emitting := hrest.emitting.trans h.emitting
  quit := hrest.quit.trans h.quit

theorem access_ok (h : ∀ p ∈ ps, s.live p = true) : s.access ps = .ok () :=
  if_pos (List.all_eq_true.mpr h)

theorem owner_mem {place : Place Nat} (h : place ∈ .first :: ps.map .next) :
    ∀ x ∈ owner place, x ∈ ps := by
  intro x hx
  cases place with
  | first => nomatch hx
  | next y =>
      rw [List.mem_singleton.mp hx]
      rcases List.mem_cons.mp h with h | h
      · nomatch h
      · obtain ⟨z, hz, heq⟩ := List.mem_map.mp h
        injection heq with heq
        exact heq ▸ hz

/-- The neighbours of a handler are in its queue. -/
theorem neighbours_mem (h : s.handlers.queue.Holds (l₁ ++ p :: l₂)) :
    ∀ x ∈ p :: (s.handlers.queue.next p).toList ++
      (s.handlers.queue.prev p).toList.flatMap owner, x ∈ l₁ ++ p :: l₂ := by
  obtain ⟨b, hfront, -, hprev, -⟩ := Queue.linked_append.mp h.linked
  intro x hx
  rw [h.next_eq, hprev, Option.toList_some, List.flatMap_singleton] at hx
  rcases List.mem_append.mp hx with hx | hx
  · rcases List.mem_cons.mp hx with rfl | hx
    · exact List.mem_append_right _ List.mem_cons_self
    · refine List.mem_append_right _ (List.mem_cons_of_mem _ ?_)
      exact List.mem_of_mem_head? (Option.mem_toList.mp hx)
  · exact List.mem_append_left _ (owner_mem hfront.mem_places x hx)

theorem delHandler_ok (hq : s.handlers.queue.Holds (l₁ ++ p :: l₂))
    (hlive : ∀ x ∈ l₁ ++ p :: l₂, s.live x = true) :
    ∃ q, s.delHandler p = .ok { s with
        handlers := { s.handlers with queue := q }, live := Function.update s.live p false } ∧
      q.Holds (l₁ ++ l₂) := by
  obtain ⟨q, hremove, hholds⟩ := hq.remove
  refine ⟨q, ?_, hholds⟩
  unfold delHandler
  dsimp only
  rw [access_ok fun x hx => hlive x (neighbours_mem hq x hx)]
  simp only [bind, Except.bind, hremove]

/-- The turn of the loop for a handler, which stays in the queue or goes. -/
theorem countDown_ok (hq : s.handlers.queue.Holds (l₁ ++ p :: l₂))
    (hlive : ∀ x ∈ l₁ ++ p :: l₂, s.live x = true) :
    ∃ s', s.countDown p = .ok s' ∧ After s s' [p] ∧
      s'.handlers.queue.Holds ((l₁ ++ if s.stays p then [p] else []) ++ l₂) := by
  have hstore : ∀ h, (s.handlers.hdl p).ran = some h → After s (s.store p h) [p] := by
    intro h hran
    have hstays : s.stays p = true := by rw [stays, hran]; rfl
    refine ⟨fun x => ⟨fun hx => ⟨hx, fun hmem => ?_⟩, And.left⟩, fun x h' hx hran' => ?_,
      fun x hx => ?_, rfl, rfl, rfl⟩
    · rwa [List.mem_singleton.mp hmem]
    · obtain rfl := List.mem_singleton.mp hx
      rw [hran] at hran'
      exact (Function.update_self _ _ _).trans (Option.some.inj hran')
    · exact Function.update_of_ne (fun hxp => hx (List.mem_singleton.mpr hxp)) _ _
  have hkept : l₁ ++ p :: l₂ = (l₁ ++ [p]) ++ l₂ := by
    rw [List.append_assoc, List.singleton_append]
  unfold countDown
  dsimp only
  by_cases hforever : (s.handlers.hdl p).count = forever
  · have hran : (s.handlers.hdl p).ran = some (s.handlers.hdl p) := if_pos hforever
    have hsame : s.store p (s.handlers.hdl p) = s := by rw [store, Function.update_eq_self]
    rw [if_pos hforever, if_pos (by rw [stays, hran]; rfl), ← hkept]
    have hafter := hstore _ hran
    rw [hsame] at hafter
    exact ⟨s, rfl, hafter, hq⟩
  · rw [if_neg hforever]
    by_cases hzero : (s.handlers.hdl p).count - 1 = 0
    · have hran : (s.handlers.hdl p).ran = none := by rw [Hdl.ran, if_neg hforever, if_pos hzero]
      have hgone : s.stays p = false := by rw [stays, hran]; rfl
      rw [if_pos hzero, if_neg (by rw [hgone]; nofun), List.append_nil]
      obtain ⟨q, hdel, hholds⟩ := delHandler_ok
        (s := s.store p { s.handlers.hdl p with count := (s.handlers.hdl p).count - 1 }) hq hlive
      refine ⟨_, hdel, ⟨fun x => ?_, fun x h hx hran' => ?_, fun x hx => ?_, rfl, rfl, rfl⟩,
        hholds⟩
      · by_cases hx : x = p
        · subst hx
          simp [hgone]
        · have hlive' : Function.update s.live p false x = s.live x := Function.update_of_ne hx _ _
          simp only [store, hlive', List.mem_singleton, hx, false_imp_iff, and_true]
      · rw [List.mem_singleton.mp hx, hran] at hran'
        nomatch hran'
      · exact Function.update_of_ne (fun hxp => hx (List.mem_singleton.mpr hxp)) _ _
    · have hran : (s.handlers.hdl p).ran =
          some { s.handlers.hdl p with count := (s.handlers.hdl p).count - 1 } := by
        rw [Hdl.ran, if_neg hforever, if_neg hzero]
      rw [if_neg hzero, if_pos (by rw [stays, hran]; rfl), ← hkept]
      exact ⟨_, rfl, hstore _ hran, hq⟩

/-- The loop calls every handler once, in their order. -/
theorem emitLoop_ok (l₁ : List Nat) {todo : List Nat} {depth : Nat}
    (hq : s.handlers.queue.Holds (l₁ ++ todo)) (hlive : ∀ x ∈ l₁ ++ todo, s.live x = true)
    (hunlocked : s.locked = false) (hquit : s.quit = false) (hdepth : todo.length < depth) :
    ∃ s', emitLoop depth todo.head? s =
        .ok (s', todo.map fun p => (p, (s.handlers.hdl p).func)) ∧
      s'.handlers.queue.Holds (l₁ ++ todo.filter s.stays) ∧ After s s' todo := by
  induction todo generalizing s l₁ depth with
  | nil =>
      obtain ⟨d, rfl⟩ := Nat.exists_eq_add_one_of_ne_zero (Nat.ne_of_gt hdepth)
      exact ⟨s, rfl, hq, After.nil s⟩
  | cons p todo ih =>
      obtain ⟨d, rfl⟩ := Nat.exists_eq_add_one_of_ne_zero
        (Nat.ne_of_gt (Nat.zero_lt_of_lt hdepth))
      have hout : p ∉ l₁ ++ todo := (List.nodup_cons.mp (List.nodup_middle.mp hq.nodup)).1
      have hp : p ∉ todo := fun hmem => hout (List.mem_append_right _ hmem)
      have hmem : p ∈ l₁ ++ p :: todo := List.mem_append_right _ List.mem_cons_self
      have hnext := hq.next_eq
      obtain ⟨s₁, hcount, hafter, hholds⟩ := countDown_ok hq hlive
      have hlive₁ : ∀ x ∈ (l₁ ++ if s.stays p then [p] else []) ++ todo, s₁.live x = true := by
        intro x hx
        rw [hafter.live]
        by_cases hstays : s.stays p = true
        · rw [if_pos hstays, List.append_assoc] at hx
          exact ⟨hlive x hx, fun hxp => List.mem_singleton.mp hxp ▸ hstays⟩
        · rw [if_neg hstays, List.append_nil] at hx
          refine ⟨hlive x ?_, fun hxp => absurd (List.mem_singleton.mp hxp ▸ hx) hout⟩
          exact (List.Sublist.append_left (List.sublist_cons_self p todo) l₁).subset hx
      have hunlocked₁ : s₁.locked = false := by
        rw [locked, hafter.flags]
        exact hunlocked
      have hquit₁ : s₁.quit = false := hafter.quit.trans hquit
      obtain ⟨s', hrun, hholds', hafter'⟩ := ih _ hholds hlive₁ hunlocked₁ hquit₁
        (Nat.lt_of_succ_lt_succ hdepth)
      have hothers : ∀ x ∈ todo, s₁.handlers.hdl x = s.handlers.hdl x := fun x hx =>
        hafter.others x fun hxp => hp (List.mem_singleton.mp hxp ▸ hx)
      refine ⟨s', ?_, ?_, hafter.cons hafter' hp⟩
      · rw [List.head?_cons, emitLoop,
          access_ok fun x hx => hlive x (List.mem_singleton.mp hx ▸ hmem)]
        simp only [bind, Except.bind, hcount, hnext, hunlocked₁, hquit₁, Bool.or_self,
          Bool.false_eq_true, if_false, hrun, List.map_cons, Except.ok.injEq, Prod.mk.injEq,
          true_and, List.cons.injEq]
        exact List.map_congr_left fun x hx => by rw [hothers x hx]
      · have hfilter : todo.filter s₁.stays = todo.filter s.stays :=
          List.filter_congr fun x hx => by rw [stays, stays, hothers x hx]
        rw [hfilter, List.append_assoc] at hholds'
        rw [List.filter_cons]
        by_cases hstays : s.stays p = true
        · rw [if_pos hstays] at hholds' ⊢
          exact hholds'
        · rw [if_neg hstays] at hholds' ⊢
          exact hholds'

end Emitter

/-! ## The handlers that are due -/

namespace Record

variable {r : Record φ}

/-- A handler that is due stays if and only if it still is after a run. -/
theorem ran_of_left {h : Hdl φ} (hdue : r.Due) (hfunc : h.func = r.func)
    (hcount : h.count = r.left) :
    (h.ran.isSome = true ↔ r.ran.Due) ∧
      ∀ h', h.ran = some h' → h'.func = r.func ∧ h'.count = r.ran.left := by
  unfold Hdl.ran
  by_cases hforever : r.count = forever
  · have hran : r.ran.left = forever := left_forever hforever
    have hleft : h.count = forever := hcount.trans (left_forever hforever)
    rw [if_pos hleft]
    refine ⟨iff_of_true rfl (.inl hforever), fun h' heq => ?_⟩
    rw [← Option.some.inj heq, hran]
    exact ⟨hfunc, hleft⟩
  · obtain ⟨hne, hran, hzero⟩ := left_ran hdue hforever
    rw [hcount, if_neg hne]
    by_cases hleft : r.left - 1 = 0
    · rw [if_pos hleft]
      exact ⟨iff_of_false nofun (hzero.mp hleft), nofun⟩
    · rw [if_neg hleft]
      refine ⟨iff_of_true rfl (not_not.mp (hzero.not.mp hleft)), fun h' heq => ?_⟩
      rw [← Option.some.inj heq]
      exact ⟨hfunc, hran⟩

end Record

theorem due_emitted (rs : List (Record φ)) :
    due (rs.map Record.emitted) = ((due rs).filter (·.ran.Due)).map Record.ran := by
  induction rs with
  | nil => rfl
  | cons r rs ih =>
      unfold due at ih ⊢
      rw [List.map_cons, List.filter_cons, List.filter_cons, ih]
      by_cases hdue : r.Due
      · rw [Record.emitted, if_pos hdue, if_pos (decide_eq_true hdue), List.filter_cons]
        by_cases hran : r.ran.Due
        · rw [if_pos (decide_eq_true hran), if_pos (decide_eq_true hran), List.map_cons]
        · rw [if_neg (by simpa using hran), if_neg (by simpa using hran)]
      · rw [Record.emitted, if_neg hdue, if_neg (by simpa using hdue),
          if_neg (by simpa using hdue)]

namespace Emitter

variable {s : Emitter φ} {rs rs' : List (Record φ)} {p : Nat} {count : UInt32}

theorem Opened.tracks (h : s.Opened) : s.Tracks [] where
  queue := by
    rw [h.queue]
    exact ⟨rfl, rfl, List.nodup_nil⟩
  data _ hr := nomatch hr
  live p := by
    rw [h.live p]
    exact ⟨nofun, nofun⟩
  unlocked := h.unlocked
  running := h.running

/-- An emission calls the handlers that are due. -/
theorem Tracks.emit (h : s.Tracks rs) {depth : Nat} (hdepth : (due rs).length < depth) :
    ∃ s', s.sigEmitReal depth = .ok (s', (due rs).map Record.called) ∧
      s'.Tracks (rs.map Record.emitted) := by
  let s₁ : Emitter φ := { s with emitting := s.emitting + 1 }
  obtain ⟨s', hrun, hholds, hafter⟩ := emitLoop_ok (s := s₁) [] h.queue
    (fun x hx => (h.live x).mpr hx) h.unlocked h.running (by rwa [List.length_map])
  have hstays : ∀ r ∈ due rs, (s₁.stays r.cell = true ↔ r.ran.Due) ∧
      ∀ h', (s.handlers.hdl r.cell).ran = some h' → h'.func = r.func ∧ h'.count = r.ran.left :=
    fun r hr => Record.ran_of_left (of_decide_eq_true (List.mem_filter.mp hr).2)
      (h.data r hr).1 (h.data r hr).2
  have hcells : ((due rs).map Record.cell).filter s₁.stays =
      (due (rs.map Record.emitted)).map Record.cell := by
    rw [due_emitted, List.filter_map, List.map_map]
    refine congrArg (List.map Record.cell) (List.filter_congr fun r hr => ?_)
    rw [Function.comp_apply, Bool.eq_iff_iff, decide_eq_true_iff]
    exact (hstays r hr).1
  have hcalls : ((due rs).map Record.cell).map (fun p => (p, (s.handlers.hdl p).func)) =
      (due rs).map Record.called := by
    rw [List.map_map]
    exact List.map_congr_left fun r hr => by
      rw [Function.comp_apply, (h.data r hr).1, Record.called]
  rw [List.nil_append, hcells] at hholds
  have hfirst : s.handlers.queue.first = ((due rs).map Record.cell).head? :=
    h.queue.linked.head h.queue.ends
  let s₂ : Emitter φ := { s' with
    emitting := s'.emitting - 1, quit := if s'.emitting - 1 = 0 then false else s'.quit }
  refine ⟨s₂, ?_, hholds, fun r hr => ?_, fun p => ?_, ?_, ?_⟩
  · unfold sigEmitReal
    rw [hfirst, hrun, ← hcalls]
    rfl
  · rw [due_emitted] at hr
    obtain ⟨r₀, hmem, rfl⟩ := List.mem_map.mp hr
    obtain ⟨hr₀, hran⟩ := List.mem_filter.mp hmem
    obtain ⟨hstay, hleft⟩ := hstays r₀ hr₀
    obtain ⟨hdl, hhdl⟩ := Option.isSome_iff_exists.mp (hstay.mpr (of_decide_eq_true hran))
    have hnew : s₂.handlers.hdl r₀.ran.cell = hdl :=
      hafter.hdl r₀.cell hdl (List.mem_map_of_mem hr₀) hhdl
    rw [hnew]
    exact hleft hdl hhdl
  · show s'.live p = true ↔ _
    rw [hafter.live, ← hcells, List.mem_filter]
    constructor
    · rintro ⟨hlive, hstay⟩
      exact ⟨(h.live p).mp hlive, hstay ((h.live p).mp hlive)⟩
    · rintro ⟨hmem, hstay⟩
      exact ⟨(h.live p).mpr hmem, fun _ => hstay⟩
  · show s'.locked = false
    rw [locked, hafter.flags]
    exact h.unlocked
  · show (if s'.emitting - 1 = 0 then false else s'.quit) = false
    rw [hafter.quit, h.running, ite_self]

theorem due_new {count : UInt32} (hcount : count ≠ 0) (p : Nat) (cb : φ) :
    (⟨p, count, cb, 0⟩ : Record φ).Due := by
  refine .inr (Nat.pos_of_ne_zero fun hzero => hcount ?_)
  rw [← UInt32.toNat_inj, hzero]
  rfl

theorem left_new (p : Nat) (count : UInt32) (cb : φ) :
    (⟨p, count, cb, 0⟩ : Record φ).left = count := by
  unfold Record.left
  dsimp only
  split
  · rename_i hforever
    exact hforever.symm
  · rw [Nat.sub_zero, UInt32.ofNat_toNat]

/-- A new handler, at either end of the list. -/
theorem Tracks.add (h : s.Tracks rs) (hp : s.live p = false) (hdl : Hdl φ)
    (hmem : ∀ r, r ∈ due rs' ↔ r = ⟨p, hdl.count, hdl.func, 0⟩ ∨ r ∈ due rs) {q : Queue Nat}
    (hq : q.Holds ((due rs').map Record.cell)) :
    Tracks { s with handlers := { queue := q, hdl := Function.update s.handlers.hdl p hdl },
                    live := Function.update s.live p true } rs' where
  queue := hq
  data r hr := by
    rcases (hmem r).mp hr with rfl | hold
    · rw [left_new]
      dsimp only
      rw [Function.update_self]
      exact ⟨rfl, rfl⟩
    · have hne : r.cell ≠ p := by
        rintro rfl
        rw [(h.live r.cell).mpr (List.mem_map_of_mem hold)] at hp
        nomatch hp
      dsimp only
      rw [Function.update_of_ne hne]
      exact h.data r hold
  live x := by
    have hcells : x ∈ (due rs').map Record.cell ↔ x = p ∨ x ∈ (due rs).map Record.cell := by
      simp only [List.mem_map, hmem, or_and_right, exists_or, exists_eq_left, eq_comm]
    rw [hcells, ← h.live x]
    by_cases hx : x = p
    · subst hx
      simp
    · simp [hx]
  unlocked := h.unlocked
  running := h.running

/-- The neighbours of a new handler are in the area. -/
theorem Tracks.neighbours (h : s.Tracks rs) (priority : Priority) :
    ∀ x ∈ neighbours s.handlers.queue priority, s.live x = true := by
  intro x hx
  rw [h.live]
  cases priority with
  | first =>
      have hfirst : s.handlers.queue.first = ((due rs).map Record.cell).head? :=
        h.queue.linked.head h.queue.ends
      rw [Emitter.neighbours, hfirst] at hx
      exact List.mem_of_mem_head? (Option.mem_toList.mp hx)
  | last =>
      rw [Emitter.neighbours] at hx
      exact owner_mem h.queue.linked.mem_places x hx

theorem Tracks.connect (h : s.Tracks rs) (hcount : count ≠ 0) {cell : Option Nat}
    (hcell : ∀ p, cell = some p → s.live p = false) (priority : Priority) (cb : φ) :
    ∃ s', s.connectSignal cell priority count cb = .ok (s', cell.isSome) ∧
      s'.Tracks ((Turn.connect cell priority count cb).apply rs).1 := by
  cases cell with
  | none => exact ⟨s, rfl, h⟩
  | some p =>
      let hdl : Hdl φ := { priority := priority.number, count := count, func := cb }
      have hp := hcell p rfl
      have hout : p ∉ (due rs).map Record.cell := by
        rw [← h.live, hp]
        nofun
      have hmade := Handlers.made_holds h.queue hout hdl
      have hself : (s.handlers.made p hdl).hdl p = hdl := Function.update_self _ _ _
      have hconnect : s.handlers.connectSignal 0 (some p) hdl =
          ((s.handlers.made p hdl).insertWithPriority 0 p).map (·, true) :=
        connectSignal_eq (c := ⟨some p, hdl⟩) 0 rfl
      have hnew := due_new hcount p cb
      unfold Emitter.connectSignal
      dsimp only
      rw [access_ok (h.neighbours priority), hconnect,
        Handlers.insertWithPriority, hself]
      cases priority with
      | first =>
          refine ⟨_, rfl, h.add hp hdl (fun r => ?_) ?_⟩
          · rw [Turn.apply, due, List.filter_cons, if_pos (decide_eq_true hnew), List.mem_cons]
            rfl
          · rw [Turn.apply, due, List.filter_cons, if_pos (decide_eq_true hnew)]
            exact hmade.insertHead hout
      | last =>
          refine ⟨_, rfl, h.add hp hdl (fun r => ?_) ?_⟩
          · rw [Turn.apply, due, List.filter_append, List.filter_cons,
              if_pos (decide_eq_true hnew), List.mem_append, or_comm, List.filter_nil,
              List.mem_singleton]
            rfl
          · rw [Turn.apply, due, List.filter_append, List.filter_cons,
              if_pos (decide_eq_true hnew), List.filter_nil, List.map_append]
            exact hmade.insertTail hout

end Emitter

/-! ## Runs -/

namespace Turn

variable {s : Emitter φ} {rs : List (Record φ)} {depth : Nat}

theorem length_apply (rs : List (Record φ)) (t : Turn φ) :
    (t.apply rs).1.length ≤ rs.length + 1 := by
  cases t with
  | connect cell priority count cb =>
      cases cell with
      | none => exact Nat.le_succ _
      | some p => cases priority <;> simp [apply]
  | emit => simp [apply]

theorem run_tracks (h : s.Tracks rs) (t : Turn φ) (ht : t.Allowed s) (hdepth : rs.length < depth) :
    ∃ s', t.run depth s = .ok (s', (t.apply rs).2) ∧ s'.Tracks (t.apply rs).1 := by
  cases t with
  | connect cell priority count cb =>
      obtain ⟨s', hconnect, htracks⟩ := h.connect ht.1 ht.2 priority cb
      have hcalls : ((connect cell priority count cb).apply rs).2 = [] := by
        cases cell with
        | none => rfl
        | some p => cases priority <;> rfl
      refine ⟨s', ?_, htracks⟩
      rw [run, hconnect, hcalls]
      rfl
  | emit => exact h.emit ((List.length_filter_le _ _).trans_lt hdepth)

theorem runAll_tracks (ts : List (Turn φ)) (h : s.Tracks rs) (hts : AllAllowed depth s ts)
    (hdepth : rs.length + ts.length < depth) :
    ∃ s', runAll depth s ts = .ok (s', (applyAll rs ts).2) ∧ s'.Tracks (applyAll rs ts).1 := by
  induction ts generalizing s rs with
  | nil => exact ⟨s, rfl, h⟩
  | cons t ts ih =>
      obtain ⟨ht, hrest⟩ := hts
      rw [List.length_cons] at hdepth
      obtain ⟨s₁, hrun, htracks⟩ : ∃ s₁, t.run depth s = .ok (s₁, (t.apply rs).2) ∧
          s₁.Tracks (t.apply rs).1 := run_tracks h t ht (by omega)
      have hlen := length_apply rs t
      obtain ⟨s', hruns, htracks'⟩ := ih htracks (hrest _ _ hrun) (by omega)
      refine ⟨s', ?_, htracks'⟩
      rw [runAll, hrun]
      simp only [bind, Except.bind, hruns, applyAll]

end Turn

/-- Whatever handlers are connected to a signal, first or last, between its emissions: each
emission calls the handlers that have run less often than their counts say, each once and in the
order of the list.  Those that have not are left in the list, and no others are in the area. -/
theorem handlers_counted {depth : Nat} {s : Emitter φ} (hs : s.Opened) {ts : List (Turn φ)}
    (hts : Turn.AllAllowed depth s ts) (hdepth : ts.length < depth) :
    ∃ s', Turn.runAll depth s ts = .ok (s', (Turn.applyAll [] ts).2) ∧
      s'.Tracks (Turn.applyAll [] ts).1 :=
  Turn.runAll_tracks ts hs.tracks hts (by rwa [List.length_nil, Nat.zero_add])

/-- A signal without handlers, whose area is empty. -/
def noEmitter : Emitter Nat where
  handlers :=
    { queue := { first := none, last := .first, next := fun _ => none, prev := fun _ => none }
      hdl := fun _ => { priority := 0, count := 0, func := 0 } }
  live := fun _ => false
  flags := 0
  emitting := 0
  quit := false

/-- A handler that runs once in front of one that runs twice, and its cell for another one. -/
def threeHandlers : List (Turn Nat) :=
  [.connect (some 1) .last 2 20, .connect (some 2) .first 1 10, .emit,
    .connect (some 2) .last forever 30, .emit, .emit]

theorem handlers_counted_three : ∃ s, Turn.runAll 7 noEmitter threeHandlers =
      .ok (s, [[], [], [(2, 10), (1, 20)], [], [(1, 20), (2, 30)], [(2, 30)]]) ∧
    s.Tracks [⟨2, 1, 10, 1⟩, ⟨1, 2, 20, 2⟩, ⟨2, forever, 30, 2⟩] := by
  have hopened : noEmitter.Opened := ⟨rfl, fun _ => rfl, by decide, rfl⟩
  have hallowed : Turn.AllAllowed 7 noEmitter threeHandlers := by
    have hfree : ∀ {s : Emitter Nat} {x : Nat}, s.live x = false → ∀ p, some x = some p →
        s.live p = false := fun h p hp => Option.some.inj hp ▸ h
    refine ⟨⟨by decide, hfree rfl⟩, fun s₁ _ h₁ => ?_⟩
    obtain ⟨rfl, -⟩ := Prod.mk.inj (Except.ok.inj h₁)
    refine ⟨⟨by decide, hfree rfl⟩, fun s₂ _ h₂ => ?_⟩
    obtain ⟨rfl, -⟩ := Prod.mk.inj (Except.ok.inj h₂)
    refine ⟨trivial, fun s₃ _ h₃ => ?_⟩
    obtain ⟨rfl, -⟩ := Prod.mk.inj (Except.ok.inj h₃)
    refine ⟨⟨by decide, hfree rfl⟩, fun _ _ _ => ⟨trivial, fun _ _ _ => ?_⟩⟩
    exact ⟨trivial, fun _ _ _ => trivial⟩
  exact handlers_counted hopened hallowed (by decide)

end Signals
end IrC6
