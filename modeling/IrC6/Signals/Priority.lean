import IrC6.Base.Tailq
import IrC6.Signals.Instance

/-!
# Priorities

The handlers of a signal are in a tail queue.  `SIGNALS_FIRST` puts a handler at its head and
`SIGNALS_LAST` at its tail.  For another priority the queue is walked, and the handler is put
in front of every handler with a lower one: nowhere if there is none, and with two of them
the handlers between the two places are cut out.

The calls are `_sig_connect` on one signal.  Where nothing is freed, every pointer in the
queue is to a handler, and the area finds a place for a new one where none is, or nothing.
-/

namespace IrC6
namespace Signals

open Tailq (Queue Place)
open Tailq.Queue (places)

/-- `struct handler`, without its entry in the queue. -/
structure Hdl (φ : Type) where
  priority : UInt32
  count : UInt32
  func : φ

/-- The handlers of a signal. -/
structure Handlers (φ : Type) where
  queue : Queue Nat
  hdl : Nat → Hdl φ

def signalsFirst : UInt32 := 0
def signalsLast : UInt32 := 4294967295

namespace Handlers

variable {φ : Type}

/-- `add->priority > tmp->priority`. -/
def Lower (hdl : Nat → Hdl φ) (add tmp : Nat) : Prop := (hdl tmp).priority < (hdl add).priority

instance (hdl : Nat → Hdl φ) (add tmp : Nat) : Decidable (Lower hdl add tmp) :=
  inferInstanceAs (Decidable (_ < _))

/-- The loop of `insert_with_priority`, from a handler on. -/
def insertLoop (hdl : Nat → Hdl φ) (add : Nat) :
    Nat → Option Nat → Queue Nat → Except Fault (Queue Nat)
  | 0, _, _ => .error .depth
  | _ + 1, none, q => .ok q
  | depth + 1, some tmp, q => do
      let q ← (if Lower hdl add tmp then
        match q.tailqInsertBefore tmp add with
        | some q => .ok q
        | none => .error .null
      else .ok q)
      insertLoop hdl add depth (q.next tmp) q

def insertWithPriority (depth : Nat) (s : Handlers φ) (add : Nat) :
    Except Fault (Handlers φ) :=
  if (s.hdl add).priority = signalsLast then .ok { s with queue := s.queue.tailqInsertTail add }
  else if (s.hdl add).priority = signalsFirst then
    .ok { s with queue := s.queue.tailqInsertHead add }
  else do
    let q ← insertLoop s.hdl add depth s.queue.first s.queue
    .ok { s with queue := q }

/-- `connect_signal`, with what the area finds for the new handler. -/
def connectSignal (depth : Nat) (s : Handlers φ) (cell : Option Nat) (h : Hdl φ) :
    Except Fault (Handlers φ × Bool) :=
  match cell with
  | none => .ok (s, false)
  | some p => do
      let q := (s.queue.assign none (.next p)).setPrev p none
      let s ← insertWithPriority depth { queue := q, hdl := Function.update s.hdl p h } p
      .ok (s, true)

end Handlers

/-! ## Calls one after the other -/

/-- A call, with what the area found. -/
structure Connect (φ : Type) where
  cell : Option Nat
  hdl : Hdl φ

variable {φ : Type}

/-- The handlers that have been connected. -/
def connected (cs : List (Connect φ)) : List Nat := cs.filterMap Connect.cell

/-- The area does not find a place that is in use. -/
def Fresh (cs : List (Connect φ)) (c : Connect φ) : Prop := ∀ p, c.cell = some p → p ∉ connected cs

/-- The calls that have connected a handler with a lower priority. -/
def lowerCalls (cs : List (Connect φ)) (c : Connect φ) : Nat :=
  cs.countP fun d => d.cell.isSome && d.hdl.priority < c.hdl.priority

/-- A call with a priority between the first and the last comes when exactly one handler has
a lower one. -/
def OneLower (cs : List (Connect φ)) (c : Connect φ) : Prop :=
  c.cell = none ∨ c.hdl.priority = signalsLast ∨ c.hdl.priority = signalsFirst ∨
    lowerCalls cs c = 1

/-- The runs of calls on a signal that has no handler, each of them with one property. -/
inductive Connects (depth : Nat) (p : List (Connect φ) → Connect φ → Prop) (s₀ : Handlers φ) :
    List (Connect φ) → Handlers φ → Prop where
  | start : Connects depth p s₀ [] s₀
  | connect {cs : List (Connect φ)} {s s' : Handlers φ} {c : Connect φ} {v : Bool} :
      Connects depth p s₀ cs s → Fresh cs c → p cs c →
      s.connectSignal depth c.cell c.hdl = .ok (s', v) → Connects depth p s₀ (cs ++ [c]) s'

/-- The last call has put its handler where it belongs. -/
def AtEnd (cs : List (Connect φ)) (hs : List Nat) : Prop :=
  ∀ c p, cs.getLast? = some c → c.cell = some p →
    (c.hdl.priority = signalsFirst → hs.head? = some p) ∧
    (c.hdl.priority = signalsLast → hs.getLast? = some p)

/-- The list of handlers ends, and has each handler that has been connected once. -/
def OnceEach (s : Handlers φ) (cs : List (Connect φ)) : Prop :=
  ∃ hs, s.queue.Follows s.queue.first hs ∧ hs.Nodup ∧ hs.Perm (connected cs) ∧ AtEnd cs hs

/-! ## The loop -/

namespace Handlers

variable {hdl : Nat → Hdl φ} {add p : Nat} {q : Queue Nat} {a b c : Place Nat} {l r : List Nat}

/-- Handlers with no lower priority are passed by. -/
theorem insertLoop_pass (depth : Nat) (h : q.Linked a l c) (hl : ∀ p ∈ l, ¬Lower hdl add p) :
    insertLoop hdl add (depth + l.length) (q.value a) q =
      insertLoop hdl add depth (q.value c) q := by
  induction l generalizing a with
  | nil => rw [show a = c from h, List.length_nil, Nat.add_zero]
  | cons p l ih =>
      rw [h.1, List.length_cons, ← Nat.add_assoc, insertLoop, if_neg (hl p List.mem_cons_self)]
      exact ih h.2.2 fun p' hp' => hl p' (List.mem_cons_of_mem _ hp')

/-- The walk over the handlers that are left.  It changes pointers to the new handler only,
and that of the new handler itself to one with a lower priority. -/
theorem insertLoop_walk {depth : Nat} (h : q.Linked a r b) (hend : q.value b = none)
    (hnodup : (places a r).Nodup) (hadd : add ∉ r) (ha : a ≠ .next add)
    (hdepth : r.length < depth) :
    ∃ q', insertLoop hdl add depth (q.value a) q = .ok q' ∧
      (∀ x, x ≠ .next add → q'.value x = q.value x ∨ q'.value x = some add) ∧
      ((∀ p ∈ r, ¬Lower hdl add p) ∧ q'.value (.next add) = q.value (.next add) ∨
        ∃ p ∈ r, q'.value (.next add) = some p) := by
  induction r generalizing q a depth with
  | nil =>
      rcases Nat.exists_eq_add_one_of_ne_zero (Nat.ne_of_gt hdepth) with ⟨d, rfl⟩
      rw [show a = b from h, hend]
      exact ⟨q, rfl, fun _ _ => .inl rfl, .inl ⟨nofun, rfl⟩⟩
  | cons p r ih =>
      rcases Nat.exists_eq_add_one_of_ne_zero (Nat.ne_of_gt (Nat.zero_lt_of_lt hdepth))
        with ⟨d, rfl⟩
      rcases h with ⟨hvalue, hprev, h⟩
      rcases List.nodup_cons.mp hnodup with ⟨hout, hnodup⟩
      have hpa : p ≠ add := fun hpa => hadd (hpa ▸ List.mem_cons_self)
      have hadd : add ∉ r := fun hmem => hadd (List.mem_cons_of_mem _ hmem)
      have hnext : Place.next p ≠ .next add := fun heq => hpa (by injection heq)
      have hdepth : r.length < d := Nat.lt_of_succ_lt_succ hdepth
      rw [hvalue, insertLoop]
      by_cases hlower : Lower hdl add p
      · rcases Tailq.Queue.insertBefore_eq_some hprev hpa with ⟨q₁, hq₁, -, hvalue₁, hprev₁⟩
        have hplaces : ∀ x ∈ places (.next p) r, q₁.value x = q.value x := by
          intro x hx
          rw [hvalue₁, if_neg (fun hxa : x = a => hout (hxa ▸ hx)), if_neg]
          rintro rfl
          rcases List.mem_cons.mp hx with hx | hx
          · exact hnext hx.symm
          · rcases List.mem_map.mp hx with ⟨p', hp', heq⟩
            injection heq with heq
            exact hadd (heq ▸ hp')
        have hrest : q₁.Linked (.next p) r b := by
          refine h.frame hnodup (fun x hx _ => hplaces x hx) fun p' hp' => ?_
          rw [hprev₁, if_neg, if_neg (fun heq : p' = add => hadd (heq ▸ hp'))]
          exact fun heq => (List.nodup_cons.mp hnodup).1 (heq ▸ List.mem_map_of_mem hp')
        rcases ih hrest ((hplaces b h.mem_places).trans hend) hnodup hadd hnext hdepth
          with ⟨q', hrun, hothers, hself⟩
        refine ⟨q', ?_, fun x hx => ?_, .inr ?_⟩
        · simp only [if_pos hlower, hq₁, bind, Except.bind]
          exact hrun
        · rcases hothers x hx with hx' | hx'
          · rw [hx', hvalue₁, if_neg hx]
            by_cases hxa : x = a
            · exact .inr (if_pos hxa)
            · exact .inl (if_neg hxa)
          · exact .inr hx'
        · rcases hself with ⟨-, hself⟩ | ⟨p', hp', hself⟩
          · refine ⟨p, List.mem_cons_self, ?_⟩
            rw [hself, hvalue₁, if_neg ha.symm, if_pos rfl]
          · exact ⟨p', List.mem_cons_of_mem _ hp', hself⟩
      · rcases ih h hend hnodup hadd hnext hdepth with ⟨q', hrun, hothers, hself⟩
        refine ⟨q', ?_, hothers, ?_⟩
        · simp only [if_neg hlower, bind, Except.bind]
          exact hrun
        · rcases hself with ⟨hnone, hself⟩ | ⟨p', hp', hself⟩
          · refine .inl ⟨fun p' hp' => ?_, hself⟩
            rcases List.mem_cons.mp hp' with rfl | hp'
            · exact hlower
            · exact hnone p' hp'
          · exact .inr ⟨p', List.mem_cons_of_mem _ hp', hself⟩

theorem insertLoop_none {depth : Nat} (h : q.Linked a l b) (hend : q.value b = none)
    (hl : ∀ p ∈ l, ¬Lower hdl add p) (hdepth : l.length < depth) :
    insertLoop hdl add depth (q.value a) q = .ok q := by
  have hd : depth = (depth - l.length - 1 + 1) + l.length := by omega
  rw [hd, insertLoop_pass _ h hl, hend]
  rfl

/-- The loop up to the first handler with a lower priority, where it puts the new one. -/
theorem insertLoop_first {depth : Nat} {l₁ l₂ : List Nat} (h : q.Holds (l₁ ++ p :: l₂))
    (hadd : add ∉ l₁ ++ p :: l₂) (hl₁ : ∀ p ∈ l₁, ¬Lower hdl add p) (hp : Lower hdl add p)
    (hdepth : (l₁ ++ p :: l₂).length < depth) :
    ∃ d q₁ b, insertLoop hdl add depth q.first q = insertLoop hdl add d (q₁.value (.next p)) q₁ ∧
      l₂.length < d ∧ q₁.Holds (l₁ ++ add :: p :: l₂) ∧ q.prev p = some b ∧
      ∀ x, q₁.value x =
        if x = b then some add else if x = .next add then some p else q.value x := by
  rcases Tailq.Queue.linked_append.mp h.linked with ⟨b, hb, hvalue, hprev, -⟩
  rcases h.insertBefore hadd hb hprev with ⟨q₁, hq₁, hholds, hvalue₁⟩
  rw [List.length_append, List.length_cons] at hdepth
  have hd : depth = (depth - l₁.length - 1 + 1) + l₁.length := by omega
  refine ⟨depth - l₁.length - 1, q₁, b, ?_, by omega, hholds, hprev, hvalue₁⟩
  have hpass := insertLoop_pass (depth - l₁.length - 1 + 1) hb hl₁
  rw [← hd] at hpass
  refine hpass.trans ?_
  rw [hvalue, insertLoop]
  simp only [if_pos hp, hq₁, bind, Except.bind]
  rfl

theorem insertLoop_one {depth : Nat} {l₁ l₂ : List Nat} (h : q.Holds (l₁ ++ p :: l₂))
    (hadd : add ∉ l₁ ++ p :: l₂) (hl₁ : ∀ p ∈ l₁, ¬Lower hdl add p) (hp : Lower hdl add p)
    (hl₂ : ∀ p ∈ l₂, ¬Lower hdl add p) (hdepth : (l₁ ++ p :: l₂).length < depth) :
    ∃ q', insertLoop hdl add depth q.first q = .ok q' ∧ q'.Holds (l₁ ++ add :: p :: l₂) := by
  rcases insertLoop_first h hadd hl₁ hp hdepth with ⟨d, q₁, b, hrun, hd, hholds, -⟩
  rcases Tailq.Queue.linked_append.mp hholds.linked with ⟨c, -, -, -, -, -, hrest⟩
  exact ⟨q₁, hrun.trans (insertLoop_none hrest hholds.ends hl₂ hd), hholds⟩

/-- With a second one of them no pointer is left to the first. -/
theorem insertLoop_more {depth : Nat} {l₁ l₂ : List Nat} (h : q.Holds (l₁ ++ p :: l₂))
    (hadd : add ∉ l₁ ++ p :: l₂) (hl₁ : ∀ p ∈ l₁, ¬Lower hdl add p) (hp : Lower hdl add p)
    (hl₂ : ∃ p ∈ l₂, Lower hdl add p) (hdepth : (l₁ ++ p :: l₂).length < depth) :
    ∃ q', insertLoop hdl add depth q.first q = .ok q' ∧
      ∀ x ∈ places .first (l₁ ++ p :: l₂) ++ [.next add], q'.value x ≠ some p := by
  rcases insertLoop_first h hadd hl₁ hp hdepth with ⟨d, q₁, b, hrun, hd, hholds, hprev, hvalue₁⟩
  rcases Tailq.Queue.linked_append.mp hholds.linked with ⟨c, -, -, -, -, -, hrest⟩
  have hpa : p ≠ add := fun hpa => hadd (hpa ▸ List.mem_append_right _ List.mem_cons_self)
  have hnodup := (List.nodup_append.mp h.nodup).2.1
  have hplaces : (places (.next p) l₂).Nodup := (Tailq.Queue.nodup_places hnodup).of_cons
  rcases insertLoop_walk hrest hholds.ends hplaces
    (fun hmem => hadd (List.mem_append_right _ (List.mem_cons_of_mem _ hmem)))
    (fun heq => hpa (by injection heq)) hd with ⟨q', hwalk, hothers, hself⟩
  refine ⟨q', hrun.trans hwalk, fun x hx => ?_⟩
  by_cases hxa : x = .next add
  · rcases hself with ⟨hnone, -⟩ | ⟨p', hp', hself⟩
    · rcases hl₂ with ⟨p', hp', hlower⟩
      exact absurd hlower (hnone p' hp')
    · rw [hxa, hself]
      exact fun heq => (List.nodup_cons.mp hnodup).1 (Option.some.inj heq ▸ hp')
  · have hadded : some add ≠ some p := fun heq => hpa (Option.some.inj heq).symm
    have hmem : x ∈ places .first (l₁ ++ p :: l₂) := by
      rcases List.mem_append.mp hx with hx | hx
      · exact hx
      · exact absurd (List.mem_singleton.mp hx) hxa
    rcases hothers x hxa with hx' | hx'
    · rw [hx', hvalue₁, if_neg hxa]
      by_cases hxb : x = b
      · rwa [if_pos hxb]
      · rw [if_neg hxb]
        intro hvalue
        have hxprev := h.linked.prev_eq h.ends hmem hvalue
        exact hxb (Option.some.inj (hxprev.symm.trans hprev))
    · rwa [hx']

end Handlers

/-! ## One call -/

section Calls

variable {s : Handlers φ} {cs : List (Connect φ)} {c : Connect φ} {l l' : List Nat} {p : Nat}

/-- The queue holds the handlers that have been connected, each with what it was given. -/
structure Good (s : Handlers φ) (cs : List (Connect φ)) (l : List Nat) : Prop where
  holds : s.queue.Holds l
  perm : l.Perm (connected cs)
  data : ∀ d ∈ cs, ∀ p, d.cell = some p → s.hdl p = d.hdl

/-- The state when the new handler has been made. -/
def Handlers.made (s : Handlers φ) (p : Nat) (h : Hdl φ) : Handlers φ where
  queue := (s.queue.assign none (.next p)).setPrev p none
  hdl := Function.update s.hdl p h

theorem connected_append (hp : c.cell = some p) : connected (cs ++ [c]) = connected cs ++ [p] := by
  rw [connected, List.filterMap_append, List.filterMap_cons_some hp]
  rfl

theorem Handlers.made_holds (hq : s.queue.Holds l) (hp : p ∉ l) (h : Hdl φ) :
    (s.made p h).queue.Holds l := by
  refine hq.congr (fun x hx => ?_) (fun x hx => ?_) ?_
  · rw [Handlers.made, Tailq.Queue.value_setPrev, Tailq.Queue.value_assign, if_neg]
    rintro rfl
    rcases List.mem_cons.mp hx with hx | hx
    · nomatch hx
    · rcases List.mem_map.mp hx with ⟨p', hp', heq⟩
      injection heq with heq
      exact hp (heq ▸ hp')
  · rw [Handlers.made, Tailq.Queue.prev_setPrev, if_neg (fun heq : x = p => hp (heq ▸ hx)),
      Tailq.Queue.prev_assign]
  · rw [Handlers.made, Tailq.Queue.last_setPrev, Tailq.Queue.last_assign]

theorem Good.made (hg : Good s cs l) (hp : p ∉ l) (h : Hdl φ) : (s.made p h).queue.Holds l :=
  Handlers.made_holds hg.holds hp h

/-- The handlers with a lower priority, counted in the queue and in the calls. -/
theorem Good.countP_lower (hg : Good s cs l) (hp : c.cell = some p) (hfresh : p ∉ connected cs) :
    l.countP (fun x => decide (Handlers.Lower (s.made p c.hdl).hdl p x)) = lowerCalls cs c := by
  have hself : (s.made p c.hdl).hdl p = c.hdl := Function.update_self _ _ _
  rw [hg.perm.countP_eq, connected, List.countP_filterMap, lowerCalls]
  refine List.countP_congr fun d hd => ?_
  rcases hcell : d.cell with _ | x
  · simp
  · have hne : x ≠ p := by
      rintro rfl
      exact hfresh (List.mem_filterMap.mpr ⟨d, hd, hcell⟩)
    have hx : (s.made p c.hdl).hdl x = d.hdl :=
      (Function.update_of_ne hne _ _).trans (hg.data d hd x hcell)
    simp [Handlers.Lower, hself, hx]

theorem Good.connect (hg : Good s cs l) (hp : c.cell = some p) {q' : Queue Nat}
    (hq' : q'.Holds l') (hl' : l'.Perm (p :: l)) (hfresh : p ∉ connected cs) :
    Good { queue := q', hdl := (s.made p c.hdl).hdl } (cs ++ [c]) l' := by
  refine ⟨hq', ?_, fun d hd p' hp' => ?_⟩
  · rw [connected_append hp]
    exact (hl'.trans (hg.perm.cons p)).trans (List.perm_append_singleton _ _).symm
  · rcases List.mem_append.mp hd with hd | hd
    · have hne : p' ≠ p := by
        rintro rfl
        exact hfresh (List.mem_filterMap.mpr ⟨d, hd, hp'⟩)
      exact (Function.update_of_ne hne _ _).trans (hg.data d hd p' hp')
    · rw [List.mem_singleton.mp hd] at hp' ⊢
      rw [hp] at hp'
      rw [← Option.some.inj hp']
      exact Function.update_self _ _ _

theorem connectSignal_eq (depth : Nat) (hp : c.cell = some p) :
    s.connectSignal depth c.cell c.hdl =
      ((s.made p c.hdl).insertWithPriority depth p).map (·, true) := by
  rw [hp, Handlers.connectSignal]
  rfl

theorem Good.length_le (hg : Good s cs l) : l.length ≤ cs.length :=
  hg.perm.length_eq.le.trans (List.length_filterMap_le _ _)

/-- The first handler of a kind, and how many there are behind it. -/
theorem exists_first {P : Nat → Prop} [DecidablePred P] {l : List Nat} {n : Nat}
    (h : l.countP (fun x => decide (P x)) = n) (hn : 0 < n) :
    ∃ l₁ t l₂, l = l₁ ++ t :: l₂ ∧ (∀ x ∈ l₁, ¬P x) ∧ P t ∧
      l₂.countP (fun x => decide (P x)) + 1 = n := by
  induction l with
  | nil => exact absurd hn (by rw [← h]; exact Nat.lt_irrefl 0)
  | cons a l ih =>
      rw [List.countP_cons] at h
      by_cases ha : P a
      · rw [if_pos (decide_eq_true ha)] at h
        exact ⟨[], a, l, rfl, nofun, ha, h⟩
      · rw [if_neg (fun hd => ha (of_decide_eq_true hd)), Nat.add_zero] at h
        rcases ih h with ⟨l₁, t, l₂, rfl, hl₁, ht, hl₂⟩
        refine ⟨a :: l₁, t, l₂, rfl, fun x hx => ?_, ht, hl₂⟩
        rcases List.mem_cons.mp hx with rfl | hx
        · exact ha
        · exact hl₁ x hx

theorem atEnd_of {hs : List Nat} (hp : c.cell = some p)
    (hfirst : c.hdl.priority = signalsFirst → hs.head? = some p)
    (hlast : c.hdl.priority = signalsLast → hs.getLast? = some p) : AtEnd (cs ++ [c]) hs := by
  intro d p' hd hp'
  rw [List.getLast?_concat] at hd
  rw [← Option.some.inj hd] at hp' ⊢
  rw [hp] at hp'
  rw [← Option.some.inj hp']
  exact ⟨hfirst, hlast⟩

/-- A call for which there is no memory. -/
theorem Good.failed (hg : Good s cs l) (hcell : c.cell = none) :
    Good s (cs ++ [c]) l ∧ AtEnd (cs ++ [c]) l := by
  refine ⟨⟨hg.holds, ?_, fun d hd p hp => ?_⟩, fun d p hd hp => ?_⟩
  · rw [connected, List.filterMap_append, List.filterMap_cons_none hcell, List.filterMap_nil,
      List.append_nil]
    exact hg.perm
  · rcases List.mem_append.mp hd with hd | hd
    · exact hg.data d hd p hp
    · rw [List.mem_singleton.mp hd, hcell] at hp
      nomatch hp
  · rw [List.getLast?_concat] at hd
    rw [← Option.some.inj hd, hcell] at hp
    nomatch hp

/-- A call that meets the condition. -/
theorem Good.step {depth : Nat} (hg : Good s cs l) (hfresh : Fresh cs c) (hc : OneLower cs c)
    (hdepth : cs.length < depth) : ∃ s' l', s.connectSignal depth c.cell c.hdl =
      .ok (s', c.cell.isSome) ∧ Good s' (cs ++ [c]) l' ∧ AtEnd (cs ++ [c]) l' := by
  rcases hcell : c.cell with _ | p
  · exact ⟨s, l, rfl, hg.failed hcell⟩
  · have hnew := hfresh p hcell
    have hout : p ∉ l := fun hmem => hnew (hg.perm.mem_iff.mp hmem)
    have hholds := hg.made hout c.hdl
    have hself : (s.made p c.hdl).hdl p = c.hdl := Function.update_self _ _ _
    rw [← hcell, connectSignal_eq depth hcell, Handlers.insertWithPriority, hself]
    by_cases hlast : c.hdl.priority = signalsLast
    · rw [if_pos hlast]
      have hne : c.hdl.priority ≠ signalsFirst := by rw [hlast]; decide
      exact ⟨_, _, by rw [hcell]; rfl,
        hg.connect hcell (hholds.insertTail hout) (List.perm_append_singleton _ _) hnew,
        atEnd_of hcell (fun h => absurd h hne) fun _ => List.getLast?_concat⟩
    · rw [if_neg hlast]
      by_cases hfirst : c.hdl.priority = signalsFirst
      · rw [if_pos hfirst]
        exact ⟨_, _, by rw [hcell]; rfl,
          hg.connect hcell (hholds.insertHead hout) (List.Perm.refl _) hnew,
          atEnd_of hcell (fun _ => rfl) fun h => absurd h hlast⟩
      · rw [if_neg hfirst]
        have hone : lowerCalls cs c = 1 := by
          rcases hc with h | h | h | h
          · rw [hcell] at h
            nomatch h
          · exact absurd h hlast
          · exact absurd h hfirst
          · exact h
        rcases exists_first (hg.countP_lower hcell hnew) (by omega) with
          ⟨l₁, t, l₂, rfl, hl₁, ht, hcount⟩
        have hzero : l₂.countP (fun x => decide (Handlers.Lower (s.made p c.hdl).hdl p x)) = 0 := by
          omega
        have hl₂ : ∀ x ∈ l₂, ¬Handlers.Lower (s.made p c.hdl).hdl p x := fun x hx hlower =>
          List.countP_eq_zero.mp hzero x hx (decide_eq_true hlower)
        rcases Handlers.insertLoop_one hholds hout hl₁ ht hl₂
          (hg.length_le.trans_lt hdepth) with ⟨q', hrun, hq'⟩
        refine ⟨_, _, ?_, hg.connect hcell hq' ?_ hnew,
          atEnd_of hcell (fun h => absurd h hfirst) fun h => absurd h hlast⟩
        · rw [hrun, hcell]
          rfl
        · exact List.perm_middle

/-- What the loop has made of the queue when the call is over. -/
theorem connectSignal_loop {depth : Nat} (hp : c.cell = some p)
    (hlast : c.hdl.priority ≠ signalsLast) (hfirst : c.hdl.priority ≠ signalsFirst)
    {q' : Queue Nat} (hloop : Handlers.insertLoop (s.made p c.hdl).hdl p depth
      (s.made p c.hdl).queue.first (s.made p c.hdl).queue = .ok q') :
    s.connectSignal depth c.cell c.hdl =
      .ok ({ queue := q', hdl := (s.made p c.hdl).hdl }, true) := by
  have hself : (s.made p c.hdl).hdl p = c.hdl := Function.update_self _ _ _
  rw [connectSignal_eq depth hp, Handlers.insertWithPriority, hself, if_neg hlast,
    if_neg hfirst, hloop]
  rfl

/-- The places in front of and behind the handlers do not depend on their order. -/
theorem mem_places_of_perm {hs : List Nat} (h : hs.Perm (l ++ [p])) {x : Place Nat}
    (hx : x ∈ places .first hs) : x ∈ places .first l ++ [.next p] := by
  rcases List.mem_cons.mp hx with rfl | hx
  · exact List.mem_append_left _ List.mem_cons_self
  · rcases List.mem_map.mp hx with ⟨y, hy, rfl⟩
    rcases List.mem_append.mp (h.mem_iff.mp hy) with hy | hy
    · exact List.mem_append_left _ (List.mem_cons_of_mem _ (List.mem_map_of_mem hy))
    · rw [List.mem_singleton.mp hy]
      exact List.mem_append_right _ List.mem_cons_self

/-- A call that does not meet it: the new handler is not in the queue, or the first one with
a lower priority is not. -/
theorem Good.not_onceEach {depth : Nat} (hg : Good s cs l) (hfresh : Fresh cs c)
    (hc : ¬OneLower cs c) (hdepth : cs.length < depth) {s' : Handlers φ} {v : Bool}
    (hrun : s.connectSignal depth c.cell c.hdl = .ok (s', v)) : ¬OnceEach s' (cs ++ [c]) := by
  unfold OneLower at hc
  push Not at hc
  rcases hc with ⟨hcell, hlast, hfirst, hone⟩
  rcases Option.ne_none_iff_exists'.mp hcell with ⟨p, hp⟩
  have hnew := hfresh p hp
  have hout : p ∉ l := fun hmem => hnew (hg.perm.mem_iff.mp hmem)
  have hholds := hg.made hout c.hdl
  have hdepth := hg.length_le.trans_lt hdepth
  have hcount := hg.countP_lower hp hnew
  have hqueue : ∀ {q' : Queue Nat}, Handlers.insertLoop (s.made p c.hdl).hdl p depth
      (s.made p c.hdl).queue.first (s.made p c.hdl).queue = .ok q' → s'.queue = q' := by
    intro q' hloop
    rw [connectSignal_loop hp hlast hfirst hloop] at hrun
    injection hrun with hrun
    exact (congrArg (Handlers.queue ∘ Prod.fst) hrun).symm
  rintro ⟨hs, hfollows, -, hperm, -⟩
  rw [connected_append hp] at hperm
  have hperm : hs.Perm (l ++ [p]) := hperm.trans (hg.perm.symm.append_right [p])
  by_cases hnone : lowerCalls cs c = 0
  · have hl : ∀ x ∈ l, ¬Handlers.Lower (s.made p c.hdl).hdl p x := fun x hx hlower =>
      List.countP_eq_zero.mp (hcount.trans hnone) x hx (decide_eq_true hlower)
    rw [hqueue (Handlers.insertLoop_none hholds.linked hholds.ends hl hdepth)] at hfollows
    have heq := hfollows.unique (hholds.linked.follows hholds.ends)
    exact hout (heq ▸ hperm.mem_iff.mpr (List.mem_append_right _ List.mem_cons_self))
  · rcases exists_first hcount (Nat.pos_of_ne_zero hnone) with ⟨l₁, t, l₂, rfl, hl₁, ht, hl₂⟩
    have hmore : ∃ x ∈ l₂, Handlers.Lower (s.made p c.hdl).hdl p x := by
      have hpos : 0 < l₂.countP fun x => decide (Handlers.Lower (s.made p c.hdl).hdl p x) := by
        omega
      rcases List.countP_pos_iff.mp hpos with ⟨x, hx, hlower⟩
      exact ⟨x, hx, of_decide_eq_true hlower⟩
    rcases Handlers.insertLoop_more hholds hout hl₁ ht hmore hdepth with ⟨q', hloop, hlost⟩
    rw [hqueue hloop] at hfollows
    have hmem : t ∈ hs := hperm.mem_iff.mpr (by simp)
    have hfollows : q'.Follows (q'.value .first) hs := hfollows
    rcases hfollows.exists_place hmem with ⟨x, hx, hvalue⟩
    exact hlost x (mem_places_of_perm hperm hx) hvalue

end Calls

/-! ## Runs -/

/-- While each call meets the condition, the list ends and has each connected handler once,
the first at its head and the last at its tail.  A further call leaves it so if and only if
it meets the condition. -/
theorem onceEach_iff {depth : Nat} {s₀ s : Handlers φ} {cs : List (Connect φ)}
    (hinit : s₀.queue = s₀.queue.tailqInit) (h : Connects depth OneLower s₀ cs s)
    (hdepth : cs.length < depth) {c : Connect φ} (hfresh : Fresh cs c) :
    OnceEach s cs ∧
      ((∃ s', s.connectSignal depth c.cell c.hdl = .ok (s', c.cell.isSome) ∧
        OnceEach s' (cs ++ [c])) ↔ OneLower cs c) := by
  have hgood : ∃ l, Good s cs l ∧ AtEnd cs l := by
    clear hfresh
    induction h with
    | start =>
        refine ⟨[], ⟨⟨?_, ?_, List.nodup_nil⟩, List.Perm.refl _, nofun⟩, nofun⟩
        · rw [hinit]
          rfl
        · rw [hinit]
          rfl
    | @connect cs s s' c v hrun hfresh hc hstep ih =>
        rw [List.length_append, List.length_singleton] at hdepth
        rcases ih (Nat.lt_of_succ_lt hdepth) with ⟨l, hg, -⟩
        rcases hg.step hfresh hc (Nat.lt_of_succ_lt hdepth) with ⟨s₁, l', hrun', hg', hend⟩
        rw [hstep] at hrun'
        injection hrun' with hrun'
        injection hrun' with hs hv
        exact ⟨l', hs ▸ hg', hend⟩
  have honce : ∀ {s : Handlers φ} {cs : List (Connect φ)} {l : List Nat}, Good s cs l →
      AtEnd cs l → OnceEach s cs := fun hg hend =>
    ⟨_, hg.holds.linked.follows hg.holds.ends, hg.holds.nodup, hg.perm, hend⟩
  rcases hgood with ⟨l, hg, hend⟩
  refine ⟨honce hg hend, ?_, fun hc => ?_⟩
  · rintro ⟨s', hrun, hright⟩
    by_contra hc
    exact hg.not_onceEach hfresh hc hdepth hrun hright
  · rcases hg.step hfresh hc hdepth with ⟨s', l', hrun, hg', hend'⟩
    exact ⟨s', hrun, honce hg' hend'⟩

/-- A signal with no handler. -/
def noHandlers : Handlers Unit where
  queue := { first := none, last := .first, next := fun _ => none, prev := fun _ => none }
  hdl := fun _ => { priority := 0, count := 0, func := () }

def connectAt (p : Nat) (priority : UInt32) : Connect Unit where
  cell := some p
  hdl := { priority := priority, count := forever, func := () }

theorem onceEach_iff_first : ∃ s,
    Connects 2 OneLower noHandlers [connectAt 1 signalsFirst] s ∧
      OnceEach s [connectAt 1 signalsFirst] ∧
        ((∃ s', s.connectSignal 2 (some 2) (connectAt 2 5).hdl = .ok (s', true) ∧
          OnceEach s' [connectAt 1 signalsFirst, connectAt 2 5]) ↔
            OneLower [connectAt 1 signalsFirst] (connectAt 2 5)) := by
  have hrun : Connects 2 OneLower noHandlers [connectAt 1 signalsFirst] _ :=
    .connect .start (fun _ _ => List.not_mem_nil) (.inr (.inr (.inl rfl))) rfl
  have hfresh : Fresh [connectAt 1 signalsFirst] (connectAt 2 5) := fun p hp =>
    Option.some.inj hp ▸ (by decide)
  exact ⟨_, hrun, onceEach_iff rfl hrun (by decide) hfresh⟩

/-- A handler of another priority on a signal that has none is not put into the list, and one
that finds two handlers with a lower priority takes the first of them out of it. -/
theorem connected_not_once :
    (∃ s, Connects 3 (fun _ _ => True) noHandlers [connectAt 1 5] s ∧
      ¬OnceEach s [connectAt 1 5]) ∧
    ∃ s, Connects 3 (fun _ _ => True) noHandlers
        [connectAt 1 signalsFirst, connectAt 2 signalsFirst, connectAt 3 5] s ∧
      s.queue.Follows s.queue.first [3, 1] ∧
      ¬OnceEach s [connectAt 1 signalsFirst, connectAt 2 signalsFirst, connectAt 3 5] := by
  constructor
  · refine ⟨_, .connect .start (fun _ _ => List.not_mem_nil) trivial rfl, ?_⟩
    rintro ⟨hs, hfollows, -, hperm, -⟩
    have hnil : hs = [] := hfollows.unique rfl
    rw [hnil] at hperm
    exact absurd hperm.length_eq (by decide)
  · have hfresh : ∀ p priority cs, p ∉ connected cs → Fresh cs (connectAt p priority) :=
      fun p _ cs hp p' hp' => Option.some.inj hp' ▸ hp
    have hone : Connects 3 (fun _ _ => True) noHandlers [connectAt 1 signalsFirst] _ :=
      .connect .start (hfresh 1 _ [] (by decide)) trivial rfl
    have htwo : Connects 3 (fun _ _ => True) noHandlers
        [connectAt 1 signalsFirst, connectAt 2 signalsFirst] _ :=
      .connect hone (hfresh 2 _ [connectAt 1 signalsFirst] (by decide)) trivial rfl
    have hthree : Connects 3 (fun _ _ => True) noHandlers
        [connectAt 1 signalsFirst, connectAt 2 signalsFirst, connectAt 3 5] _ :=
      .connect htwo (hfresh 3 _ [connectAt 1 signalsFirst, connectAt 2 signalsFirst] (by decide))
        trivial rfl
    refine ⟨_, hthree, ⟨rfl, rfl, rfl⟩, ?_⟩
    rintro ⟨hs, hfollows, -, hperm, -⟩
    have hlist : hs = [3, 1] := hfollows.unique ⟨rfl, rfl, rfl⟩
    rw [hlist] at hperm
    exact absurd hperm.length_eq (by decide)

end Signals
end IrC6
