import IrC6.Signals.Machine

/-!
# The arguments of an emission

There is one `va_list` for all the handlers that an emission runs, on its instance and on
the ancestors.  The first marshal reads the arguments to their end.  The others find nothing
there, so that of the handlers only the first receives what was emitted.
-/

namespace IrC6
namespace Signals

variable {σ φ β : Type}

theorem readArgs_of_matches {m : Marshal β} {args : List β} (hm : m.Matches args) :
    readArgs m.params args = (args.map some, []) := by
  rcases m with ⟨ps⟩
  change List.Forall₂ (fun p a => p a = a) ps args at hm
  change readArgs ps args = _
  induction hm with
  | nil => rfl
  | cons hpa _ ih =>
      rw [readArgs, List.head?_cons, List.tail_cons, ih, List.map_cons, Option.map_some, hpa]

theorem readArgs_nil (ps : List (β → β)) : readArgs ps [] = (ps.map fun _ => none, []) := by
  induction ps with
  | nil => rfl
  | cons p ps ih => rw [readArgs, List.head?_nil, List.tail_nil, ih, Option.map_none, List.map_cons]

/-- From the end of the list a handler without arguments alone receives what was emitted. -/
theorem readArgs_nil_eq_iff {m : Marshal β} {args : List β} (hm : m.Matches args) :
    (readArgs m.params []).1 = args.map some ↔ args = [] := by
  rw [readArgs_nil]
  rcases args with _ | ⟨a, args⟩
  · have hparams : m.params = [] := by
      rw [← List.length_eq_zero_iff, List.Forall₂.length_eq hm, List.length_nil]
    exact ⟨fun _ => rfl, fun _ => by rw [hparams, List.map_nil, List.map_nil]⟩
  · refine ⟨fun h => ?_, nofun⟩
    rcases hparams : m.params with _ | ⟨p, ps⟩
    · rw [hparams, List.map_nil, List.map_cons] at h
      nomatch h
    · rw [hparams, List.map_cons, List.map_cons] at h
      injection h with h
      nomatch h

namespace Machine

/-- Where the cursor of an emission is after so many handlers. -/
def cursor (calls : Nat) (args : List β) : List β := if calls = 0 then args else []

/-- The emissions have come as far in their arguments, and the handlers have read from
there. -/
structure Threaded (m : Machine σ φ β) : Prop where
  frames : ∀ f ∈ m.stack, f.ap = cursor f.calls f.args
  calls : ∀ c ∈ m.calls, c.got = (readArgs c.marshal.params (cursor c.nth c.args)).1

variable {m m' : Machine σ φ β} {f f' : Frame σ β} {fs : List (Frame σ β)}

theorem threaded_start (h : Heap σ φ β) : (start h : Machine σ φ β).Threaded := ⟨nofun, nofun⟩

theorem Threaded.stack {m₂ : Machine σ φ β} (ht : m.Threaded) (hstack : m₂.stack = m.stack)
    (hcalls : m₂.calls = m.calls) : m₂.Threaded :=
  ⟨hstack ▸ ht.frames, hcalls ▸ ht.calls⟩

/-- A step that leaves the arguments of the last emission where they are. -/
theorem Threaded.keep (ht : m.Threaded) (hstack : m.stack = f :: fs)
    {m₂ : Machine σ φ β} (hstack' : m₂.stack = f' :: fs) (hcalls : m₂.calls = m.calls)
    (hf : f'.ap = f.ap ∧ f'.calls = f.calls ∧ f'.args = f.args) : m₂.Threaded := by
  have hframes := ht.frames
  rw [hstack, List.forall_mem_cons] at hframes
  refine ⟨?_, hcalls ▸ ht.calls⟩
  rw [hstack', List.forall_mem_cons, hf.1, hf.2.1, hf.2.2]
  exact hframes

/-- A handler is called. -/
theorem Threaded.callHandler (ht : m.Threaded) (hstack : m.stack = f :: fs) {tmp sp : Nat}
    {s : Signal φ β} {c : Cell φ} {asked : Bool} (hm : s.marshal.Matches f.args) :
    (m.callHandler f fs tmp sp s c asked).Threaded := by
  have hframes := ht.frames
  rw [hstack, List.forall_mem_cons] at hframes
  have hrest : (readArgs s.marshal.params f.ap).2 = [] := by
    rw [hframes.1, cursor]
    by_cases hzero : f.calls = 0
    · rw [if_pos hzero, readArgs_of_matches hm]
    · rw [if_neg hzero, readArgs_nil]
  constructor
  · refine List.forall_mem_cons.mpr ⟨?_, hframes.2⟩
    exact hrest.trans (if_neg (Nat.succ_ne_zero _)).symm
  · refine List.forall_mem_cons.mpr ⟨?_, ht.calls⟩
    exact congrArg (fun ap => (readArgs s.marshal.params ap).1) hframes.1

theorem Threaded.went (ht : m.Threaded) (hstack : m.stack = f :: fs)
    (hm : ∀ c ∈ m'.calls, c.marshal.Matches c.args) (hw : Went m f fs m') : m'.Threaded := by
  cases hw with
  | back =>
      have hframes := ht.frames
      rw [hstack, List.forall_mem_cons] at hframes
      exact ⟨hframes.2, ht.calls⟩
  | climb | clear | pass => exact ht.keep hstack rfl rfl ⟨rfl, rfl, rfl⟩
  | first =>
      apply Threaded.callHandler
      · exact ht.stack rfl rfl
      · exact hstack
      · exact hm _ List.mem_cons_self
  | last hcounted =>
      rcases hcounted with ⟨-, -, -, -, cs, released, -, rfl⟩
      exact ht.keep hstack rfl rfl ⟨rfl, rfl, rfl⟩
  | next hcounted =>
      rcases hcounted with ⟨-, -, -, -, cs, released, -, rfl⟩
      apply Threaded.callHandler
      · exact ht.stack rfl rfl
      · exact hstack
      · exact hm _ List.mem_cons_self

/-! ## Runs -/

theorem note_eq (f : Frame σ β) (call : Api σ φ β) :
    (f.note call).ap = f.ap ∧ (f.note call).calls = f.calls ∧ (f.note call).args = f.args := by
  unfold Frame.note
  split
  · split <;> exact ⟨rfl, rfl, rfl⟩
  · exact ⟨rfl, rfl, rfl⟩

/-- The handlers that have run are a record that grows. -/
theorem Went.calls_subset (hw : Went m f fs m') : m.calls ⊆ m'.calls := by
  cases hw with
  | back | climb | clear | pass => exact List.Subset.refl _
  | first => exact List.subset_cons_self _ _
  | last hcounted =>
      rcases hcounted with ⟨-, -, -, -, cs, released, -, rfl⟩
      exact List.Subset.refl _
  | next hcounted =>
      rcases hcounted with ⟨-, -, -, -, cs, released, -, rfl⟩
      exact List.subset_cons_self _ _

variable [DecidableEq σ] [DecidableEq φ]

theorem calls_subset {a : Action σ φ β} {u : Unit} (h : m.run a = .ok (m', u)) :
    m.calls ⊆ m'.calls := by
  cases a with
  | emit p sig args =>
      rw [run_emit h]
      exact List.Subset.refl _
  | api call =>
      rcases run_api h with ⟨heap, -, rfl⟩
      exact List.Subset.refl _
  | go depth =>
      rcases run_go h with ⟨-, rfl⟩ | ⟨f, fs, -, hw⟩
      · exact List.Subset.refl _
      · exact hw.calls_subset

theorem Threaded.step {a : Action σ φ β} {u : Unit} (ht : m.Threaded)
    (hm : ∀ c ∈ m'.calls, c.marshal.Matches c.args) (h : m.run a = .ok (m', u)) :
    m'.Threaded := by
  cases a with
  | emit p sig args =>
      rw [run_emit h]
      exact ⟨List.forall_mem_cons.mpr ⟨rfl, ht.frames⟩, ht.calls⟩
  | api call =>
      rcases run_api h with ⟨heap, -, rfl⟩
      rcases hstack : m.stack with _ | ⟨f, fs⟩
      · exact ⟨nofun, ht.calls⟩
      · exact ht.keep hstack rfl rfl (note_eq f call)
  | go depth =>
      rcases run_go h with ⟨-, rfl⟩ | ⟨f, fs, hstack, hw⟩
      · exact ht
      · exact ht.went hstack hm hw

theorem threaded_of_reaches {h : Heap σ φ β} (hr : Reaches run Allowed (start h) m)
    (hm : ∀ c ∈ m.calls, c.marshal.Matches c.args) : m.Threaded := by
  refine hr.invariant (I := fun m => (∀ c ∈ m.calls, c.marshal.Matches c.args) → m.Threaded)
    (fun _ => threaded_start h) (fun m m' a u ih _ hrun hm' => ?_) hm
  exact (ih fun c hc => hm' c (calls_subset hrun hc)).step hm' hrun

/-- Of the handlers that the emissions of a run call, each with arguments that match its
marshal, those that are the first of their emission receive what was emitted, and of the
others those alone whose signal has no arguments. -/
theorem got_args_iff {h : Heap σ φ β} (hr : Reaches run Allowed (start h) m)
    (hm : ∀ c ∈ m.calls, c.marshal.Matches c.args) :
    ∀ c ∈ m.calls, c.got = c.args.map some ↔ c.args = [] ∨ c.nth = 0 := by
  intro c hc
  rw [(threaded_of_reaches hr hm).calls c hc, cursor]
  by_cases hzero : c.nth = 0
  · rw [if_pos hzero, readArgs_of_matches (hm c hc)]
    exact ⟨fun _ => Or.inr hzero, fun _ => rfl⟩
  · rw [if_neg hzero, readArgs_nil_eq_iff (hm c hc), or_iff_left hzero]

/-- An instance with two handlers of a signal with one argument. -/
def twoHandlers : Except Fault (Heap Unit Unit Nat) := do
  let h ← (Heap.empty (Area.Heap.areaRoot 0)).sigInstanceNew 0 1 2
  let h ← h.sigRegister 1 () { params := [id] } 3
  let h ← h.sigConnect 1 1 () { priority := .last, count := forever, func := (), addr := 4 } 5
  h.sigConnect 1 1 () { priority := .last, count := forever, func := (), addr := 6 } 7

/-- A handler of the emission of the argument 7. -/
def sevenHandled (nth : Nat) (got : List (Option Nat)) : Handled Nat :=
  { owner := 1, marshal := { params := [id] }, args := [7], nth := nth, got := got,
    afterQuit := false }

theorem sevenHandled_matches (nth : Nat) (got : List (Option Nat)) :
    (sevenHandled nth got).marshal.Matches (sevenHandled nth got).args :=
  .cons rfl .nil

theorem exists_twoHandlers : ∃ h, twoHandlers = .ok h ∧ ∃ m m',
    Reaches run Allowed (start h) m ∧ m.calls = [sevenHandled 0 [some 7]] ∧
    Reaches run Allowed (start h) m' ∧
      m'.calls = [sevenHandled 1 [none], sevenHandled 0 [some 7]] := by
  have hgo : ∀ {h : Heap Unit Unit Nat} {m m' : Machine Unit Unit Nat},
      Reaches run Allowed (start h) m → m.run (.go 1) = .ok (m', ()) →
        Reaches run Allowed (start h) m' := fun hr hrun => hr.step (.go 1) trivial hrun
  refine ⟨_, rfl, ?_⟩
  exact ⟨_, _, hgo (Reaches.start.step (.emit 1 () [7]) (by nofun) rfl) rfl, rfl,
    hgo (hgo (Reaches.start.step (.emit 1 () [7]) (by nofun) rfl) rfl) rfl, rfl⟩

theorem got_args_iff_first : ∃ h, twoHandlers = .ok h ∧ ∃ m, Reaches run Allowed (start h) m ∧
    ∃ c ∈ m.calls, c.args = [7] ∧ (c.got = c.args.map some ↔ c.args = [] ∨ c.nth = 0) := by
  rcases exists_twoHandlers with ⟨h, hbuilt, m, -, hr, hcalls, -⟩
  have hm : ∀ c ∈ m.calls, c.marshal.Matches c.args := by
    rw [hcalls, List.forall_mem_singleton]
    exact sevenHandled_matches _ _
  have hc : sevenHandled 0 [some 7] ∈ m.calls := hcalls ▸ List.mem_cons_self
  exact ⟨h, hbuilt, m, hr, _, hc, rfl, got_args_iff hr hm _ hc⟩

/-- The second handler finds no argument. -/
theorem second_handler_got_nothing : ∃ h, twoHandlers = .ok h ∧ ∃ m,
    Reaches run Allowed (start h) m ∧ (∀ c ∈ m.calls, c.marshal.Matches c.args) ∧
      ∃ c ∈ m.calls, c.args = [7] ∧ c.got = [none] := by
  rcases exists_twoHandlers with ⟨h, hbuilt, -, m, -, -, hr, hcalls⟩
  have hm : ∀ c ∈ m.calls, c.marshal.Matches c.args := by
    rw [hcalls, List.forall_mem_cons, List.forall_mem_singleton]
    exact ⟨sevenHandled_matches _ _, sevenHandled_matches _ _⟩
  exact ⟨h, hbuilt, m, hr, hm, _, hcalls ▸ List.mem_cons_self, rfl, rfl⟩

end Machine

end Signals
end IrC6
