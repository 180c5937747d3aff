import IrC6.Signals.Keeps

/-!
# The counter of an instance

`sig_emit_real` counts an emission at the instance that it is given, looks there for a
request to quit and releases handlers to its area.  `sig_emit` gives it the instance of the
signal when the emission starts, and the one below when it has climbed.  As long as an
emission comes to no handler of an ancestor, the counter of an instance is the number of
emissions that run its handlers, and guards them.
-/

namespace IrC6
namespace Signals

variable {σ φ β : Type}

/-! ## Frames -/

/-- A handler of the instance is running. -/
def Frame.handles (f : Frame σ β) (p : Nat) : Bool :=
  match f.phase with
  | .handler .. => decide (f.tmp = some p)
  | _ => false

/-- The instance that a frame has counted. -/
def Frame.guard (f : Frame σ β) : Option Nat :=
  match f.phase with
  | .handler .. => some f.si
  | _ => none

/-- The instance, if a handler has asked to quit it. -/
def Frame.asker (f : Frame σ β) : Option Nat :=
  match f.phase with
  | .handler _ _ true => some f.si
  | _ => none

namespace Heap

/-! ## Counters -/

/-- The counters say how often each instance is guarded, and the instances in `as` are to
quit. -/
structure Counts (h : Heap σ φ β) (gs as : List Nat) : Prop where
  counted : ∀ p si, h.insts p = some si → si.emitting = gs.count p
  known : ∀ p ∈ gs, ∃ si, h.insts p = some si
  asked : ∀ p ∈ as, ∃ si, h.insts p = some si ∧ si.quit = true

/-- A live instance is destroyed when its counter is back at 0. -/
def Deferred (h : Heap σ φ β) : Prop :=
  ∀ p si, h.inst p = .ok si → si.destroyed = true → 0 < si.emitting

variable {h h' : Heap σ φ β} {gs gs' as as' : List Nat} {p : Nat} {si si' : Siginst σ}

theorem Counts.of_subset (hc : Counts h gs as) (has : as' ⊆ as) : Counts h gs as' :=
  ⟨hc.counted, hc.known, fun p hp => hc.asked p (has hp)⟩

theorem Counts.keeps (hc : Counts h gs as) (hk : Keeps h h') : Counts h' gs as where
  counted := by
    intro p si' hp'
    rcases hp : h.insts p with _ | si
    · rw [(hk.made p si' hp hp').1, List.count_eq_zero_of_not_mem]
      intro hmem
      rcases hc.known p hmem with ⟨si, hsi⟩
      rw [hp] at hsi
      nomatch hsi
    · rcases hk.old p si hp with ⟨si₁, hp₁, hsame⟩
      injection hp'.symm.trans hp₁ with heq
      rw [heq, hsame.emitting, hc.counted p si hp]
  known := by
    intro p hmem
    rcases hc.known p hmem with ⟨si, hp⟩
    rcases hk.old p si hp with ⟨si₁, hp₁, -⟩
    exact ⟨si₁, hp₁⟩
  asked := by
    intro p hmem
    rcases hc.asked p hmem with ⟨si, hp, hquit⟩
    rcases hk.old p si hp with ⟨si₁, hp₁, hsame⟩
    exact ⟨si₁, hp₁, hsame.quit hquit⟩

/-- A record changes together with the frames that guard it. -/
theorem Counts.setInst (hc : Counts h gs as) (hp : h.insts p = some si)
    (hcount : si'.emitting = gs'.count p) (hothers : ∀ q, q ≠ p → gs'.count q = gs.count q)
    (hquit : p ∈ as → si.quit = true → si'.quit = true) : Counts (h.setInst p si') gs' as where
  counted := by
    intro q qi hq
    rcases setInst_cases hq with ⟨rfl, rfl⟩ | ⟨hne, hq⟩
    · exact hcount
    · rw [hothers q hne, hc.counted q qi hq]
  known := by
    intro q hmem
    by_cases heq : q = p
    · exact ⟨si', heq ▸ Function.update_self _ _ _⟩
    · have hmem' : q ∈ gs := by
        rw [← List.count_pos_iff, ← hothers q heq]
        exact List.count_pos_iff.mpr hmem
      rcases hc.known q hmem' with ⟨qi, hq⟩
      exact ⟨qi, (Function.update_of_ne heq _ _).trans hq⟩
  asked := by
    intro q hmem
    rcases hc.asked q hmem with ⟨qi, hq, hqquit⟩
    by_cases heq : q = p
    · subst heq
      injection hp.symm.trans hq with hqi
      exact ⟨si', Function.update_self _ _ _, hquit hmem (hqi ▸ hqquit)⟩
    · exact ⟨qi, (Function.update_of_ne heq _ _).trans hq, hqquit⟩

/-- What is destroyed after a call was so before it, or is emitting. -/
theorem Keeps.destroyed (hk : Keeps h h') (hp' : h'.inst p = .ok si')
    (hdestroyed : si'.destroyed = true) : ∃ si, h.inst p = .ok si ∧
      (si.destroyed = true ∨ 0 < si.emitting) ∧ si'.emitting = si.emitting ∧
        si'.area = si.area := by
  rcases inst_eq_ok.mp hp' with ⟨hp', hlive⟩
  rcases hp : h.insts p with _ | si
  · rw [(hk.made p si' hp hp').2] at hdestroyed
    nomatch hdestroyed
  · rcases hk.old p si hp with ⟨si₁, hp₁, hsame⟩
    injection hp'.symm.trans hp₁ with heq
    subst heq
    exact ⟨si, inst_eq_ok.mpr ⟨hp, hk.areas p si hp (hsame.area ▸ hlive)⟩,
      hsame.destroyed hdestroyed, hsame.emitting, hsame.area⟩

theorem Deferred.keeps (hd : Deferred h) (hk : Keeps h h') : Deferred h' := by
  intro p si' hp' hdestroyed
  rcases hk.destroyed hp' hdestroyed with ⟨si, hp, hgone | hpos, hemitting, -⟩
  · exact hemitting ▸ hd p si hp hgone
  · exact hemitting ▸ hpos

theorem Deferred.setInst (hd : Deferred h)
    (hp : (h.areas.areas si'.area).isSome → si'.destroyed = true → 0 < si'.emitting) :
    Deferred (h.setInst p si') := by
  intro q qi hq hdestroyed
  rcases inst_eq_ok.mp hq with ⟨hq, hlive⟩
  rcases setInst_cases hq with ⟨rfl, rfl⟩ | ⟨-, hq⟩
  · exact hp hlive hdestroyed
  · exact hd q qi (inst_eq_ok.mpr ⟨hq, hlive⟩) hdestroyed

/-- No instance changes its area. -/
def SameAreas (h h' : Heap σ φ β) : Prop :=
  ∀ p si, h.insts p = some si → ∃ si', h'.insts p = some si' ∧ si'.area = si.area

theorem Keeps.sameAreas (hk : Keeps h h') : SameAreas h h' := by
  intro p si hp
  rcases hk.old p si hp with ⟨si', hp', hsame⟩
  exact ⟨si', hp', hsame.area⟩

theorem sameAreas_setInst (hp : h.insts p = some si) (harea : si'.area = si.area) :
    SameAreas h (h.setInst p si') := by
  intro q qi hq
  by_cases heq : q = p
  · subst heq
    injection hp.symm.trans hq with hqi
    exact ⟨si', Function.update_self _ _ _, hqi ▸ harea⟩
  · exact ⟨qi, (Function.update_of_ne heq _ _).trans hq, rfl⟩

theorem SameAreas.trans {h₁ h₂ : Heap σ φ β} (h01 : SameAreas h h₁) (h12 : SameAreas h₁ h₂) :
    SameAreas h h₂ := by
  intro p si hp
  rcases h01 p si hp with ⟨si₁, hp₁, harea₁⟩
  rcases h12 p si₁ hp₁ with ⟨si₂, hp₂, harea₂⟩
  exact ⟨si₂, hp₂, harea₂.trans harea₁⟩

/-! ## The start and the end of `sig_emit_real` -/

theorem Counts.enter (hc : Counts h gs as) (hp : h.insts p = some si) :
    Counts (h.setInst p { si with emitting := si.emitting + 1 }) (p :: gs) as := by
  refine hc.setInst hp ?_ (fun q hne => List.count_cons_of_ne (Ne.symm hne)) fun _ => id
  show si.emitting + 1 = _
  rw [List.count_cons_self, hc.counted p si hp]

theorem Deferred.enter (hd : Deferred h) :
    Deferred (h.setInst p { si with emitting := si.emitting + 1 }) :=
  hd.setInst fun _ _ => Nat.succ_pos _

/-- A destruction that has waited is carried out. -/
theorem Deferred.destroy {depth : Nat} (hd : Deferred h) (hzero : si.emitting = 0)
    (hrun : sigInstanceDestroy depth (h.setInst p si) p = .ok h') : Deferred h' := by
  rcases (keeps_destroy depth).1 _ _ _ hrun with ⟨hk, hgone⟩
  intro q qi hq hdestroyed
  rcases hk.destroyed hq hdestroyed with ⟨ri, hri, hbefore, hemitting, harea⟩
  rcases inst_eq_ok.mp hri with ⟨hri, hlive⟩
  rw [hemitting]
  rcases setInst_cases hri with ⟨rfl, rfl⟩ | ⟨-, hri⟩
  · have hlive' := (inst_eq_ok.mp hq).2
    rw [harea, hgone ri (Function.update_self _ _ _) hzero] at hlive'
    nomatch hlive'
  · rcases hbefore with hbefore | hpos
    · exact hd q ri (inst_eq_ok.mpr ⟨hri, hlive⟩) hbefore
    · exact hpos

/-- The counter goes back by the frame that leaves, and with the last one what is to be
destroyed is. -/
theorem leaveReal_counts {depth : Nat} {last : Bool} (hc : Counts h (p :: gs) as)
    (hd : Deferred h) (hrun : h.leaveReal depth p = .ok (h', last)) :
    Counts h' gs as ∧ Deferred h' ∧ (last = true → p ∉ gs) ∧ SameAreas h h' := by
  obtain ⟨si, hsi, hrun⟩ := exists_of_bind_eq_ok hrun
  have hp := (inst_eq_ok.mp hsi).1
  have hcount : si.emitting - 1 = gs.count p := by
    rw [hc.counted p si hp, List.count_cons_self, Nat.add_sub_cancel]
  have hc₁ : Counts (h.setInst p { si with emitting := si.emitting - 1 }) gs as :=
    hc.setInst hp hcount (fun q hne => (List.count_cons_of_ne (Ne.symm hne)).symm) fun _ => id
  have hareas : SameAreas h (h.setInst p { si with emitting := si.emitting - 1 }) :=
    sameAreas_setInst hp rfl
  by_cases hzero : si.emitting - 1 = 0
  · have hnot : p ∉ gs := by
      rw [hzero] at hcount
      exact List.count_eq_zero.mp hcount.symm
    rw [if_pos hzero] at hrun
    by_cases hdestroyed : si.destroyed = true
    · rw [if_pos hdestroyed] at hrun
      obtain ⟨h₂, hdestroy, hrun⟩ := exists_of_bind_eq_ok hrun
      injection hrun with hrun
      injection hrun with hrun
      subst hrun
      have hk := ((keeps_destroy depth).1 _ _ _ hdestroy).1
      exact ⟨hc₁.keeps hk, hd.destroy hzero hdestroy, fun _ => hnot, hareas.trans hk.sameAreas⟩
    · rw [if_neg hdestroyed] at hrun
      injection hrun with hrun
      injection hrun with hrun
      subst hrun
      exact ⟨hc₁, hd.setInst fun _ hgone => absurd hgone hdestroyed, fun _ => hnot, hareas⟩
  · rw [if_neg hzero] at hrun
    injection hrun with hrun
    injection hrun with hrun hlast
    subst hrun hlast
    exact ⟨hc₁, hd.setInst fun _ _ => Nat.pos_of_ne_zero hzero, nofun, hareas⟩

/-- Records and their areas, with what has been released to them. -/
def ReleasedTo (h : Heap σ φ β) (released : List (Nat × Nat)) : Prop :=
  ∀ r ∈ released, ∃ si, h.insts r.1 = some si ∧ si.area = r.2

theorem ReleasedTo.mono {released : List (Nat × Nat)} (hr : h.ReleasedTo released)
    (ha : SameAreas h h') : h'.ReleasedTo released := by
  intro r hmem
  rcases hr r hmem with ⟨si, hsi, harea⟩
  rcases ha r.1 si hsi with ⟨si', hsi', harea'⟩
  exact ⟨si', hsi', harea'.trans harea⟩

end Heap

open Heap

namespace Machine

def guards (fs : List (Frame σ β)) : List Nat := fs.filterMap Frame.guard

def askers (fs : List (Frame σ β)) : List Nat := fs.filterMap Frame.asker

/-- The step comes to no handler of an ancestor: where the emission has climbed to a signal,
it has no handlers. -/
def OwnHandlers (m : Machine σ φ β) : Action σ φ β → Prop
  | .go _ => ∀ f ∈ m.stack.head?, ∀ tmp sp s, m.Found f tmp sp s → tmp ≠ f.si → s.handlers = []
  | _ => True

/-- The counter of an instance is the number of handlers of it that run, and guards them. -/
structure Guarded (m : Machine σ φ β) : Prop where
  counted : ∀ p si, m.heap.insts p = some si → si.emitting = m.stack.countP (·.handles p)
  positive : ∀ f ∈ m.stack, ∀ p, f.handles p = true →
    ∃ si, m.heap.insts p = some si ∧ 0 < si.emitting
  quit : ∀ c ∈ m.calls, c.afterQuit = false
  waits : ∀ f ∈ m.stack, ∀ p si, f.handles p = true → m.heap.inst p = .ok si →
    ∀ depth, sigInstanceDestroy (depth + 1) m.heap p =
      .ok (m.heap.setInst p { si with quit := true, destroyed := true })
  destroyed : m.heap.Deferred
  released : m.heap.ReleasedTo m.released

/-- What the steps keep. -/
structure Inv (m : Machine σ φ β) : Prop where
  counts : m.heap.Counts (guards m.stack) (askers m.stack)
  deferred : m.heap.Deferred
  right : ∀ f ∈ m.stack, f.guard ≠ none → f.tmp = some f.si
  below : ∀ f ∈ m.stack.tail, f.guard ≠ none
  last : ∀ f ∈ m.stack.head?, f.phase = .left true → f.si ∉ guards m.stack
  calls : ∀ c ∈ m.calls, c.afterQuit = false
  released : m.heap.ReleasedTo m.released

variable {m m' : Machine σ φ β} {f f' : Frame σ β} {fs : List (Frame σ β)} {p : Nat}

theorem handles_eq (hright : f.guard ≠ none → f.tmp = some f.si) :
    f.handles p = decide (f.guard = some p) := by
  unfold Frame.handles Frame.guard at *
  cases hphase : f.phase with
  | seek | left => rfl
  | handler sp hdl asked =>
      rw [hphase] at hright
      simp only [hright nofun]

theorem count_guards (hright : ∀ f ∈ fs, f.guard ≠ none → f.tmp = some f.si) :
    (guards fs).count p = fs.countP (·.handles p) := by
  induction fs with
  | nil => rfl
  | cons f fs ih =>
      rw [List.forall_mem_cons] at hright
      rw [List.countP_cons, ← ih hright.2, handles_eq hright.1, guards, List.filterMap_cons]
      rcases hg : f.guard with _ | q
      · rfl
      · simp only [List.count_cons, beq_iff_eq, Option.some.injEq, decide_eq_true_eq]
        rfl

theorem Inv.guarded (hi : m.Inv) : m.Guarded := by
  have hcounted : ∀ p si, m.heap.insts p = some si →
      si.emitting = m.stack.countP (·.handles p) := fun p si hp =>
    (hi.counts.counted p si hp).trans (count_guards hi.right)
  have hpositive : ∀ f ∈ m.stack, ∀ p, f.handles p = true →
      ∃ si, m.heap.insts p = some si ∧ 0 < si.emitting := by
    intro f hf p hp
    have hpos : 0 < (guards m.stack).count p := by
      rw [count_guards hi.right, List.countP_pos_iff]
      exact ⟨f, hf, hp⟩
    rcases hi.counts.known p (List.count_pos_iff.mp hpos) with ⟨si, hsi⟩
    exact ⟨si, hsi, hi.counts.counted p si hsi ▸ hpos⟩
  refine ⟨hcounted, hpositive, hi.calls, fun f hf p si hp hsi depth => ?_, hi.deferred,
    hi.released⟩
  rcases hpositive f hf p hp with ⟨si', hsi', hpos⟩
  injection (inst_eq_ok.mp hsi).1.symm.trans hsi' with heq
  subst heq
  rw [sigInstanceDestroy, hsi]
  exact if_pos (Nat.ne_of_gt hpos)

/-! ## Steps -/

theorem guard_of_asker (h : f.asker = some p) : f.guard = some p ∧ f.si = p := by
  unfold Frame.asker at h
  unfold Frame.guard
  split at h
  · rename_i hphase
    rw [hphase]
    exact ⟨h, Option.some.inj h⟩
  · nomatch h

theorem mem_guards_of_askers (h : p ∈ askers fs) : p ∈ guards fs := by
  rcases List.mem_filterMap.mp h with ⟨f, hf, hask⟩
  exact List.mem_filterMap.mpr ⟨f, hf, (guard_of_asker hask).1⟩

/-- A frame on top that runs no handler. -/
theorem Inv.top (hi : m.Inv) (hstack : m.stack = f :: fs) {heap : Heap σ φ β}
    {released : List (Nat × Nat)} (hcounts : heap.Counts (guards fs) (askers fs))
    (hdeferred : heap.Deferred) (hreleased : heap.ReleasedTo released) (hguard : f'.guard = none)
    (hlast : f'.phase = .left true → f'.si ∉ guards fs) :
    Inv { m with heap := heap, stack := f' :: fs, released := released } := by
  have hright := hi.right
  have hbelow := hi.below
  rw [hstack, List.forall_mem_cons] at hright
  rw [hstack] at hbelow
  have hask : f'.asker = none := by
    unfold Frame.guard at hguard
    unfold Frame.asker
    cases hphase : f'.phase with
    | seek | left => rfl
    | handler sp hdl asked =>
        rw [hphase] at hguard
        nomatch hguard
  have hg : guards (f' :: fs) = guards fs := List.filterMap_cons_none hguard
  have ha : askers (f' :: fs) = askers fs := List.filterMap_cons_none hask
  refine ⟨?_, hdeferred, List.forall_mem_cons.mpr ⟨fun h => absurd hguard h, hright.2⟩, hbelow,
    ?_, hi.calls, hreleased⟩
  · show heap.Counts (guards (f' :: fs)) (askers (f' :: fs))
    rw [hg, ha]
    exact hcounts
  · rintro g hmem hphase
    injection hmem with hmem
    subst hmem
    exact fun hin => hlast hphase (hg ▸ hin)

/-- A frame on top that runs a handler which has not asked to quit. -/
theorem Inv.handler (hi : m.Inv) (hstack : m.stack = f :: fs) {heap : Heap σ φ β}
    {released : List (Nat × Nat)} {tmp sp : Nat} {s : Signal φ β} {c : Cell φ}
    (hcounts : heap.Counts (f.si :: guards fs) (askers fs)) (hdeferred : heap.Deferred)
    (hreleased : heap.ReleasedTo released) (htmp : f.tmp = some f.si) :
    Inv ({ m with heap := heap, released := released }.callHandler f fs tmp sp s c false) := by
  have hright := hi.right
  have hbelow := hi.below
  rw [hstack, List.forall_mem_cons] at hright
  rw [hstack] at hbelow
  refine ⟨hcounts, hdeferred, List.forall_mem_cons.mpr ⟨fun _ => htmp, hright.2⟩, hbelow, ?_,
    List.forall_mem_cons.mpr ⟨rfl, hi.calls⟩, hreleased⟩
  rintro g hmem hphase
  injection hmem with hmem
  rw [← hmem] at hphase
  nomatch hphase

theorem guard_of_handler {sp hdl : Nat} {asked : Bool} (h : f.phase = .handler sp hdl asked) :
    f.guard = some f.si := by
  rw [Frame.guard, h]

theorem guard_of_tmp_none (hi : m.Inv) (hstack : m.stack = f :: fs) (htmp : f.tmp = none) :
    f.guard = none := by
  by_contra hg
  have hright := hi.right f (hstack ▸ List.mem_cons_self) hg
  rw [htmp] at hright
  nomatch hright

theorem askers_subset (f : Frame σ β) (fs : List (Frame σ β)) : askers fs ⊆ askers (f :: fs) :=
  List.filterMap_subset _ (List.subset_cons_self f fs)

/-- The counts without a frame on top that runs no handler. -/
theorem Inv.counts_rest (hi : m.Inv) (hstack : m.stack = f :: fs) (hguard : f.guard = none) :
    m.heap.Counts (guards fs) (askers fs) := by
  have hcounts := hi.counts
  rw [hstack, guards, List.filterMap_cons_none hguard] at hcounts
  exact hcounts.of_subset (askers_subset f fs)

/-- The counts with a frame on top that runs a handler. -/
theorem Inv.counts_top (hi : m.Inv) (hstack : m.stack = f :: fs) (hguard : f.guard = some f.si) :
    m.heap.Counts (f.si :: guards fs) (askers fs) := by
  have hcounts := hi.counts
  rw [hstack, guards, List.filterMap_cons_some hguard] at hcounts
  exact hcounts.of_subset (askers_subset f fs)

/-- What is released goes to the area of the instance that has the handler. -/
theorem Inv.counted {tmp sp : Nat} {asked : Bool} {s : Signal φ β} {si : Siginst σ} (hi : m.Inv)
    (hstack : m.stack = f :: fs) (hc : m.Counted f tmp sp asked s si m') :
    f.tmp = some f.si ∧ m'.heap.Counts (f.si :: guards fs) (askers fs) ∧ m'.heap.Deferred ∧
      m'.heap.ReleasedTo m'.released ∧ (si.quit = false → asked = false) := by
  rcases hc with ⟨htmp, ⟨hdl, hphase⟩, -, hsi, cs, released, hreleased, rfl⟩
  have hguard := guard_of_handler hphase
  have hmem : f ∈ m.stack := hstack ▸ List.mem_cons_self
  have hright := hi.right f hmem (by rw [hguard]; nofun)
  injection htmp.symm.trans hright with heq
  subst heq
  have hk := Keeps.setSignal m.heap sp { s with handlers := cs }
  have hp := (inst_eq_ok.mp hsi).1
  refine ⟨hright, (hi.counts_top hstack hguard).keeps hk, hi.deferred.keeps hk, ?_, ?_⟩
  · rcases hreleased with rfl | rfl
    · exact hi.released.mono hk.sameAreas
    · exact List.forall_mem_cons.mpr ⟨⟨si, hp, rfl⟩, hi.released.mono hk.sameAreas⟩
  · intro hquit
    rcases asked with _ | _
    · rfl
    · have hask : f.si ∈ askers m.stack :=
        List.mem_filterMap.mpr ⟨f, hmem, by rw [Frame.asker, hphase]⟩
      rcases hi.counts.asked f.si hask with ⟨si', hp', hquit'⟩
      injection hp.symm.trans hp' with heq
      rw [← heq, hquit] at hquit'
      nomatch hquit'

theorem Inv.went (hi : m.Inv) (hstack : m.stack = f :: fs)
    (hown : ∀ tmp sp s, m.Found f tmp sp s → tmp ≠ f.si → s.handlers = [])
    (hw : Went m f fs m') : m'.Inv := by
  cases hw with
  | back htmp =>
      have hguard := guard_of_tmp_none hi hstack htmp
      have hright := hi.right
      have hbelow := hi.below
      rw [hstack, List.forall_mem_cons] at hright
      rw [hstack] at hbelow
      refine ⟨hi.counts_rest hstack hguard, hi.deferred, hright.2,
        fun g hg => hbelow g (List.mem_of_mem_tail hg), fun g hg hphase => ?_, hi.calls,
        hi.released⟩
      refine absurd ?_ (hbelow g (List.mem_of_mem_head? hg))
      rw [Frame.guard, hphase]
  | climb htmp hphase =>
      have hguard : f.guard = none := by
        rcases hphase with hphase | hphase <;> rw [Frame.guard, hphase]
      exact hi.top hstack (hi.counts_rest hstack hguard) hi.deferred hi.released rfl nofun
  | @clear tmp si ti htmp hphase hsi =>
      have hguard : f.guard = none := by rw [Frame.guard, hphase]
      have hp := (inst_eq_ok.mp hsi).1
      have hcounts := hi.counts_rest hstack hguard
      have hnot : f.si ∉ guards fs := by
        have hlast := hi.last f (by rw [hstack]; rfl) hphase
        rwa [hstack, guards, List.filterMap_cons_none hguard] at hlast
      refine hi.top hstack ?_ ?_ (hi.released.mono (sameAreas_setInst hp rfl)) rfl nofun
      · refine hcounts.setInst hp (hcounts.counted _ si hp) (fun _ _ => rfl) fun hask => ?_
        exact absurd (mem_guards_of_askers hask) hnot
      · exact hi.deferred.setInst fun hlive =>
          hi.deferred f.si si (inst_eq_ok.mpr ⟨hp, hlive⟩)
  | @pass tmp sp depth s si h last hfound _ hsi hleave =>
      have hguard : f.guard = none := by rw [Frame.guard, hfound.2.1]
      have hp := (inst_eq_ok.mp hsi).1
      rcases leaveReal_counts ((hi.counts_rest hstack hguard).enter hp) hi.deferred.enter hleave
        with ⟨hcounts, hdeferred, hlast, hareas⟩
      have hentered : m.heap.SameAreas
          (m.heap.setInst f.si { si with emitting := si.emitting + 1 }) := sameAreas_setInst hp rfl
      refine hi.top hstack hcounts hdeferred (hi.released.mono (hentered.trans hareas)) rfl
        fun hphase => ?_
      injection hphase with hphase
      exact hlast hphase
  | @first tmp sp s si c cs hfound hcs hsi =>
      have hguard : f.guard = none := by rw [Frame.guard, hfound.2.1]
      have hp := (inst_eq_ok.mp hsi).1
      have htmp : tmp = f.si := by
        by_contra hne
        rw [hown tmp sp s hfound hne] at hcs
        nomatch hcs
      exact hi.handler hstack ((hi.counts_rest hstack hguard).enter hp) hi.deferred.enter
        (hi.released.mono (sameAreas_setInst hp rfl)) (htmp ▸ hfound.1)
  | last hcounted hleave =>
      rcases hi.counted hstack hcounted with ⟨-, hcounts, hdeferred, hreleased, -⟩
      rcases leaveReal_counts hcounts hdeferred hleave with ⟨hcounts', hdeferred', hlast, hareas⟩
      rcases hcounted with ⟨-, -, -, -, cs, released, -, rfl⟩
      refine hi.top hstack hcounts' hdeferred' (hreleased.mono hareas) rfl fun hphase => ?_
      injection hphase with hphase
      exact hlast hphase
  | next hcounted hquit =>
      rcases hi.counted hstack hcounted with ⟨htmp, hcounts, hdeferred, hreleased, hasked⟩
      rcases hcounted with ⟨-, -, -, -, cs, released, -, rfl⟩
      rw [hasked hquit]
      exact hi.handler hstack hcounts hdeferred hreleased htmp

/-! ## Runs -/

theorem inv_start (areas : Area.Heap) : (start (Heap.empty areas) : Machine σ φ β).Inv where
  counts := ⟨nofun, nofun, nofun⟩
  deferred := fun _ _ hp => nomatch (inst_eq_ok.mp hp).1
  right := nofun
  below := nofun
  last := nofun
  calls := nofun
  released := nofun

theorem guard_of_calling (hc : m.Calling) (hstack : m.stack = f :: fs) : f.guard = some f.si := by
  rcases hc f (by rw [hstack]; rfl) with ⟨sp, hdl, asked, hphase⟩
  exact guard_of_handler hphase

theorem Inv.emit (hi : m.Inv) (hc : m.Calling) (sig : σ) (args : List β) :
    Inv { m with stack :=
      { sig := sig, args := args, ap := args, calls := 0, si := p, tmp := some p,
        phase := .seek } :: m.stack } := by
  refine ⟨hi.counts, hi.deferred, List.forall_mem_cons.mpr ⟨fun h => absurd rfl h, hi.right⟩, ?_,
    ?_, hi.calls, hi.released⟩
  · intro f hf
    rcases hstack : m.stack with _ | ⟨g, gs⟩
    · rw [List.tail_cons, hstack] at hf
      nomatch hf
    · rw [List.tail_cons, hstack] at hf
      rcases List.mem_cons.mp hf with rfl | hf
      · rw [guard_of_calling hc hstack]
        nofun
      · exact hi.below f (by rw [hstack]; exact hf)
  · rintro f hf hphase
    injection hf with hf
    rw [← hf] at hphase
    nomatch hphase

theorem note_guard (f : Frame σ β) (call : Api σ φ β) :
    (f.note call).si = f.si ∧ (f.note call).tmp = f.tmp ∧ (f.note call).guard = f.guard := by
  unfold Frame.note
  split
  · rename_i hphase _
    split
    · exact ⟨rfl, rfl, by rw [guard_of_handler hphase]; rfl⟩
    · exact ⟨rfl, rfl, rfl⟩
  · exact ⟨rfl, rfl, rfl⟩

/-- It is a call of `sig_instance_quit` that makes a frame ask. -/
theorem note_asker (f : Frame σ β) (call : Api σ φ β) :
    (f.note call).asker = f.asker ∨ ∃ p, call = .quit p ∧ f.tmp = some p := by
  unfold Frame.note
  split
  · rename_i htmp
    split
    · rename_i heq
      exact Or.inr ⟨_, rfl, heq ▸ htmp⟩
    · exact Or.inl rfl
  · exact Or.inl rfl

/-- A request to quit an instance that is emitting is kept. -/
theorem quit_of_sigInstanceQuit {h h' : Heap σ φ β} {gs as : List Nat} (hc : h.Counts gs as)
    (hp : p ∈ gs) (hrun : h.sigInstanceQuit p = .ok h') :
    ∃ si, h'.insts p = some si ∧ si.quit = true := by
  obtain ⟨si, hsi, hrun⟩ := exists_of_bind_eq_ok hrun
  have hpos : si.emitting ≠ 0 := by
    rw [hc.counted p si (inst_eq_ok.mp hsi).1]
    exact Nat.ne_of_gt (List.count_pos_iff.mpr hp)
  rw [if_neg hpos] at hrun
  injection hrun with hrun
  subst hrun
  exact ⟨_, Function.update_self _ _ _, rfl⟩

/-- A step of an emission that has come to a signal. -/
theorem go_found {depth tmp sp : Nat} {sig : Signal φ β} (hstack : m.stack = f :: fs)
    (hfound : m.Found f tmp sp sig) : m.go depth = m.enter depth f fs tmp sp sig := by
  rcases hfound with ⟨htmp, hphase, ⟨ti, hti, hsp⟩, hs, hlocked⟩
  rw [go, hstack]
  simp only [htmp, hphase, hti, hsp, hs, bind, Except.bind, hlocked, Bool.false_eq_true, if_false]

/-- The counter of an ancestor does not say that a handler of it runs. -/
theorem not_guarded_of_found {depth tmp sp : Nat} {sig : Signal φ β} (hg : m.Guarded)
    (hstack : m.stack = f :: fs) (hfound : m.Found f tmp sp sig) (hne : tmp ≠ f.si)
    (hhandlers : sig.handlers ≠ []) (hrun : m.go depth = .ok m') : ¬m'.Guarded := by
  intro hg'
  rw [go_found hstack hfound] at hrun
  obtain ⟨si, hsi, hrun⟩ := exists_of_bind_eq_ok hrun
  rcases hcs : sig.handlers with _ | ⟨c, cs⟩
  · exact hhandlers hcs
  · simp only [hcs] at hrun
    injection hrun with hrun
    subst hrun
    rcases hfound with ⟨htmp, hphase, ⟨ti, hti, -⟩, -⟩
    have hti := (inst_eq_ok.mp hti).1
    have hbefore := hg.counted tmp ti hti
    have hafter := hg'.counted tmp ti ((Function.update_of_ne hne _ _).trans hti)
    have hold : f.handles tmp = false := by rw [Frame.handles, hphase]
    rw [hbefore, hstack, List.countP_cons, hold] at hafter
    change _ = List.countP _ (_ :: fs) at hafter
    rw [List.countP_cons] at hafter
    simp [Frame.handles, htmp] at hafter

variable [DecidableEq σ] [DecidableEq φ]

/-- A call of the program or of a handler, which may ask to quit its instance. -/
theorem Inv.api (hi : m.Inv) {call : Api σ φ β} {heap : Heap σ φ β} (hc : m.Calling)
    (hok : call.Allowed m.heap) (hrun : call.call m.heap = .ok heap) :
    Inv { m with heap := heap, stack :=
      match m.stack with
      | [] => []
      | f :: fs => f.note call :: fs } := by
  have hk := Api.keeps hok hrun
  rcases hstack : m.stack with _ | ⟨f, fs⟩
  · have hcounts := hi.counts.keeps hk
    rw [hstack] at hcounts
    exact ⟨hcounts, hi.deferred.keeps hk, nofun, nofun, nofun, hi.calls,
      hi.released.mono hk.sameAreas⟩
  · have hright := hi.right
    have hbelow := hi.below
    rw [hstack, List.forall_mem_cons] at hright
    rw [hstack] at hbelow
    have hguard := guard_of_calling hc hstack
    have htmp := hright.1 (by rw [hguard]; nofun)
    rcases note_guard f call with ⟨hsi, htmp', hguard'⟩
    have hguards : guards (f.note call :: fs) = guards m.stack := by
      rw [hstack, guards, guards, List.filterMap_cons, List.filterMap_cons, hguard']
    have hcounts := hi.counts.keeps hk
    have hmem : f.si ∈ guards m.stack := by
      rw [hstack, guards, List.filterMap_cons_some hguard]
      exact List.mem_cons_self
    refine ⟨⟨?_, ?_, fun p hp => ?_⟩, hi.deferred.keeps hk, ?_, hbelow, ?_, hi.calls,
      hi.released.mono hk.sameAreas⟩
    · exact hguards.symm ▸ hcounts.counted
    · exact hguards.symm ▸ hcounts.known
    · rcases List.mem_filterMap.mp hp with ⟨g, hg, hask⟩
      rcases List.mem_cons.mp hg with rfl | hg
      · rcases note_asker f call with hsame | ⟨q, rfl, hq⟩
        · exact hcounts.asked p (hstack ▸ List.mem_filterMap.mpr
            ⟨f, List.mem_cons_self, hsame ▸ hask⟩)
        · injection htmp.symm.trans hq with heq
          rw [← (guard_of_asker hask).2, hsi]
          exact quit_of_sigInstanceQuit hi.counts hmem (heq ▸ hrun)
      · exact hcounts.asked p (hstack ▸ askers_subset f fs (List.mem_filterMap.mpr ⟨g, hg, hask⟩))
    · refine List.forall_mem_cons.mpr ⟨fun _ => ?_, hright.2⟩
      rw [hsi, htmp', htmp]
    · rintro g hg hphase
      injection hg with hg
      subst hg
      rw [Frame.guard, hphase] at hguard'
      rw [← hguard'] at hguard
      nomatch hguard

theorem Inv.step (hi : m.Inv) {a : Action σ φ β} {u : Unit} (hok : m.Allowed a ∧ m.OwnHandlers a)
    (hrun : m.run a = .ok (m', u)) : m'.Inv := by
  cases a with
  | emit p sig args => exact run_emit hrun ▸ hi.emit hok.1 sig args
  | api call =>
      rcases run_api hrun with ⟨heap, hcall, rfl⟩
      exact hi.api hok.1.1 hok.1.2 hcall
  | go depth =>
      rcases run_go hrun with ⟨-, rfl⟩ | ⟨f, fs, hstack, hw⟩
      · exact hi
      · exact hi.went hstack (hok.2 f (by rw [hstack]; rfl)) hw

/-- In a run without an instance at its start whose steps come to no handler of an ancestor,
the counters guard the instances whose handlers run.  The next step keeps that if and only if
it comes to none either, and the counters are back when an emission is. -/
theorem emitting_guards {areas : Area.Heap}
    (hr : Reaches run (fun m a => m.Allowed a ∧ m.OwnHandlers a)
      (start (Heap.empty areas) : Machine σ φ β) m) :
    m.Guarded ∧
    (∀ a m', m.Allowed a → m.run a = .ok (m', ()) → (m'.Guarded ↔ m.OwnHandlers a)) ∧
    ∀ m', Reaches run (fun m a => m.Allowed a ∧ m.OwnHandlers a) m m' →
      m'.stack = m.stack → ∀ p si si', m.heap.insts p = some si → m'.heap.insts p = some si' →
        si'.emitting = si.emitting := by
  have hi : m.Inv := hr.invariant (inv_start areas) fun _ _ _ _ ih hok hrun => ih.step hok hrun
  refine ⟨hi.guarded, fun a m' hok hrun => ⟨fun hg' => ?_, fun hown => ?_⟩,
    fun m' hr' hstack p si si' hp hp' => ?_⟩
  · cases a with
    | emit | api => trivial
    | go depth =>
        intro f hf tmp sp s hfound hne
        by_contra hhandlers
        rcases hstack : m.stack with _ | ⟨g, fs⟩
        · rw [hstack] at hf
          nomatch hf
        · rw [hstack] at hf
          injection hf with hf
          subst hf
          exact not_guarded_of_found hi.guarded hstack hfound hne hhandlers (go_of_run hrun) hg'
  · exact (hi.step ⟨hok, hown⟩ hrun).guarded
  · have hi' : m'.Inv := hr'.invariant hi fun _ _ _ _ ih hok hrun => ih.step hok hrun
    rw [hi.guarded.counted p si hp, hi'.guarded.counted p si' hp', hstack]

/-- The calls that make an instance, a child of it and a handler on the parent. -/
def childCalls : List (Api Unit Unit Unit) :=
  [.new 0 1 2, .node none (some 1) 3 4, .register 1 () { params := [] } 5,
    .connect 1 () { priority := .last, count := forever, func := (), addr := 6 } 7 0]

/-- The heap after them. -/
def childHeap : Heap Unit Unit Unit :=
  match childCalls.foldlM Api.call (Heap.empty (Area.Heap.areaRoot 0)) with
  | .ok h => h
  | .error _ => Heap.empty (Area.Heap.areaRoot 0)

theorem reaches_child : Reaches run (fun m a => m.Allowed a ∧ m.OwnHandlers a)
    (start (Heap.empty (Area.Heap.areaRoot 0))) (start childHeap) := by
  have hstart : Reaches run (fun m a => m.Allowed a ∧ m.OwnHandlers a)
      (start (Heap.empty (Area.Heap.areaRoot 0)) : Machine Unit Unit Unit) _ := .start
  have hnew := hstart.step (Action.api (Api.new 0 1 2))
    ⟨⟨by nofun, rfl, by decide, by nofun, by nofun⟩, trivial⟩ rfl
  have hnode := hnew.step (Action.api (Api.node none (some 1) 3 4)) (by
    refine ⟨⟨nofun, rfl, by decide, fun p si hp => ?_, nofun⟩, trivial⟩
    rcases setInst_cases hp with ⟨-, rfl⟩ | ⟨-, hp⟩
    · decide
    · nomatch hp) rfl
  have hregister := hnode.step (Action.api (Api.register 1 () { params := [] } 5))
    ⟨⟨by nofun, rfl⟩, trivial⟩ rfl
  refine hregister.step (Action.api (Api.connect 1 ()
    { priority := .last, count := forever, func := (), addr := 6 } 7 0)) ?_ rfl
  refine ⟨⟨nofun, rfl, fun sp s hs c hc => ?_⟩, trivial⟩
  by_cases hsp : sp = 5
  · subst hsp
    injection hs with hs
    subst hs
    nomatch hc
  · have hnone : (none : Option (Signal Unit Unit)) = some s :=
      (Function.update_of_ne hsp _ _).symm.trans hs
    nomatch hnone

theorem emitting_guards_child : ∃ m : Machine Unit Unit Unit,
    (∃ f ∈ m.stack, f.handles 1 = true) ∧ m.Guarded := by
  have hemit := reaches_child.step (Action.emit 1 () []) ⟨by nofun, trivial⟩ rfl
  have hgo := hemit.step (Action.go 0) ⟨trivial, fun f hf tmp sp s hfound hne => by
    injection hf with hf
    subst hf
    exact absurd (Option.some.inj hfound.1).symm hne⟩ rfl
  exact ⟨_, ⟨_, List.mem_cons_self, rfl⟩, (emitting_guards hgo).1⟩

/-- A handler of the parent runs with the counter of the parent at 0. -/
theorem parent_not_emitting : ∃ m : Machine Unit Unit Unit,
    Reaches run Allowed (start (Heap.empty (Area.Heap.areaRoot 0))) m ∧
      (∃ f ∈ m.stack, f.handles 1 = true) ∧
        ∃ si, m.heap.inst 1 = .ok si ∧ si.emitting = 0 := by
  have hchild : Reaches run Allowed (start (Heap.empty (Area.Heap.areaRoot 0))) (start childHeap) :=
    reaches_child.mono fun _ _ hok => hok.1
  have hemit := hchild.step (Action.emit 3 () []) (by nofun) rfl
  have hgo := (hemit.step (Action.go 0) trivial rfl).step (Action.go 0) trivial rfl
  exact ⟨_, hgo, ⟨_, List.mem_cons_self, rfl⟩, _, rfl, rfl⟩

end Machine

end Signals
end IrC6
