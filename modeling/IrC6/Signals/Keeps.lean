import IrC6.Signals.Machine

/-!
# What a call leaves to an emission

An emission relies on the record of its instance while a handler runs.  `Keeps` says that a
call leaves the records with their counters and areas, clears no request to quit, marks an
instance as destroyed only if it is emitting, and brings nothing back that is gone.  Every
call of a handler does that.
-/

namespace IrC6
namespace Signals
namespace Heap

variable {σ φ β : Type}

/-- A record before and after. -/
structure SameGuard (si si' : Siginst σ) : Prop where
  emitting : si'.emitting = si.emitting
  area : si'.area = si.area
  quit : si.quit = true → si'.quit = true
  destroyed : si'.destroyed = true → si.destroyed = true ∨ 0 < si.emitting

theorem SameGuard.refl (si : Siginst σ) : SameGuard si si := ⟨rfl, rfl, id, Or.inl⟩

theorem SameGuard.trans {si si₁ si₂ : Siginst σ} (h01 : SameGuard si si₁)
    (h12 : SameGuard si₁ si₂) : SameGuard si si₂ where
  emitting := h12.emitting.trans h01.emitting
  area := h12.area.trans h01.area
  quit := fun hquit => h12.quit (h01.quit hquit)
  destroyed := by
    intro hdestroyed
    rcases h12.destroyed hdestroyed with h | h
    · exact h01.destroyed h
    · exact Or.inr (h01.emitting ▸ h)

structure Keeps (h h' : Heap σ φ β) : Prop where
  old : ∀ p si, h.insts p = some si → ∃ si', h'.insts p = some si' ∧ SameGuard si si'
  made : ∀ p si', h.insts p = none → h'.insts p = some si' →
    si'.emitting = 0 ∧ si'.destroyed = false
  areas : ∀ p si, h.insts p = some si → (h'.areas.areas si.area).isSome →
    (h.areas.areas si.area).isSome

variable {h h' h₁ h₂ : Heap σ φ β} {p : Nat} {si si' : Siginst σ}

/-- What has no effect on the records of instances. -/
theorem Keeps.of_insts (hinsts : h'.insts = h.insts)
    (hareas : ∀ p si, h.insts p = some si → (h'.areas.areas si.area).isSome →
      (h.areas.areas si.area).isSome) : Keeps h h' where
  old := fun p si hp => ⟨si, by rw [hinsts, hp], .refl si⟩
  made := by
    intro p si' hp hp'
    rw [hinsts, hp] at hp'
    nomatch hp'
  areas := hareas

theorem Keeps.refl (h : Heap σ φ β) : Keeps h h := .of_insts rfl fun _ _ _ => id

theorem Keeps.trans (h01 : Keeps h h₁) (h12 : Keeps h₁ h₂) : Keeps h h₂ where
  old := by
    intro p si hp
    rcases h01.old p si hp with ⟨si₁, hp₁, hsame₁⟩
    rcases h12.old p si₁ hp₁ with ⟨si₂, hp₂, hsame₂⟩
    exact ⟨si₂, hp₂, hsame₁.trans hsame₂⟩
  made := by
    intro p si₂ hp hp₂
    rcases hp₁ : h₁.insts p with _ | si₁
    · exact h12.made p si₂ hp₁ hp₂
    · rcases h01.made p si₁ hp hp₁ with ⟨hemitting, hdestroyed⟩
      rcases h12.old p si₁ hp₁ with ⟨si', hp', hsame⟩
      injection hp₂.symm.trans hp' with heq
      subst heq
      refine ⟨hsame.emitting.trans hemitting, Bool.eq_false_iff.mpr fun hgone => ?_⟩
      rcases hsame.destroyed hgone with h | h
      · rw [hdestroyed] at h
        nomatch h
      · omega
  areas := by
    intro p si hp hlive
    rcases h01.old p si hp with ⟨si₁, hp₁, hsame⟩
    have hlive₁ := h12.areas p si₁ hp₁ (hsame.area ▸ hlive)
    exact h01.areas p si hp (hsame.area ▸ hlive₁)

theorem Keeps.setInst (hp : h.insts p = some si) (hsame : SameGuard si si') :
    Keeps h (h.setInst p si') where
  old := by
    intro q qi hq
    by_cases heq : q = p
    · subst heq
      injection hp.symm.trans hq with hqi
      exact ⟨si', Function.update_self _ _ _, hqi ▸ hsame⟩
    · exact ⟨qi, (Function.update_of_ne heq _ _).trans hq, .refl qi⟩
  made := by
    intro q qi hq hq'
    rcases setInst_cases hq' with ⟨rfl, -⟩ | ⟨-, hq'⟩
    · rw [hp] at hq
      nomatch hq
    · rw [hq] at hq'
      nomatch hq'
  areas := fun _ _ _ => id

theorem Keeps.setSignal (h : Heap σ φ β) (sp : Nat) (s : Signal φ β) : Keeps h (h.setSignal sp s) :=
  .of_insts rfl fun _ _ _ => id

/-- An instance at a new address, in an area at a new address. -/
theorem Keeps.make {areas : Area.Heap} {area anode : Nat} {parent : Option Nat}
    (hp : h.insts p = none) (hfresh : h.FreshArea anode)
    (hareas : h.areas.areaNode area anode = .ok areas) :
    Keeps h (Heap.setInst { h with areas := areas } p (blank anode parent)) where
  old := by
    intro q qi hq
    have hne : q ≠ p := by
      rintro rfl
      rw [hp] at hq
      nomatch hq
    exact ⟨qi, (Function.update_of_ne hne _ _).trans hq, .refl qi⟩
  made := by
    intro q qi hq hq'
    rcases setInst_cases hq' with ⟨-, rfl⟩ | ⟨-, hq'⟩
    · exact ⟨rfl, rfl⟩
    · change h.insts q = some qi at hq'
      rw [hq] at hq'
      nomatch hq'
  areas := fun q qi hq hlive => Area.isSome_of_areaNode hareas hlive (hfresh.2.1 q qi hq)

theorem ofArea_eq_ok {α : Type} {r : Except Area.Fault α} {a : α} (hr : ofArea r = .ok a) :
    r = .ok a := by
  cases r with
  | error e => nomatch hr
  | ok x =>
      injection hr with hr
      rw [hr]

theorem Keeps.shrink {areas : Area.Heap} (hareas : Area.Shrinks h.areas areas) :
    Keeps h { h with areas := areas } :=
  .of_insts rfl fun _ si _ => hareas si.area

/-! ## The calls -/

theorem keeps_sigInstanceQuit (hrun : h.sigInstanceQuit p = .ok h') : Keeps h h' := by
  obtain ⟨si, hsi, hrun⟩ := exists_of_bind_eq_ok hrun
  by_cases hzero : si.emitting = 0
  · rw [if_pos hzero] at hrun
    injection hrun with hrun
    exact hrun ▸ .refl h
  · rw [if_neg hzero] at hrun
    injection hrun with hrun
    exact hrun ▸ .setInst (inst_eq_ok.mp hsi).1 ⟨rfl, rfl, fun _ => rfl, Or.inl⟩

theorem keeps_slistRemove {cur : Nat} (hrun : h.slistRemove p cur = .ok h') : Keeps h h' := by
  obtain ⟨si, hsi, hrun⟩ := exists_of_bind_eq_ok hrun
  by_cases hmem : cur ∈ si.nodes
  · rw [if_pos hmem] at hrun
    injection hrun with hrun
    exact hrun ▸ .setInst (inst_eq_ok.mp hsi).1 ⟨rfl, rfl, id, Or.inl⟩
  · rw [if_neg hmem] at hrun
    nomatch hrun

/-- What is not emitting is gone with its area. -/
theorem keeps_destroy (depth : Nat) :
    (∀ (h : Heap σ φ β) cur h', sigInstanceDestroy depth h cur = .ok h' →
      Keeps h h' ∧ ∀ si, h.insts cur = some si → si.emitting = 0 →
        h'.areas.areas si.area = none) ∧
    ∀ (h : Heap σ φ β) cur s h', destroyNodes depth h cur s = .ok h' → Keeps h h' := by
  induction depth with
  | zero =>
      refine ⟨fun h cur h' hrun => ?_, fun h cur s h' hrun => ?_⟩
      · rw [sigInstanceDestroy] at hrun
        nomatch hrun
      · cases s with
        | none =>
            rw [destroyNodes] at hrun
            injection hrun with hrun
            exact hrun ▸ .refl h
        | some s =>
            rw [destroyNodes] at hrun
            nomatch hrun
  | succ depth ih =>
      constructor
      · intro h cur h' hrun
        rw [sigInstanceDestroy] at hrun
        obtain ⟨si, hsi, hrun⟩ := exists_of_bind_eq_ok hrun
        rcases inst_eq_ok.mp hsi with ⟨hcur, -⟩
        by_cases hzero : si.emitting = 0
        · rw [if_neg (not_not.mpr hzero)] at hrun
          obtain ⟨h₁, hnodes, hrun⟩ := exists_of_bind_eq_ok hrun
          obtain ⟨h₂, hremove, hrun⟩ := exists_of_bind_eq_ok hrun
          obtain ⟨si₂, hsi₂, hrun⟩ := exists_of_bind_eq_ok hrun
          obtain ⟨areas, hareas, hrun⟩ := exists_of_bind_eq_ok hrun
          have h02 : Keeps h h₂ := by
            refine (ih.2 _ _ _ _ hnodes).trans ?_
            rcases hparent : si.parent with _ | parent
            · rw [hparent] at hremove
              injection hremove with hremove
              exact hremove ▸ .refl h₁
            · rw [hparent] at hremove
              exact keeps_slistRemove hremove
          rcases (Area.shrinks_of_ok depth).1 _ _ _ (ofArea_eq_ok hareas) with ⟨hshrinks, hgone⟩
          injection hrun with hrun
          subst hrun
          refine ⟨h02.trans (.shrink hshrinks), fun ci hci _ => ?_⟩
          rcases h02.old cur ci hci with ⟨ci₂, hci₂, hsame⟩
          injection hci₂.symm.trans (inst_eq_ok.mp hsi₂).1 with heq
          exact hsame.area ▸ heq ▸ hgone
        · rw [if_pos hzero] at hrun
          injection hrun with hrun
          subst hrun
          refine ⟨.setInst hcur ⟨rfl, rfl, fun _ => rfl, fun _ => Or.inr (by omega)⟩, ?_⟩
          intro ci hci hnot
          injection hcur.symm.trans hci with heq
          exact absurd (heq ▸ hnot) hzero
      · intro h cur s h' hrun
        cases s with
        | none =>
            rw [destroyNodes] at hrun
            injection hrun with hrun
            exact hrun ▸ .refl h
        | some s =>
            rw [destroyNodes] at hrun
            obtain ⟨si, -, hrun⟩ := exists_of_bind_eq_ok hrun
            obtain ⟨-, -, hrun⟩ := exists_of_bind_eq_ok hrun
            obtain ⟨h₁, hfirst, hrun⟩ := exists_of_bind_eq_ok hrun
            exact (ih.1 _ _ _ hfirst).1.trans (ih.2 _ _ _ _ hrun)

theorem keeps_sigInstanceNew {area new anode : Nat} (hp : h.insts new = none)
    (hfresh : h.FreshArea anode) (hrun : h.sigInstanceNew area new anode = .ok h') :
    Keeps h h' := by
  obtain ⟨areas, hareas, hrun⟩ := exists_of_bind_eq_ok hrun
  injection hrun with hrun
  exact hrun ▸ .make hp hfresh (ofArea_eq_ok hareas)

theorem keeps_sigInstanceNode {area parent : Option Nat} {new anode : Nat}
    (hp : h.insts new = none) (hfresh : h.FreshArea anode)
    (hrun : h.sigInstanceNode area parent new anode = .ok h') : Keeps h h' := by
  have hmake : ∀ a, (ofArea (h.areas.areaNode a anode) >>= fun areas =>
      .ok (Heap.setInst { h with areas := areas } new (blank anode parent))) = .ok h' →
        Keeps h h' := by
    intro a hrun
    obtain ⟨areas, hareas, hrun⟩ := exists_of_bind_eq_ok hrun
    injection hrun with hrun
    exact hrun ▸ .make hp hfresh (ofArea_eq_ok hareas)
  unfold sigInstanceNode at hrun
  rcases area with _ | area
  · rcases parent with _ | parent
    · nomatch hrun
    · obtain ⟨a, -, hrun⟩ := exists_of_bind_eq_ok hrun
      exact hmake a hrun
  · exact hmake area hrun

theorem Keeps.setTable (hp : h.insts p = some si) (htable : σ → Option Nat) :
    Keeps h (h.setInst p { si with htable := htable }) :=
  .setInst hp ⟨rfl, rfl, id, Or.inl⟩

theorem keeps_sigRegister [DecidableEq σ] {sig : σ} {mfunc : Marshal β} {new : Nat}
    (hrun : h.sigRegister p sig mfunc new = .ok h') : Keeps h h' := by
  obtain ⟨si, hsi, hrun⟩ := exists_of_bind_eq_ok hrun
  rcases hsig : si.htable sig with _ | sp
  · simp only [hsig] at hrun
    injection hrun with hrun
    exact hrun ▸ (Keeps.setTable (inst_eq_ok.mp hsi).1 _).trans (.setSignal _ _ _)
  · simp only [hsig] at hrun
    injection hrun with hrun
    exact hrun ▸ .refl h

theorem keeps_sigUnregister [DecidableEq σ] {sig : σ} (hrun : h.sigUnregister p sig = .ok h') :
    Keeps h h' := by
  obtain ⟨si, hsi, hrun⟩ := exists_of_bind_eq_ok hrun
  injection hrun with hrun
  exact hrun ▸ .setTable (inst_eq_ok.mp hsi).1 _

theorem keeps_sigConnect [DecidableEq σ] {depth new : Nat} {sig : σ} {c : Cell φ}
    (hrun : h.sigConnect depth p sig c new = .ok h') : Keeps h h' := by
  obtain ⟨si, hsi, hrun⟩ := exists_of_bind_eq_ok hrun
  rcases hsig : si.htable sig with _ | sp
  · simp only [hsig] at hrun
    obtain ⟨os, -, hrun⟩ := exists_of_bind_eq_ok hrun
    rcases os with _ | os
    · injection hrun with hrun
      exact hrun ▸ .refl h
    · injection hrun with hrun
      exact hrun ▸ (Keeps.setTable (inst_eq_ok.mp hsi).1 _).trans (.setSignal _ _ _)
  · simp only [hsig] at hrun
    obtain ⟨s, -, hrun⟩ := exists_of_bind_eq_ok hrun
    injection hrun with hrun
    exact hrun ▸ .setSignal _ _ _

theorem keeps_sigDisconnect [DecidableEq φ] {sig : σ} {cb : φ}
    (hrun : h.sigDisconnect p sig cb = .ok h') : Keeps h h' := by
  obtain ⟨si, hsi, hrun⟩ := exists_of_bind_eq_ok hrun
  rcases hsig : si.htable sig with _ | sp
  · simp only [hsig] at hrun
    injection hrun with hrun
    exact hrun ▸ .refl h
  · simp only [hsig] at hrun
    obtain ⟨s, -, hrun⟩ := exists_of_bind_eq_ok hrun
    injection hrun with hrun
    exact hrun ▸ .setSignal _ _ _

theorem keeps_changeFlags (f : UInt32 → UInt32) (depth : Nat) :
    (∀ (h : Heap σ φ β) p sig h' ret, changeFlags f depth h p sig = .ok (h', ret) → Keeps h h') ∧
    ∀ (h : Heap σ φ β) nodes sig h' ret, changeNodes f depth h nodes sig = .ok (h', ret) →
      Keeps h h' := by
  induction depth with
  | zero =>
      refine ⟨fun h p sig h' ret hrun => ?_, fun h nodes sig h' ret hrun => ?_⟩
      · rw [changeFlags] at hrun
        nomatch hrun
      · cases nodes with
        | nil =>
            rw [changeNodes] at hrun
            injection hrun with hrun
            injection hrun with hrun
            exact hrun ▸ .refl h
        | cons tmp nodes =>
            rw [changeNodes] at hrun
            nomatch hrun
  | succ depth ih =>
      constructor
      · intro h p sig h' ret hrun
        rw [changeFlags] at hrun
        obtain ⟨si, -, hrun⟩ := exists_of_bind_eq_ok hrun
        obtain ⟨⟨h₁, all⟩, hnodes, hrun⟩ := exists_of_bind_eq_ok hrun
        have h01 := ih.2 _ _ _ _ _ hnodes
        rcases all with _ | _
        · injection hrun with hrun
          injection hrun with hrun
          exact hrun ▸ h01
        · rcases hsig : si.htable sig with _ | sp
          · simp only [hsig, if_true] at hrun
            injection hrun with hrun
            injection hrun with hrun
            exact hrun ▸ h01
          · simp only [hsig, if_true] at hrun
            obtain ⟨s, -, hrun⟩ := exists_of_bind_eq_ok hrun
            injection hrun with hrun
            injection hrun with hrun
            exact hrun ▸ h01.trans (.setSignal _ _ _)
      · intro h nodes sig h' ret hrun
        cases nodes with
        | nil =>
            rw [changeNodes] at hrun
            injection hrun with hrun
            injection hrun with hrun
            exact hrun ▸ .refl h
        | cons tmp nodes =>
            rw [changeNodes] at hrun
            obtain ⟨⟨h₁, ok⟩, hfirst, hrun⟩ := exists_of_bind_eq_ok hrun
            have h01 := ih.1 _ _ _ _ _ hfirst
            rcases ok with _ | _
            · injection hrun with hrun
              injection hrun with hrun
              exact hrun ▸ h01
            · exact h01.trans (ih.2 _ _ _ _ _ hrun)

end Heap

open Heap

variable {σ φ β : Type}

theorem keeps_flags {h h' : Heap σ φ β} {f : UInt32 → UInt32} {depth p : Nat} {sig : σ}
    (hrun : (changeFlags f depth h p sig).map Prod.fst = .ok h') : Keeps h h' := by
  cases hr : changeFlags f depth h p sig with
  | error e =>
      rw [hr] at hrun
      nomatch hrun
  | ok r =>
      rw [hr] at hrun
      injection hrun with hrun
      exact hrun ▸ (keeps_changeFlags f depth).1 _ _ _ _ _ hr

theorem Api.keeps [DecidableEq σ] [DecidableEq φ] {h h' : Heap σ φ β} {call : Api σ φ β}
    (hok : call.Allowed h) (hrun : call.call h = .ok h') : Keeps h h' := by
  cases call with
  | quit p => exact keeps_sigInstanceQuit hrun
  | destroy p depth => exact ((keeps_destroy depth).1 _ _ _ hrun).1
  | new area si anode => exact keeps_sigInstanceNew hok.1 hok.2 hrun
  | node area parent si anode => exact keeps_sigInstanceNode hok.1 hok.2 hrun
  | register p sig mfunc sp => exact keeps_sigRegister hrun
  | unregister p sig => exact keeps_sigUnregister hrun
  | connect p sig c sp depth => exact keeps_sigConnect hrun
  | disconnect p sig cb => exact keeps_sigDisconnect hrun
  | setFlags p sig flags depth | unsetFlags p sig flags depth => exact keeps_flags hrun

end Signals
end IrC6
