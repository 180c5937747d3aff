/-!
# Runs of operations

A system takes operations one after the other, and each of them may fault.  What
holds at the start and is kept by every operation of a kind holds after every run of
such operations.
-/

namespace IrC6

variable {σ ο ρ ε : Type}

/-- The states that operations with a property lead to. -/
inductive Reaches (run : σ → ο → Except ε (σ × ρ)) (p : σ → ο → Prop) (s₀ : σ) : σ → Prop where
  | start : Reaches run p s₀ s₀
  | step {s s' : σ} (o : ο) {r : ρ} : Reaches run p s₀ s → p s o → run s o = .ok (s', r) →
      Reaches run p s₀ s'

variable {run : σ → ο → Except ε (σ × ρ)} {p : σ → ο → Prop} {s₀ s : σ}

theorem Reaches.invariant {I : σ → Prop} (hstart : I s₀)
    (hstep : ∀ s s' o r, I s → p s o → run s o = .ok (s', r) → I s')
    (h : Reaches run p s₀ s) : I s := by
  induction h with
  | start => exact hstart
  | step o _ hp hrun ih => exact hstep _ _ o _ ih hp hrun

/-- A run whose operations have a property has those that follow from it. -/
theorem Reaches.mono {q : σ → ο → Prop} (h : Reaches run p s₀ s)
    (himp : ∀ s o, p s o → q s o) : Reaches run q s₀ s := by
  induction h with
  | start => exact .start
  | step o _ hp hrun ih => exact .step o ih (himp _ o hp) hrun

/-! ## Simulation -/

section Simulation

variable {τ : Type}

/-- Calls one after the other, with what they give back. -/
def calls (step : σ → ο → Option (σ × ρ)) : σ → List ο → Option (σ × List ρ)
  | s, [] => some (s, [])
  | s, o :: os => do
      let (s, r) ← step s o
      let (s, rs) ← calls step s os
      return (s, r :: rs)

/-- The calls and answers that a specification has in place of a program. -/
def answers (spec : τ → ο → τ × ρ) : τ → List ο → τ × List ρ
  | t, [] => (t, [])
  | t, o :: os =>
      let (t, r) := spec t o
      let (t, rs) := answers spec t os
      (t, r :: rs)

/-- Each call meets a condition on the state that it finds. -/
def Allowed (p : τ → ο → Prop) (spec : τ → ο → τ × ρ) : τ → List ο → Prop
  | _, [] => True
  | t, o :: os => p t o ∧ Allowed p spec (spec t o).1 os

/-- A program whose every step does what the specification says gives the same answers in a
whole run.  The measure `m` bounds what a step may find, and grows by one at most. -/
theorem simulate {step : σ → ο → Option (σ × ρ)} {spec : τ → ο → τ × ρ} {p : τ → ο → Prop}
    {R : σ → τ → Prop} {m : τ → Nat} {bound : Nat}
    (hstep : ∀ s t o, R s t → p t o → m t < bound → ∃ s', step s o = some (s', (spec t o).2) ∧
      R s' (spec t o).1 ∧ m (spec t o).1 ≤ m t + 1)
    {s : σ} {t : τ} {os : List ο} (hR : R s t) (hp : Allowed p spec t os)
    (hm : m t + os.length ≤ bound) :
    ∃ s', calls step s os = some (s', (answers spec t os).2) ∧ R s' (answers spec t os).1 ∧
      m (answers spec t os).1 ≤ m t + os.length := by
  induction os generalizing s t with
  | nil => exact ⟨s, rfl, hR, Nat.le_refl _⟩
  | cons o os ih =>
      rw [List.length_cons] at hm
      obtain ⟨s₁, hs₁, hR₁, hm₁⟩ := hstep s t o hR hp.1 (by omega)
      obtain ⟨s₂, hs₂, hR₂, hm₂⟩ := ih hR₁ hp.2 (by omega)
      refine ⟨s₂, ?_, hR₂, ?_⟩
      · rw [calls, hs₁]
        simp only [Option.bind_eq_bind, Option.bind_some, hs₂, Option.pure_def]
        rfl
      · rw [List.length_cons]
        exact Nat.le_trans hm₂ (by omega)

end Simulation

end IrC6
