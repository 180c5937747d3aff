import Mathlib.Data.List.Basic
import Mathlib.Data.List.Infix

/-!
# Framing of a byte stream

A framing takes the first complete frame off a stream, or says that none is
complete yet.  Two laws make it a framing: a frame uses up input, and bytes that
arrive later do not change a frame that was already complete.

`run` takes frames until none is complete.  The result this file exists for is
`run_append`: a receiver that keeps the incomplete rest and goes on from it when
more bytes arrive delivers the frames of the whole stream, however the stream was
cut into reads.
-/

namespace IrC6

/-- A rule for taking the first complete frame off a stream. -/
structure Framing (α φ : Type*) where
  take : List α → Option (φ × List α)
  shorter : ∀ {xs f rest}, take xs = some (f, rest) → rest.length < xs.length
  stable : ∀ {xs f rest} (ys), take xs = some (f, rest) → take (xs ++ ys) = some (f, rest ++ ys)

namespace Framing

variable {α φ : Type*} (F : Framing α φ)

/-- The complete frames of a stream and the incomplete rest. -/
def run (xs : List α) : List φ × List α :=
  match h : F.take xs with
  | none => ([], xs)
  | some (f, rest) =>
      have := F.shorter h
      (f :: (run rest).1, (run rest).2)
termination_by xs.length

theorem run_of_none {xs : List α} (h : F.take xs = none) : F.run xs = ([], xs) := by
  rw [run]
  split
  · rfl
  · rename_i h'
    rw [h] at h'
    cases h'

theorem run_of_some {xs rest : List α} {f : φ} (h : F.take xs = some (f, rest)) :
    F.run xs = (f :: (F.run rest).1, (F.run rest).2) := by
  rw [run]
  split
  · rename_i h'
    rw [h] at h'
    cases h'
  · rename_i h'
    rw [h] at h'
    cases h'
    rfl

theorem run_nil : F.run [] = ([], []) := by
  refine F.run_of_none ?_
  cases h : F.take [] with
  | none => rfl
  | some r => exact absurd (F.shorter h) (Nat.not_lt_zero _)

/-- Induction along the frames taken off a stream. -/
theorem run_induction {motive : List α → Prop}
    (none : ∀ xs, F.take xs = none → motive xs)
    (some : ∀ xs f rest, F.take xs = some (f, rest) → motive rest → motive xs) :
    ∀ xs, motive xs := by
  intro xs
  induction hn : xs.length using Nat.strong_induction_on generalizing xs with
  | _ n ih =>
      match h : F.take xs with
      | .none => exact none xs h
      | .some (f, rest) =>
          exact some xs f rest h (ih rest.length (hn ▸ F.shorter h) rest rfl)

/-- Running over a stream that grows is running over its first part and then
over the rest with the new bytes behind it. -/
theorem run_append (xs ys : List α) :
    F.run (xs ++ ys) =
      ((F.run xs).1 ++ (F.run ((F.run xs).2 ++ ys)).1, (F.run ((F.run xs).2 ++ ys)).2) := by
  induction xs using F.run_induction with
  | none xs h => rw [F.run_of_none h]; simp
  | some xs f rest h ih =>
      rw [F.run_of_some h, F.run_of_some (F.stable ys h), ih]
      simp

theorem length_run_le (xs : List α) : (F.run xs).2.length ≤ xs.length := by
  induction xs using F.run_induction with
  | none xs h => rw [F.run_of_none h]
  | some xs f rest h ih =>
      rw [F.run_of_some h]
      exact Nat.le_of_lt (Nat.lt_of_le_of_lt ih (F.shorter h))

/-- A rest as long as the stream is the stream, and no frame of it is complete. -/
theorem take_eq_none_of_length {xs : List α} (h : xs.length ≤ (F.run xs).2.length) :
    F.take xs = none := by
  cases htake : F.take xs with
  | none => rfl
  | some r =>
      rw [F.run_of_some htake] at h
      have hlt := Nat.lt_of_le_of_lt (F.length_run_le r.2) (F.shorter htake)
      exact absurd h (Nat.not_le.mpr hlt)

/-! ## Streams made of frames -/

/-- A list of frames laid end to end comes back as that list. -/
theorem run_flatten (encode : φ → List α) (fs : List φ)
    (h : ∀ f ∈ fs, ∀ ys, F.take (encode f ++ ys) = some (f, ys)) (tail : List α) :
    F.run ((fs.map encode).flatten ++ tail) = (fs ++ (F.run tail).1, (F.run tail).2) := by
  induction fs with
  | nil => simp
  | cons f fs ih =>
      have hf := h f List.mem_cons_self ((fs.map encode).flatten ++ tail)
      rw [List.map_cons, List.flatten_cons, List.append_assoc, F.run_of_some hf,
        ih (fun g hg => h g (List.mem_cons_of_mem f hg))]
      simp

/-! ## Receivers -/

section Receiver

variable {σ ε : Type*} (recv : σ → List α → List ε × σ)

/-- A receiver over some reads: what it does, and where it ends up. -/
def receive (s : σ) : List (List α) → List ε × σ
  | [] => ([], s)
  | bytes :: reads =>
      ((recv s bytes).1 ++ (receive (recv s bytes).2 reads).1,
        (receive (recv s bytes).2 reads).2)

theorem receive_append (s : σ) (as bs : List (List α)) :
    receive recv s (as ++ bs) =
      ((receive recv s as).1 ++ (receive recv (receive recv s as).2 bs).1,
        (receive recv (receive recv s as).2 bs).2) := by
  induction as generalizing s with
  | nil => simp [receive]
  | cons a as ih => simp only [List.cons_append, receive, ih, List.append_assoc]

/-- A receiver that keeps the rest and follows the framing at each read follows it over
all of them. -/
theorem receive_eq_run {pending : σ → List α} {emit : φ → ε} {s : σ}
    (hs : pending s = []) {reads : List (List α)}
    (hstep : ∀ pre bytes, pre ++ [bytes] <+: reads → ∀ q, pending q = (F.run pre.flatten).2 →
      (recv q bytes).1 = (F.run (pending q ++ bytes)).1.map emit ∧
        pending (recv q bytes).2 = (F.run (pending q ++ bytes)).2) :
    (receive recv s reads).1 = (F.run reads.flatten).1.map emit ∧
      pending (receive recv s reads).2 = (F.run reads.flatten).2 := by
  induction reads using List.reverseRecOn with
  | nil =>
      rw [List.flatten_nil, F.run_nil]
      exact ⟨rfl, hs⟩
  | append_singleton reads bytes ih =>
      obtain ⟨hdone, hkept⟩ := ih fun pre b hpre =>
        hstep pre b (hpre.trans (List.prefix_append _ _))
      obtain ⟨hnew, hrest⟩ := hstep reads bytes (List.prefix_refl _) _ hkept
      have hflat : (reads ++ [bytes]).flatten = reads.flatten ++ bytes := by simp
      rw [receive_append, hflat, F.run_append, ← hkept]
      simp only [receive, List.append_nil, List.map_append]
      exact ⟨by rw [hdone, hnew], hrest⟩

end Receiver

end Framing

/-- A prefix of blocks laid end to end is some whole blocks and then a proper
part of the next one. -/
theorem exists_cut_of_prefix {α : Type*} :
    ∀ (blocks : List (List α)) (xs : List α), xs <+: blocks.flatten →
      ∃ k tail, xs = (blocks.take k).flatten ++ tail ∧
        ((k = blocks.length ∧ tail = []) ∨
          ∃ block, blocks[k]? = some block ∧ tail <+: block ∧ tail.length < block.length) := by
  intro blocks
  induction blocks with
  | nil =>
      intro xs hxs
      have hnil : xs = [] := by simpa using hxs
      exact ⟨0, [], by simp [hnil], Or.inl ⟨rfl, rfl⟩⟩
  | cons block blocks ih =>
      intro xs hxs
      rw [List.flatten_cons] at hxs
      by_cases hlen : xs.length < block.length
      · have hpre : xs <+: block :=
          List.prefix_of_prefix_length_le hxs (List.prefix_append _ _) (Nat.le_of_lt hlen)
        exact ⟨0, xs, by simp, Or.inr ⟨block, by simp, hpre, hlen⟩⟩
      · have hblock : block <+: xs :=
          List.prefix_of_prefix_length_le (List.prefix_append _ _) hxs (by omega)
        obtain ⟨ys, rfl⟩ := hblock
        have hys : ys <+: blocks.flatten := (List.prefix_append_right_inj block).mp hxs
        obtain ⟨k, tail, hcut, hnext⟩ := ih ys hys
        refine ⟨k + 1, tail, by simp [hcut], ?_⟩
        rcases hnext with ⟨hk, htail⟩ | ⟨b, hb, hpre, hlt⟩
        · exact Or.inl ⟨by simp [hk], htail⟩
        · exact Or.inr ⟨b, by simpa using hb, hpre, hlt⟩

end IrC6
