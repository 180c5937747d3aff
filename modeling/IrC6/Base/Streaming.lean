import Mathlib.Data.List.Basic

/-!
# Messages in blocks

A state that takes a message block by block, with the rest that does not fill a block.  A
message may be given in pieces: what is left of one piece goes in front of the next.
-/

namespace IrC6
namespace Streaming

variable {σ τ β : Type} {size : Nat} {process : σ → List β → σ}

/-- A number of blocks go into the state. -/
def feed (size : Nat) (process : σ → List β → σ) : Nat → σ → List β → σ × List β
  | 0, s, l => (s, l)
  | n + 1, s, l => feed size process n (process s (l.take size)) (l.drop size)

/-- All full blocks go into the state, and the rest is left. -/
def absorb (size : Nat) (process : σ → List β → σ) (s : σ) (l : List β) : σ × List β :=
  feed size process (l.length / size) s l

theorem absorb_of_lt {l : List β} (s : σ) (h : l.length < size) :
    absorb size process s l = (s, l) := by
  rw [absorb, Nat.div_eq_of_lt h, feed]

theorem absorb_of_le {l : List β} (s : σ) (hsize : 0 < size) (h : size ≤ l.length) :
    absorb size process s l = absorb size process (process s (l.take size)) (l.drop size) := by
  have hdiv : l.length / size = (l.length - size) / size + 1 :=
    Nat.div_eq_sub_div hsize h
  rw [absorb, hdiv, feed, absorb, List.length_drop]

theorem absorb_append (s : σ) (hsize : 0 < size) (l r : List β) :
    absorb size process s (l ++ r) =
      absorb size process (absorb size process s l).1 ((absorb size process s l).2 ++ r) := by
  induction hn : l.length using Nat.strongRecOn generalizing s l with
  | ind n ih =>
  rcases Nat.lt_or_ge l.length size with hlt | hle
  · rw [absorb_of_lt s hlt]
  · have hdrop : (l.drop size).length < n := by
      rw [List.length_drop]
      omega
    have htake : (l ++ r).take size = l.take size := List.take_append_of_le_length hle
    have hrest : (l ++ r).drop size = l.drop size ++ r := List.drop_append_of_le_length hle
    rw [absorb_of_le s hsize hle, absorb_of_le s hsize (by rw [List.length_append]; omega), htake,
      hrest]
    exact ih _ hdrop _ _ rfl

theorem length_absorb (s : σ) (hsize : 0 < size) (l : List β) :
    (absorb size process s l).2.length = l.length % size := by
  induction hn : l.length using Nat.strongRecOn generalizing s l with
  | ind n ih =>
  rcases Nat.lt_or_ge l.length size with hlt | hle
  · rw [absorb_of_lt s hlt, ← hn, Nat.mod_eq_of_lt hlt]
  · have hdrop : (l.drop size).length = n - size := by rw [List.length_drop, hn]
    rw [absorb_of_le s hsize hle, ih _ (by omega) _ _ hdrop]
    exact (Nat.mod_eq_sub_mod (by omega)).symm

/-- An image of the state takes in the same blocks. -/
theorem absorb_map {process' : τ → List β → τ} {φ : σ → τ}
    (h : ∀ s b, φ (process s b) = process' (φ s) b) (s : σ) (l : List β) :
    absorb size process' (φ s) l = Prod.map φ id (absorb size process s l) := by
  have hfeed : ∀ n s l, feed size process' n (φ s) l = Prod.map φ id (feed size process n s l) := by
    intro n
    induction n with
    | zero => exact fun _ _ => rfl
    | succ n ih =>
        intro s l
        rw [feed, feed, ← h, ih]
  exact hfeed _ s l

end Streaming
end IrC6
