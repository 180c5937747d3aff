import Mathlib.Data.List.Basic

/-!
# Feistel networks

A network works on two halves.  A round mixes a key into the left half, the round
function of the left half into the right half, and exchanges the two.  The last two keys
are mixed in without a round function.

Mixing is associative and can be undone from either side.  A network is then undone by
the network with the keys in reverse order, whatever the round function is.  A map
between two kinds of halves that respects mixing and the round functions carries one
network into the other.
-/

namespace IrC6
namespace Feistel

variable {α β : Type*}

/-- Mixing that undoes itself. -/
structure Mix (α : Type*) where
  mix : α → α → α
  assoc : ∀ a b c, mix (mix a b) c = mix a (mix b c)
  left : ∀ a b, mix a (mix a b) = b
  right : ∀ a b, mix (mix a b) b = a

section Network

variable (m : Mix α) (F : α → α)

/-- One round, the exchange of the halves included. -/
def round (x : α × α) (k : α) : α × α :=
  (m.mix (F (m.mix x.1 k)) x.2, m.mix x.1 k)

/-- A network over a list of at least two keys. -/
def crypt : List α → α × α → α × α
  | k :: k' :: k'' :: ks, x => crypt (k' :: k'' :: ks) (round m F x k)
  | [a, b], x => (m.mix x.2 b, m.mix x.1 a)
  | _, x => x

/-- The rounds are a loop over all keys but the last two. -/
theorem crypt_append_pair (ks : List α) (a b : α) (x : α × α) :
    crypt m F (ks ++ [a, b]) x =
      (m.mix (ks.foldl (round m F) x).2 b, m.mix (ks.foldl (round m F) x).1 a) := by
  induction ks generalizing x with
  | nil => rfl
  | cons k ks ih =>
      rw [List.foldl_cons, ← ih]
      cases ks with
      | nil => rfl
      | cons k' ks => cases ks <;> rfl

/-- One more key at the end mixes once more, with the halves exchanged. -/
theorem crypt_concat (ks : List α) (a b k : α) (x : α × α) :
    crypt m F (ks ++ [a, b] ++ [k]) x =
      (m.mix (crypt m F (ks ++ [a, b]) x).2 k,
        m.mix (F (crypt m F (ks ++ [a, b]) x).2) (crypt m F (ks ++ [a, b]) x).1) := by
  have hkeys : ks ++ [a, b] ++ [k] = (ks ++ [a]) ++ [b, k] := by simp
  rw [hkeys, crypt_append_pair, crypt_append_pair, List.foldl_append]
  simp only [List.foldl_cons, List.foldl_nil, round, m.assoc]

/-- The reversed keys undo a network. -/
theorem crypt_reverse_crypt {ks : List α} (h : 2 ≤ ks.length) (x : α × α) :
    crypt m F ks.reverse (crypt m F ks x) = x := by
  induction ks generalizing x with
  | nil => simp at h
  | cons k ks ih =>
      match ks, ih with
      | [], _ => simp at h
      | [b], _ =>
          show (m.mix (m.mix x.1 k) k, m.mix (m.mix x.2 b) b) = x
          rw [m.right, m.right]
      | k' :: k'' :: ks, ih =>
          have hrest := ih (by simp) (round m F x k)
          have hrev : (k' :: k'' :: ks).reverse = ks.reverse ++ [k'', k'] := by simp
          rw [List.reverse_cons, crypt, hrev, crypt_concat, ← hrev, hrest]
          simp only [round, m.left, m.right]

end Network

/-! ## Networks of another kind of halves -/

section Hom

variable {m : Mix α} {m' : Mix β} {F : α → α} {F' : β → β} {φ : α → β}

theorem map_round (hmix : ∀ a b, φ (m.mix a b) = m'.mix (φ a) (φ b))
    (hF : ∀ a, φ (F a) = F' (φ a)) (x : α × α) (k : α) :
    Prod.map φ φ (round m F x k) = round m' F' (Prod.map φ φ x) (φ k) := by
  simp only [round, Prod.map, hmix, hF]

theorem map_crypt (hmix : ∀ a b, φ (m.mix a b) = m'.mix (φ a) (φ b))
    (hF : ∀ a, φ (F a) = F' (φ a)) (ks : List α) (x : α × α) :
    Prod.map φ φ (crypt m F ks x) = crypt m' F' (ks.map φ) (Prod.map φ φ x) := by
  induction ks generalizing x with
  | nil => rfl
  | cons k ks ih =>
      match ks, ih with
      | [], _ => rfl
      | [b], _ => simp only [crypt, List.map_cons, List.map_nil, Prod.map, hmix]
      | k' :: k'' :: ks, ih =>
          have hrest := ih (round m F x k)
          rw [map_round hmix hF] at hrest
          exact hrest

end Hom

end Feistel
end IrC6
