import Mathlib.Data.List.GetD
import Mathlib.Data.List.TakeDrop

/-!
# Sequences with a filler behind

A finite sequence is read as if it went on with one filler for ever, so that every index has
a value.  `overwrite` puts a sequence over another one at an offset and `insertAt` between
the cells of another one; both fill the gap in front of an offset behind the end.
-/

namespace IrC6
namespace Padded

variable {α : Type*} {z : α}

/-- `ys` over the cells of `xs` from `offs` on. -/
def overwrite (z : α) (xs : List α) (offs : Nat) (ys : List α) : List α :=
  xs.takeD offs z ++ ys ++ xs.drop (offs + ys.length)

/-- `ys` in front of the cell of `xs` at `pos`. -/
def insertAt (z : α) (xs : List α) (pos : Nat) (ys : List α) : List α :=
  xs.takeD pos z ++ ys ++ xs.drop pos

theorem ext_getD {xs ys : List α} (hlen : xs.length = ys.length)
    (h : ∀ i < xs.length, xs.getD i z = ys.getD i z) : xs = ys := by
  refine List.ext_getElem hlen fun i hi hi' => ?_
  rw [← List.getD_eq_getElem xs z hi, ← List.getD_eq_getElem ys z hi', h i hi]

theorem getD_append (xs ys : List α) (i : Nat) :
    (xs ++ ys).getD i z = if i < xs.length then xs.getD i z else ys.getD (i - xs.length) z := by
  split
  · rename_i h
    exact List.getD_append xs ys z i h
  · rename_i h
    exact List.getD_append_right xs ys z i (Nat.le_of_not_lt h)

theorem getD_drop (xs : List α) (k i : Nat) : (xs.drop k).getD i z = xs.getD (k + i) z := by
  rw [List.getD_eq_getElem?_getD, List.getD_eq_getElem?_getD, List.getElem?_drop]

theorem getD_takeD (xs : List α) (n i : Nat) :
    (xs.takeD n z).getD i z = if i < n then xs.getD i z else z := by
  induction n generalizing xs i with
  | zero => rfl
  | succ n ih =>
      cases i with
      | zero => cases xs <;> rfl
      | succ i =>
          have hstep : (xs.takeD (n + 1) z).getD (i + 1) z = (xs.tail.takeD n z).getD i z := rfl
          have htail : xs.tail.getD i z = xs.getD (i + 1) z := by cases xs <;> rfl
          rw [hstep, ih, htail]
          simp only [Nat.add_lt_add_iff_right]

theorem length_overwrite (xs ys : List α) (offs : Nat) :
    (overwrite z xs offs ys).length = max xs.length (offs + ys.length) := by
  simp only [overwrite, List.length_append, List.takeD_length, List.length_drop]
  omega

theorem getD_overwrite (xs ys : List α) (offs i : Nat) :
    (overwrite z xs offs ys).getD i z =
      if offs ≤ i ∧ i < offs + ys.length then ys.getD (i - offs) z else xs.getD i z := by
  simp only [overwrite, getD_append, List.length_append, List.takeD_length, getD_takeD, getD_drop]
  by_cases hlow : i < offs
  · rw [if_pos (by omega), if_pos hlow, if_pos hlow, if_neg (by omega)]
  · by_cases hin : i < offs + ys.length
    · rw [if_pos hin, if_neg hlow, if_pos ⟨Nat.le_of_not_lt hlow, hin⟩]
    · rw [if_neg hin, if_neg (fun h => hin h.2)]
      congr 1
      omega

theorem length_insertAt (xs ys : List α) (pos : Nat) :
    (insertAt z xs pos ys).length = max pos xs.length + ys.length := by
  simp only [insertAt, List.length_append, List.takeD_length, List.length_drop]
  omega

theorem getD_insertAt (xs ys : List α) (pos i : Nat) :
    (insertAt z xs pos ys).getD i z =
      if i < pos then xs.getD i z
      else if i < pos + ys.length then ys.getD (i - pos) z else xs.getD (i - ys.length) z := by
  simp only [insertAt, getD_append, List.length_append, List.takeD_length, getD_takeD, getD_drop]
  by_cases hlow : i < pos
  · rw [if_pos (by omega), if_pos hlow, if_pos hlow, if_pos hlow]
  · by_cases hin : i < pos + ys.length
    · rw [if_pos hin, if_neg hlow, if_neg hlow, if_pos hin]
    · rw [if_neg hin, if_neg hlow, if_neg hin]
      congr 1
      omega

end Padded
end IrC6
