import Mathlib.Data.List.Basic
import Mathlib.Data.List.Infix

/-!
# Byte memory

A memory is a function from addresses to cells.  Every address can be read, so
a definition that reads past an object still has a value, and a theorem that
does not mention that value holds whatever lies there.

`slice` reads a run of cells, `store` writes one, and `move` copies one with the
source read before anything is written.
-/

namespace IrC6
namespace Memory

variable {α : Type*}

/-- The `n` cells from `offs` on. -/
def slice (m : Nat → α) (offs n : Nat) : List α :=
  (List.range n).map (fun i => m (offs + i))

/-- The memory with the list `xs` written from `offs` on. -/
def store (m : Nat → α) (offs : Nat) (xs : List α) : Nat → α :=
  fun i => if offs ≤ i then (xs[i - offs]?).getD (m i) else m i

/-- The memory with `n` cells copied from `src` to `dst`. -/
def move (m : Nat → α) (dst src n : Nat) : Nat → α :=
  store m dst (slice m src n)

@[simp] theorem slice_zero (m : Nat → α) (offs : Nat) : slice m offs 0 = [] := rfl

@[simp] theorem length_slice (m : Nat → α) (offs n : Nat) : (slice m offs n).length = n := by
  simp [slice]

theorem slice_succ (m : Nat → α) (offs n : Nat) :
    slice m offs (n + 1) = m offs :: slice m (offs + 1) n := by
  simp only [slice, List.range_succ_eq_map, List.map_cons, List.map_map, Nat.add_zero]
  congr 1
  apply List.map_congr_left
  intro i _
  simp only [Function.comp_apply]
  congr 1
  omega

theorem slice_add (m : Nat → α) (offs a b : Nat) :
    slice m offs (a + b) = slice m offs a ++ slice m (offs + a) b := by
  induction a generalizing offs with
  | zero => simp
  | succ a ih =>
      have hab : a + 1 + b = a + b + 1 := by omega
      rw [hab, slice_succ, slice_succ, ih, List.cons_append]
      congr 3
      omega

/-- A slice splits at any length below its own. -/
theorem slice_split (m : Nat → α) (offs : Nat) {a n : Nat} (h : a ≤ n) :
    slice m offs n = slice m offs a ++ slice m (offs + a) (n - a) := by
  rw [← slice_add, Nat.add_sub_cancel' h]

theorem getElem?_slice (m : Nat → α) (offs n i : Nat) (h : i < n) :
    (slice m offs n)[i]? = some (m (offs + i)) := by
  simp [slice, List.getElem?_range h]

/-- A slice depends only on the cells it reads. -/
theorem slice_congr {m m' : Nat → α} {offs n : Nat}
    (h : ∀ i, offs ≤ i → i < offs + n → m i = m' i) : slice m offs n = slice m' offs n := by
  apply List.map_congr_left
  intro i hi
  have hin : i < n := List.mem_range.mp hi
  exact h (offs + i) (by omega) (by omega)

theorem store_of_lt {m : Nat → α} {offs i : Nat} {xs : List α} (h : i < offs) :
    store m offs xs i = m i := by
  simp only [store, if_neg (Nat.not_le.mpr h)]

theorem store_of_ge {m : Nat → α} {offs i : Nat} {xs : List α} (h : offs + xs.length ≤ i) :
    store m offs xs i = m i := by
  have hnone : xs[i - offs]? = none := List.getElem?_eq_none (by omega)
  simp [store, hnone]

/-- What was written is read back. -/
theorem slice_store (m : Nat → α) (offs : Nat) (xs : List α) :
    slice (store m offs xs) offs xs.length = xs := by
  refine List.ext_getElem? (fun i => ?_)
  by_cases hi : i < xs.length
  · rw [getElem?_slice _ _ _ _ hi]
    simp [store, hi]
  · rw [List.getElem?_eq_none (by simpa using hi), List.getElem?_eq_none (by omega)]

/-- A slice that ends before the written run is unchanged. -/
theorem slice_store_below (m : Nat → α) {offs a n : Nat} (xs : List α) (h : a + n ≤ offs) :
    slice (store m offs xs) a n = slice m a n :=
  slice_congr (fun _ _ hi => store_of_lt (by omega))

/-- A slice that starts after the written run is unchanged. -/
theorem slice_store_above (m : Nat → α) {offs a n : Nat} (xs : List α)
    (h : offs + xs.length ≤ a) : slice (store m offs xs) a n = slice m a n :=
  slice_congr (fun _ hi _ => store_of_ge (by omega))

/-- Writing behind a slice extends it by what was written. -/
theorem slice_store_append (m : Nat → α) (n : Nat) (xs : List α) :
    slice (store m n xs) 0 (n + xs.length) = slice m 0 n ++ xs := by
  rw [slice_add, slice_store_below m xs (by omega), Nat.zero_add, slice_store]

theorem slice_move (m : Nat → α) (dst src n : Nat) :
    slice (move m dst src n) dst n = slice m src n := by
  have h := slice_store m dst (slice m src n)
  rwa [length_slice] at h

end Memory
end IrC6
