import Mathlib.Data.List.TakeWhile

/-!
# Texts

A string of the source is a list of bytes without the NUL at its end.
-/

namespace IrC6

/-- The bytes of a literal of the source. -/
def ascii (s : String) : List UInt8 := s.toList.map Char.toUInt8

/-- A text without a NUL is not cut at one. -/
theorem takeWhile_noNul {xs : List UInt8} (h : 0 ∉ xs) : xs.takeWhile (· ≠ 0) = xs := by
  rw [List.takeWhile_eq_self_iff]
  intro x hx
  have hne : x ≠ 0 := fun h0 => h (h0 ▸ hx)
  simp [hne]

/-- What holds of the 256 bytes one by one. -/
theorem byte_forall {P : UInt8 → Prop} (h : ∀ n < 256, P (UInt8.ofNat n)) (b : UInt8) : P b := by
  have hb := h b.toNat b.toNat_lt
  rwa [UInt8.ofNat_toNat] at hb

end IrC6
