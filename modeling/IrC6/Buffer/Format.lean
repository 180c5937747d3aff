import Mathlib.Data.List.Basic

/-!
# Format strings

What `_build_pack_queue` and `_unpack_data` share: a format string is read one
`char` at a time, and a run of digits is read as one decimal number.
-/

namespace IrC6
namespace Buffer

/-- `SIZE_CHAR`, `SIZE_SHORT`, `SIZE_INT` and `SIZE_LONG`. -/
def sizeChar : Nat := 1
def sizeShort : Nat := 2
def sizeInt : Nat := 4
def sizeLong : Nat := 8

/-- The size of a number, an `int` when none was given. -/
def numSize (size : Nat) : Nat := if size = 0 then sizeInt else size

/-- Why the interpretation of a format stops before its end. -/
inductive Stop where
  /-- `goto error`. -/
  | error
  /-- An access outside the block, or outside what an argument points to. -/
  | outside
  /-- The arguments do not have the types the format asks for. -/
  | badArg
  /-- The loop that pads the pending sizes has run out of memory. -/
  | exhausted
deriving DecidableEq, Repr

/-- The inner loop over digits: `size = size * 10 + (*fmt++ - '0')` while
`isdigit(*fmt)`.  Returns the number and the rest of the format. -/
def digits (size : Nat) : List Char → Nat × List Char
  | [] => (size, [])
  | c :: fmt =>
      if c.isDigit then digits (size * 10 + (c.toNat - '0'.toNat)) fmt else (size, c :: fmt)

theorem length_digits_le (size : Nat) (fmt : List Char) :
    (digits size fmt).2.length ≤ fmt.length := by
  induction fmt generalizing size with
  | nil => exact Nat.le_refl _
  | cons c fmt ih =>
      rw [digits]
      split
      · exact Nat.le_succ_of_le (ih _)
      · exact Nat.le_refl _

/-- The loop is entered at a digit, so it moves on. -/
theorem length_digits_lt {c : Char} (hc : c.isDigit = true) (size : Nat) (fmt : List Char) :
    (digits size (c :: fmt)).2.length < (c :: fmt).length := by
  rw [digits, if_pos hc]
  exact Nat.lt_succ_of_le (length_digits_le _ fmt)

/-- A run of digits that something else follows is read as the number it writes. -/
theorem digits_append {ds : List Char} (hds : ∀ d ∈ ds, d.isDigit = true) (size : Nat)
    {c : Char} (hc : c.isDigit = false) (fmt : List Char) :
    digits size (ds ++ c :: fmt) = (Nat.ofDigitChars 10 ds size, c :: fmt) := by
  induction ds generalizing size with
  | nil => simp [digits, hc]
  | cons d ds ih =>
      have hd := hds d List.mem_cons_self
      have htail : ∀ e ∈ ds, e.isDigit = true := fun e he => hds e (List.mem_cons_of_mem d he)
      rw [List.cons_append, digits, if_pos hd, ih htail, Nat.ofDigitChars_cons, Nat.mul_comm size]

/-- The decimal writing of a number. -/
def decimal (n : Nat) : List Char := Nat.toDigits 10 n

theorem digits_decimal (n : Nat) {c : Char} (hc : c.isDigit = false) (fmt : List Char) :
    digits 0 (decimal n ++ c :: fmt) = (n, c :: fmt) := by
  have hds : ∀ d ∈ decimal n, d.isDigit = true :=
    fun d hd => Nat.isDigit_of_mem_toDigits (by decide) (by decide) hd
  rw [digits_append hds 0 hc, decimal, Nat.ofDigitChars_ten_toDigits]

theorem exists_decimal (n : Nat) : ∃ d ds, decimal n = d :: ds ∧ d.isDigit = true := by
  cases h : decimal n with
  | nil => exact absurd h Nat.toDigits_ne_nil
  | cons d ds =>
      have hmem : d ∈ Nat.toDigits 10 n := by
        rw [decimal] at h
        rw [h]
        exact List.mem_cons_self
      exact ⟨d, ds, rfl, Nat.isDigit_of_mem_toDigits (by decide) (by decide) hmem⟩

theorem toUInt8_ofUInt8 (b : UInt8) : (Char.ofUInt8 b).toUInt8 = b :=
  UInt8.toUInt8_toUInt32 b

theorem ofUInt8_ne_percent {b : UInt8} (hb : b ≠ 37) : Char.ofUInt8 b ≠ '%' := by
  intro h
  apply hb
  have hbyte := congrArg Char.toUInt8 h
  rwa [toUInt8_ofUInt8] at hbyte

end Buffer
end IrC6
