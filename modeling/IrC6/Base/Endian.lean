import Mathlib.Data.Nat.Digits.Lemmas

/-!
# Numbers in memory

A number of `w` bytes and the bytes that hold it, in either byte order.  The
results are the round trips, and that converting to network order and storing in
host order writes the network bytes, whichever order the host has.
-/

namespace IrC6

/-- A byte order. -/
inductive Endian where
  | little
  | big
deriving DecidableEq, Repr

namespace Endian

/-- The number a block of bytes holds. -/
def value : Endian → List UInt8 → Nat
  | .little, bs => Nat.ofDigits 256 (bs.map UInt8.toNat)
  | .big, bs => Nat.ofDigits 256 (bs.reverse.map UInt8.toNat)

/-- The `w` low bytes of a number, the least first. -/
def littleBytes : Nat → Nat → List UInt8
  | 0, _ => []
  | w + 1, v => UInt8.ofNat v :: littleBytes w (v / 256)

/-- The `w` low bytes of a number. -/
def bytes : Endian → Nat → Nat → List UInt8
  | .little, w, v => littleBytes w v
  | .big, w, v => (littleBytes w v).reverse

theorem length_littleBytes (w v : Nat) : (littleBytes w v).length = w := by
  induction w generalizing v with
  | zero => rfl
  | succ w ih => rw [littleBytes, List.length_cons, ih]

@[simp]
theorem length_bytes (e : Endian) (w v : Nat) : (e.bytes w v).length = w := by
  cases e <;> simp [bytes, length_littleBytes]

theorem value_littleBytes {w v : Nat} (h : v < 256 ^ w) :
    Nat.ofDigits 256 ((littleBytes w v).map UInt8.toNat) = v := by
  induction w generalizing v with
  | zero =>
      have hv : v = 0 := by simpa using h
      simp [littleBytes, hv]
  | succ w ih =>
      have hq : v / 256 < 256 ^ w := by
        rw [Nat.div_lt_iff_lt_mul (by decide), ← Nat.pow_succ]
        exact h
      have hlow : (UInt8.ofNat v).toNat = v % 256 := UInt8.toNat_ofNat'
      rw [littleBytes, List.map_cons, Nat.ofDigits_cons, ih hq, hlow]
      exact Nat.mod_add_div v 256

theorem littleBytes_mod (w v : Nat) : littleBytes w (v % 256 ^ w) = littleBytes w v := by
  induction w generalizing v with
  | zero => rfl
  | succ w ih =>
      have hlow : UInt8.ofNat (v % 256 ^ (w + 1)) = UInt8.ofNat v := by
        rw [← UInt8.toNat_inj, UInt8.toNat_ofNat', UInt8.toNat_ofNat', Nat.pow_succ]
        exact Nat.mod_mul_left_mod v (256 ^ w) 256
      have hhigh : v % 256 ^ (w + 1) / 256 = v / 256 % 256 ^ w := by
        rw [Nat.pow_succ, Nat.mul_comm, Nat.mod_mul_right_div_self]
      rw [littleBytes, littleBytes, hlow, hhigh, ih]

/-- The low bytes of a number do not depend on what is above them. -/
theorem bytes_mod (e : Endian) (w v : Nat) : e.bytes w (v % 256 ^ w) = e.bytes w v := by
  cases e <;> simp only [bytes, littleBytes_mod]

/-- Storing a number that fits and loading it again. -/
theorem value_bytes (e : Endian) {w v : Nat} (h : v < 256 ^ w) : e.value (e.bytes w v) = v := by
  cases e
  · exact value_littleBytes h
  · rw [value, bytes, List.reverse_reverse]
    exact value_littleBytes h

theorem littleBytes_value (bs : List UInt8) :
    littleBytes bs.length (Nat.ofDigits 256 (bs.map UInt8.toNat)) = bs := by
  induction bs with
  | nil => rfl
  | cons b bs ih =>
      have hb := b.toNat_lt
      have hdiv : (b.toNat + 256 * Nat.ofDigits 256 (bs.map UInt8.toNat)) / 256 =
          Nat.ofDigits 256 (bs.map UInt8.toNat) := by omega
      have hlow : UInt8.ofNat (b.toNat + 256 * Nat.ofDigits 256 (bs.map UInt8.toNat)) = b := by
        rw [← UInt8.toNat_inj, UInt8.toNat_ofNat']
        omega
      rw [List.map_cons, Nat.ofDigits_cons, List.length_cons, littleBytes, hdiv, ih, hlow]

/-- Loading a number and storing it again. -/
theorem bytes_value (e : Endian) {w : Nat} {bs : List UInt8} (h : bs.length = w) :
    e.bytes w (e.value bs) = bs := by
  subst h
  cases e
  · exact littleBytes_value bs
  · have hrev := littleBytes_value bs.reverse
    rw [List.length_reverse] at hrev
    rw [value, bytes, hrev, List.reverse_reverse]

/-- `htons` and `htonl` on a host with this byte order: the number whose bytes in
host order are those of `v` in network order. -/
def hton (host : Endian) (w v : Nat) : Nat := host.value (big.bytes w v)

/-- A converted number is stored in network order. -/
theorem bytes_hton (host : Endian) (w v : Nat) :
    host.bytes w (host.hton w v) = big.bytes w v :=
  host.bytes_value (big.length_bytes w v)

/-- Converting a number loaded in host order reads it in network order. -/
theorem hton_value (host : Endian) {w : Nat} {bs : List UInt8} (h : bs.length = w) :
    host.hton w (host.value bs) = big.value bs := by
  cases host
  · have hlittle : littleBytes w (little.value bs) = bs := bytes_value little h
    rw [hton, bytes, hlittle]
    rfl
  · rw [hton, bytes_value big h]

@[simp]
theorem value_singleton (e : Endian) (b : UInt8) : e.value [b] = b.toNat := by
  cases e <;> simp [value]

end Endian
end IrC6
