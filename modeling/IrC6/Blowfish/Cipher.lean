import Mathlib.Algebra.Group.Nat.Defs
import Mathlib.Logic.Function.Basic
import IrC6.Base.Feistel
import IrC6.Blowfish.Tables

/-!
# Blowfish

`blowfish.c` computes with `unsigned long`, which has 32 bits on some machines and 64 on
others.  Sums in the round function carry into the upper half, and from there into the
tables that the key schedule fills.

The cipher is a Feistel network, so decryption undoes encryption whatever the tables
hold.  The low 32 bits of a result depend on the low 32 bits of what it is computed from.
-/

namespace IrC6
namespace Blowfish

variable {w : Nat}

/-- `BLOWFISH_CTX`, with `unsigned long` of `w` bits. -/
structure Ctx (w : Nat) where
  P : Nat → BitVec w
  S : Nat → Nat → BitVec w

/-- `N`. -/
def rounds : Nat := 16

/-- The last byte of a number, as an index. -/
def lastByte (x : BitVec w) : Nat := (x &&& 0xFF#w).toNat

/-- `F`. -/
def f (ctx : Ctx w) (x : BitVec w) : BitVec w :=
  let d := lastByte x
  let c := lastByte (x >>> 8)
  let b := lastByte (x >>> 8 >>> 8)
  let a := lastByte (x >>> 8 >>> 8 >>> 8)
  ((ctx.S 0 a + ctx.S 1 b) ^^^ ctx.S 2 c) + ctx.S 3 d

/-- The loop body of both directions, on `Xl` and `Xr`. -/
def turn (ctx : Ctx w) (x : BitVec w × BitVec w) (i : Nat) : BitVec w × BitVec w :=
  let Xl := x.1 ^^^ ctx.P i
  let Xr := f ctx Xl ^^^ x.2
  (Xr, Xl)

/-- `Blowfish_Encrypt`.  The halves are exchanged once more behind the loop. -/
def encrypt (ctx : Ctx w) (x : BitVec w × BitVec w) : BitVec w × BitVec w :=
  let x := (List.range rounds).foldl (turn ctx) x
  (x.2 ^^^ ctx.P (rounds + 1), x.1 ^^^ ctx.P rounds)

/-- `Blowfish_Decrypt`, with `i` from `N + 1` down to 2. -/
def decrypt (ctx : Ctx w) (x : BitVec w × BitVec w) : BitVec w × BitVec w :=
  let x := ((List.range rounds).map (· + 2)).reverse.foldl (turn ctx) x
  (x.2 ^^^ ctx.P 0, x.1 ^^^ ctx.P 1)

/-! ## The key schedule -/

/-- `data = (data << 8) | key[j]`, and `j` moved on. -/
def addByte (key : List UInt8) (keyLen : Nat) (s : BitVec w × Nat) : BitVec w × Nat :=
  ((s.1 <<< 8) ||| BitVec.ofNat w (key.getD s.2 0).toNat,
    if keyLen ≤ s.2 + 1 then 0 else s.2 + 1)

/-- The inner loop over four bytes. -/
def keyData (key : List UInt8) (keyLen : Nat) (j : Nat) : BitVec w × Nat :=
  (List.range 4).foldl (fun s _ => addByte key keyLen s) (0, j)

/-- One turn of the loop that mixes the key into `P`. -/
def mixKey (key : List UInt8) (keyLen : Nat) (s : (Nat → BitVec w) × Nat) (i : Nat) :
    (Nat → BitVec w) × Nat :=
  let data := keyData key keyLen s.2
  (Function.update s.1 i (BitVec.ofNat w (origP.getD i 0) ^^^ data.1), data.2)

/-- The tables before the first block is encrypted. -/
def startCtx (key : List UInt8) (keyLen : Nat) : Ctx w where
  P := ((List.range (rounds + 2)).foldl (mixKey key keyLen) (fun _ => 0, 0)).1
  S i j := BitVec.ofNat w ((origS.getD i []).getD j 0)

/-- The variables of the last two loops: the tables, and `datal` and `datar`. -/
structure Schedule (w : Nat) where
  ctx : Ctx w
  data : BitVec w × BitVec w

/-- One turn of the loop over `P`. -/
def fillP (s : Schedule w) (i : Nat) : Schedule w :=
  let data := encrypt s.ctx s.data
  { ctx := { s.ctx with P := Function.update (Function.update s.ctx.P i data.1) (i + 1) data.2 }
    data := data }

/-- One turn of the loops over `S`. -/
def fillS (s : Schedule w) (at_ : Nat × Nat) : Schedule w :=
  let data := encrypt s.ctx s.data
  let row := Function.update (Function.update (s.ctx.S at_.1) at_.2 data.1) (at_.2 + 1) data.2
  { ctx := { s.ctx with S := Function.update s.ctx.S at_.1 row }
    data := data }

/-- The even numbers below `2 * n`. -/
def evens (n : Nat) : List Nat := (List.range n).map (2 * ·)

/-- `Blowfish_Init`. -/
def init (key : List UInt8) (keyLen : Nat) : Ctx w :=
  let s := (evens 9).foldl fillP { ctx := startCtx key keyLen, data := (0, 0) }
  let places := (List.range 4).flatMap fun i => (evens 128).map fun j => (i, j)
  (places.foldl fillS s).ctx

/-! ## Decryption undoes encryption -/

def xorMix (w : Nat) : Feistel.Mix (BitVec w) where
  mix := (· ^^^ ·)
  assoc := BitVec.xor_assoc
  left a b := by rw [← BitVec.xor_assoc, BitVec.xor_self, BitVec.zero_xor]
  right a b := by rw [BitVec.xor_assoc, BitVec.xor_self, BitVec.xor_zero]

/-- The keys in the order in which encryption uses them. -/
def Ctx.keys (ctx : Ctx w) : List (BitVec w) := (List.range (rounds + 2)).map ctx.P

theorem foldl_turn (ctx : Ctx w) (is : List Nat) (x : BitVec w × BitVec w) :
    is.foldl (turn ctx) x = (is.map ctx.P).foldl (Feistel.round (xorMix w) (f ctx)) x := by
  rw [List.foldl_map]
  rfl

theorem encrypt_eq_crypt (ctx : Ctx w) (x : BitVec w × BitVec w) :
    encrypt ctx x = Feistel.crypt (xorMix w) (f ctx) ctx.keys x := by
  have hkeys : ctx.keys =
      (List.range rounds).map ctx.P ++ [ctx.P rounds, ctx.P (rounds + 1)] := by
    rw [Ctx.keys, List.range_succ, List.range_succ]
    simp
  rw [hkeys, Feistel.crypt_append_pair, ← foldl_turn]
  rfl

theorem decrypt_eq_crypt (ctx : Ctx w) (x : BitVec w × BitVec w) :
    decrypt ctx x = Feistel.crypt (xorMix w) (f ctx) ctx.keys.reverse x := by
  have horder : (List.range (rounds + 2)).reverse =
      ((List.range rounds).map (· + 2)).reverse ++ [1, 0] := by decide
  have hkeys : ctx.keys.reverse =
      (((List.range rounds).map (· + 2)).reverse).map ctx.P ++ [ctx.P 1, ctx.P 0] := by
    rw [Ctx.keys, ← List.map_reverse, horder, List.map_append]
    rfl
  rw [hkeys, Feistel.crypt_append_pair, ← foldl_turn]
  rfl

theorem two_le_keys (ctx : Ctx w) : 2 ≤ ctx.keys.length := by
  rw [Ctx.keys, List.length_map, List.length_range]
  exact Nat.le_add_left 2 rounds

theorem decrypt_encrypt (ctx : Ctx w) (x : BitVec w × BitVec w) :
    decrypt ctx (encrypt ctx x) = x := by
  rw [decrypt_eq_crypt, encrypt_eq_crypt]
  exact Feistel.crypt_reverse_crypt _ _ (two_le_keys ctx) x

theorem encrypt_decrypt (ctx : Ctx w) (x : BitVec w × BitVec w) :
    encrypt ctx (decrypt ctx x) = x := by
  have hlen : 2 ≤ ctx.keys.reverse.length := by
    rw [List.length_reverse]
    exact two_le_keys ctx
  have h := Feistel.crypt_reverse_crypt (xorMix w) (f ctx) hlen x
  rw [List.reverse_reverse] at h
  rw [decrypt_eq_crypt, encrypt_eq_crypt]
  exact h

/-! ## The low 32 bits -/

/-- The low 32 bits of a number. -/
def low (x : BitVec w) : BitVec 32 := x.setWidth 32

def lows (x : BitVec w × BitVec w) : BitVec 32 × BitVec 32 := Prod.map low low x

def Ctx.low (ctx : Ctx w) : Ctx 32 where
  P := Blowfish.low ∘ ctx.P
  S i := Blowfish.low ∘ ctx.S i

def Schedule.low (s : Schedule w) : Schedule 32 where
  ctx := s.ctx.low
  data := lows s.data

theorem low_xor (x y : BitVec w) : low (x ^^^ y) = low x ^^^ low y := BitVec.setWidth_xor

theorem low_add (hw : 32 ≤ w) (x y : BitVec w) : low (x + y) = low x + low y :=
  BitVec.setWidth_add x y hw

theorem lastByte_shift (hw : 32 ≤ w) (x : BitVec w) (s : Nat) :
    lastByte (x >>> s) = x.toNat / 2 ^ s % 256 := by
  have hpow : 2 ^ 32 ≤ 2 ^ w := Nat.pow_le_pow_right (by decide) hw
  have hmask : 255 % 2 ^ w = 2 ^ 8 - 1 := Nat.mod_eq_of_lt (by omega)
  rw [lastByte, BitVec.toNat_and, BitVec.toNat_ushiftRight, BitVec.toNat_ofNat, hmask,
    Nat.and_two_pow_sub_one_eq_mod, Nat.shiftRight_eq_div_pow]

theorem lastByte_low (hw : 32 ≤ w) (x : BitVec w) {s : Nat} (hs : s ≤ 24) :
    lastByte (low x >>> s) = lastByte (x >>> s) := by
  have hpow : 2 ^ 32 = 2 ^ s * 2 ^ (32 - s) := by
    rw [← Nat.pow_add]
    congr 1
    omega
  have hdvd : 256 ∣ 2 ^ (32 - s) := Nat.pow_dvd_pow 2 (show 8 ≤ 32 - s by omega)
  rw [lastByte_shift (Nat.le_refl _), lastByte_shift hw, low, BitVec.toNat_setWidth, hpow,
    Nat.mod_mul_right_div_self, Nat.mod_mod_of_dvd _ hdvd]

theorem f_low (hw : 32 ≤ w) (ctx : Ctx w) (x : BitVec w) : low (f ctx x) = f ctx.low (low x) := by
  have hd : lastByte (low x) = lastByte x := by
    have h0 := lastByte_low hw x (Nat.zero_le 24)
    rwa [BitVec.ushiftRight_zero, BitVec.ushiftRight_zero] at h0
  have hc := lastByte_low hw x (show 8 ≤ 24 by decide)
  have hb := lastByte_low hw x (show 16 ≤ 24 by decide)
  have ha := lastByte_low hw x (show 24 ≤ 24 by decide)
  simp only [f, ← BitVec.shiftRight_add, low_add hw, low_xor, Ctx.low, Function.comp_apply]
  rw [hd, hc, hb, ha]

theorem keys_low (ctx : Ctx w) : ctx.low.keys = ctx.keys.map low := by
  rw [Ctx.keys, Ctx.keys, List.map_map]
  rfl

/-- Encryption at either width is the same on the low 32 bits. -/
theorem encrypt_low (hw : 32 ≤ w) (ctx : Ctx w) (x : BitVec w × BitVec w) :
    lows (encrypt ctx x) = encrypt ctx.low (lows x) := by
  rw [encrypt_eq_crypt, encrypt_eq_crypt, keys_low]
  have hmix : ∀ a b, low ((xorMix w).mix a b) = (xorMix 32).mix (low a) (low b) := low_xor
  exact Feistel.map_crypt hmix (f_low hw ctx) ctx.keys x

theorem decrypt_low (hw : 32 ≤ w) (ctx : Ctx w) (x : BitVec w × BitVec w) :
    lows (decrypt ctx x) = decrypt ctx.low (lows x) := by
  rw [decrypt_eq_crypt, decrypt_eq_crypt, keys_low, ← List.map_reverse]
  have hmix : ∀ a b, low ((xorMix w).mix a b) = (xorMix 32).mix (low a) (low b) := low_xor
  exact Feistel.map_crypt hmix (f_low hw ctx) ctx.keys.reverse x

/-! ## The low 32 bits of the key schedule -/

theorem low_ofNat (hw : 32 ≤ w) (n : Nat) : low (BitVec.ofNat w n) = BitVec.ofNat 32 n :=
  BitVec.setWidth_ofNat_of_le hw n

theorem low_or (x y : BitVec w) : low (x ||| y) = low x ||| low y := BitVec.setWidth_or

theorem low_shiftLeft (hw : 32 ≤ w) (x : BitVec w) (n : Nat) : low (x <<< n) = low x <<< n :=
  BitVec.setWidth_shiftLeft_of_le hw

theorem addByte_low (hw : 32 ≤ w) (key : List UInt8) (keyLen : Nat) (s : BitVec w × Nat) :
    addByte key keyLen (Prod.map low id s) = Prod.map low id (addByte key keyLen s) := by
  simp only [addByte, Prod.map, id, low_or, low_shiftLeft hw, low_ofNat hw]

theorem keyData_low (hw : 32 ≤ w) (key : List UInt8) (keyLen j : Nat) :
    keyData key keyLen j = Prod.map low id (keyData (w := w) key keyLen j) := by
  have hzero : ((0 : BitVec 32), j) = Prod.map low id ((0 : BitVec w), j) :=
    congrArg (·, j) (low_ofNat hw 0).symm
  rw [keyData, hzero, List.foldl_hom (Prod.map low id) (fun s _ => addByte_low hw key keyLen s)]
  rfl

theorem low_update {ι : Type} [DecidableEq ι] (t : ι → BitVec w) (i : ι) (v : BitVec w) :
    Function.update (low ∘ t) i (low v) = low ∘ Function.update t i v :=
  (Function.comp_update low t i v).symm

theorem mixKey_low (hw : 32 ≤ w) (key : List UInt8) (keyLen : Nat) (s : (Nat → BitVec w) × Nat)
    (i : Nat) :
    mixKey key keyLen (Prod.map (low ∘ ·) id s) i =
      Prod.map (low ∘ ·) id (mixKey key keyLen s i) := by
  simp only [mixKey, Prod.map, id, keyData_low hw, ← low_ofNat hw, ← low_xor, low_update]

theorem startCtx_low (hw : 32 ≤ w) (key : List UInt8) (keyLen : Nat) :
    startCtx key keyLen = (startCtx (w := w) key keyLen).low := by
  have hzero : ((fun _ => 0 : Nat → BitVec 32), 0) =
      Prod.map (low ∘ ·) id ((fun _ => 0 : Nat → BitVec w), 0) :=
    congrArg (·, 0) (funext fun _ => (low_ofNat hw 0).symm)
  simp only [startCtx, Ctx.low, Ctx.mk.injEq]
  constructor
  · rw [hzero, List.foldl_hom (Prod.map (low ∘ ·) id) (mixKey_low hw key keyLen)]
    rfl
  · funext i j
    exact (low_ofNat hw _).symm

theorem fillP_low (hw : 32 ≤ w) (s : Schedule w) (i : Nat) :
    fillP s.low i = (fillP s i).low := by
  have hdata : encrypt s.low.ctx s.low.data = lows (encrypt s.ctx s.data) :=
    (encrypt_low hw s.ctx s.data).symm
  simp only [fillP, hdata]
  simp only [Schedule.low, Ctx.low, lows, Prod.map, low_update]

theorem fillS_low (hw : 32 ≤ w) (s : Schedule w) (at_ : Nat × Nat) :
    fillS s.low at_ = (fillS s at_).low := by
  have hdata : encrypt s.low.ctx s.low.data = lows (encrypt s.ctx s.data) :=
    (encrypt_low hw s.ctx s.data).symm
  simp only [fillS, hdata]
  simp only [Schedule.low, Ctx.low, lows, Prod.map, low_update, Schedule.mk.injEq, Ctx.mk.injEq,
    true_and, and_true]
  exact (Function.comp_update (low ∘ ·) s.ctx.S at_.1 _).symm

/-- The tables at either width have the same low 32 bits. -/
theorem init_low (hw : 32 ≤ w) (key : List UInt8) (keyLen : Nat) :
    init key keyLen = (init (w := w) key keyLen).low := by
  have hstart : ({ ctx := startCtx key keyLen, data := (0, 0) } : Schedule 32) =
      Schedule.low { ctx := startCtx (w := w) key keyLen, data := (0, 0) } := by
    rw [startCtx_low hw]
    exact congrArg (Schedule.mk _) (congrArg₂ Prod.mk (low_ofNat hw 0).symm (low_ofNat hw 0).symm)
  simp only [init]
  rw [hstart, List.foldl_hom Schedule.low (fillP_low hw),
    List.foldl_hom Schedule.low (fillS_low hw)]
  rfl

end Blowfish
end IrC6
