import IrC6.Base.Endian
import IrC6.Base.Streaming
import IrC6.Md5.Context

/-!
# The digest

`digest` is MD5 with words of 32 bits, on a whole message: the message is padded, and its
blocks go into the compression function one after the other.  `md5.c` computes it from any
pieces of the message, whatever the width of `unsigned long` and whatever was in the buffer.
The low 32 bits of its words are those of the definition, and it writes only inside the buffer.
-/

namespace IrC6
namespace Md5

open Blowfish (low low_xor low_add low_or low_ofNat low_shiftLeft)
open Streaming

variable {w : Nat}

/-! ## The definition -/

/-- The four functions of the rounds. -/
def roundF (round : Nat) (x y z : BitVec 32) : BitVec 32 :=
  match round with
  | 0 => (x &&& y) ||| (~~~x &&& z)
  | 1 => (x &&& z) ||| (y &&& ~~~z)
  | 2 => x ^^^ y ^^^ z
  | _ => y ^^^ (x ||| ~~~z)

/-- The word of the block that a step of a round takes. -/
def roundIndex (round i : Nat) : Nat :=
  match round with
  | 0 => i
  | 1 => (5 * i + 1) % 16
  | 2 => (3 * i + 5) % 16
  | _ => 7 * i % 16

/-- How far a step of a round rotates. -/
def roundShift (round i : Nat) : Nat :=
  let shifts := match round with
    | 0 => [7, 12, 17, 22]
    | 1 => [5, 9, 14, 20]
    | 2 => [4, 11, 16, 23]
    | _ => [6, 10, 15, 21]
  shifts.getD (i % 4) 0

/-- The constants of the 64 steps. -/
def constants : List Nat := (rows₁ ++ rows₂ ++ rows₃ ++ rows₄).map Row.t

/-- The words of a block have their lowest byte first. -/
def blockWord (block : List UInt8) (k : Nat) : BitVec 32 :=
  BitVec.ofNat 32 ((block.getD (4 * k) 0).toNat + 2 ^ 8 * (block.getD (4 * k + 1) 0).toNat +
    2 ^ 16 * (block.getD (4 * k + 2) 0).toNat + 2 ^ 24 * (block.getD (4 * k + 3) 0).toNat)

def roundStep (round : Nat) (block : List UInt8) (v : Words 32) (i : Nat) : Words 32 :=
  let sum := v.a + roundF round v.b v.c v.d + blockWord block (roundIndex round i) +
    BitVec.ofNat 32 (constants.getD (16 * round + i) 0)
  { a := v.d, b := v.b + sum.rotateLeft (roundShift round i), c := v.b, d := v.c }

def compress (state : Words 32) (block : List UInt8) : Words 32 :=
  let v := (List.range 4).foldl (fun v round =>
    (List.range 16).foldl (roundStep round block) v) state
  { a := state.a + v.a, b := state.b + v.b, c := state.c + v.c, d := state.d + v.d }

def initial : Words 32 :=
  { a := 0x67452301, b := 0xEFCDAB89, c := 0x98BADCFE, d := 0x10325476 }

/-- The message, a one bit, zeros up to eight bytes below a full block, and the length. -/
def padded (msg : List UInt8) : List UInt8 :=
  msg ++ 0x80 :: List.replicate ((119 - msg.length % 64) % 64) 0 ++
    Endian.little.bytes 8 (8 * msg.length)

def digest (msg : List UInt8) : List UInt8 :=
  let v := (absorb 64 compress initial (padded msg)).1
  [v.a, v.b, v.c, v.d].flatMap fun x => Endian.little.bytes 4 x.toNat

theorem length_digest (msg : List UInt8) : (digest msg).length = 16 := by
  simp [digest]

-- `abc`, whose digest is known
example : digest [97, 98, 99] =
    [0x90, 0x01, 0x50, 0x98, 0x3C, 0xD2, 0x4F, 0xB0, 0xD6, 0x96, 0x3F, 0x7D, 0x28, 0xE1, 0x7F,
      0x72] := by decide +kernel

/-! ## The low 32 bits of a word -/

theorem low_and (x y : BitVec w) : low (x &&& y) = low x &&& low y := BitVec.setWidth_and

theorem low_not (hw : 32 ≤ w) (x : BitVec w) : low (~~~x) = ~~~low x := BitVec.setWidth_not hw

/-- `S` rotates the low 32 bits. -/
theorem low_S (hw : 32 ≤ w) (x : BitVec w) {n : Nat} (hn : 0 < n) (hn' : n < 32) :
    low (S x n) = (low x).rotateLeft n := by
  refine BitVec.eq_of_getLsbD_eq fun i hi => ?_
  have hmask : ∀ j, (0xFFFFFFFF#w).getLsbD j = decide (j < 32) := fun j => by
    rw [BitVec.getLsbD_ofNat, show 0xFFFFFFFF = 2 ^ 32 - 1 from rfl, Nat.testBit_two_pow_sub_one]
    by_cases hj : j < 32
    · simp [hj, Nat.lt_of_lt_of_le hj hw]
    · simp [hj]
  rw [BitVec.getLsbD_rotateLeft, Nat.mod_eq_of_lt hn']
  simp only [low, S, BitVec.getLsbD_setWidth, BitVec.getLsbD_or, BitVec.getLsbD_shiftLeft,
    BitVec.getLsbD_ushiftRight, BitVec.getLsbD_and, hmask]
  have hiw : i < w := Nat.lt_of_lt_of_le hi hw
  by_cases hin : i < n
  · have hsum : 32 - n + i < 32 := by omega
    simp [hi, hin, hsum]
  · have hsum : ¬ 32 - n + i < 32 := by omega
    have hsub : i - n < 32 := by omega
    simp [hi, hiw, hin, hsum, hsub]

theorem low_F₁ (x y z : BitVec w) : low (F₁ x y z) = F₁ (low x) (low y) (low z) := by
  simp only [F₁, low_xor, low_and]

theorem low_F₂ (x y z : BitVec w) : low (F₂ x y z) = F₂ (low x) (low y) (low z) := by
  simp only [F₂, low_xor, low_and]

theorem low_F₃ (x y z : BitVec w) : low (F₃ x y z) = F₃ (low x) (low y) (low z) := by
  simp only [F₃, low_xor]

theorem low_F₄ (hw : 32 ≤ w) (x y z : BitVec w) : low (F₄ x y z) = F₄ (low x) (low y) (low z) := by
  simp only [F₄, low_xor, low_or, low_not hw]

/-- The first two functions of `md5.c` are shorter forms of those of the definition. -/
theorem F₁_eq (x y z : BitVec 32) : F₁ x y z = roundF 0 x y z := by
  refine BitVec.eq_of_getLsbD_eq fun i hi => ?_
  simp only [F₁, roundF, BitVec.getLsbD_xor, BitVec.getLsbD_and, BitVec.getLsbD_or,
    BitVec.getLsbD_not]
  cases x.getLsbD i <;> cases y.getLsbD i <;> cases z.getLsbD i <;> simp [hi]

theorem F₂_eq (x y z : BitVec 32) : F₂ x y z = roundF 1 x y z := by
  refine BitVec.eq_of_getLsbD_eq fun i hi => ?_
  simp only [F₂, roundF, BitVec.getLsbD_xor, BitVec.getLsbD_and, BitVec.getLsbD_or,
    BitVec.getLsbD_not]
  cases x.getLsbD i <;> cases y.getLsbD i <;> cases z.getLsbD i <;> simp [hi]

theorem or_shiftLeft {n k : Nat} (hn : n < 2 ^ k) (m : Nat) : n ||| m <<< k = n + 2 ^ k * m := by
  rw [Nat.or_comm, ← Nat.shiftLeft_add_eq_or_of_lt hn, Nat.shiftLeft_eq, Nat.mul_comm,
    Nat.add_comm]

theorem toNat_ofNat_shiftLeft {n k : Nat} (hn : n < 2 ^ 8) (hk : k ≤ 24) :
    (BitVec.ofNat 32 n <<< k).toNat = n <<< k := by
  have hpow : 2 ^ k ≤ 2 ^ 24 := Nat.pow_le_pow_right (by decide) hk
  have hle : n * 2 ^ k ≤ 255 * 2 ^ 24 := Nat.mul_le_mul (by omega) hpow
  have hsmall : n % 2 ^ 32 = n := Nat.mod_eq_of_lt (by omega)
  rw [BitVec.toNat_shiftLeft, BitVec.toNat_ofNat, hsmall, Nat.shiftLeft_eq]
  exact Nat.mod_eq_of_lt (by omega)

/-- `GET_UINT32` reads a word of the definition. -/
theorem low_getUint32 (hw : 32 ≤ w) (block : List UInt8) (k : Nat) :
    low (getUint32 block (4 * k) : BitVec w) = blockWord block k := by
  generalize hb₀ : block.getD (4 * k) 0 = b₀
  generalize hb₁ : block.getD (4 * k + 1) 0 = b₁
  generalize hb₂ : block.getD (4 * k + 2) 0 = b₂
  generalize hb₃ : block.getD (4 * k + 3) 0 = b₃
  have h₀ : b₀.toNat < 2 ^ 8 := b₀.toNat_lt
  have h₁ : b₁.toNat < 2 ^ 8 := b₁.toNat_lt
  have h₂ : b₂.toNat < 2 ^ 8 := b₂.toNat_lt
  have h₃ : b₃.toNat < 2 ^ 8 := b₃.toNat_lt
  refine BitVec.eq_of_toNat_eq ?_
  simp only [getUint32, blockWord, low_or, low_shiftLeft hw, low_ofNat hw, hb₀, hb₁, hb₂, hb₃,
    BitVec.toNat_or, toNat_ofNat_shiftLeft h₁ (by decide : 8 ≤ 24),
    toNat_ofNat_shiftLeft h₂ (by decide : 16 ≤ 24), toNat_ofNat_shiftLeft h₃ (Nat.le_refl 24),
    BitVec.toNat_ofNat]
  have h₀₁ : b₀.toNat + 2 ^ 8 * b₁.toNat < 2 ^ 16 := by omega
  have h₀₂ : b₀.toNat + 2 ^ 8 * b₁.toNat + 2 ^ 16 * b₂.toNat < 2 ^ 24 := by omega
  have hsmall : b₀.toNat % 2 ^ 32 = b₀.toNat := Nat.mod_eq_of_lt (by omega)
  rw [hsmall, or_shiftLeft h₀, or_shiftLeft h₀₁, or_shiftLeft h₀₂]
  exact (Nat.mod_eq_of_lt (by omega)).symm

def Words.low (v : Words w) : Words 32 :=
  { a := Blowfish.low v.a, b := Blowfish.low v.b, c := Blowfish.low v.c, d := Blowfish.low v.d }

/-- A row with a function is a step of a round. -/
theorem low_P (hw : 32 ≤ w) {F : BitVec w → BitVec w → BitVec w → BitVec w} {round i : Nat}
    (hF : ∀ x y z, low (F x y z) = roundF round (low x) (low y) (low z)) {r : Row}
    (hr : r = ⟨roundIndex round i, roundShift round i, constants.getD (16 * round + i) 0⟩)
    (hs : 0 < r.s) (hs' : r.s < 32) (block : List UInt8) (v : Words w) :
    (P F (fun k => getUint32 block (4 * k)) v r).low = roundStep round block v.low i := by
  subst hr
  simp only [P, Words.low, roundStep, low_add hw, low_S hw _ hs hs', hF, low_getUint32 hw,
    low_ofNat hw]
  rw [BitVec.add_comm (low v.b), BitVec.add_assoc (low v.a), BitVec.add_assoc (low v.a)]

/-- The rows of a round are its steps. -/
def Steps (round : Nat) (rows : List Row) : Prop :=
  rows = (List.range 16).map (fun i =>
    ⟨roundIndex round i, roundShift round i, constants.getD (16 * round + i) 0⟩) ∧
  ∀ i < 16, 0 < roundShift round i ∧ roundShift round i < 32

theorem low_rows (hw : 32 ≤ w) {F : BitVec w → BitVec w → BitVec w → BitVec w} {round : Nat}
    (hF : ∀ x y z, low (F x y z) = roundF round (low x) (low y) (low z)) {rows : List Row}
    (hrows : Steps round rows) (block : List UInt8) (v : Words w) :
    (rows.foldl (P F fun k => getUint32 block (4 * k)) v).low =
      (List.range 16).foldl (roundStep round block) v.low := by
  obtain ⟨hrows, hshift⟩ := hrows
  rw [hrows, List.foldl_map]
  have hfold : ∀ (is : List Nat) (v : Words w), (∀ i ∈ is, i < 16) →
      (is.foldl (fun v i => P F (fun k => getUint32 block (4 * k)) v
        ⟨roundIndex round i, roundShift round i, constants.getD (16 * round + i) 0⟩) v).low =
      is.foldl (roundStep round block) v.low := by
    intro is
    induction is with
    | nil => exact fun _ _ => rfl
    | cons i is ih =>
        intro v his
        obtain ⟨hs, hs'⟩ := hshift i (his i List.mem_cons_self)
        rw [List.foldl_cons, List.foldl_cons, ih _ fun j hj => his j (List.mem_cons_of_mem _ hj),
          low_P hw hF rfl hs hs']
  exact hfold _ v fun i hi => List.mem_range.mp hi

theorem steps₁ : Steps 0 rows₁ := ⟨by decide, by decide⟩

theorem steps₂ : Steps 1 rows₂ := ⟨by decide, by decide⟩

theorem steps₃ : Steps 2 rows₃ := ⟨by decide, by decide⟩

theorem steps₄ : Steps 3 rows₄ := ⟨by decide, by decide⟩

/-- `md5_process` is the compression function on the low 32 bits. -/
theorem low_md5Process (hw : 32 ≤ w) (state : Words w) (block : List UInt8) :
    (md5Process state block).low = compress state.low block := by
  have h₁ := low_rows hw (fun x y z => (low_F₁ x y z).trans (F₁_eq _ _ _)) steps₁ block
  have h₂ := low_rows hw (fun x y z => (low_F₂ x y z).trans (F₂_eq _ _ _)) steps₂ block
  have h₃ := low_rows hw low_F₃ steps₃ block
  have h₄ := low_rows hw (low_F₄ hw) steps₄ block
  have hrange : List.range 4 = [0, 1, 2, 3] := rfl
  simp only [compress, hrange, List.foldl_cons, List.foldl_nil, ← h₁, ← h₂, ← h₃, ← h₄]
  simp only [md5Process, Words.low, low_add hw]

/-! ## Taking in a piece -/

variable {ctx : Context w} {msg input : List UInt8}

theorem wholeBlocks_eq {n : Nat} (state : Words w) (hn : input.length ≤ n) :
    wholeBlocks n state input = absorb 64 md5Process state input := by
  induction n generalizing state input with
  | zero => rw [wholeBlocks, absorb_of_lt state (by omega)]
  | succ n ih =>
      rw [wholeBlocks]
      by_cases hle : 64 ≤ input.length
      · rw [if_pos hle, ih _ (by rw [List.length_drop]; omega),
          absorb_of_le state (by decide) hle]
      · rw [if_neg hle, absorb_of_lt state (by omega)]

theorem copyAt_eq {buffer : List UInt8} {left : Nat} (input : List UInt8)
    (hlen : buffer.length = 64) (hfits : left + input.length ≤ 64) :
    ∃ buffer', copyAt buffer left input = some buffer' ∧ buffer'.length = 64 ∧
      buffer'.take (left + input.length) = buffer.take left ++ input := by
  have htake : (buffer.take left).length = left := by
    rw [List.length_take]
    omega
  refine ⟨_, if_pos (by omega), ?_, ?_⟩
  · simp only [List.length_append, List.length_drop, htake, hlen]
    omega
  · exact List.take_left' (by rw [List.length_append, htake])

/-- What has been taken in: the length, the full blocks and the bytes in the buffer. -/
structure Absorbed (ctx : Context w) (msg : List UInt8) : Prop where
  total₁ : ctx.total.1.toNat = 8 * msg.length % 2 ^ 32
  total₂ : low ctx.total.2 = BitVec.ofNat 32 (8 * msg.length / 2 ^ 32)
  room : ctx.buffer.length = 64
  blocks : absorb 64 compress initial msg = (ctx.state.low, ctx.buffer.take (msg.length % 64))

theorem md5Rest_eq (hw : 32 ≤ w) (ctx : Context w) (left : Nat) (input : List UInt8)
    (hroom : ctx.buffer.length = 64) (hfits : left = 0 ∨ left + input.length < 64) :
    ∃ ctx', md5Rest ctx left input = some ctx' ∧ ctx'.total = ctx.total ∧
      ctx'.buffer.length = 64 ∧ absorb 64 compress ctx.state.low (ctx.buffer.take left ++ input) =
        (ctx'.state.low, ctx'.buffer.take ((left + input.length) % 64)) := by
  have hmap : absorb 64 compress ctx.state.low input =
      Prod.map Words.low id (absorb 64 md5Process ctx.state input) :=
    absorb_map (low_md5Process hw) ctx.state input
  have hrest : (absorb 64 md5Process ctx.state input).2.length = input.length % 64 :=
    length_absorb ctx.state (by decide) input
  have habsorb : absorb 64 compress ctx.state.low (ctx.buffer.take left ++ input) =
      ((absorb 64 md5Process ctx.state input).1.low,
        ctx.buffer.take left ++ (absorb 64 md5Process ctx.state input).2) := by
    rcases hfits with rfl | hfits
    · rw [List.take_zero, List.nil_append, List.nil_append]
      exact hmap
    · have hlength : (ctx.buffer.take left ++ input).length < 64 := by
        rw [List.length_append, List.length_take]
        omega
      rw [absorb_of_lt _ hlength, absorb_of_lt ctx.state (by omega : input.length < 64)]
  have hmod : (left + input.length) % 64 =
      left + (absorb 64 md5Process ctx.state input).2.length := by
    rw [hrest]
    omega
  rw [md5Rest, wholeBlocks_eq ctx.state (Nat.le_refl _), habsorb, hmod]
  generalize absorb 64 md5Process ctx.state input = p at hrest ⊢
  obtain ⟨state, rest⟩ := p
  by_cases hnil : rest = []
  · subst hnil
    exact ⟨{ ctx with state := state }, by simp, rfl, hroom, by simp⟩
  · have hroom' : left + rest.length ≤ 64 := by
      simp only at hrest
      omega
    obtain ⟨buffer, hcopy, hlen, htake⟩ := copyAt_eq rest hroom hroom'
    refine ⟨{ ctx with state := state, buffer := buffer }, ?_, rfl, hlen, ?_⟩
    · simp only [if_neg hnil, hcopy, Option.bind_eq_bind, Option.bind_some, Option.pure_def]
    · exact congrArg (Prod.mk state.low) htake.symm

theorem toNat_and_ones (x : BitVec w) {k : Nat} (hk : k ≤ w) :
    (x &&& BitVec.ofNat w (2 ^ k - 1)).toNat = x.toNat % 2 ^ k := by
  have hpow : 2 ^ k ≤ 2 ^ w := Nat.pow_le_pow_right (by decide) hk
  have hpos : 0 < 2 ^ k := Nat.two_pow_pos k
  rw [BitVec.toNat_and, BitVec.toNat_ofNat, Nat.mod_eq_of_lt (by omega),
    Nat.and_two_pow_sub_one_eq_mod]

theorem Absorbed.left (hw : 32 ≤ w) (h : Absorbed ctx msg) : ctx.left = msg.length % 64 := by
  have hmask : ctx.left = ctx.total.1.toNat / 2 ^ 3 % 2 ^ 6 := by
    refine (toNat_and_ones _ (by omega : 6 ≤ w)).trans ?_
    rw [BitVec.toNat_ushiftRight, Nat.shiftRight_eq_div_pow]
  rw [hmask, h.total₁]
  omega

/-- The length of the message is counted right, for pieces of less than 2^29 bytes. -/
theorem Absorbed.addLength (hw : 32 ≤ w) (h : Absorbed ctx msg) {n : Nat} (hn : n < 2 ^ 29) :
    (addLength ctx.total (BitVec.ofNat w n)).1.toNat = 8 * (msg.length + n) % 2 ^ 32 ∧
      low (addLength ctx.total (BitVec.ofNat w n)).2 =
        BitVec.ofNat 32 (8 * (msg.length + n) / 2 ^ 32) := by
  have hpow : 2 ^ 32 ≤ 2 ^ w := Nat.pow_le_pow_right (by decide) hw
  have htotal := h.total₁
  have hn' : (BitVec.ofNat w n).toNat = n := by
    rw [BitVec.toNat_ofNat, Nat.mod_eq_of_lt (by omega)]
  have hbits : (BitVec.ofNat w n <<< 3).toNat = 8 * n := by
    rw [BitVec.toNat_shiftLeft, hn', Nat.shiftLeft_eq, Nat.mod_eq_of_lt (by omega)]
    omega
  have hsum : (Md5.addLength ctx.total (BitVec.ofNat w n)).1.toNat =
      (ctx.total.1.toNat + 8 * n) % 2 ^ 32 := by
    refine (toNat_and_ones _ hw).trans ?_
    rw [BitVec.toNat_add, hbits, Nat.mod_mod_of_dvd _ (Nat.pow_dvd_pow 2 hw)]
  refine ⟨by rw [hsum, htotal]; omega, ?_⟩
  have hhigh : BitVec.ofNat w n >>> 29 = 0#w := by
    refine BitVec.eq_of_toNat_eq ?_
    rw [BitVec.toNat_ushiftRight, hn', Nat.shiftRight_eq_div_pow, Nat.div_eq_of_lt hn]
    exact (BitVec.toNat_zero ..).symm
  have hcarry : (Md5.addLength ctx.total (BitVec.ofNat w n)).1 < BitVec.ofNat w n <<< 3 ↔
      2 ^ 32 ≤ ctx.total.1.toNat + 8 * n := by
    rw [BitVec.lt_def, hsum, hbits, htotal]
    omega
  show low (ctx.total.2 + BitVec.ofNat w n >>> 29 +
    if (Md5.addLength ctx.total (BitVec.ofNat w n)).1 < BitVec.ofNat w n <<< 3 then 1 else 0) = _
  rw [hhigh, BitVec.add_zero, low_add hw, h.total₂]
  by_cases hover : 2 ^ 32 ≤ ctx.total.1.toNat + 8 * n
  · rw [if_pos (hcarry.mpr hover), show low (1 : BitVec w) = BitVec.ofNat 32 1 from low_ofNat hw 1,
      ← BitVec.ofNat_add]
    exact congrArg (BitVec.ofNat 32) (by omega)
  · rw [if_neg (mt hcarry.mp hover),
      show low (0 : BitVec w) = BitVec.ofNat 32 0 from low_ofNat hw 0, ← BitVec.ofNat_add]
    exact congrArg (BitVec.ofNat 32) (by omega)

/-- A piece is taken in behind what has been taken in before. -/
theorem Absorbed.update (hw : 32 ≤ w) (h : Absorbed ctx msg) (hshort : input.length < 2 ^ 29) :
    ∃ ctx', md5Update ctx input = some ctx' ∧ Absorbed ctx' (msg ++ input) := by
  obtain ⟨htotal₁, htotal₂⟩ := h.addLength hw hshort
  rw [← List.length_append] at htotal₁ htotal₂
  have hleft := h.left hw
  have happend : absorb 64 compress initial (msg ++ input) =
      absorb 64 compress ctx.state.low (ctx.buffer.take (msg.length % 64) ++ input) := by
    rw [absorb_append initial (by decide), h.blocks]
  rw [md5Update]
  by_cases hnone : input.length = 0
  · rw [if_pos hnone, List.eq_nil_of_length_eq_zero hnone, List.append_nil]
    exact ⟨ctx, rfl, h⟩
  · rw [if_neg hnone, hleft]
    by_cases hfill : msg.length % 64 ≠ 0 ∧ 64 - msg.length % 64 ≤ input.length
    · have htake : (input.take (64 - msg.length % 64)).length = 64 - msg.length % 64 := by
        rw [List.length_take]
        omega
      obtain ⟨buffer, hcopy, hlen, hbuffer⟩ :=
        copyAt_eq (input.take (64 - msg.length % 64)) h.room (by omega : msg.length % 64 + _ ≤ 64)
      rw [htake, show msg.length % 64 + (64 - msg.length % 64) = 64 by omega,
        List.take_of_length_le (by omega)] at hbuffer
      have hsplit : ctx.buffer.take (msg.length % 64) ++ input =
          buffer ++ input.drop (64 - msg.length % 64) := by
        rw [hbuffer, List.append_assoc, List.take_append_drop]
      obtain ⟨ctx', hrest, htotal, hroom, hblocks⟩ := md5Rest_eq hw
        ⟨Md5.addLength ctx.total (BitVec.ofNat w input.length), md5Process ctx.state buffer, buffer⟩
        0 (input.drop (64 - msg.length % 64)) hlen (Or.inl rfl)
      refine ⟨ctx', ?_, htotal ▸ htotal₁, htotal ▸ htotal₂, hroom, ?_⟩
      · simp only [if_pos hfill, hcopy, Option.bind_eq_bind, Option.bind_some, hrest]
      · rw [List.take_zero, List.nil_append, low_md5Process hw] at hblocks
        rw [happend, hsplit, absorb_of_le _ (by decide) (by rw [List.length_append]; omega),
          List.take_left' hlen, List.drop_left' hlen, hblocks, List.length_drop, List.length_append]
        exact congrArg (fun n => (ctx'.state.low, ctx'.buffer.take n)) (by omega)
    · obtain ⟨ctx', hrest, htotal, hroom, hblocks⟩ := md5Rest_eq hw
        { ctx with total := Md5.addLength ctx.total (BitVec.ofNat w input.length) }
        (msg.length % 64) input h.room (by omega)
      refine ⟨ctx', ?_, htotal ▸ htotal₁, htotal ▸ htotal₂, hroom, ?_⟩
      · simp only [if_neg hfill, hrest]
      · rw [happend, hblocks, List.length_append]
        exact congrArg (fun n => (ctx'.state.low, ctx'.buffer.take n)) (by omega)

/-! ## The whole message -/

theorem absorbed_starts (hw : 32 ≤ w) {buffer : List UInt8} (hroom : buffer.length = 64) :
    Absorbed (md5Starts buffer : Context w) [] where
  total₁ := rfl
  total₂ := low_ofNat hw 0
  room := hroom
  blocks := by
    rw [absorb_of_lt initial (by decide)]
    have ha := low_ofNat hw 0x67452301
    have hb := low_ofNat hw 0xEFCDAB89
    have hc := low_ofNat hw 0x98BADCFE
    have hd := low_ofNat hw 0x10325476
    refine Prod.ext ?_ rfl
    exact (congr (congr (congr (congrArg Words.mk ha) hb) hc) hd).symm

theorem Absorbed.updates (hw : 32 ≤ w) {pieces : List (List UInt8)} (h : Absorbed ctx msg)
    (hshort : ∀ input ∈ pieces, input.length < 2 ^ 29) :
    ∃ ctx', pieces.foldlM md5Update ctx = some ctx' ∧ Absorbed ctx' (msg ++ pieces.flatten) := by
  induction pieces generalizing ctx msg with
  | nil => exact ⟨ctx, rfl, by rwa [List.flatten_nil, List.append_nil]⟩
  | cons input pieces ih =>
      obtain ⟨ctx₁, hrun₁, h₁⟩ := h.update hw (hshort input List.mem_cons_self)
      obtain ⟨ctx₂, hrun₂, h₂⟩ := ih h₁ fun p hp => hshort p (List.mem_cons_of_mem _ hp)
      refine ⟨ctx₂, ?_, by rwa [List.flatten_cons, ← List.append_assoc]⟩
      rw [List.foldlM_cons, hrun₁]
      exact hrun₂

/-- `PUT_UINT32` writes the low 32 bits, with the lowest byte first. -/
theorem putUint32_eq (hw : 32 ≤ w) (n : BitVec w) :
    putUint32 n = Endian.little.bytes 4 (low n).toNat := by
  have hbyte : ∀ x : BitVec w, lastByte x = UInt8.ofNat x.toNat := fun x => by
    rw [← UInt8.toNat_inj, lastByte, show (0xFF#w) = BitVec.ofNat w (2 ^ 8 - 1) from rfl,
      toNat_and_ones x (by omega : 8 ≤ w), UInt8.toNat_ofNat', UInt8.toNat_ofNat', Nat.mod_mod]
  have hmod : Endian.little.bytes 4 (low n).toNat = Endian.littleBytes 4 n.toNat := by
    rw [low, BitVec.toNat_setWidth]
    exact Endian.littleBytes_mod 4 n.toNat
  rw [hmod]
  simp only [putUint32, hbyte, BitVec.toNat_ushiftRight, Nat.shiftRight_eq_div_pow,
    Endian.littleBytes, Nat.div_div_eq_div_mul]

theorem littleBytes_add (m k v : Nat) :
    Endian.littleBytes (m + k) v =
      Endian.littleBytes m v ++ Endian.littleBytes k (v / 256 ^ m) := by
  induction m generalizing v with
  | zero => rw [Nat.zero_add, Nat.pow_zero, Nat.div_one, Endian.littleBytes, List.nil_append]
  | succ m ih =>
      rw [Nat.succ_add, Endian.littleBytes, Endian.littleBytes, ih, Nat.div_div_eq_div_mul,
        ← Nat.pow_succ', List.cons_append]

/-- `md5_finish` pads what has been taken in, and gives the digest. -/
theorem Absorbed.finish (hw : 32 ≤ w) (h : Absorbed ctx msg) :
    md5Finish ctx = some (digest msg) := by
  have hleft := h.left hw
  have hmsglen : putUint32 ctx.total.1 ++ putUint32 ctx.total.2 =
      Endian.little.bytes 8 (8 * msg.length) := by
    have htotal := h.total₁
    have hlow : (low ctx.total.1).toNat = 8 * msg.length % 256 ^ 4 := by
      rw [low, BitVec.toNat_setWidth, htotal]
      exact Nat.mod_mod _ _
    rw [putUint32_eq hw, putUint32_eq hw, hlow, h.total₂, BitVec.toNat_ofNat]
    refine Eq.trans ?_ (littleBytes_add 4 4 (8 * msg.length)).symm
    exact congrArg₂ _ (Endian.littleBytes_mod 4 _) (Endian.littleBytes_mod 4 _)
  have hpadn : ∃ padn, (if msg.length % 64 < 56 then 56 - msg.length % 64
      else 120 - msg.length % 64) = padn + 1 ∧ padn = (119 - msg.length % 64) % 64 := by
    by_cases hlt : msg.length % 64 < 56
    · exact ⟨_, by rw [if_pos hlt]; omega, rfl⟩
    · exact ⟨_, by rw [if_neg hlt]; omega, rfl⟩
  obtain ⟨padn, hpadn, hpad⟩ := hpadn
  have htake : md5Padding.take (padn + 1) = 0x80 :: List.replicate padn 0 := by
    rw [md5Padding, List.take_succ_cons, List.take_replicate, Nat.min_eq_left (by omega)]
  have hshort₁ : (0x80 :: List.replicate padn (0 : UInt8)).length < 2 ^ 29 := by
    rw [List.length_cons, List.length_replicate]
    omega
  have hshort₂ : (Endian.little.bytes 8 (8 * msg.length)).length < 2 ^ 29 := by
    rw [Endian.length_bytes]
    decide
  obtain ⟨ctx₁, hrun₁, h₁⟩ := h.update hw hshort₁
  obtain ⟨ctx₂, hrun₂, h₂⟩ := h₁.update hw hshort₂
  have hpadded : msg ++ 0x80 :: List.replicate padn 0 ++ Endian.little.bytes 8 (8 * msg.length) =
      padded msg := by rw [padded, hpad]
  have hstate : (absorb 64 compress initial (padded msg)).1 = ctx₂.state.low := by
    rw [← hpadded, h₂.blocks]
  unfold md5Finish
  simp only [hleft, hpadn, htake, hmsglen, hrun₁, hrun₂, Option.bind_eq_bind, Option.bind_some,
    Option.pure_def]
  simp only [putUint32_eq hw, digest, hstate, List.flatMap_cons, List.flatMap_nil, List.append_nil,
    List.append_assoc, Words.low]

/-- Any pieces of a message give its digest, and nothing is written behind the buffer. -/
theorem md5_streaming (w : Nat) (hw : 32 ≤ w) (buffer : List UInt8) (hroom : buffer.length = 64)
    (pieces : List (List UInt8)) (hshort : ∀ input ∈ pieces, input.length < 2 ^ 29) :
    (pieces.foldlM md5Update (md5Starts buffer : Context w)).bind md5Finish =
      some (digest pieces.flatten) := by
  obtain ⟨ctx, hrun, h⟩ := (absorbed_starts hw hroom).updates hw hshort
  rw [hrun]
  exact h.finish hw

theorem md5_streaming_abc :
    ([[97], [98, 99]].foldlM md5Update (md5Starts (List.replicate 64 7) : Context 64)).bind
      md5Finish = some (digest [97, 98, 99]) :=
  md5_streaming 64 (by decide) (List.replicate 64 7) (List.length_replicate ..) [[97], [98, 99]]
    (by simp)

end Md5
end IrC6
