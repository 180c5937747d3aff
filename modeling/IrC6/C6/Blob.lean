import IrC6.Base.Text
import IrC6.Blowfish.Cipher
import IrC6.C6.Client.Requests

/-!
# The coded blob of the login

`codifica.c` codes a buffer with Blowfish, one block of eight bytes after the other.  The
bytes of a block are put together in an `int` and go from there to `unsigned long`, so a
first byte from 128 on fills the upper half of a 64-bit word.  What is left of the words
when they are written back are their low 32 bits.
-/

namespace IrC6
namespace C6

open Blowfish

/-- The two sizes of `unsigned long`. -/
inductive Long where
  | ilp32
  | lp64
deriving DecidableEq, Repr

def Long.bits : Long → Nat
  | ilp32 => 32
  | lp64 => 64

theorem Long.le_bits (long : Long) : 32 ≤ long.bits := by cases long <;> decide

/-- `*p << 24 | *(p+1) << 16 | *(p+2) << 8 | *(p+3)`, as an `int`. -/
def loadInt (b₀ b₁ b₂ b₃ : UInt8) : BitVec 32 :=
  BitVec.ofNat 32 b₀.toNat <<< 24 ||| BitVec.ofNat 32 b₁.toNat <<< 16 |||
    BitVec.ofNat 32 b₂.toNat <<< 8 ||| BitVec.ofNat 32 b₃.toNat

/-- `WORD_WRITE`. -/
def wordWrite {w : Nat} (value : BitVec w) : List UInt8 :=
  [UInt8.ofNat ((value &&& 0xff00#w) >>> 8).toNat, UInt8.ofNat (value &&& 0x00ff#w).toNat]

/-- The two calls of `WORD_WRITE` for one half. -/
def storeLong {w : Nat} (v : BitVec w) : List UInt8 :=
  wordWrite (v >>> 16) ++ wordWrite (v &&& 0x0000ffff#w)

/-- The loop body of both functions: a block is loaded, coded and written back. -/
def codeBlock (w : Nat) (code : BitVec w × BitVec w → BitVec w × BitVec w) :
    List UInt8 → List UInt8
  | [b₀, b₁, b₂, b₃, b₄, b₅, b₆, b₇] =>
      let x := code ((loadInt b₀ b₁ b₂ b₃).signExtend w, (loadInt b₄ b₅ b₆ b₇).signExtend w)
      storeLong x.1 ++ storeLong x.2
  | source => source

/-- The loop: `WORD_WRITE` moves `source` on over the block. -/
def eachBlock (code : List UInt8 → List UInt8) : Nat → List UInt8 → List UInt8
  | 0, source => source
  | n + 1, source => code (source.take 8) ++ eachBlock code n (source.drop 8)

/-- The number of turns of a loop `i < len / 8`. -/
def blockCount (len : Int) : Nat := (len.tdiv 8).toNat

def blowFishEncode (w : Nat) (len : Int) (source : List UInt8) (lenKey : Nat)
    (key : List UInt8) : List UInt8 :=
  let ctx : Ctx w := init key lenKey
  eachBlock (codeBlock w (encrypt ctx)) (blockCount len) source

def blowFishDecode (w : Nat) (len : Int) (source : List UInt8) (lenKey : Nat)
    (key : List UInt8) : List UInt8 :=
  let ctx : Ctx w := init key lenKey
  eachBlock (codeBlock w (decrypt ctx)) (blockCount len) source

/-- A `size_t` given for an `int`. -/
def toInt (n : Nat) : Int := (BitVec.ofNat 32 n).toInt

def c6EncodeXmlBlob (long : Long) (dst : List UInt8) (md5Key : Fin 16 → UInt8) : List UInt8 :=
  blowFishEncode long.bits (toInt dst.length) dst 16 (List.ofFn md5Key)

def c6DecodeXmlBlob (long : Long) (dst : List UInt8) (md5Key : Fin 16 → UInt8) : List UInt8 :=
  blowFishDecode long.bits (toInt dst.length) dst 16 (List.ofFn md5Key)

/-! ## Words -/

theorem shiftLeft_or_byte (n : Nat) (b : UInt8) : n <<< 8 ||| b.toNat = n * 256 + b.toNat := by
  have hb : b.toNat < 2 ^ 8 := b.toNat_lt
  rw [← Nat.shiftLeft_add_eq_or_of_lt hb, Nat.shiftLeft_eq]

theorem toNat_byte_shift (b : UInt8) {k : Nat} (hk : k ≤ 24) :
    (BitVec.ofNat 32 b.toNat <<< k).toNat = b.toNat <<< k := by
  have hb : b.toNat < 2 ^ 8 := b.toNat_lt
  have hpow : 2 ^ k ≤ 2 ^ 24 := Nat.pow_le_pow_right (by decide) hk
  have hle : b.toNat * 2 ^ k ≤ 255 * 2 ^ 24 := Nat.mul_le_mul (by omega) hpow
  have hlt : b.toNat * 2 ^ k < 2 ^ 32 := by omega
  have hsmall : b.toNat % 2 ^ 32 = b.toNat := Nat.mod_eq_of_lt (by omega)
  rw [BitVec.toNat_shiftLeft, BitVec.toNat_ofNat, hsmall, Nat.shiftLeft_eq, Nat.mod_eq_of_lt hlt]

theorem toNat_loadInt (b₀ b₁ b₂ b₃ : UInt8) :
    (loadInt b₀ b₁ b₂ b₃).toNat =
      ((b₀.toNat * 256 + b₁.toNat) * 256 + b₂.toNat) * 256 + b₃.toNat := by
  have h₃ := toNat_byte_shift b₃ (Nat.zero_le 24)
  rw [BitVec.shiftLeft_zero, Nat.shiftLeft_zero] at h₃
  rw [loadInt, BitVec.toNat_or, BitVec.toNat_or, BitVec.toNat_or,
    toNat_byte_shift b₀ (Nat.le_refl 24), toNat_byte_shift b₁ (show 16 ≤ 24 by decide),
    toNat_byte_shift b₂ (show 8 ≤ 24 by decide), h₃]
  -- Each byte lies below the bits of the bytes in front of it.
  have hhigh : b₀.toNat <<< 24 ||| b₁.toNat <<< 16 = (b₀.toNat <<< 8 ||| b₁.toNat) <<< 16 := by
    rw [Nat.shiftLeft_or_distrib, ← Nat.shiftLeft_add]
  have hmiddle : ∀ n : Nat, n <<< 16 ||| b₂.toNat <<< 8 = (n <<< 8 ||| b₂.toNat) <<< 8 := by
    intro n
    rw [Nat.shiftLeft_or_distrib, ← Nat.shiftLeft_add]
  rw [hhigh, hmiddle, shiftLeft_or_byte, shiftLeft_or_byte, shiftLeft_or_byte]

theorem ofNat_and (m : Nat) : UInt8.ofNat (m &&& 255) = UInt8.ofNat m := by
  rw [← UInt8.toNat_inj, UInt8.toNat_ofNat', UInt8.toNat_ofNat']
  have hmask := Nat.and_two_pow_sub_one_eq_mod m 8
  rw [show (255 : Nat) = 2 ^ 8 - 1 from rfl, hmask, Nat.mod_mod]

theorem storeLong_eq {w : Nat} (hw : 32 ≤ w) (v : BitVec w) :
    storeLong v = [UInt8.ofNat (v.toNat / 2 ^ 24), UInt8.ofNat (v.toNat / 2 ^ 16),
      UInt8.ofNat (v.toNat / 2 ^ 8), UInt8.ofNat v.toNat] := by
  have hpow : 2 ^ 32 ≤ 2 ^ w := Nat.pow_le_pow_right (by decide) hw
  have hmask : ∀ m, m < 2 ^ 32 → (BitVec.ofNat w m).toNat = m := by
    intro m hm
    rw [BitVec.toNat_ofNat, Nat.mod_eq_of_lt (by omega)]
  simp only [storeLong, wordWrite, List.cons_append, List.nil_append, BitVec.toNat_ushiftRight,
    BitVec.toNat_and, hmask 0xff00 (by decide), hmask 0x00ff (by decide),
    hmask 0x0000ffff (by decide), Nat.shiftRight_and_distrib, ← Nat.shiftRight_add, Nat.and_assoc]
  have h₁ : 65280 >>> 8 = 255 := rfl
  have h₂ : 65535 >>> 8 &&& 255 = 255 := rfl
  have h₃ : 65535 &&& 255 = 255 := rfl
  rw [h₁, h₂, h₃, ofNat_and, ofNat_and, ofNat_and, ofNat_and]
  simp only [Nat.shiftRight_eq_div_pow]

theorem storeLong_low {w : Nat} (hw : 32 ≤ w) (v : BitVec w) :
    storeLong (low v) = storeLong v := by
  rw [storeLong_eq (Nat.le_refl 32), storeLong_eq hw, low, BitVec.toNat_setWidth]
  have hbyte : ∀ m n : Nat, m % 256 = n % 256 → UInt8.ofNat m = UInt8.ofNat n := by
    intro m n h
    rw [← UInt8.toNat_inj, UInt8.toNat_ofNat', UInt8.toNat_ofNat']
    exact h
  rw [hbyte (v.toNat % 2 ^ 32 / 2 ^ 24) (v.toNat / 2 ^ 24) (by omega),
    hbyte (v.toNat % 2 ^ 32 / 2 ^ 16) (v.toNat / 2 ^ 16) (by omega),
    hbyte (v.toNat % 2 ^ 32 / 2 ^ 8) (v.toNat / 2 ^ 8) (by omega),
    hbyte (v.toNat % 2 ^ 32) v.toNat (by omega)]

theorem length_storeLong {w : Nat} (v : BitVec w) : (storeLong v).length = 4 := rfl

/-- The bytes of a word are those it was put together from. -/
theorem storeLong_loadInt (b₀ b₁ b₂ b₃ : UInt8) :
    storeLong (loadInt b₀ b₁ b₂ b₃) = [b₀, b₁, b₂, b₃] := by
  have h₀ := b₀.toNat_lt
  have h₁ := b₁.toNat_lt
  have h₂ := b₂.toNat_lt
  have h₃ := b₃.toNat_lt
  have hbyte : ∀ (m : Nat) (b : UInt8), m % 256 = b.toNat → UInt8.ofNat m = b := by
    intro m b h
    rw [← UInt8.toNat_inj, UInt8.toNat_ofNat']
    exact h
  rw [storeLong_eq (Nat.le_refl 32), toNat_loadInt, hbyte _ b₀ (by omega), hbyte _ b₁ (by omega),
    hbyte _ b₂ (by omega), hbyte _ b₃ (by omega)]

theorem exists_loadInt (v : BitVec 32) :
    ∃ b₀ b₁ b₂ b₃, storeLong v = [b₀, b₁, b₂, b₃] ∧ loadInt b₀ b₁ b₂ b₃ = v := by
  refine ⟨_, _, _, _, storeLong_eq (Nat.le_refl 32) v, ?_⟩
  rw [← BitVec.toNat_inj, toNat_loadInt]
  simp only [UInt8.toNat_ofNat']
  have hv := v.isLt
  omega

theorem low_signExtend {w : Nat} (hw : 32 ≤ w) (x : BitVec 32) : low (x.signExtend w) = x := by
  refine BitVec.eq_of_getLsbD_eq fun i hi => ?_
  rw [low, BitVec.getLsbD_setWidth, BitVec.getLsbD_signExtend]
  simp [hi, show i < w by omega]

/-! ## Blocks -/

theorem codeBlock_low {w : Nat} (hw : 32 ≤ w)
    {code : BitVec w × BitVec w → BitVec w × BitVec w}
    {code' : BitVec 32 × BitVec 32 → BitVec 32 × BitVec 32}
    (h : ∀ x, lows (code x) = code' (lows x)) (block : List UInt8) :
    codeBlock w code block = codeBlock 32 code' block := by
  unfold codeBlock
  split
  · rename_i b₀ b₁ b₂ b₃ b₄ b₅ b₆ b₇
    have hx := h ((loadInt b₀ b₁ b₂ b₃).signExtend w, (loadInt b₄ b₅ b₆ b₇).signExtend w)
    simp only [lows, Prod.map, low_signExtend hw] at hx
    simp only [BitVec.signExtend_eq, ← hx, storeLong_low hw]
  · rfl

theorem length_codeBlock {w : Nat} (code : BitVec w × BitVec w → BitVec w × BitVec w)
    (block : List UInt8) : (codeBlock w code block).length = block.length := by
  unfold codeBlock
  split
  · simp [length_storeLong]
  · rfl

/-- A code that is undone on words is undone on blocks. -/
theorem codeBlock_codeBlock {code code' : BitVec 32 × BitVec 32 → BitVec 32 × BitVec 32}
    (h : ∀ x, code' (code x) = x) (block : List UInt8) :
    codeBlock 32 code' (codeBlock 32 code block) = block := by
  by_cases hlen : block.length = 8
  · match block, hlen with
    | [b₀, b₁, b₂, b₃, b₄, b₅, b₆, b₇], _ =>
        let x := code (loadInt b₀ b₁ b₂ b₃, loadInt b₄ b₅ b₆ b₇)
        obtain ⟨c₀, c₁, c₂, c₃, hstore, hload⟩ := exists_loadInt x.1
        obtain ⟨c₄, c₅, c₆, c₇, hstore', hload'⟩ := exists_loadInt x.2
        have hcoded : codeBlock 32 code [b₀, b₁, b₂, b₃, b₄, b₅, b₆, b₇] =
            [c₀, c₁, c₂, c₃, c₄, c₅, c₆, c₇] := by
          simp only [codeBlock, BitVec.signExtend_eq]
          exact congrArg₂ (· ++ ·) hstore hstore'
        have hx := h (loadInt b₀ b₁ b₂ b₃, loadInt b₄ b₅ b₆ b₇)
        rw [hcoded]
        simp only [codeBlock, BitVec.signExtend_eq, hload, hload']
        show storeLong (code' x).1 ++ storeLong (code' x).2 = _
        rw [hx, storeLong_loadInt, storeLong_loadInt]
        rfl
  · have hother : ∀ code, codeBlock 32 code block = block := by
      intro code
      unfold codeBlock
      split
      · exact absurd rfl hlen
      · rfl
    rw [hother, hother]

theorem eachBlock_congr {code code' : List UInt8 → List UInt8} (h : ∀ b, code b = code' b)
    (n : Nat) (source : List UInt8) : eachBlock code n source = eachBlock code' n source := by
  rw [funext h]

theorem length_eachBlock {code : List UInt8 → List UInt8} (h : ∀ b, (code b).length = b.length)
    (n : Nat) (source : List UInt8) : (eachBlock code n source).length = source.length := by
  induction n generalizing source with
  | zero => rfl
  | succ n ih =>
      rw [eachBlock, List.length_append, h, ih, ← List.length_append, List.take_append_drop]

/-- Coding the first blocks of a buffer and undoing it. -/
theorem eachBlock_eachBlock {code code' : List UInt8 → List UInt8}
    (hlen : ∀ b, (code b).length = b.length) (h : ∀ b, code' (code b) = b) {n : Nat}
    {source : List UInt8} (hn : n * 8 ≤ source.length) :
    eachBlock code' n (eachBlock code n source) = source := by
  induction n generalizing source with
  | zero => rfl
  | succ n ih =>
      have hblock : (code (source.take 8)).length = 8 := by
        rw [hlen, List.length_take]
        omega
      have hrest : n * 8 ≤ (source.drop 8).length := by
        rw [List.length_drop]
        omega
      rw [eachBlock, eachBlock, List.take_left' hblock, List.drop_left' hblock, h, ih hrest,
        List.take_append_drop]

/-- What lies behind the blocks is not touched. -/
theorem getElem?_eachBlock {code : List UInt8 → List UInt8} (hlen : ∀ b, (code b).length = b.length)
    {n : Nat} {source : List UInt8} {i : Nat} (hi : n * 8 ≤ i) :
    (eachBlock code n source)[i]? = source[i]? := by
  induction n generalizing source i with
  | zero => rfl
  | succ n ih =>
      by_cases hshort : source.length ≤ 8
      · have hleft : source.length ≤ i := by omega
        rw [List.getElem?_eq_none hleft, List.getElem?_eq_none]
        rw [length_eachBlock hlen]
        exact hleft
      · have hblock : (code (source.take 8)).length = 8 := by
          rw [hlen, List.length_take]
          omega
        rw [eachBlock, List.getElem?_append_right (by omega), hblock, ih (by omega),
          List.getElem?_drop]
        congr 1
        omega

/-- The loop stays inside the buffer, also where its length is not an `int`. -/
theorem blockCount_le (n : Nat) : blockCount (toInt n) * 8 ≤ n := by
  have hmod : (BitVec.ofNat 32 n).toNat ≤ n := by
    rw [BitVec.toNat_ofNat]
    exact Nat.mod_le _ _
  rw [blockCount, toInt, BitVec.toInt_eq_toNat_cond]
  split
  · rw [show (8 : Int) = ((8 : Nat) : Int) from rfl, ← Int.ofNat_tdiv, Int.toNat_natCast]
    omega
  · have hlt := (BitVec.ofNat 32 n).isLt
    obtain ⟨k, hk⟩ : ∃ k : Nat, ((BitVec.ofNat 32 n).toNat : Int) - ((2 ^ 32 : Nat) : Int) =
        -(k : Int) := ⟨2 ^ 32 - (BitVec.ofNat 32 n).toNat, by omega⟩
    rw [hk, Int.neg_tdiv, show (8 : Int) = ((8 : Nat) : Int) from rfl, ← Int.ofNat_tdiv]
    omega

/-! ## Both sizes of `unsigned long` -/

/-- Whatever the size of `unsigned long`, the code of a buffer is that of the 32-bit cipher. -/
theorem c6EncodeXmlBlob_eq (long : Long) (dst : List UInt8) (md5Key : Fin 16 → UInt8) :
    c6EncodeXmlBlob long dst md5Key =
      eachBlock (codeBlock 32 (encrypt (init (List.ofFn md5Key) 16)))
        (blockCount (toInt dst.length)) dst := by
  refine eachBlock_congr (fun block => codeBlock_low long.le_bits (fun x => ?_) block) _ _
  rw [encrypt_low long.le_bits, ← init_low long.le_bits]

theorem c6DecodeXmlBlob_eq (long : Long) (dst : List UInt8) (md5Key : Fin 16 → UInt8) :
    c6DecodeXmlBlob long dst md5Key =
      eachBlock (codeBlock 32 (decrypt (init (List.ofFn md5Key) 16)))
        (blockCount (toInt dst.length)) dst := by
  refine eachBlock_congr (fun block => codeBlock_low long.le_bits (fun x => ?_) block) _ _
  rw [decrypt_low long.le_bits, ← init_low long.le_bits]

theorem c6DecodeXmlBlob_c6EncodeXmlBlob (long : Long) (buf : List UInt8)
    (md5Key : Fin 16 → UInt8) :
    c6DecodeXmlBlob long (c6EncodeXmlBlob long buf md5Key) md5Key = buf := by
  rw [c6EncodeXmlBlob_eq, c6DecodeXmlBlob_eq, length_eachBlock (length_codeBlock _)]
  exact eachBlock_eachBlock (length_codeBlock _) (codeBlock_codeBlock (decrypt_encrypt _))
    (blockCount_le buf.length)

/-- Decoding and encoding undo each other on every buffer, with either size of
`unsigned long`.  Neither touches what lies behind the last full block, and neither depends
on the size. -/
theorem xmlBlob_invertible (md5Key : Fin 16 → UInt8) (buf : List UInt8) (long : Long) :
    c6DecodeXmlBlob long (c6EncodeXmlBlob long buf md5Key) md5Key = buf ∧
    c6EncodeXmlBlob long (c6DecodeXmlBlob long buf md5Key) md5Key = buf ∧
    (∀ i, buf.length / 8 * 8 ≤ i →
      (c6EncodeXmlBlob long buf md5Key)[i]? = buf[i]? ∧
      (c6DecodeXmlBlob long buf md5Key)[i]? = buf[i]?) ∧
    ∀ long' : Long, c6EncodeXmlBlob long buf md5Key = c6EncodeXmlBlob long' buf md5Key ∧
      c6DecodeXmlBlob long buf md5Key = c6DecodeXmlBlob long' buf md5Key := by
  have hcount := blockCount_le buf.length
  refine ⟨c6DecodeXmlBlob_c6EncodeXmlBlob long buf md5Key, ?_⟩
  simp only [c6EncodeXmlBlob_eq, c6DecodeXmlBlob_eq, length_eachBlock (length_codeBlock _)]
  refine ⟨?_, fun i hi => ⟨?_, ?_⟩, fun _ => ⟨trivial, trivial⟩⟩
  · exact eachBlock_eachBlock (length_codeBlock _)
      (codeBlock_codeBlock (encrypt_decrypt _)) hcount
  · exact getElem?_eachBlock (length_codeBlock _) (by omega)
  · exact getElem?_eachBlock (length_codeBlock _) (by omega)

/-! ## The login -/

open Buffer

/-- The text of the login. -/
def loginText (user pass : List UInt8) : List UInt8 :=
  ascii "<user>\n  <username>" ++ user ++ ascii "</username>\n  <password>" ++ pass ++
    ascii "</password>\n</user>\n"

/-- `blob` before it is coded: the text in a buffer of zeros that ends at a full block and
has at least one zero. -/
def loginBlob (str : List UInt8) : List UInt8 :=
  str ++ List.replicate ((str.length / 8 + 1) * 8 - str.length) 0

def c6SendUsername (host : Endian) (long : Long) (md5Key : Fin 16 → UInt8) (c : Client)
    (user pass : List UInt8) : Except Stop Sent :=
  match bufNewPack host "%s%s%s%s%s".toList
      [.str (ascii "<user>\n  <username>"), .str user, .str (ascii "</username>\n  <password>"),
        .str pass, .str (ascii "</password>\n</user>\n")] with
  | .ok (some str) =>
      let nick := ascii "nicksforuser"
      let blob := c6EncodeXmlBlob long (loginBlob str) md5Key
      handOver host c (bufNewPack host "\x10\x31%^hu%^hu%bu%s%^hu%r\x02\x2d".toList
        [.int c.cltId.toNat, .int 0, .int (uint8 nick.length), .str nick,
          .int (uint16 blob.length), .buf (some blob)])
  | .ok none => .error .outside
  | .error e => .error e

/-- The login is sent, and the server finds its text in the blob, with zeros behind it. -/
theorem c6SendUsername_blob (host : Endian) (long : Long) (md5Key : Fin 16 → UInt8) (c : Client)
    (user pass : List UInt8) :
    ∃ blob, c6SendUsername host long md5Key c user pass = .ok (c.sent (layoutBytes host
        [.lit 0x10 (by decide), .lit 0x31 (by decide), .num ⟨.short, true⟩ c.cltId.toNat,
          .num ⟨.short, true⟩ 0, .num ⟨.byte, false⟩ 12, .str (ascii "nicksforuser"),
          .num ⟨.short, true⟩ (uint16 blob.length), .buf blob, .lit 0x02 (by decide),
          .lit 0x2d (by decide)])) ∧
      loginText user pass <+: c6DecodeXmlBlob long blob md5Key := by
  have hstr := bufNewPack_pieces host [.str (ascii "<user>\n  <username>"), .str user,
    .str (ascii "</username>\n  <password>"), .str pass, .str (ascii "</password>\n</user>\n")]
    (Nat.succ_pos _)
  have hnew : bufNewPack host "%s%s%s%s%s".toList
      [.str (ascii "<user>\n  <username>"), .str user, .str (ascii "</username>\n  <password>"),
        .str pass, .str (ascii "</password>\n</user>\n")] = .ok (some (loginText user pass)) := by
    refine hstr.trans (congrArg (Except.ok ∘ some) ?_)
    simp [layoutBytes, Piece.bytes, loginText]
  refine ⟨c6EncodeXmlBlob long (loginBlob (loginText user pass)) md5Key, ?_, ?_⟩
  · rw [c6SendUsername, hnew]
    exact handOver_pieces host c [.lit 0x10 (by decide), .lit 0x31 (by decide),
      .num ⟨.short, true⟩ c.cltId.toNat, .num ⟨.short, true⟩ 0, .num ⟨.byte, false⟩ 12,
      .str (ascii "nicksforuser"), .num ⟨.short, true⟩ (uint16 _), .buf _, .lit 0x02 (by decide),
      .lit 0x2d (by decide)] (Nat.le_add_left 6 _)
  · have hcount := blockCount_le (loginBlob (loginText user pass)).length
    have hback := eachBlock_eachBlock (length_codeBlock _)
      (codeBlock_codeBlock (decrypt_encrypt (init (List.ofFn md5Key) 16))) hcount
    rw [c6DecodeXmlBlob_eq, c6EncodeXmlBlob_eq, length_eachBlock (length_codeBlock _), hback]
    exact List.prefix_append _ _

end C6
end IrC6
