import IrC6.Blowfish.Cipher

/-!
# MD5

`md5.c` computes with `unsigned long`, which has 32 bits on some machines and 64 on others.
A definition has the name of the function or the macro of `md5.c` that it models.

`memcpy` into the buffer has the result `none` when it would write behind the end.
-/

namespace IrC6
namespace Md5

variable {w : Nat}

/-- `A`, `B`, `C` and `D`, or `ctx->state`. -/
structure Words (w : Nat) where
  a : BitVec w
  b : BitVec w
  c : BitVec w
  d : BitVec w

/-- `struct md5_context`, with `unsigned long` of `w` bits. -/
structure Context (w : Nat) where
  total : BitVec w × BitVec w
  state : Words w
  buffer : List UInt8

/-- `GET_UINT32`. -/
def getUint32 (b : List UInt8) (i : Nat) : BitVec w :=
  BitVec.ofNat w (b.getD i 0).toNat ||| BitVec.ofNat w (b.getD (i + 1) 0).toNat <<< 8 |||
    BitVec.ofNat w (b.getD (i + 2) 0).toNat <<< 16 |||
    BitVec.ofNat w (b.getD (i + 3) 0).toNat <<< 24

/-- `(uint8) (n & 0xFF)`. -/
def lastByte (n : BitVec w) : UInt8 := UInt8.ofNat (n &&& 0xFF#w).toNat

/-- `PUT_UINT32`. -/
def putUint32 (n : BitVec w) : List UInt8 :=
  [lastByte n, lastByte (n >>> 8), lastByte (n >>> 16), lastByte (n >>> 24)]

/-! ## The compression function -/

/-- `S`. -/
def S (x : BitVec w) (n : Nat) : BitVec w := (x <<< n) ||| ((x &&& 0xFFFFFFFF#w) >>> (32 - n))

/-- The last three arguments of `P`. -/
structure Row where
  k : Nat
  s : Nat
  t : Nat
deriving DecidableEq

/-- `P`.  In the next row `D` stands where `A` did. -/
def P (F : BitVec w → BitVec w → BitVec w → BitVec w) (X : Nat → BitVec w) (v : Words w)
    (r : Row) : Words w :=
  let a := v.a + (F v.b v.c v.d + X r.k + BitVec.ofNat w r.t)
  { a := v.d, b := S a r.s + v.b, c := v.b, d := v.c }

/-- The four definitions of `F`. -/
def F₁ (x y z : BitVec w) : BitVec w := z ^^^ (x &&& (y ^^^ z))
def F₂ (x y z : BitVec w) : BitVec w := y ^^^ (z &&& (x ^^^ y))
def F₃ (x y z : BitVec w) : BitVec w := x ^^^ y ^^^ z
def F₄ (x y z : BitVec w) : BitVec w := y ^^^ (x ||| ~~~z)

def rows₁ : List Row :=
  [⟨0, 7, 0xD76AA478⟩, ⟨1, 12, 0xE8C7B756⟩, ⟨2, 17, 0x242070DB⟩, ⟨3, 22, 0xC1BDCEEE⟩,
   ⟨4, 7, 0xF57C0FAF⟩, ⟨5, 12, 0x4787C62A⟩, ⟨6, 17, 0xA8304613⟩, ⟨7, 22, 0xFD469501⟩,
   ⟨8, 7, 0x698098D8⟩, ⟨9, 12, 0x8B44F7AF⟩, ⟨10, 17, 0xFFFF5BB1⟩, ⟨11, 22, 0x895CD7BE⟩,
   ⟨12, 7, 0x6B901122⟩, ⟨13, 12, 0xFD987193⟩, ⟨14, 17, 0xA679438E⟩, ⟨15, 22, 0x49B40821⟩]

def rows₂ : List Row :=
  [⟨1, 5, 0xF61E2562⟩, ⟨6, 9, 0xC040B340⟩, ⟨11, 14, 0x265E5A51⟩, ⟨0, 20, 0xE9B6C7AA⟩,
   ⟨5, 5, 0xD62F105D⟩, ⟨10, 9, 0x02441453⟩, ⟨15, 14, 0xD8A1E681⟩, ⟨4, 20, 0xE7D3FBC8⟩,
   ⟨9, 5, 0x21E1CDE6⟩, ⟨14, 9, 0xC33707D6⟩, ⟨3, 14, 0xF4D50D87⟩, ⟨8, 20, 0x455A14ED⟩,
   ⟨13, 5, 0xA9E3E905⟩, ⟨2, 9, 0xFCEFA3F8⟩, ⟨7, 14, 0x676F02D9⟩, ⟨12, 20, 0x8D2A4C8A⟩]

def rows₃ : List Row :=
  [⟨5, 4, 0xFFFA3942⟩, ⟨8, 11, 0x8771F681⟩, ⟨11, 16, 0x6D9D6122⟩, ⟨14, 23, 0xFDE5380C⟩,
   ⟨1, 4, 0xA4BEEA44⟩, ⟨4, 11, 0x4BDECFA9⟩, ⟨7, 16, 0xF6BB4B60⟩, ⟨10, 23, 0xBEBFBC70⟩,
   ⟨13, 4, 0x289B7EC6⟩, ⟨0, 11, 0xEAA127FA⟩, ⟨3, 16, 0xD4EF3085⟩, ⟨6, 23, 0x04881D05⟩,
   ⟨9, 4, 0xD9D4D039⟩, ⟨12, 11, 0xE6DB99E5⟩, ⟨15, 16, 0x1FA27CF8⟩, ⟨2, 23, 0xC4AC5665⟩]

def rows₄ : List Row :=
  [⟨0, 6, 0xF4292244⟩, ⟨7, 10, 0x432AFF97⟩, ⟨14, 15, 0xAB9423A7⟩, ⟨5, 21, 0xFC93A039⟩,
   ⟨12, 6, 0x655B59C3⟩, ⟨3, 10, 0x8F0CCC92⟩, ⟨10, 15, 0xFFEFF47D⟩, ⟨1, 21, 0x85845DD1⟩,
   ⟨8, 6, 0x6FA87E4F⟩, ⟨15, 10, 0xFE2CE6E0⟩, ⟨6, 15, 0xA3014314⟩, ⟨13, 21, 0x4E0811A1⟩,
   ⟨4, 6, 0xF7537E82⟩, ⟨11, 10, 0xBD3AF235⟩, ⟨2, 15, 0x2AD7D2BB⟩, ⟨9, 21, 0xEB86D391⟩]

/-- `md5_process`, on `ctx->state`. -/
def md5Process (state : Words w) (data : List UInt8) : Words w :=
  let X := fun k => getUint32 data (4 * k)
  let v := rows₁.foldl (P F₁ X) state
  let v := rows₂.foldl (P F₂ X) v
  let v := rows₃.foldl (P F₃ X) v
  let v := rows₄.foldl (P F₄ X) v
  { a := state.a + v.a, b := state.b + v.b, c := state.c + v.c, d := state.d + v.d }

/-! ## The context -/

/-- `md5_starts`.  The buffer stays as it is. -/
def md5Starts (buffer : List UInt8) : Context w :=
  { total := (0, 0)
    state := { a := 0x67452301, b := 0xEFCDAB89, c := 0x98BADCFE, d := 0x10325476 }
    buffer := buffer }

/-- `memcpy(buffer + left, input, ..)`. -/
def copyAt (buffer : List UInt8) (left : Nat) (input : List UInt8) : Option (List UInt8) :=
  if left + input.length ≤ buffer.length then
    some (buffer.take left ++ input ++ buffer.drop (left + input.length))
  else none

/-- The loop of `md5_update`. -/
def wholeBlocks : Nat → Words w → List UInt8 → Words w × List UInt8
  | 0, state, input => (state, input)
  | n + 1, state, input =>
      if 64 ≤ input.length then wholeBlocks n (md5Process state (input.take 64)) (input.drop 64)
      else (state, input)

/-- The loop of `md5_update`, and the copying behind it. -/
def md5Rest (ctx : Context w) (left : Nat) (input : List UInt8) : Option (Context w) := do
  let (state, input) := wholeBlocks input.length ctx.state input
  let buffer ← if input = [] then some ctx.buffer else copyAt ctx.buffer left input
  return { ctx with state := state, buffer := buffer }

/-- `ctx->total`, after more bytes. -/
def addLength (total : BitVec w × BitVec w) (length : BitVec w) : BitVec w × BitVec w :=
  let low := (total.1 + length <<< 3) &&& 0xFFFFFFFF#w
  (low, total.2 + length >>> 29 + if low < length <<< 3 then 1 else 0)

/-- `(ctx->total[0] >> 3) & 0x3F`. -/
def Context.left (ctx : Context w) : Nat := ((ctx.total.1 >>> 3) &&& 0x3F#w).toNat

def md5Update (ctx : Context w) (input : List UInt8) : Option (Context w) :=
  if input.length = 0 then some ctx
  else
    let left := ctx.left
    let fill := 64 - left
    let ctx := { ctx with total := addLength ctx.total (BitVec.ofNat w input.length) }
    if left ≠ 0 ∧ fill ≤ input.length then do
      let buffer ← copyAt ctx.buffer left (input.take fill)
      md5Rest { ctx with buffer := buffer, state := md5Process ctx.state buffer } 0
        (input.drop fill)
    else md5Rest ctx left input

def md5Padding : List UInt8 := 0x80 :: List.replicate 63 0

def md5Finish (ctx : Context w) : Option (List UInt8) := do
  let msglen := putUint32 ctx.total.1 ++ putUint32 ctx.total.2
  let last := ctx.left
  let padn := if last < 56 then 56 - last else 120 - last
  let ctx ← md5Update ctx (md5Padding.take padn)
  let ctx ← md5Update ctx msglen
  return putUint32 ctx.state.a ++ putUint32 ctx.state.b ++ putUint32 ctx.state.c ++
    putUint32 ctx.state.d

end Md5
end IrC6
