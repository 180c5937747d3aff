import IrC6.Buffer.Field
import IrC6.Buffer.Pack

/-!
# Unpacking undoes packing

A `Value` is a field together with what is packed into it.  The packer and the
unpacker agree on its bytes: `packLoop_value` gives the bytes that the packer
queues for it, and `Value.read_encode` reads them back.  Both leave their
interpreter between two directives, so the two results compose along a format.
-/

namespace IrC6
namespace Buffer

/-- A field and its value. -/
inductive Value where
  /-- A literal character.  A format has no NUL inside. -/
  | lit (b : UInt8) (h : b ≠ 0)
  /-- `%Z`. -/
  | nul
  /-- `%bu`, `%hu`, `%^hu`, `%u` or `%^u`. -/
  | num (n : Num) (v : Nat) (h : v < 256 ^ n.width.size)
  /-- `%Np`, with `N` the length of the block. -/
  | raw (bs : List UInt8) (h : 1 ≤ bs.length)
  /-- `%^hu%r`, unpacked by `%^h$%r`. -/
  | blob (bs : List UInt8) (h : bs.length ≤ 65535)

namespace Value

/-- `%^h`, the head of a big-endian 16-bit number. -/
def count : Num := ⟨.short, true⟩

/-- The field that reads the value. -/
def field : Value → Field
  | lit b _ => .lit b
  | nul => .nul
  | num n _ _ => .num n
  | raw bs _ => .raw bs.length
  | blob _ _ => .blob count

/-- The format of the value, for packing. -/
def packFormat : Value → List Char
  | blob _ _ => count.head ++ ['u', '%', 'r']
  | v => v.field.render

/-- The arguments of `buf_new_pack` for the value. -/
def args : Value → List PackArg
  | lit _ _ | nul => []
  | num _ v _ => [.int v]
  | raw bs _ => [.ptr (some bs)]
  | blob bs _ => [.int bs.length, .buf (some bs)]

/-- What `buf_unpack` is to store. -/
def outs : Value → List Out
  | lit _ _ | nul => []
  | num n v _ => [.num n.width.size v]
  | raw bs _ => [.ptr bs]
  | blob bs _ => [.buf bs]

/-- The bytes of the value. -/
def encode (host : Endian) : Value → List UInt8
  | lit b _ => [b]
  | nul => [0]
  | num n v _ => (n.order host).bytes n.width.size v
  | raw bs _ => bs
  | blob bs _ => Endian.big.bytes sizeShort bs.length ++ bs

theorem encode_ne_nil (host : Endian) (v : Value) : v.encode host ≠ [] := by
  intro h
  have hlen := congrArg List.length h
  cases v with
  | lit b _ => simp [encode] at hlen
  | nul => simp [encode] at hlen
  | num n v _ =>
      cases hw : n.width <;> simp [encode, hw, Width.size, sizeChar, sizeShort, sizeInt] at hlen
  | raw bs hbs => simp only [encode, List.length_nil] at hlen; omega
  | blob bs _ => simp [encode, sizeShort] at hlen

/-! ## Unpacking -/

theorem length_lt_count {bs : List UInt8} (h : bs.length ≤ 65535) :
    bs.length < 256 ^ count.width.size := by
  have hpow : 256 ^ count.width.size = 65536 := rfl
  omega

theorem read_encode (host : Endian) (v : Value) (tail : List UInt8) :
    v.field.read host (v.encode host ++ tail) = .ok ((v.encode host).length, v.outs) := by
  cases v with
  | lit b _ => simp [field, encode, outs, Field.read, Field.readByte]
  | nul => simp [field, encode, outs, Field.read, Field.readByte]
  | num n v h =>
      rw [field, Field.read, encode, n.read_bytes host h, Endian.length_bytes]
      rfl
  | raw bs _ => simp [field, encode, outs, Field.read]
  | blob bs h =>
      have hread := count.read_bytes host (length_lt_count h) (bs ++ tail)
      have hdrop : (Endian.big.bytes sizeShort bs.length ++ (bs ++ tail)).drop count.width.size =
          bs ++ tail := List.drop_left' (Endian.length_bytes ..)
      have horder : count.order host = .big := rfl
      have hsize : count.width.size = sizeShort := rfl
      rw [horder, hsize] at hread
      rw [hsize] at hdrop
      rw [field, Field.read, encode, List.append_assoc, hread]
      simp [bind, Except.bind, hdrop, hsize, outs]

/-! ## Packing -/

theorem buildNum_order (host : Endian) (n : Num) {v : Nat} (h : v < 256 ^ n.width.size) :
    buildNum host n.big n.width.size v = (n.order host).bytes n.width.size v := by
  obtain ⟨w, big⟩ := n
  simp only [buildNum, Nat.mod_eq_of_lt h, Num.order]
  cases big
  · simp
  · by_cases hw : w.size = sizeChar
    · have hbyte : ∀ e : Endian, e.bytes 1 v = [UInt8.ofNat v] := by
        intro e
        cases e <;> rfl
      simp [hw, sizeChar, hbyte]
    · simp only [ne_eq, hw, not_false_eq_true, and_self, if_true, Endian.bytes_hton]

theorem pack_head (host : Endian) (n : Num) (fmt : List Char) (queue : List (List UInt8))
    (tot : Nat) (args : List PackArg) :
    packLoop host (n.head ++ fmt) (idle queue tot args) =
      packLoop host fmt { idle queue tot args with
        size := n.width.given, percent := true, bigendian := n.big } := by
  obtain ⟨w, big⟩ := n
  have hpercent : ∀ fmt', packLoop host ('%' :: fmt') (idle queue tot args) =
      packLoop host fmt' { idle queue tot args with percent := true } :=
    fun fmt' => pack_percent rfl
  have hcaret : ∀ fmt', packLoop host ('^' :: fmt') { idle queue tot args with percent := true } =
      packLoop host fmt' { idle queue tot args with percent := true, bigendian := true } :=
    fun fmt' => pack_caret rfl rfl
  have hletter : ∀ b fmt',
      packLoop host ('h' :: fmt') { idle queue tot args with percent := true, bigendian := b } =
        packLoop host fmt'
          { idle queue tot args with size := sizeShort, percent := true, bigendian := b } ∧
      packLoop host ('b' :: fmt') { idle queue tot args with percent := true, bigendian := b } =
        packLoop host fmt'
          { idle queue tot args with size := sizeChar, percent := true, bigendian := b } :=
    fun b fmt' => pack_letter rfl rfl
  cases w <;> cases big <;> simp_all [Num.head, Width.letter, Width.given, idle]

/-- A number directive queues the bytes of its argument. -/
theorem pack_number (host : Endian) (n : Num) {v : Nat} (h : v < 256 ^ n.width.size)
    (fmt : List Char) (queue : List (List UInt8)) (tot : Nat) (args : List PackArg) :
    packLoop host (n.head ++ 'u' :: fmt) (idle queue tot (.int v :: args)) =
      packLoop host fmt
        ((idle queue tot args).add ((n.order host).bytes n.width.size v) args) := by
  rw [pack_head]
  refine pack_directive (by decide) rfl ?_
  simp only [packDirective, n.width.numSize_given, if_pos n.width.size_cases, idle,
    buildNum_order host n h]
  rfl

theorem flatten_add (s : PackState) (bs : List UInt8) (args : List PackArg) :
    (s.add bs args).queue.flatten = s.queue.flatten ++ bs := by
  by_cases h : bs = [] <;> simp [PackState.add, idle, h]

theorem add_eq_idle (s : PackState) (bs : List UInt8) (args : List PackArg) :
    s.add bs args = idle (s.add bs args).queue (s.totsize + bs.length) args := rfl

/-- The packer queues the bytes of a value. -/
theorem packLoop_value (host : Endian) (v : Value) (fmt : List Char) (queue : List (List UInt8))
    (tot : Nat) (args : List PackArg) :
    ∃ queue', packLoop host (v.packFormat ++ fmt) (idle queue tot (v.args ++ args)) =
        packLoop host fmt (idle queue' (tot + (v.encode host).length) args) ∧
      queue'.flatten = queue.flatten ++ v.encode host := by
  have hpercent : ∀ fmt' args', packLoop host ('%' :: fmt') (idle queue tot args') =
      packLoop host fmt' { idle queue tot args' with percent := true } :=
    fun fmt' args' => pack_percent rfl
  cases v with
  | lit b _ =>
      refine ⟨((idle queue tot args).addChar b).queue, ?_, flatten_add _ _ _⟩
      by_cases hb : b = 37
      · subst hb
        change packLoop host ('%' :: '%' :: fmt) (idle queue tot args) = _
        rw [hpercent, pack_percent_percent rfl]
        rfl
      · have hformat : (Value.lit b ‹_›).packFormat = [Char.ofUInt8 b] := if_neg hb
        rw [hformat, List.singleton_append]
        change packLoop host (Char.ofUInt8 b :: fmt) (idle queue tot args) = _
        rw [pack_literal (ofUInt8_ne_percent hb) rfl, toUInt8_ofUInt8]
        rfl
  | nul =>
      refine ⟨((idle queue tot args).addChar 0).queue, ?_, flatten_add _ _ _⟩
      change packLoop host ('%' :: 'Z' :: fmt) (idle queue tot args) = _
      rw [hpercent]
      exact pack_directive (by decide) rfl rfl
  | num n v h =>
      refine ⟨((idle queue tot args).add (encode host (num n v h)) args).queue, ?_,
        flatten_add _ _ _⟩
      change packLoop host ((n.head ++ ['u']) ++ fmt) (idle queue tot (.int v :: args)) = _
      rw [List.append_assoc, List.singleton_append, pack_number host n h]
      rfl
  | raw bs _ =>
      refine ⟨((idle queue tot args).add bs args).queue, ?_, flatten_add _ _ _⟩
      change packLoop host ('%' :: ((decimal bs.length ++ ['p']) ++ fmt))
        (idle queue tot (.ptr (some bs) :: args)) = _
      rw [List.append_assoc, List.singleton_append, hpercent, pack_decimal rfl rfl _ (by decide)]
      refine pack_directive (by decide) rfl ?_
      simp [packDirective, idle, PackState.add, encode]
  | blob bs h =>
      obtain ⟨queue', hqueue, hflat⟩ : ∃ queue',
          (idle queue tot (.buf (some bs) :: args)).add (Endian.big.bytes sizeShort bs.length)
            (.buf (some bs) :: args) = idle queue' (tot + sizeShort) (.buf (some bs) :: args) ∧
          queue'.flatten = queue.flatten ++ Endian.big.bytes sizeShort bs.length :=
        ⟨_, by rw [add_eq_idle, Endian.length_bytes]; rfl, flatten_add _ _ _⟩
      refine ⟨((idle queue' (tot + sizeShort) args).add bs args).queue, ?_, ?_⟩
      · change packLoop host ((count.head ++ ['u', '%', 'r']) ++ fmt)
          (idle queue tot (.int bs.length :: .buf (some bs) :: args)) = _
        rw [List.append_assoc, List.cons_append, pack_number host count (length_lt_count h)]
        change packLoop host _ ((idle queue tot (.buf (some bs) :: args)).add
          (Endian.big.bytes sizeShort bs.length) (.buf (some bs) :: args)) = _
        rw [hqueue, List.cons_append, List.cons_append, List.nil_append, pack_percent rfl]
        refine pack_directive (by decide) rfl ?_
        simp [packDirective, idle, PackState.add, encode, Nat.add_assoc]
      · rw [flatten_add]
        simp [idle, hflat, encode]

end Value

/-! ## Formats -/

def packFormat (vs : List Value) : List Char := vs.flatMap Value.packFormat
def packArgs (vs : List Value) : List PackArg := vs.flatMap Value.args
def unpackFormat (vs : List Value) : List Char := render (vs.map Value.field)
def outs (vs : List Value) : List Out := vs.flatMap Value.outs
def encode (host : Endian) (vs : List Value) : List UInt8 := vs.flatMap (Value.encode host)

theorem packLoop_values (host : Endian) (vs : List Value) (queue : List (List UInt8)) (tot : Nat) :
    ∃ queue', packLoop host (packFormat vs) (idle queue tot (packArgs vs)) =
        .ok (idle queue' (tot + (encode host vs).length) []) ∧
      queue'.flatten = queue.flatten ++ encode host vs := by
  induction vs generalizing queue tot with
  | nil => exact ⟨queue, by simp [packFormat, packArgs, encode, packLoop], by simp [encode]⟩
  | cons v vs ih =>
      obtain ⟨queue₁, hv, hflat₁⟩ := v.packLoop_value host (packFormat vs) queue tot (packArgs vs)
      obtain ⟨queue₂, hvs, hflat₂⟩ := ih queue₁ (tot + (v.encode host).length)
      refine ⟨queue₂, ?_, ?_⟩
      · have hstep := hv.trans hvs
        rw [Nat.add_assoc, ← List.length_append] at hstep
        exact hstep
      · rw [hflat₂, hflat₁, List.append_assoc]
        rfl

theorem bufNewPack_values (host : Endian) {vs : List Value} (hne : vs ≠ []) :
    bufNewPack host (packFormat vs) (packArgs vs) = .ok (some (encode host vs)) := by
  obtain ⟨queue, hpack, hflat⟩ := packLoop_values host vs [] 0
  have hpos : 0 < (encode host vs).length := by
    cases vs with
    | nil => exact absurd rfl hne
    | cons v vs =>
        have hv := List.length_pos_of_ne_nil (v.encode_ne_nil host)
        rw [encode, List.flatMap_cons, List.length_append]
        omega
  rw [bufNewPack, hpack]
  simp only [idle, Nat.zero_add, if_pos hpos, hflat, List.flatten_nil, List.nil_append]

theorem readFields_encode (host : Endian) (vs : List Value) (tail : List UInt8) :
    readFields host (vs.map Value.field) (encode host vs ++ tail) =
      .ok ((encode host vs).length, outs vs) := by
  induction vs with
  | nil => rfl
  | cons v vs ih =>
      have hassoc : encode host (v :: vs) ++ tail = v.encode host ++ (encode host vs ++ tail) := by
        simp [encode]
      rw [List.map_cons, readFields, hassoc, v.read_encode host]
      simp only [bind, Except.bind, List.drop_left, ih]
      simp [encode, outs]

/-- Unpacking with the mirrored format undoes packing: the buffer exists, the values
come back, and the whole buffer is used. -/
theorem unpackData_bufNewPack (host : Endian) (vs : List Value) (hne : vs ≠ []) :
    ∃ buf, bufNewPack host (packFormat vs) (packArgs vs) = .ok (some buf) ∧
      unpackData host (unpackFormat vs) buf = .ok (buf.length, outs vs) := by
  have hread := readFields_encode host vs []
  rw [List.append_nil] at hread
  exact ⟨encode host vs, bufNewPack_values host hne, by
    rw [unpackFormat, unpackData_render, hread]⟩

/-- One field of every kind, on a little-endian host. -/
theorem unpackData_bufNewPack_all :
    ∃ buf, bufNewPack .little "%bu%^hu%^u%hu%u%2p%^hu%r%Zx%%".toList
        [.int 7, .int 258, .int 16909060, .int 772, .int 5, .ptr (some [8, 9]), .int 1,
          .buf (some [10])] = .ok (some buf) ∧
      unpackData .little "%bu%^hu%^u%hu%u%2p%^h$%r%Zx%%".toList buf = .ok (buf.length,
        [.num 1 7, .num 2 258, .num 4 16909060, .num 2 772, .num 4 5, .ptr [8, 9], .buf [10]]) :=
  unpackData_bufNewPack .little
    [.num ⟨.byte, false⟩ 7 (by decide), .num ⟨.short, true⟩ 258 (by decide),
      .num ⟨.int, true⟩ 16909060 (by decide), .num ⟨.short, false⟩ 772 (by decide),
      .num ⟨.int, false⟩ 5 (by decide), .raw [8, 9] (by decide), .blob [10] (by decide), .nul,
      .lit 120 (by decide), .lit 37 (by decide)]
    (List.cons_ne_nil _ _)

end Buffer
end IrC6
