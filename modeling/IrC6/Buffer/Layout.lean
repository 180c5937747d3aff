import IrC6.Buffer.RoundTrip

/-!
# What packing writes

The formats of the client packets are sequences of pieces.  A number that does not
fit its field is cut to the field's low bytes, as the casts in the calls cut it, so
no piece asks anything of its argument.
-/

namespace IrC6

namespace Buffer

/-- A part of a format together with what is packed for it. -/
inductive Piece where
  /-- A literal character. -/
  | lit (b : UInt8) (h : b ≠ 0)
  /-- `%Z`. -/
  | nul
  /-- `%bu`, `%hu`, `%^hu`, `%u` or `%^u`. -/
  | num (n : Num) (v : Nat)
  /-- `%s`. -/
  | str (bs : List UInt8)
  /-- `%r`. -/
  | buf (data : List UInt8)

namespace Piece

def format : Piece → List Char
  | lit b h => (Value.lit b h).packFormat
  | nul => Value.nul.packFormat
  | num n _ => n.head ++ ['u']
  | str _ => ['%', 's']
  | buf _ => ['%', 'r']

def args : Piece → List PackArg
  | lit _ _ | nul => []
  | num _ v => [.int v]
  | str bs => [.str bs]
  | buf data => [.buf (some data)]

/-- The bytes of the piece. -/
def bytes (host : Endian) : Piece → List UInt8
  | lit b _ => [b]
  | nul => [0]
  | num n v => (n.order host).bytes n.width.size v
  | str bs => bs
  | buf data => data

/-- A number directive casts its argument to the width of the field. -/
theorem pack_cast (host : Endian) (n : Num) (v : Nat) (fmt : List Char)
    (queue : List (List UInt8)) (tot : Nat) (args : List PackArg) :
    packLoop host (n.head ++ 'u' :: fmt) (idle queue tot (.int v :: args)) =
      packLoop host fmt
        ((idle queue tot args).add ((n.order host).bytes n.width.size v) args) := by
  have hlt : v % 256 ^ n.width.size < 256 ^ n.width.size :=
    Nat.mod_lt _ (Nat.pow_pos (by decide))
  have hcast := Value.buildNum_order host n hlt
  rw [Endian.bytes_mod] at hcast
  rw [Value.pack_head]
  refine pack_directive (by decide) rfl ?_
  simp only [packDirective, n.width.numSize_given, if_pos n.width.size_cases, idle]
  rw [← hcast, buildNum, buildNum, Nat.mod_mod]
  rfl

theorem packLoop_piece (host : Endian) (p : Piece) (fmt : List Char) (queue : List (List UInt8))
    (tot : Nat) (args : List PackArg) :
    ∃ queue', packLoop host (p.format ++ fmt) (idle queue tot (p.args ++ args)) =
        packLoop host fmt (idle queue' (tot + (p.bytes host).length) args) ∧
      queue'.flatten = queue.flatten ++ p.bytes host := by
  cases p with
  | lit b h => exact (Value.lit b h).packLoop_value host fmt queue tot args
  | nul => exact Value.nul.packLoop_value host fmt queue tot args
  | num n v =>
      refine ⟨((idle queue tot args).add (bytes host (num n v)) args).queue, ?_,
        Value.flatten_add _ _ _⟩
      change packLoop host ((n.head ++ ['u']) ++ fmt) (idle queue tot (.int v :: args)) = _
      rw [List.append_assoc, List.singleton_append, pack_cast]
      rfl
  | str bs =>
      refine ⟨((idle queue tot args).add bs args).queue, ?_, Value.flatten_add _ _ _⟩
      change packLoop host ('%' :: 's' :: fmt) (idle queue tot (.str bs :: args)) = _
      rw [pack_percent rfl]
      refine pack_directive (by decide) rfl ?_
      simp [packDirective, idle, PackState.add, bytes]
  | buf data =>
      refine ⟨((idle queue tot args).add data args).queue, ?_, Value.flatten_add _ _ _⟩
      change packLoop host ('%' :: 'r' :: fmt) (idle queue tot (.buf (some data) :: args)) = _
      rw [pack_percent rfl]
      refine pack_directive (by decide) rfl ?_
      simp [packDirective, idle, PackState.add, bytes]

end Piece

/-! ## Layouts -/

def layoutFormat (ps : List Piece) : List Char := ps.flatMap Piece.format
def layoutArgs (ps : List Piece) : List PackArg := ps.flatMap Piece.args
def layoutBytes (host : Endian) (ps : List Piece) : List UInt8 := ps.flatMap (Piece.bytes host)

theorem packLoop_pieces (host : Endian) (ps : List Piece) (queue : List (List UInt8)) (tot : Nat) :
    ∃ queue', packLoop host (layoutFormat ps) (idle queue tot (layoutArgs ps)) =
        .ok (idle queue' (tot + (layoutBytes host ps).length) []) ∧
      queue'.flatten = queue.flatten ++ layoutBytes host ps := by
  induction ps generalizing queue tot with
  | nil =>
      exact ⟨queue, by simp [layoutFormat, layoutArgs, layoutBytes, packLoop],
        by simp [layoutBytes]⟩
  | cons p ps ih =>
      obtain ⟨queue₁, hp, hflat₁⟩ := p.packLoop_piece host (layoutFormat ps) queue tot
        (layoutArgs ps)
      obtain ⟨queue₂, hps, hflat₂⟩ := ih queue₁ (tot + (p.bytes host).length)
      refine ⟨queue₂, ?_, ?_⟩
      · have hstep := hp.trans hps
        rw [Nat.add_assoc, ← List.length_append] at hstep
        exact hstep
      · rw [hflat₂, hflat₁, List.append_assoc]
        rfl

theorem bufNewPack_pieces (host : Endian) (ps : List Piece) (h : 0 < (layoutBytes host ps).length) :
    bufNewPack host (layoutFormat ps) (layoutArgs ps) = .ok (some (layoutBytes host ps)) := by
  obtain ⟨queue, hpack, hflat⟩ := packLoop_pieces host ps [] 0
  rw [bufNewPack, hpack]
  simp only [idle, Nat.zero_add, if_pos h, hflat, List.flatten_nil, List.nil_append]

theorem bufAppendPack_pieces (host : Endian) (buf : List UInt8) (ps : List Piece) :
    bufAppendPack host buf (layoutFormat ps) (layoutArgs ps) =
      .ok (buf ++ layoutBytes host ps) := by
  obtain ⟨queue, hpack, hflat⟩ := packLoop_pieces host ps [] 0
  rw [bufAppendPack, hpack]
  simp only [idle, Nat.zero_add, hflat, List.flatten_nil, List.nil_append]
  by_cases h : 0 < (layoutBytes host ps).length
  · rw [if_pos h]
  · have hnil : layoutBytes host ps = [] := List.length_eq_zero_iff.mp (by omega)
    rw [if_neg h, hnil, List.append_nil]

end Buffer
end IrC6
