import IrC6.Buffer.Layout

/-!
# Parts of a format

A segment of a format carries what the packer makes of it, so that segments of any kind can
be put end to end.
-/

namespace IrC6
namespace Buffer

/-- A part of a format with its arguments, and the bytes that the packer queues for it. -/
structure Segment (host : Endian) where
  format : List Char
  args : List PackArg
  bytes : List UInt8
  packs : ∀ (fmt : List Char) (queue : List (List UInt8)) (tot : Nat) (more : List PackArg),
    ∃ queue', packLoop host (format ++ fmt) (idle queue tot (args ++ more)) =
        packLoop host fmt (idle queue' (tot + bytes.length) more) ∧
      queue'.flatten = queue.flatten ++ bytes

namespace Segment

variable {host : Endian}

def ofValue (v : Value) : Segment host where
  format := v.packFormat
  args := v.args
  bytes := v.encode host
  packs := fun fmt queue tot more => v.packLoop_value host fmt queue tot more

def ofPiece (p : Piece) : Segment host where
  format := p.format
  args := p.args
  bytes := p.bytes host
  packs := fun fmt queue tot more => p.packLoop_piece host fmt queue tot more

/-- Segments end to end. -/
def join : List (Segment host) → Segment host
  | [] =>
      { format := []
        args := []
        bytes := []
        packs := fun _ queue _ _ => ⟨queue, rfl, (List.append_nil _).symm⟩ }
  | s :: ss =>
      { format := s.format ++ (join ss).format
        args := s.args ++ (join ss).args
        bytes := s.bytes ++ (join ss).bytes
        packs := fun fmt queue tot more => by
          obtain ⟨queue₁, h₁, hflat₁⟩ :=
            s.packs ((join ss).format ++ fmt) queue tot ((join ss).args ++ more)
          obtain ⟨queue₂, h₂, hflat₂⟩ := (join ss).packs fmt queue₁ (tot + s.bytes.length) more
          refine ⟨queue₂, ?_, ?_⟩
          · rw [List.append_assoc, List.append_assoc, h₁, h₂, List.length_append, Nat.add_assoc]
          · rw [hflat₂, hflat₁, List.append_assoc] }

theorem bufNewPack_eq (s : Segment host) (h : 0 < s.bytes.length) :
    bufNewPack host s.format s.args = .ok (some s.bytes) := by
  obtain ⟨queue, hpack, hflat⟩ := s.packs [] [] 0 []
  rw [List.append_nil, List.append_nil, Nat.zero_add] at hpack
  rw [List.flatten_nil, List.nil_append] at hflat
  rw [bufNewPack, hpack, packLoop]
  simp only [idle, if_pos h, hflat]

end Segment
end Buffer
end IrC6
