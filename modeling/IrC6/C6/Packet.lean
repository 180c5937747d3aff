import Mathlib.Data.List.Basic
import Mathlib.Data.List.Infix
import IrC6.Base.Framing
import IrC6.Connection

/-!
# Server packets

`struct c6_pkt_head` is packed: a type byte, a command byte, a 16-bit counter and
a 16-bit payload length, both big-endian.  A packet is the header followed by
exactly the payload the length announces.
-/

namespace IrC6
namespace C6

/-- `ntohs` of the two bytes of a network-order field. -/
def ntohs (hi lo : UInt8) : Nat := hi.toNat * 256 + lo.toNat

/-- `sizeof(struct c6_pkt_head)`. -/
def headSize : Nat := 6

/-- The first byte of everything the server sends. -/
def serverType : UInt8 := 0x20

theorem ntohs_lt (hi lo : UInt8) : ntohs hi lo < 65536 := by
  have h₁ := hi.toNat_lt
  have h₂ := lo.toNat_lt
  unfold ntohs
  omega

/-- The length field of a header, read from a block of bytes. -/
def lenField (bytes : List UInt8) : Nat :=
  ntohs (bytes.getD 4 0) (bytes.getD 5 0)

/-- A well-formed server packet. -/
structure Packet where
  bytes : List UInt8
  head : headSize ≤ bytes.length
  type : bytes[0]? = some serverType
  len : lenField bytes + headSize = bytes.length
  fits : bytes.length ≤ bufSize

theorem lenField_append {xs : List UInt8} (h : headSize ≤ xs.length) (ys : List UInt8) :
    lenField (xs ++ ys) = lenField xs := by
  have h4 : 4 < xs.length := Nat.lt_of_lt_of_le (by decide) h
  have h5 : 5 < xs.length := Nat.lt_of_lt_of_le (by decide) h
  simp [lenField, List.getD_eq_getElem?_getD, List.getElem?_append_left h4,
    List.getElem?_append_left h5]

/-! ## Framing

The stream as the server means it: a packet is complete once its header and the
announced payload have arrived. -/

def takePacket (xs : List UInt8) : Option (List UInt8 × List UInt8) :=
  if xs[0]? = some serverType ∧ headSize ≤ xs.length ∧ lenField xs + headSize ≤ xs.length then
    some (xs.take (lenField xs + headSize), xs.drop (lenField xs + headSize))
  else none

theorem takePacket_eq_some {xs f rest : List UInt8} (h : takePacket xs = some (f, rest)) :
    xs[0]? = some serverType ∧ headSize ≤ xs.length ∧ lenField xs + headSize ≤ xs.length ∧
      f = xs.take (lenField xs + headSize) ∧ rest = xs.drop (lenField xs + headSize) := by
  unfold takePacket at h
  split at h
  · rename_i hc
    simp only [Option.some.injEq, Prod.mk.injEq] at h
    exact ⟨hc.1, hc.2.1, hc.2.2, h.1.symm, h.2.symm⟩
  · cases h

def packets : Framing UInt8 (List UInt8) where
  take := takePacket
  shorter := by
    intro xs f rest h
    obtain ⟨-, -, hlen, -, rfl⟩ := takePacket_eq_some h
    have hpos : 0 < headSize := by decide
    rw [List.length_drop]
    omega
  stable := by
    intro xs f rest ys h
    obtain ⟨htype, hhead, hlen, rfl, rfl⟩ := takePacket_eq_some h
    have htype' : (xs ++ ys)[0]? = some serverType := by
      have h0 : 0 < xs.length := by unfold headSize at hhead; omega
      rw [List.getElem?_append_left h0, htype]
    have hcond : (xs ++ ys)[0]? = some serverType ∧ headSize ≤ (xs ++ ys).length ∧
        lenField (xs ++ ys) + headSize ≤ (xs ++ ys).length := by
      rw [lenField_append hhead, List.length_append]
      exact ⟨htype', by omega, by omega⟩
    rw [takePacket, if_pos hcond, lenField_append hhead, List.take_append_of_le_length hlen,
      List.drop_append_of_le_length hlen]

theorem packets_take (xs : List UInt8) : packets.take xs = takePacket xs := rfl

theorem takePacket_packet (p : Packet) (ys : List UInt8) :
    takePacket (p.bytes ++ ys) = some (p.bytes, ys) := by
  have h := p.head
  have hself : takePacket p.bytes = some (p.bytes, []) := by
    rw [takePacket, if_pos ⟨p.type, h, Nat.le_of_eq p.len⟩, p.len, List.take_length,
      List.drop_length]
  have hstable := packets.stable ys hself
  simpa [packets_take] using hstable

theorem takePacket_part {p : Packet} {tail : List UInt8} (hpre : tail <+: p.bytes)
    (hlt : tail.length < p.bytes.length) : takePacket tail = none := by
  unfold takePacket
  refine if_neg (fun h => ?_)
  obtain ⟨-, hhead, hlen⟩ := h
  obtain ⟨more, hmore⟩ := hpre
  have hfield : lenField p.bytes = lenField tail := by
    rw [← hmore, lenField_append hhead]
  have hp := p.len
  omega

theorem head_of_part {p : Packet} {tail : List UInt8} (hpre : tail <+: p.bytes)
    (hne : tail ≠ []) : tail[0]? = some serverType := by
  obtain ⟨more, hmore⟩ := hpre
  have h0 : 0 < tail.length := List.length_pos_of_ne_nil hne
  have htype := p.type
  rw [← hmore, List.getElem?_append_left h0] at htype
  exact htype

end C6
end IrC6
