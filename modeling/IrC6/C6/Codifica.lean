import Mathlib.Data.List.Basic

/-!
# Packet coding

`XorCode` is its own inverse: the client codes what it sends with it, and the
server's TRANSPORT packets are decoded with it.  The key it uses is the server's,
put in another order.

The protocol document gives the two algorithms for the other side, with seven
ordered bytes where the client keeps eight and with the product of the index and
the unreduced step.
-/

namespace IrC6
namespace C6

/-- A server key, in the order received or reordered. -/
abbrev Key := Fin 8 → UInt8

/-- `XorCode`, which leaves the eighth byte of the key unused. -/
def xorCode (src : List UInt8) (key : Key) : List UInt8 :=
  src.mapIdx (fun i b => b ^^^ key ⟨i % 7, by omega⟩)

/-- `c6_packet_encode`. -/
def packetEncode (src : List UInt8) (reorderedKey : Key) : List UInt8 :=
  xorCode src reorderedKey

@[simp] theorem length_packetEncode (src : List UInt8) (key : Key) :
    (packetEncode src key).length = src.length := by
  simp [packetEncode, xorCode]

/-! ## The order of the key -/

/-- `OrderKey`, which fills all eight bytes of `dest`. -/
def orderKey (source : Key) : Key :=
  fun i => if i = 0 then source 0
    else source ⟨(i * ((source 5).toNat % 7)) % 7, by omega⟩

/-- `c6_reorder_key_server`. -/
def reorderKeyServer (unordered : Key) : Key := orderKey unordered

/-- `OrdinaKeyServer`, as the protocol document has it. -/
def ordinaKeyServer (unordered : Key) : Fin 7 → UInt8 :=
  fun i => unordered ⟨((unordered 5).toNat * i) % 7, by omega⟩

/-- `XorCode`, as the protocol document has it. -/
def docXorCode (key : Fin 7 → UInt8) (crypted : List UInt8) : List UInt8 :=
  crypted.mapIdx (fun a b => b ^^^ key ⟨a % 7, by omega⟩)

/-- The seven bytes that are used have the documented order. -/
theorem orderKey_eq_ordinaKeyServer (key : Key) (i : Fin 7) :
    orderKey key ⟨i, by omega⟩ = ordinaKeyServer key i := by
  by_cases hi : i = 0
  · subst hi
    rfl
  · have hne : (⟨i, by omega⟩ : Fin 8) ≠ 0 := fun h => hi (Fin.ext (Fin.mk.inj h))
    have hindex : (i.val * ((key 5).toNat % 7)) % 7 = ((key 5).toNat * i.val) % 7 := by
      rw [Nat.mul_comm (key 5).toNat, Nat.mul_mod, Nat.mod_mod, ← Nat.mul_mod]
    simp only [orderKey, if_neg hne, ordinaKeyServer, hindex]

/-- The document's receiver undoes what the client does. -/
theorem docXorCode_packetEncode (key : Key) (src : List UInt8) :
    docXorCode (ordinaKeyServer key) (packetEncode src (orderKey key)) = src := by
  refine List.ext_getElem (by simp [docXorCode]) (fun i _ _ => ?_)
  have hi : i % 7 < 7 := Nat.mod_lt _ (by decide)
  have hkey := orderKey_eq_ordinaKeyServer key ⟨i % 7, hi⟩
  simp only [docXorCode, packetEncode, xorCode, List.getElem_mapIdx]
  rw [hkey, UInt8.xor_assoc, UInt8.xor_self, UInt8.xor_zero]

end C6
end IrC6
