import Mathlib.Data.List.Basic
import Mathlib.Data.List.Nodup
import Mathlib.Data.List.Perm.Subperm

/-!
# Blocks of memory

Blocks of one size, listed in the order of their addresses.  Blocks that are apart
have no address in common, so an address finds at most one of them.  A block is cut
into slots of one width, and the slots that are taken are counted.
-/

namespace IrC6

variable {β : Type}

/-- Each block ends before the next ones begin. -/
def Apart (base : β → Nat) (size : Nat) (bs : List β) : Prop :=
  bs.Pairwise fun a b => base a + size ≤ base b

def Within (base : β → Nat) (size : Nat) (b : β) (p : Nat) : Prop :=
  base b ≤ p ∧ p < base b + size

instance (base : β → Nat) (size : Nat) (b : β) (p : Nat) : Decidable (Within base size b p) :=
  inferInstanceAs (Decidable (_ ∧ _))

variable {base : β → Nat} {size : Nat} {bs : List β}

theorem Apart.apart_or_eq (h : Apart base size bs) {a b : β} (ha : a ∈ bs) (hb : b ∈ bs) :
    a = b ∨ base a + size ≤ base b ∨ base b + size ≤ base a := by
  let R := fun x y => x = y ∨ base x + size ≤ base y ∨ base y + size ≤ base x
  have hor : bs.Pairwise R := h.imp (fun hxy => Or.inr (Or.inl hxy))
  have hflip : bs.Pairwise (flip R) := h.imp (fun hxy => Or.inr (Or.inr hxy))
  exact hor.forall_of_forall_of_flip (R := R) (fun _ _ => Or.inl rfl) hflip ha hb

theorem Apart.eq_of_within (h : Apart base size bs) {a b : β} (ha : a ∈ bs) (hb : b ∈ bs)
    {p : Nat} (hpa : Within base size a p) (hpb : Within base size b p) : a = b := by
  obtain ⟨hap, hpa⟩ := hpa
  obtain ⟨hbp, hpb⟩ := hpb
  rcases h.apart_or_eq ha hb with heq | hab | hba
  · exact heq
  · omega
  · omega

theorem Apart.eq_of_base (h : Apart base size bs) (hsize : 0 < size) {a b : β} (ha : a ∈ bs)
    (hb : b ∈ bs) (hab : base a = base b) : a = b := by
  refine h.eq_of_within ha hb (p := base a) ⟨Nat.le_refl _, by omega⟩ ⟨by omega, by omega⟩

/-- The only element with a property is the one that is found. -/
theorem find?_eq_some_of_unique {p : β → Bool} {b : β} (hb : b ∈ bs) (hp : p b = true)
    (honly : ∀ x ∈ bs, p x = true → x = b) : bs.find? p = some b := by
  cases hfind : bs.find? p with
  | none => exact absurd hp (by simpa using List.find?_eq_none.mp hfind b hb)
  | some x => rw [honly x (List.mem_of_find?_eq_some hfind) (List.find?_some hfind)]

/-- Where the addresses are different, an address finds its cell. -/
theorem find?_of_nodup {γ : Type} [DecidableEq γ] (f : β → γ) (h : (bs.map f).Nodup) {b : β}
    (hb : b ∈ bs) : bs.find? (f · = f b) = some b :=
  find?_eq_some_of_unique hb (by simp) fun _ hx hf =>
    List.inj_on_of_nodup_map h hx hb (by simpa using hf)

/-! ## Slots -/

/-- Different slots of a block have no byte in common. -/
theorem slots_disjoint {i j : Nat} (hij : i ≠ j) (start width : Nat) :
    start + i * width + width ≤ start + j * width ∨
      start + j * width + width ≤ start + i * width := by
  rcases Nat.lt_or_gt_of_ne hij with hlt | hgt
  · have hle := Nat.mul_le_mul_right width hlt
    rw [Nat.succ_mul] at hle
    exact Or.inl (by omega)
  · have hle := Nat.mul_le_mul_right width hgt
    rw [Nat.succ_mul] at hle
    exact Or.inr (by omega)

theorem slots_subperm {width start k : Nat} {taken : List Nat} (hnodup : taken.Nodup)
    (hslot : ∀ p ∈ taken, ∃ i < k, p = start + i * width) :
    taken.Subperm ((List.range k).map fun i => start + i * width) := by
  refine List.subperm_of_subset hnodup (fun p hp => ?_)
  obtain ⟨i, hi, rfl⟩ := hslot p hp
  exact List.mem_map_of_mem (List.mem_range.mpr hi)

theorem length_le_of_slots {width start k : Nat} {taken : List Nat} (hnodup : taken.Nodup)
    (hslot : ∀ p ∈ taken, ∃ i < k, p = start + i * width) : taken.length ≤ k := by
  simpa using (slots_subperm hnodup hslot).length_le

/-- When as many different slots are taken as there are, every slot is. -/
theorem mem_of_slots_taken {width start k : Nat} {taken : List Nat} (hnodup : taken.Nodup)
    (hslot : ∀ p ∈ taken, ∃ i < k, p = start + i * width) (hfull : k ≤ taken.length) {i : Nat}
    (hi : i < k) : start + i * width ∈ taken := by
  have hperm := (slots_subperm hnodup hslot).perm_of_length_le (by simpa using hfull)
  exact hperm.mem_iff.mpr (List.mem_map_of_mem (List.mem_range.mpr hi))

end IrC6
