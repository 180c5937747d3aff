import IrC6.Base.Text
import IrC6.Buffer.Field

/-!
# Strings with their length in front

A record is a sequence of strings with a one-byte length, numbers and bytes that
nothing looks at.  Unpacking gives it back, and uses no more than its bytes, exactly
when none of its strings is empty.

One direction is the round trip.  The other is a count: a string that comes back
right has used at least the bytes of its encoding wherever the unpacker stood, and
an empty one has used more, because `%s` with a size of zero reads up to a NUL and
steps over it.
-/

namespace IrC6
namespace Buffer

/-- A string that fits a one-byte length and has no NUL inside. -/
structure Text where
  bytes : List UInt8
  short : bytes.length ≤ 255
  noNul : 0 ∉ bytes

/-- A string with a one-byte length in front. -/
def shortStr : Field := .str ⟨.byte, false⟩

/-- One part of a record. -/
inductive Item where
  | text (s : Text)
  | num (n : Num) (v : Nat) (h : v < 256 ^ n.width.size)
  | skip (bs : List UInt8)

namespace Item

def field : Item → Field
  | text _ => shortStr
  | num n _ _ => .num n
  | skip bs => .skip bs.length

def encode (host : Endian) : Item → List UInt8
  | text s => UInt8.ofNat s.bytes.length :: s.bytes
  | num n v _ => (n.order host).bytes n.width.size v
  | skip bs => bs

def outs : Item → List Out
  | text s => [.str s.bytes]
  | num n v _ => [.num n.width.size v]
  | skip _ => []

/-- The part is not an empty string. -/
def NonEmpty : Item → Prop
  | text s => s.bytes ≠ []
  | _ => True

end Item

/-- A string as its users see it: it ends at the first NUL. -/
def Out.seen : Out → Out
  | .str bs => .str (bs.takeWhile (· ≠ 0))
  | .buf bs => .buf bs
  | .ptr bs => .ptr bs
  | .num size v => .num size v

theorem length_takeWhile_le (xs : List UInt8) : (xs.takeWhile (· ≠ 0)).length ≤ xs.length :=
  (List.takeWhile_prefix _).length_le

theorem read_length (host : Endian) (b : UInt8) (rest : List UInt8) :
    Num.read host ⟨.byte, false⟩ (b :: rest) = .ok b.toNat := by
  have h : ¬ (b :: rest).length < Width.byte.size := by simp [Width.size, sizeChar]
  have htake : (b :: rest).take Width.byte.size = [b] := by simp [Width.size, sizeChar]
  rw [Num.read, if_neg h, htake, Endian.value_singleton]

theorem read_text (host : Endian) (s : Text) (hs : s.bytes ≠ []) (tail : List UInt8) :
    shortStr.read host ((Item.text s).encode host ++ tail) =
      .ok (((Item.text s).encode host).length, [.str s.bytes]) := by
  have hlen : (UInt8.ofNat s.bytes.length).toNat = s.bytes.length := by
    rw [UInt8.toNat_ofNat']
    have := s.short
    omega
  have hne : s.bytes.length ≠ 0 := fun h => hs (List.length_eq_zero_iff.mp h)
  rw [Item.encode, List.cons_append, shortStr, Field.read, read_length, hlen]
  simp [bind, Except.bind, hne, Width.size, sizeChar, Nat.add_comm]

theorem Item.read_encode (host : Endian) {i : Item} (hi : i.NonEmpty) (tail : List UInt8) :
    i.field.read host (i.encode host ++ tail) = .ok ((i.encode host).length, i.outs) := by
  cases i with
  | text s => exact read_text host s hi tail
  | num n v h =>
      rw [field, Field.read, encode, n.read_bytes host h, Endian.length_bytes]
      rfl
  | skip bs => simp [field, encode, outs, Field.read]

/-- A part that comes back right has used at least its encoding, wherever the
unpacker stood, and more if it is an empty string. -/
theorem Item.length_le_used {host : Endian} {i : Item} {rest : List UInt8} {n : Nat}
    {vs : List Out} (h : i.field.read host rest = .ok (n, vs))
    (hvs : vs.map Out.seen = i.outs) :
    (i.encode host).length ≤ n ∧ (¬ i.NonEmpty → (i.encode host).length < n) := by
  cases i with
  | num k v hv =>
      obtain ⟨w, -, hr⟩ := Field.read_num_inv h
      cases hr
      simp [encode, NonEmpty]
  | skip bs =>
      simp only [field, Field.read] at h
      split at h
      · cases h
      · cases h
        simp [encode, NonEmpty]
  | text s =>
      obtain ⟨len, bs, used, -, hr, hcases⟩ := Field.read_str_inv h
      cases hr
      have hseen : bs.takeWhile (· ≠ 0) = s.bytes := by simpa [Out.seen, outs] using hvs
      have hsize : Width.byte.size = 1 := rfl
      simp only [encode, List.length_cons, NonEmpty, hsize]
      rcases hcases with ⟨-, -, rfl, hbs⟩ | ⟨hne, -, rfl, hbs⟩
      · -- The string runs up to a NUL that is stepped over.
        have hidem : bs.takeWhile (· ≠ 0) = bs := by rw [hbs, List.takeWhile_idem]
        rw [← hseen, hidem]
        omega
      · -- The length that was read is at least the string that came back.
        have hle : s.bytes.length ≤ used := by
          rw [← hseen, hbs]
          exact (length_takeWhile_le _).trans (List.length_take_le _ _)
        refine ⟨by omega, fun hempty => ?_⟩
        rw [not_not.mp hempty, List.length_nil]
        omega

theorem Item.length_outs {host : Endian} {i : Item} {rest : List UInt8} {n : Nat}
    {vs : List Out} (h : i.field.read host rest = .ok (n, vs)) : vs.length = i.outs.length := by
  cases i with
  | num k v hv =>
      obtain ⟨w, -, hr⟩ := Field.read_num_inv h
      cases hr
      rfl
  | skip bs =>
      simp only [field, Field.read] at h
      split at h
      · cases h
      · cases h
        rfl
  | text s =>
      obtain ⟨len, bs, used, -, hr, -⟩ := Field.read_str_inv h
      cases hr
      rfl

/-! ## Records -/

abbrev Record := List Item

namespace Record

def fields (r : Record) : List Field := r.map Item.field
def encode (host : Endian) (r : Record) : List UInt8 := r.flatMap (Item.encode host)
def outs (r : Record) : List Out := r.flatMap Item.outs

def NonEmpty (r : Record) : Prop := ∀ i ∈ r, i.NonEmpty

theorem outs_seen (r : Record) : r.outs.map Out.seen = r.outs := by
  induction r with
  | nil => rfl
  | cons i r ih =>
      have hi : i.outs.map Out.seen = i.outs := by
        cases i with
        | text s => rw [Item.outs, List.map_singleton, Out.seen, takeWhile_noNul s.noNul]
        | num n v h => rfl
        | skip bs => rfl
      rw [outs, List.flatMap_cons, List.map_append, hi]
      exact congrArg (i.outs ++ ·) ih

/-- A record without empty strings is read back. -/
theorem read_encode (host : Endian) {r : Record} (hr : r.NonEmpty) (tail : List UInt8) :
    readFields host r.fields (r.encode host ++ tail) = .ok ((r.encode host).length, r.outs) := by
  induction r with
  | nil => rfl
  | cons i r ih =>
      have hi := hr i List.mem_cons_self
      have hrest := ih (fun j hj => hr j (List.mem_cons_of_mem i hj))
      have hassoc : encode host (i :: r) ++ tail = i.encode host ++ (encode host r ++ tail) := by
        simp [encode]
      rw [hassoc, fields, List.map_cons, readFields, Item.read_encode host hi]
      rw [fields] at hrest
      simp only [bind, Except.bind, List.drop_left, hrest]
      simp [encode, outs]

/-- A record that comes back right has used at least its encoding, and more if one of
its strings is empty. -/
theorem length_le_used {host : Endian} {r : Record} {rest : List UInt8} {n : Nat}
    {vs : List Out} (h : readFields host r.fields rest = .ok (n, vs))
    (hvs : vs.map Out.seen = r.outs) :
    (r.encode host).length ≤ n ∧ (¬ r.NonEmpty → (r.encode host).length < n) := by
  induction r generalizing rest n vs with
  | nil =>
      refine ⟨Nat.zero_le _, fun hempty => absurd ?_ hempty⟩
      intro i hi
      cases hi
  | cons i r ih =>
      rw [fields, List.map_cons, readFields] at h
      obtain ⟨p, hi, h⟩ := exists_of_bind_eq_ok h
      obtain ⟨q, hr, h⟩ := exists_of_bind_eq_ok h
      cases h
      have hlen : (p.2.map Out.seen).length = i.outs.length := by
        rw [List.length_map]
        exact Item.length_outs hi
      rw [List.map_append, outs, List.flatMap_cons] at hvs
      obtain ⟨hp, hq⟩ := List.append_inj hvs hlen
      obtain ⟨hile, hilt⟩ := Item.length_le_used hi hp
      obtain ⟨hrle, hrlt⟩ := ih hr hq
      have hsum : (encode host (i :: r)).length =
          (i.encode host).length + (encode host r).length := by simp [encode]
      refine ⟨by omega, fun hempty => ?_⟩
      by_cases hin : i.NonEmpty
      · have hrn : ¬ NonEmpty r := fun hr' => hempty (List.forall_mem_cons.mpr ⟨hin, hr'⟩)
        have hlt := hrlt hrn
        omega
      · have hlt := hilt hin
        omega

end Record

end Buffer
end IrC6
