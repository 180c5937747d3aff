import IrC6.Base.Faults
import IrC6.Irc.Room

/-!
# The buffer of a decoded room

`irc_room_decode` allocates `strlen(room)` bytes, and has to put a NUL behind what it has
decoded.  There is room for it when the name began with `#`, or when two bytes were saved by
an escape.  It looks two bytes ahead, and the second only if the first is a digit.
-/

namespace IrC6
namespace Irc

/-- A read behind the NUL of a string, and a loop that has not come to its end. -/
inductive Stray where
  | overread
  | depth
deriving DecidableEq, Repr

/-- A byte of a string, counted from a pointer into it. -/
def byteAt : List UInt8 → Nat → Except Stray UInt8
  | [], 0 => .ok 0
  | [], _ + 1 => .error .overread
  | b :: _, 0 => .ok b
  | _ :: bs, k + 1 => byteAt bs k

/-- `IS_HEX`. -/
def isHex (b : UInt8) : Bool := (hexCode b).2

/-- `IS_HEX(*(p + 1)) && IS_HEX(*(p + 2))` for the string at `p`. -/
def escapeAt (p : List UInt8) : Except Stray Bool := do
  let a ← byteAt p 1
  if isHex a then
    let b ← byteAt p 2
    .ok (isHex b)
  else .ok false

/-- The loop of `irc_room_decode` for the string at `p`: the bytes that it writes. -/
def roomDecodeLoop : Nat → List UInt8 → Except Stray (List UInt8)
  | 0, _ => .error .depth
  | fuel + 1, p => do
      let c ← byteAt p 0
      if c = 0 then .ok [0]
      else if c = 37 then
        if ← escapeAt p then
          let a ← byteAt p 1
          let b ← byteAt p 2
          let out ← roomDecodeLoop fuel (p.drop 3)
          .ok (((hexCode a).1 <<< 4 ||| (hexCode b).1) :: out)
        else
          let out ← roomDecodeLoop fuel (p.drop 1)
          .ok (c :: out)
      else
        let out ← roomDecodeLoop fuel (p.drop 1)
        .ok (c :: out)

/-- `irc_room_decode`: all that it writes. -/
def roomDecodeBytes (room : List UInt8) : Except Stray (List UInt8) := do
  let c ← byteAt room 0
  roomDecodeLoop (room.length + 1) (if c = 35 then room.drop 1 else room)

/-- What is written fits the `strlen(room)` bytes, and nothing is read behind the NUL. -/
def DecodeFits (room : List UInt8) : Prop :=
  ∃ out, roomDecodeBytes room = .ok out ∧ out.length ≤ room.length

/-- The string has a `%` with two digits behind it. -/
def HasEscape (s : List UInt8) : Prop :=
  ∃ pre a b post, s = pre ++ 37 :: a :: b :: post ∧ isHex a = true ∧ isHex b = true

/-! ## What is read and written -/

theorem escapeAt_eq (c : UInt8) (rest : List UInt8) :
    escapeAt (c :: rest) = .ok (match rest with
      | a :: b :: _ => isHex a && isHex b
      | _ => false) := by
  have hnul : isHex 0 = false := by decide
  rcases rest with _ | ⟨a, _ | ⟨b, rest⟩⟩
  · simp [escapeAt, byteAt, hnul, bind, Except.bind]
  · cases ha : isHex a <;> simp [escapeAt, byteAt, hnul, ha, bind, Except.bind]
  · cases ha : isHex a <;> simp [escapeAt, byteAt, ha, bind, Except.bind]

/-- An escape is one turn of the loop. -/
theorem roomDecodeLoop_escape {a b : UInt8} (ha : isHex a = true) (hb : isHex b = true)
    (rest : List UInt8) (fuel : Nat) :
    roomDecodeLoop (fuel + 1) (37 :: a :: b :: rest) =
      (roomDecodeLoop fuel rest).map (((hexCode a).1 <<< 4 ||| (hexCode b).1) :: ·) := by
  have hne : (37 : UInt8) ≠ 0 := by decide
  simp only [roomDecodeLoop, byteAt, escapeAt_eq, ha, hb, if_neg hne, if_true, Bool.and_self,
    List.drop_succ_cons, List.drop_zero, bind, Except.bind]
  cases roomDecodeLoop fuel rest <;> rfl

/-- So is any other byte. -/
theorem roomDecodeLoop_byte {c : UInt8} (hc : c ≠ 0) {rest : List UInt8}
    (hplain : c = 37 → escapeAt (c :: rest) = .ok false) (fuel : Nat) :
    roomDecodeLoop (fuel + 1) (c :: rest) = (roomDecodeLoop fuel rest).map (c :: ·) := by
  by_cases h37 : c = 37
  · simp only [roomDecodeLoop, byteAt, hplain h37, if_neg hc, if_pos h37, Bool.false_eq_true,
      if_false, List.drop_succ_cons, List.drop_zero, bind, Except.bind]
    cases roomDecodeLoop fuel rest <;> rfl
  · simp only [roomDecodeLoop, byteAt, if_neg hc, if_neg h37, List.drop_succ_cons,
      List.drop_zero, bind, Except.bind]
    cases roomDecodeLoop fuel rest <;> rfl

theorem roomDecodeLoop_eq {s : List UInt8} (h : 0 ∉ s) {fuel : Nat} (hfuel : s.length < fuel) :
    roomDecodeLoop fuel s = .ok (decodeEscapes s ++ [0]) := by
  obtain ⟨fuel, rfl⟩ : ∃ n, fuel = n + 1 := ⟨fuel - 1, by omega⟩
  induction s using decodeEscapes.induct generalizing fuel with
  | case1 a b rest hhex ih =>
      simp only [List.length_cons] at hfuel
      obtain ⟨fuel, rfl⟩ : ∃ n, fuel = n + 1 := ⟨fuel - 1, by omega⟩
      have hrest : 0 ∉ rest := fun hr => h (by simp [hr])
      rcases Bool.and_eq_true_iff.mp hhex with ⟨ha, hb⟩
      rw [roomDecodeLoop_escape ha hb, ih hrest fuel (by omega), decodeEscapes, if_pos hhex]
      rfl
  | case2 a b rest hhex ih =>
      simp only [List.length_cons] at hfuel
      obtain ⟨fuel, rfl⟩ : ∃ n, fuel = n + 1 := ⟨fuel - 1, by omega⟩
      have hrest : 0 ∉ a :: b :: rest := fun hr => h (List.mem_cons_of_mem _ hr)
      have hplain : escapeAt (37 :: a :: b :: rest) = .ok false := by
        rw [escapeAt_eq]
        exact congrArg Except.ok (Bool.eq_false_iff.mpr hhex)
      rw [roomDecodeLoop_byte (by decide) fun _ => hplain,
        ih hrest fuel (by simp only [List.length_cons]; omega), decodeEscapes, if_neg hhex]
      rfl
  | case3 c rest hshort ih =>
      rw [List.length_cons] at hfuel
      obtain ⟨fuel, rfl⟩ : ∃ n, fuel = n + 1 := ⟨fuel - 1, by omega⟩
      have hc : c ≠ 0 := fun hc => h (hc ▸ List.mem_cons_self)
      have hrest : 0 ∉ rest := fun hr => h (List.mem_cons_of_mem _ hr)
      have hplain : c = 37 → escapeAt (c :: rest) = .ok false := by
        intro h37
        rw [escapeAt_eq]
        rcases rest with _ | ⟨a, _ | ⟨b, rest⟩⟩
        · rfl
        · rfl
        · exact (hshort a b rest h37 rfl).elim
      rw [roomDecodeLoop_byte hc hplain, ih hrest fuel (by omega), decodeEscapes]
      · rfl
      · exact hshort
  | case4 => rfl

/-! ## How much is written -/

/-- A complete escape is at the front of a string, or behind it. -/
theorem hasEscape_cons {c : UInt8} {rest : List UInt8} : HasEscape (c :: rest) ↔
    (c = 37 ∧ ∃ a b post, rest = a :: b :: post ∧ isHex a = true ∧ isHex b = true) ∨
      HasEscape rest := by
  constructor
  · rintro ⟨pre, a, b, post, h, ha, hb⟩
    cases pre with
    | nil =>
        injection h with hc hrest
        exact Or.inl ⟨hc, a, b, post, hrest, ha, hb⟩
    | cons x pre =>
        injection h with hc hrest
        exact Or.inr ⟨pre, a, b, post, hrest, ha, hb⟩
  · rintro (⟨rfl, a, b, post, rfl, ha, hb⟩ | ⟨pre, a, b, post, rfl, ha, hb⟩)
    · exact ⟨[], a, b, post, rfl, ha, hb⟩
    · exact ⟨c :: pre, a, b, post, rfl, ha, hb⟩

/-- Decoding shortens a string exactly when it has a complete escape. -/
theorem length_decodeEscapes (s : List UInt8) : (decodeEscapes s).length ≤ s.length ∧
    ((decodeEscapes s).length < s.length ↔ HasEscape s) := by
  induction s using decodeEscapes.induct with
  | case1 a b rest hhex ih =>
      rcases Bool.and_eq_true_iff.mp hhex with ⟨ha, hb⟩
      have hlt : (decodeEscapes (37 :: a :: b :: rest)).length < rest.length + 3 := by
        rw [decodeEscapes, if_pos hhex, List.length_cons]
        have hle := ih.1
        omega
      exact ⟨Nat.le_of_lt hlt, iff_of_true hlt ⟨[], a, b, rest, rfl, ha, hb⟩⟩
  | case2 a b rest hhex ih =>
      have hskip : HasEscape (37 :: a :: b :: rest) ↔ HasEscape (a :: b :: rest) := by
        rw [hasEscape_cons, or_iff_right]
        rintro ⟨-, a', b', post, h, ha, hb⟩
        injection h with h1 h2
        injection h2 with h2 _
        exact hhex (Bool.and_eq_true_iff.mpr ⟨h1 ▸ ha, h2 ▸ hb⟩)
      rw [decodeEscapes, if_neg hhex, List.length_cons, hskip, ← ih.2]
      rw [List.length_cons (a := 37)]
      have hle := ih.1
      omega
  | case3 c rest hshort ih =>
      have hskip : HasEscape (c :: rest) ↔ HasEscape rest := by
        rw [hasEscape_cons, or_iff_right]
        rintro ⟨h37, a, b, post, h, -, -⟩
        exact hshort a b post h37 h
      rw [decodeEscapes, List.length_cons, List.length_cons, hskip, ← ih.2]
      · have hle := ih.1
        omega
      · exact hshort
  | case4 =>
      refine ⟨Nat.le_refl 0, iff_of_false (Nat.lt_irrefl 0) ?_⟩
      rintro ⟨pre, a, b, post, h, -, -⟩
      cases pre <;> cases h

/-- All that is written is what the string decodes to, and a NUL. -/
theorem roomDecodeBytes_eq {room : List UInt8} (h : 0 ∉ room) :
    roomDecodeBytes room = .ok (roomBytes room ++ [0]) := by
  cases room with
  | nil => rfl
  | cons c rest =>
      have hrest : 0 ∉ rest := fun hr => h (List.mem_cons_of_mem _ hr)
      show roomDecodeLoop ((c :: rest).length + 1) (if c = 35 then rest else c :: rest) = _
      by_cases hc : c = 35
      · subst hc
        rw [if_pos rfl, roomDecodeLoop_eq hrest (by rw [List.length_cons]; omega)]
        rfl
      · have hhead : ¬(c :: rest).head? = some 35 := fun heq => hc (Option.some.inj heq)
        rw [if_neg hc, roomDecodeLoop_eq h (Nat.lt_succ_self _), roomBytes, if_neg hhead]

/-- The decoded name fits exactly when the name began with `#`, or had a complete escape. -/
theorem decodeFits_iff {room : List UInt8} (h : 0 ∉ room) :
    DecodeFits room ↔ room.head? = some 35 ∨ HasEscape room := by
  have hfits : DecodeFits room ↔ (roomBytes room).length < room.length := by
    rw [DecodeFits, roomDecodeBytes_eq h]
    constructor
    · rintro ⟨out, hout, hle⟩
      cases hout
      rw [List.length_append, List.length_singleton] at hle
      exact hle
    · intro hlt
      refine ⟨_, rfl, ?_⟩
      rw [List.length_append, List.length_singleton]
      exact hlt
  rw [hfits, roomBytes]
  by_cases hhead : room.head? = some 35
  · obtain ⟨rest, rfl⟩ := List.head?_eq_some_iff.mp hhead
    rw [if_pos hhead]
    refine iff_of_true ?_ (Or.inl hhead)
    rw [List.tail_cons, List.length_cons]
    have hle := (length_decodeEscapes rest).1
    omega
  · rw [if_neg hhead, (length_decodeEscapes room).2, or_iff_right hhead]

/-- `#a%20` fits. -/
theorem decodeFits_iff_escape : DecodeFits [35, 97, 37, 50, 48] ↔
    [35, 97, 37, 50, 48].head? = some (35 : UInt8) ∨ HasEscape [35, 97, 37, 50, 48] :=
  decodeFits_iff (by decide)

/-- `a` does not: it needs two bytes. -/
theorem decodeFits_fails : ¬ ∀ room : List UInt8, 0 ∉ room → DecodeFits room := by
  intro h
  rcases h [97] (by decide) with ⟨out, hout, hle⟩
  have htwo : roomDecodeBytes [97] = .ok [97, 0] := rfl
  rw [htwo] at hout
  cases hout
  exact absurd hle (by decide)

end Irc
end IrC6
