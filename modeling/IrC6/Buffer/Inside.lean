import IrC6.Buffer.Field

/-!
# Reading only the block

When a format of fields is unpacked without reading behind its block.  Three kinds
of field read bytes that the bound check at the top of the loop has not seen: a
literal or `%Z`, a number of default size, and a string whose length turns out to
be zero, which is then searched for a NUL.
-/

namespace IrC6
namespace Buffer

/-- `_unpack_data` reads no byte behind the block, and what it returns is at most the
length of the block. -/
structure UnpackInside (host : Endian) (fmt : List Char) (data : List UInt8) : Prop where
  reads : unpackData host fmt data ≠ .error .outside
  returns : ∀ n out, unpackData host fmt data = .ok (n, out) → n ≤ data.length

namespace Num

/-- The bytes of the number are there, or the check will find them missing. -/
def Covered (n : Num) (rest : List UInt8) : Prop :=
  n.width = .int → sizeInt ≤ rest.length

/-- The number that stands at the front of the remaining bytes. -/
def value (host : Endian) (n : Num) (rest : List UInt8) : Nat :=
  (n.order host).value (rest.take n.width.size)

end Num

namespace Field

/-- What the remaining bytes need so that a field is read inside them. -/
def Covered (host : Endian) (rest : List UInt8) : Field → Prop
  | lit _ | nul => rest ≠ []
  | num n | blob n => n.Covered rest
  | raw _ | skip _ => True
  | str n => n.Covered rest ∧
      (n.width.size ≤ rest.length → n.value host rest = 0 → 0 ∈ rest.drop n.width.size)

/-- How many of the remaining bytes belong to a field, if one stands there. -/
def span (host : Endian) (rest : List UInt8) : Field → Option Nat
  | lit b => if rest.head? = some b then some 1 else none
  | nul => if rest.head? = some 0 then some 1 else none
  | num n => if n.width.size ≤ rest.length then some n.width.size else none
  | raw n | skip n => if n ≤ rest.length then some n else none
  | blob n =>
      let size := n.width.size + n.value host rest
      if size ≤ rest.length then some size else none
  | str n =>
      let text := (rest.drop n.width.size).takeWhile (· ≠ 0)
      let size := n.width.size +
        (if n.value host rest = 0 then text.length + 1 else n.value host rest)
      if size ≤ rest.length then some size else none

end Field

/-- What a block needs so that a format is unpacked inside it: every field that is
reached is covered. -/
def Covered (host : Endian) : List Field → List UInt8 → Prop
  | [], _ => True
  | f :: fs, rest =>
      f.Covered host rest ∧ ∀ n, f.span host rest = some n → Covered host fs (rest.drop n)

variable {host : Endian} {rest : List UInt8}

/-- How the end of a read fits the description of the field. -/
def Field.Agrees (host : Endian) (rest : List UInt8) (f : Field) :
    Except Stop (Nat × List Out) → Prop
  | .ok r => f.Covered host rest ∧ f.span host rest = some r.1
  | .error .outside => ¬ f.Covered host rest
  | .error _ => f.Covered host rest ∧ f.span host rest = none

theorem Num.read_cases (host : Endian) (rest : List UInt8) (n : Num) :
    (n.width.size ≤ rest.length ∧ n.read host rest = .ok (n.value host rest)) ∨
      (rest.length < n.width.size ∧ n.read host rest = .error n.width.missing) := by
  unfold Num.read Num.value
  by_cases hlen : rest.length < n.width.size
  · exact Or.inr ⟨hlen, if_pos hlen⟩
  · exact Or.inl ⟨Nat.le_of_not_lt hlen, if_neg hlen⟩

theorem Num.covered_of_size_le {n : Num} (h : n.width.size ≤ rest.length) : n.Covered rest := by
  intro hw
  rw [hw] at h
  exact h

theorem Field.agrees_missing {f : Field} {n : Num} (hshort : rest.length < n.width.size)
    (hcovered : f.Covered host rest ↔ n.Covered rest) (hspan : f.span host rest = none) :
    f.Agrees host rest (.error n.width.missing) := by
  cases hw : n.width with
  | int =>
      rw [hw] at hshort
      change ¬ f.Covered host rest
      rw [hcovered]
      exact fun h => absurd (h hw) (Nat.not_le.mpr hshort)
  | byte | short =>
      refine ⟨hcovered.mpr (fun hint => ?_), hspan⟩
      rw [hw] at hint
      cases hint

theorem Field.read_agrees (host : Endian) (rest : List UInt8) (f : Field) :
    f.Agrees host rest (f.read host rest) := by
  cases f with
  | lit b | nul =>
      cases rest with
      | nil => simp [read, readByte, Agrees, Covered]
      | cons x rest =>
          simp only [read, readByte]
          split <;> simp_all [Agrees, Covered, span]
  | num n =>
      rcases n.read_cases host rest with ⟨hlen, hread⟩ | ⟨hshort, hread⟩
      · simp [read, hread, bind, Except.bind, Agrees, Covered, span, hlen, Num.covered_of_size_le]
      · rw [read, hread]
        exact agrees_missing hshort Iff.rfl (if_neg (Nat.not_le.mpr hshort))
  | raw n | skip n =>
      by_cases hn : rest.length < n
      · simp [read, hn, Agrees, Covered, span]
      · simp [read, hn, Agrees, Covered, span, Nat.le_of_not_lt hn]
  | blob n =>
      rcases n.read_cases host rest with ⟨hlen, hread⟩ | ⟨hshort, hread⟩
      · have hcov := Num.covered_of_size_le hlen
        simp only [read, hread, bind, Except.bind, List.length_drop]
        split
        · exact ⟨hcov, if_neg (by omega)⟩
        · exact ⟨hcov, if_pos (by omega)⟩
      · rw [read, hread]
        exact agrees_missing hshort Iff.rfl (if_neg (by omega))
  | str n =>
      rcases n.read_cases host rest with ⟨hlen, hread⟩ | ⟨hshort, hread⟩
      · have hcov := Num.covered_of_size_le hlen
        simp only [read, hread, bind, Except.bind, List.length_drop]
        split
        · rename_i hzero
          by_cases hmem : 0 ∈ rest.drop n.width.size
          · have hlt := length_takeWhile_lt hmem
            rw [List.length_drop] at hlt
            rw [stringAt, List.drop_zero, if_pos hmem]
            refine ⟨⟨hcov, fun _ _ => hmem⟩, ?_⟩
            simp only [span, hzero, if_true]
            exact if_pos (by omega)
          · rw [stringAt, List.drop_zero, if_neg hmem]
            exact fun h => hmem (h.2 hlen hzero)
        · rename_i hzero
          have hcov' : (str n).Covered host rest := ⟨hcov, fun _ h => absurd h hzero⟩
          split
          · exact ⟨hcov', by simp only [span, if_neg hzero]; exact if_neg (by omega)⟩
          · exact ⟨hcov', by simp only [span, if_neg hzero]; exact if_pos (by omega)⟩
      · have hcov : (str n).Covered host rest ↔ n.Covered rest :=
          ⟨fun h => h.1, fun h => ⟨h, fun hle => absurd hle (Nat.not_le.mpr hshort)⟩⟩
        rw [read, hread]
        exact agrees_missing hshort hcov (if_neg (by omega))

/-- A format leaves the block exactly when a field that is reached is not covered. -/
theorem readFields_outside (fs : List Field) :
    readFields host fs rest = .error .outside ↔ ¬ Covered host fs rest := by
  induction fs generalizing rest with
  | nil => simp [readFields, Covered]
  | cons f fs ih =>
      have hf := f.read_agrees host rest
      rw [readFields, Covered]
      cases hread : f.read host rest with
      | ok r =>
          rw [hread] at hf
          obtain ⟨hcov, hspan⟩ := hf
          have hreached : (∀ n, f.span host rest = some n → Covered host fs (rest.drop n)) ↔
              Covered host fs (rest.drop r.1) := by simp [hspan]
          have hbind : ((readFields host fs (rest.drop r.1)).bind fun q =>
              Except.ok (r.1 + q.1, r.2 ++ q.2)) = .error .outside ↔
              readFields host fs (rest.drop r.1) = .error .outside := by
            cases readFields host fs (rest.drop r.1) <;> simp [Except.bind]
          rw [hreached]
          simp only [hcov, true_and]
          exact hbind.trans ih
      | error e =>
          rw [hread] at hf
          cases e with
          | outside =>
              have hcov : ¬ f.Covered host rest := hf
              simp [bind, Except.bind, hcov]
          | error | badArg | exhausted =>
              obtain ⟨hcov, hspan⟩ := hf
              simp [bind, Except.bind, hcov, hspan]

theorem readFields_le {fs : List Field} {r : Nat × List Out}
    (h : readFields host fs rest = .ok r) : r.1 ≤ rest.length := by
  induction fs generalizing rest r with
  | nil =>
      cases h
      exact Nat.zero_le _
  | cons f fs ih =>
      rw [readFields] at h
      obtain ⟨p, hf, h⟩ := exists_of_bind_eq_ok h
      obtain ⟨q, hfs, h⟩ := exists_of_bind_eq_ok h
      have hp := Field.read_le hf
      have hq := ih hfs
      rw [List.length_drop] at hq
      cases h
      show p.1 + q.1 ≤ rest.length
      omega

/-- Unpacking a format of fields stays inside the block exactly when every field that
is reached is covered. -/
theorem unpackInside_iff (fs : List Field) (data : List UInt8) :
    UnpackInside host (render fs) data ↔ Covered host fs data := by
  constructor
  · intro h
    have hreads := h.reads
    rw [unpackData_render, Ne, readFields_outside, not_not] at hreads
    exact hreads
  · intro h
    refine ⟨?_, fun n out hok => ?_⟩
    · rw [unpackData_render, Ne, readFields_outside, not_not]
      exact h
    · rw [unpackData_render] at hok
      exact readFields_le hok

end Buffer
end IrC6
