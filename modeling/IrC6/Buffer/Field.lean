import IrC6.Buffer.Unpack

/-!
# Fields

The formats of this program are sequences of fields: a number, a block of fixed
size, some skipped bytes, a literal, a NUL, or a string or buffer with its length
in front.  `Field.read` says what one field does to the bytes that remain, and
`loop_render` that the interpreter does exactly that, so a format is
understood field by field.
-/

namespace IrC6
namespace Buffer

/-- The size letter of a number. -/
inductive Width where
  | byte
  | short
  | int
deriving DecidableEq, Repr

namespace Width

def size : Width → Nat
  | byte => sizeChar
  | short => sizeShort
  | int => sizeInt

/-- An `int` is the default and has no letter. -/
def letter : Width → List Char
  | byte => ['b']
  | short => ['h']
  | int => []

/-- The size in force once the head of a number has been read. -/
def given : Width → Nat
  | byte => sizeChar
  | short => sizeShort
  | int => 0

/-- What happens when the bytes of a number are missing.  A size that a letter gives
is known before the directive is reached and checked; the default is not. -/
def missing : Width → Stop
  | byte | short => .error
  | int => .outside

theorem size_cases (w : Width) : w.size = sizeInt ∨ w.size = sizeShort ∨ w.size = sizeChar := by
  cases w <;> simp [size]

theorem numSize_given (w : Width) : numSize w.given = w.size := by cases w <;> rfl

end Width

/-- A number directive: its width, and whether `^` makes it big-endian. -/
structure Num where
  width : Width
  big : Bool
deriving DecidableEq, Repr

namespace Num

/-- `%`, `^` and the letter. -/
def head (n : Num) : List Char :=
  '%' :: ((if n.big then ['^'] else []) ++ n.width.letter)

/-- The byte order in which the number is read. -/
def order (host : Endian) (n : Num) : Endian := if n.big then .big else host

/-- The number at the front of the remaining bytes. -/
def read (host : Endian) (n : Num) (rest : List UInt8) : Except Stop Nat :=
  if rest.length < n.width.size then .error n.width.missing
  else .ok ((n.order host).value (rest.take n.width.size))

end Num

/-- The fields that the formats of this program are made of. -/
inductive Field where
  /-- A literal character, written `%%` for the percent sign. -/
  | lit (b : UInt8)
  /-- `%Z`. -/
  | nul
  /-- `%bu`, `%hu`, `%^hu`, `%u` and `%^u`. -/
  | num (n : Num)
  /-- `%Np`. -/
  | raw (n : Nat)
  /-- `%Nk`. -/
  | skip (n : Nat)
  /-- A length and then `%r`, as in `%^h$%r`. -/
  | blob (n : Num)
  /-- A length and then `%s`, as in `%b$%s`. -/
  | str (n : Num)
deriving DecidableEq, Repr

namespace Field

/-- The format of a field, for unpacking. -/
def render : Field → List Char
  | lit b => if b = 37 then ['%', '%'] else [Char.ofUInt8 b]
  | nul => ['%', 'Z']
  | num n => n.head ++ ['u']
  | raw n => '%' :: (decimal n ++ ['p'])
  | skip n => '%' :: (decimal n ++ ['k'])
  | blob n => n.head ++ ['$', '%', 'r']
  | str n => n.head ++ ['$', '%', 's']

/-- One byte that has to have a given value. -/
def readByte (b : UInt8) : List UInt8 → Except Stop (Nat × List Out)
  | [] => .error .outside
  | x :: _ => if x = b then .ok (1, []) else .error .error

/-- What a field uses of the remaining bytes, and what it stores. -/
def read (host : Endian) (rest : List UInt8) : Field → Except Stop (Nat × List Out)
  | lit b => readByte b rest
  | nul => readByte 0 rest
  | num n => do
      let v ← n.read host rest
      .ok (n.width.size, [.num n.width.size v])
  | raw n => if rest.length < n then .error .error else .ok (n, [.ptr (rest.take n)])
  | skip n => if rest.length < n then .error .error else .ok (n, [])
  | blob n => do
      let len ← n.read host rest
      let body := rest.drop n.width.size
      if body.length < len then .error .error
      else .ok (n.width.size + len, [.buf (body.take len)])
  | str n => do
      let len ← n.read host rest
      let body := rest.drop n.width.size
      if len = 0 then
        -- No length and a length of zero are the same to `%s`.
        let bs ← stringAt body 0
        .ok (n.width.size + (bs.length + 1), [.str bs])
      else if body.length < len then .error .error
      else .ok (n.width.size + len, [.str (body.take len)])

end Field

/-- The format of a sequence of fields. -/
def render (fs : List Field) : List Char := fs.flatMap Field.render

/-- What a sequence of fields uses of the remaining bytes, and what it stores. -/
def readFields (host : Endian) : List Field → List UInt8 → Except Stop (Nat × List Out)
  | [], _ => .ok (0, [])
  | f :: fs, rest => do
      let (n, vs) ← f.read host rest
      let (m, ws) ← readFields host fs (rest.drop n)
      .ok (n + m, vs ++ ws)

section Loop

variable {host : Endian} {data : List UInt8} {fmt : List Char}

theorem loop_head {offs : Nat} (h : offs ≤ data.length) (out : List Out) (n : Num) (c : Char) :
    unpackLoop host data (n.head ++ c :: fmt) (between offs [] out) =
      unpackLoop host data (c :: fmt) (within offs n.width.given n.big [] out) := by
  obtain ⟨w, big⟩ := n
  have hstart : ∀ fmt', unpackLoop host data ('%' :: fmt') (between offs [] out) =
      unpackLoop host data fmt' (within offs 0 false [] out) :=
    fun fmt' => loop_percent h rfl
  have hcaret : ∀ fmt', unpackLoop host data ('^' :: fmt') (within offs 0 false [] out) =
      unpackLoop host data fmt' (within offs 0 true [] out) :=
    fun fmt' => loop_caret h rfl rfl
  have hletter : ∀ b fmt',
      unpackLoop host data ('h' :: fmt') (within offs 0 b [] out) =
        unpackLoop host data fmt' (within offs sizeShort b [] out) ∧
      unpackLoop host data ('b' :: fmt') (within offs 0 b [] out) =
        unpackLoop host data fmt' (within offs sizeChar b [] out) :=
    fun b fmt' => loop_letter h rfl rfl
  cases w <;> cases big <;>
    simp [Num.head, Width.letter, Width.given, hstart, hcaret, hletter]

theorem parseNum_order (n : Num) {bs : List UInt8} (h : bs.length = n.width.size) :
    parseNum host n.big n.width.size bs = (n.order host).value bs := by
  obtain ⟨w, big⟩ := n
  cases big
  · simp [parseNum, Num.order]
  · by_cases hw : w = .byte
    · subst hw
      obtain ⟨b, rfl⟩ := List.length_eq_one_iff.mp h
      simp [parseNum, Num.order, Width.size]
    · have hne : w.size ≠ sizeChar := by
        cases w <;> simp_all [Width.size, sizeShort, sizeInt, sizeChar]
      simp only [parseNum, hne, Num.order, ne_eq, not_false_eq_true, and_self, if_true]
      exact host.hton_value h

/-- Reading a number inside a directive whose size has passed the check. -/
theorem readNum_within {offs : Nat} (n : Num) (out : List Out) (hoffs : offs ≤ data.length)
    (h : offs + n.width.given ≤ data.length) :
    readNum host data (within offs n.width.given n.big [] out) =
      (n.read host (data.drop offs)).map fun v => (n.width.size, v) := by
  simp only [readNum, within, n.width.numSize_given, if_pos n.width.size_cases]
  by_cases hlen : offs + n.width.size ≤ data.length
  · have hread : ¬ (data.drop offs).length < n.width.size := by rw [List.length_drop]; omega
    have hbs : ((data.drop offs).take n.width.size).length = n.width.size := by
      rw [List.length_take]; omega
    rw [bytesAt_drop hlen, Num.read, if_neg hread]
    simp only [bind, Except.bind, Except.map, parseNum_order n hbs]
  · have hread : (data.drop offs).length < n.width.size := by rw [List.length_drop]; omega
    have hint : n.width = .int := by
      cases hw : n.width <;> simp_all [Width.given, Width.size]
    rw [Num.read, if_pos hread, bytesAt, if_neg hlen, hint]
    rfl

/-- A directive that reads a number and goes on with it. -/
theorem loop_number {offs : Nat} (hoffs : offs ≤ data.length) (out : List Out) (n : Num) {c : Char}
    (hc : c ≠ '%') {k : UnpackState → Nat × Nat → Except Stop UnpackState}
    (hk : ∀ s, unpackDirective host data s c = some ((readNum host data s).bind (k s))) :
    unpackLoop host data (n.head ++ c :: fmt) (between offs [] out) =
      (n.read host (data.drop offs)).bind fun v =>
        (k (within offs n.width.given n.big [] out) (n.width.size, v)).bind
          (unpackLoop host data fmt) := by
  rw [loop_head hoffs]
  by_cases hgiven : offs + n.width.given ≤ data.length
  · rw [loop_directive hgiven hc rfl (hk _), readNum_within n out hoffs hgiven]
    cases n.read host (data.drop offs) <;> rfl
  · have hread : (data.drop offs).length < n.width.size := by
      rw [List.length_drop]
      cases hw : n.width <;> simp_all [Width.given, Width.size] <;> omega
    have hmissing : n.width.missing = .error := by
      cases hw : n.width <;> simp_all [Width.given, Width.missing]
    rw [loop_short (Nat.lt_of_not_le hgiven), Num.read, if_pos hread, hmissing]
    rfl

theorem byteAt_bind (b : UInt8) (s : UnpackState) (k : UnpackState → Except Stop (Nat × List Out)) :
    ((byteAt data s.offs).bind fun x =>
        if x ≠ b then Except.error Stop.error else .ok (s.skip 1)).bind k =
      (Field.readByte b (data.drop s.offs)).bind fun r =>
        k (between (s.offs + r.1) s.head (s.out ++ r.2)) := by
  rw [byteAt, ← List.head?_drop]
  cases data.drop s.offs with
  | nil => rfl
  | cons x xs =>
      by_cases hx : x = b
      · simp [Except.bind, Field.readByte, hx, UnpackState.skip]
      · simp [Except.bind, Field.readByte, hx]

theorem checkChar_bind {c : Char} {b : UInt8} (hc : c.toUInt8 = b) (s : UnpackState)
    (k : UnpackState → Except Stop (Nat × List Out)) :
    (checkChar data c s).bind k =
      (Field.readByte b (data.drop s.offs)).bind fun r =>
        k (between (s.offs + r.1) s.head (s.out ++ r.2)) := by
  subst hc
  exact byteAt_bind _ s k

/-- After the length, the percent sign takes it. -/
theorem loop_counted {offs : Nat} (hoffs : offs ≤ data.length) (len : Nat) (out : List Out)
    {c : Char} (hc : c ≠ '%') {r : Except Stop UnpackState}
    (hr : unpackDirective host data (within offs len false [] out) c = some r) :
    unpackLoop host data ('%' :: c :: fmt) (between offs [len] out) =
      if data.length < offs + len then .error .error
      else r.bind (unpackLoop host data fmt) := by
  have hpercent : unpackLoop host data ('%' :: c :: fmt) (between offs [len] out) =
      unpackLoop host data (c :: fmt) (within offs len false [] out) := loop_percent hoffs rfl
  rw [hpercent]
  split
  · exact loop_short ‹_› c
  · exact loop_directive (Nat.le_of_not_lt ‹_›) hc rfl hr

theorem loop_sized {offs : Nat} (hoffs : offs ≤ data.length) (n : Nat) (out : List Out)
    {c : Char} (hc : c = 'p' ∨ c = 'k') {r : Except Stop UnpackState}
    (hr : unpackDirective host data (within offs n false [] out) c = some r) :
    unpackLoop host data ('%' :: (decimal n ++ c :: fmt)) (between offs [] out) =
      if data.length < offs + n then .error .error
      else r.bind (unpackLoop host data fmt) := by
  have hpercent : unpackLoop host data ('%' :: (decimal n ++ c :: fmt)) (between offs [] out) =
      unpackLoop host data (decimal n ++ c :: fmt) (within offs 0 false [] out) :=
    loop_percent hoffs rfl
  have hdecimal : unpackLoop host data (decimal n ++ c :: fmt) (within offs 0 false [] out) =
      unpackLoop host data (c :: fmt) (within offs n false [] out) :=
    loop_decimal hoffs rfl rfl n hc
  have hne : c ≠ '%' := by rcases hc with rfl | rfl <;> decide
  rw [hpercent, hdecimal]
  split
  · exact loop_short ‹_› c
  · exact loop_directive (Nat.le_of_not_lt ‹_›) hne rfl hr

theorem Num.read_bytes (host : Endian) (n : Num) {v : Nat} (h : v < 256 ^ n.width.size)
    (tail : List UInt8) :
    n.read host ((n.order host).bytes n.width.size v ++ tail) = .ok v := by
  have hlen : ((n.order host).bytes n.width.size v).length = n.width.size := Endian.length_bytes ..
  have hfits : ¬ ((n.order host).bytes n.width.size v ++ tail).length < n.width.size := by
    rw [List.length_append]
    omega
  rw [Num.read, if_neg hfits, List.take_left' hlen, Endian.value_bytes _ h]

theorem Num.read_le {n : Num} {rest : List UInt8} {v : Nat} (h : n.read host rest = .ok v) :
    n.width.size ≤ rest.length := by
  unfold Num.read at h
  split at h
  · cases h
  · omega

/-- A length and as many bytes. -/
theorem loop_blob {offs : Nat} (hoffs : offs ≤ data.length) (out : List Out) (n : Num) :
    unpackLoop host data ((Field.blob n).render ++ fmt) (between offs [] out) =
      ((Field.blob n).read host (data.drop offs)).bind fun r =>
        unpackLoop host data fmt (between (offs + r.1) [] (out ++ r.2)) := by
  rw [Field.render, List.append_assoc, List.cons_append, List.cons_append, List.cons_append,
    List.nil_append, loop_number hoffs out n (by decide) dollar_eq, Field.read]
  cases hlen : n.read host (data.drop offs) with
  | error e => rfl
  | ok len =>
      have hrest : (data.drop offs).length = data.length - offs := List.length_drop
      have hle := Num.read_le hlen
      have hoffs' : offs + n.width.size ≤ data.length := by omega
      change unpackLoop host data _ (between (offs + n.width.size) [len] out) = _
      rw [loop_counted hoffs' len out (by decide) rfl]
      simp only [bind, Except.bind, List.length_drop, List.drop_drop]
      by_cases hshort : data.length < offs + n.width.size + len
      · rw [if_pos hshort, if_pos (by omega)]
      · rw [if_neg hshort, if_neg (by omega)]
        simp only [within, bytesAt_drop (Nat.le_of_not_lt hshort)]
        simp [UnpackState.store, Nat.add_assoc]


/-- A length and a string of that length, or up to its NUL when the length is 0. -/
theorem loop_str {offs : Nat} (hoffs : offs ≤ data.length) (out : List Out) (n : Num) :
    unpackLoop host data ((Field.str n).render ++ fmt) (between offs [] out) =
      ((Field.str n).read host (data.drop offs)).bind fun r =>
        unpackLoop host data fmt (between (offs + r.1) [] (out ++ r.2)) := by
  rw [Field.render, List.append_assoc, List.cons_append, List.cons_append, List.cons_append,
    List.nil_append, loop_number hoffs out n (by decide) dollar_eq, Field.read]
  cases hlen : n.read host (data.drop offs) with
  | error e => rfl
  | ok len =>
      have hrest : (data.drop offs).length = data.length - offs := List.length_drop
      have hle := Num.read_le hlen
      have hoffs' : offs + n.width.size ≤ data.length := by omega
      change unpackLoop host data _ (between (offs + n.width.size) [len] out) = _
      rw [loop_counted hoffs' len out (by decide) rfl]
      simp only [bind, Except.bind, List.length_drop, List.drop_drop]
      by_cases hzero : len = 0
      · subst hzero
        rw [if_neg (by omega)]
        change ((stringAt data (offs + n.width.size)).bind _).bind _ = _
        rw [stringAt_drop]
        cases stringAt (data.drop (offs + n.width.size)) 0 with
        | error e => rfl
        | ok bs => simp [Except.bind, UnpackState.store, within, Nat.add_assoc]
      · rw [if_neg hzero]
        by_cases hshort : data.length < offs + n.width.size + len
        · rw [if_pos hshort, if_pos (by omega)]
        · have hfit : ¬ data.length - (offs + n.width.size) < len := by omega
          rw [if_neg hshort, if_neg hfit]
          simp only [within, if_neg hzero, bytesAt_drop (Nat.le_of_not_lt hshort)]
          simp [UnpackState.store, Nat.add_assoc]


/-- The interpreter does to a field what `Field.read` says. -/
theorem loop_field {offs : Nat} (hoffs : offs ≤ data.length) (out : List Out) (f : Field) :
    unpackLoop host data (f.render ++ fmt) (between offs [] out) =
      (f.read host (data.drop offs)).bind fun r =>
        unpackLoop host data fmt (between (offs + r.1) [] (out ++ r.2)) := by
  have hrest : (data.drop offs).length = data.length - offs := List.length_drop
  have hpercent : ∀ fmt', unpackLoop host data ('%' :: fmt') (between offs [] out) =
      unpackLoop host data fmt' (within offs 0 false [] out) :=
    fun fmt' => loop_percent hoffs rfl
  have hbetween : (between offs [] out).offs + (between offs [] out).size ≤ data.length := hoffs
  have hwithin : (within offs 0 false [] out).offs + (within offs 0 false [] out).size ≤
      data.length := hoffs
  cases f with
  | lit b =>
      by_cases hb : b = 37
      · subst hb
        rw [Field.render, if_pos rfl, List.cons_append, List.cons_append, List.nil_append, hpercent,
          loop_percent_percent hwithin rfl]
        exact checkChar_bind rfl (within offs 0 false [] out) (unpackLoop host data fmt)
      · rw [Field.render, if_neg hb, List.cons_append, List.nil_append,
          loop_literal hbetween (ofUInt8_ne_percent hb) rfl]
        exact checkChar_bind (toUInt8_ofUInt8 b) (between offs [] out) (unpackLoop host data fmt)
  | nul =>
      rw [Field.render, List.cons_append, List.cons_append, List.nil_append, hpercent,
        loop_directive hwithin (by decide) rfl rfl]
      exact byteAt_bind 0 (within offs 0 false [] out) (unpackLoop host data fmt)
  | num n =>
      have hk : ∀ s, unpackDirective host data s 'u' = some ((readNum host data s).bind
          fun p => .ok (s.store p.1 (.num p.1 p.2))) := fun s => rfl
      rw [Field.render, List.append_assoc, List.cons_append, List.nil_append,
        loop_number hoffs out n (by decide) hk, Field.read]
      cases n.read host (data.drop offs) <;> rfl
  | raw n =>
      rw [Field.render, List.cons_append, List.append_assoc, List.cons_append, List.nil_append,
        loop_sized hoffs n out (Or.inl rfl) rfl, Field.read, hrest]
      by_cases hn : data.length < offs + n
      · rw [if_pos hn, if_pos (by omega)]
        rfl
      · rw [if_neg hn, if_neg (by omega)]
        change ((bytesAt data offs n).bind _).bind _ = _
        rw [bytesAt_drop (by omega)]
        rfl
  | skip n =>
      rw [Field.render, List.cons_append, List.append_assoc, List.cons_append, List.nil_append,
        loop_sized hoffs n out (Or.inr rfl) rfl, Field.read, hrest]
      by_cases hn : data.length < offs + n
      · rw [if_pos hn, if_pos (by omega)]
        rfl
      · rw [if_neg hn, if_neg (by omega)]
        simp [Except.bind, UnpackState.skip, within]
  | blob n => exact loop_blob hoffs out n
  | str n => exact loop_str hoffs out n

theorem Field.readByte_le {b : UInt8} {rest : List UInt8} {r : Nat × List Out}
    (h : readByte b rest = .ok r) : r.1 ≤ rest.length := by
  cases rest with
  | nil => cases h
  | cons x rest =>
      simp only [readByte] at h
      split at h
      · cases h
        exact Nat.succ_le_succ (Nat.zero_le _)
      · cases h

theorem Field.read_num_inv {n : Num} {rest : List UInt8} {r : Nat × List Out}
    (h : (num n).read host rest = .ok r) :
    ∃ v, n.read host rest = .ok v ∧ r = (n.width.size, [.num n.width.size v]) := by
  obtain ⟨v, hv, hr⟩ := exists_of_bind_eq_ok h
  exact ⟨v, hv, (Except.ok.inj hr).symm⟩

theorem Field.read_blob_inv {n : Num} {rest : List UInt8} {r : Nat × List Out}
    (h : (blob n).read host rest = .ok r) :
    ∃ len, n.read host rest = .ok len ∧ len ≤ (rest.drop n.width.size).length ∧
      r = (n.width.size + len, [.buf ((rest.drop n.width.size).take len)]) := by
  obtain ⟨len, hlen, hr⟩ := exists_of_bind_eq_ok h
  simp only at hr
  split at hr
  · cases hr
  · rename_i hfit
    exact ⟨len, hlen, Nat.not_lt.mp hfit, (Except.ok.inj hr).symm⟩

/-- A string ends at a NUL when its length is zero, and has its length otherwise. -/
theorem Field.read_str_inv {n : Num} {rest : List UInt8} {r : Nat × List Out}
    (h : (str n).read host rest = .ok r) :
    ∃ len bs used, n.read host rest = .ok len ∧ r = (n.width.size + used, [.str bs]) ∧
      ((len = 0 ∧ 0 ∈ rest.drop n.width.size ∧ used = bs.length + 1 ∧
          bs = (rest.drop n.width.size).takeWhile (· ≠ 0)) ∨
        (len ≠ 0 ∧ len ≤ (rest.drop n.width.size).length ∧ used = len ∧
          bs = (rest.drop n.width.size).take len)) := by
  obtain ⟨len, hlen, hr⟩ := exists_of_bind_eq_ok h
  simp only at hr
  split at hr
  · rename_i hzero
    obtain ⟨bs, hbs, hr⟩ := exists_of_bind_eq_ok hr
    obtain ⟨hmem, hbs⟩ := stringAt_eq_ok hbs
    exact ⟨len, bs, bs.length + 1, hlen, (Except.ok.inj hr).symm, Or.inl ⟨hzero, hmem, rfl, hbs⟩⟩
  · rename_i hzero
    split at hr
    · cases hr
    · rename_i hfit
      exact ⟨len, _, len, hlen, (Except.ok.inj hr).symm,
        Or.inr ⟨hzero, Nat.not_lt.mp hfit, rfl, rfl⟩⟩

/-- A field that is read lies in the remaining bytes. -/
theorem Field.read_le {f : Field} {rest : List UInt8} {r : Nat × List Out}
    (h : f.read host rest = .ok r) : r.1 ≤ rest.length := by
  cases f with
  | lit b => exact readByte_le h
  | nul => exact readByte_le h
  | num n =>
      obtain ⟨v, hv, rfl⟩ := read_num_inv h
      exact Num.read_le hv
  | raw n | skip n =>
      simp only [read] at h
      split at h
      · cases h
      · cases h
        omega
  | blob n =>
      obtain ⟨len, hlen, hfit, rfl⟩ := read_blob_inv h
      have hle := Num.read_le hlen
      rw [List.length_drop] at hfit
      show n.width.size + len ≤ rest.length
      omega
  | str n =>
      obtain ⟨len, bs, used, hlen, rfl, hcases⟩ := read_str_inv h
      have hle := Num.read_le hlen
      show n.width.size + used ≤ rest.length
      rcases hcases with ⟨-, hmem, rfl, rfl⟩ | ⟨-, hfit, rfl, -⟩
      · have hlt := length_takeWhile_lt hmem
        rw [List.length_drop] at hlt
        omega
      · rw [List.length_drop] at hfit
        omega

/-- The interpreter does to a format of fields what `readFields` says. -/
theorem loop_render {offs : Nat} (hoffs : offs ≤ data.length) (out : List Out) (fs : List Field) :
    unpackLoop host data (render fs) (between offs [] out) =
      (readFields host fs (data.drop offs)).map fun r => (offs + r.1, out ++ r.2) := by
  induction fs generalizing offs out with
  | nil => simp [render, unpackLoop, readFields, Except.map, between]
  | cons f fs ih =>
      rw [render, List.flatMap_cons, loop_field hoffs, readFields]
      cases hf : f.read host (data.drop offs) with
      | error e => rfl
      | ok r =>
          have hle := Field.read_le hf
          rw [List.length_drop] at hle
          have hoffs' : offs + r.1 ≤ data.length := by omega
          have hfs := ih hoffs' (out ++ r.2)
          rw [render] at hfs
          simp only [Except.bind, bind, hfs, List.drop_drop]
          cases readFields host fs (data.drop (offs + r.1)) with
          | error e => rfl
          | ok q => simp [Except.map, Nat.add_assoc]

theorem unpackData_render (host : Endian) (fs : List Field) (data : List UInt8) :
    unpackData host (render fs) data = readFields host fs data := by
  rw [unpackData, loop_render (Nat.zero_le _)]
  cases h : readFields host fs (data.drop 0) <;> simp_all [Except.map]

end Loop

end Buffer
end IrC6
