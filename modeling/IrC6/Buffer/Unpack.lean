import IrC6.Base.Endian
import IrC6.Base.Faults
import IrC6.Buffer.Format

/-!
# Unpacking

`_unpack_data` interprets a format over a block of `data_len` bytes.  It carries
the offset of the next byte, the size given to the next directive, a queue of
sizes that `$` has read and that later directives take, and three flags that
`RESET_VAR` clears after each directive.

The bound check stands at the top of the loop and uses the size known before the
current character is interpreted.  Every access of the block goes through
`byteAt`, `bytesAt` or `stringAt`, which stop the run at an index behind the end
of the block.

Lengths are natural numbers: a block and a 32-bit size together are far below the
range of `size_t`.
-/

namespace IrC6
namespace Buffer

/-- What a directive stores through its argument. -/
inductive Out where
  /-- `%r`, a new buffer. -/
  | buf (bs : List UInt8)
  /-- `%p`, a new block. -/
  | ptr (bs : List UInt8)
  /-- `%s`, the bytes before the terminator that the unpacker writes. -/
  | str (bs : List UInt8)
  /-- `%u` and `%i`, a number of `size` bytes. -/
  | num (size v : Nat)
deriving DecidableEq, Repr

/-- The variables of `_unpack_data`. -/
structure UnpackState where
  offs : Nat
  size : Nat
  position : Nat
  percent : Bool
  bigendian : Bool
  /-- The pending sizes, `head`. -/
  head : List Nat
  /-- What has been stored so far. -/
  out : List Out
deriving DecidableEq, Repr

/-- The state between two directives. -/
def between (offs : Nat) (head : List Nat) (out : List Out) : UnpackState :=
  { offs := offs, size := 0, position := 0, percent := false, bigendian := false,
    head := head, out := out }

/-- The state inside a directive. -/
def within (offs size : Nat) (big : Bool) (head : List Nat) (out : List Out) : UnpackState :=
  { offs := offs, size := size, position := 0, percent := true, bigendian := big,
    head := head, out := out }

/-- `offs += n` and `RESET_VAR`. -/
def UnpackState.skip (s : UnpackState) (n : Nat) : UnpackState :=
  between (s.offs + n) s.head s.out

/-- The end of a directive that stores `o` and has used `n` bytes. -/
def UnpackState.store (s : UnpackState) (n : Nat) (o : Out) : UnpackState :=
  between (s.offs + n) s.head (s.out ++ [o])

/-! ## Reading the block -/

def byteAt (data : List UInt8) (i : Nat) : Except Stop UInt8 :=
  match data[i]? with
  | some b => .ok b
  | none => .error .outside

def bytesAt (data : List UInt8) (i n : Nat) : Except Stop (List UInt8) :=
  if i + n ≤ data.length then .ok ((data.drop i).take n) else .error .outside

/-- `a_strdup`: the bytes before the first NUL. -/
def stringAt (data : List UInt8) (i : Nat) : Except Stop (List UInt8) :=
  if 0 ∈ data.drop i then .ok ((data.drop i).takeWhile (· ≠ 0)) else .error .outside

def checkChar (data : List UInt8) (c : Char) (s : UnpackState) : Except Stop UnpackState := do
  let b ← byteAt data s.offs
  if b ≠ c.toUInt8 then .error .error
  else .ok (s.skip 1)

/-- `PARSE_NUM_PTR`: a number in host order, converted when `^` was given.  There is
nothing to convert in one byte. -/
def parseNum (host : Endian) (bigendian : Bool) (size : Nat) (bs : List UInt8) : Nat :=
  if bigendian = true ∧ size ≠ sizeChar then host.hton size (host.value bs) else host.value bs

/-- The switch over the sizes of a number. -/
def readNum (host : Endian) (data : List UInt8) (s : UnpackState) : Except Stop (Nat × Nat) :=
  let size := numSize s.size
  if size = sizeInt ∨ size = sizeShort ∨ size = sizeChar then do
    let bs ← bytesAt data s.offs size
    .ok (size, parseNum host s.bigendian size bs)
  else .error .error

/-- The end of `$`: without a position the size goes to the front of the queue.
With one, `SIMPLEQ_FOREACH` counts the position down along the queue.  A position
inside the queue is reset and then counted down below zero, because `continue`
goes on with the inner loop, and the padding that follows never ends. -/
def insertSize (position n : Nat) (head : List Nat) : Except Stop (List Nat) :=
  if position = 0 then .ok (n :: head)
  else if position ≤ head.length then .error .exhausted
  else .ok (head ++ List.replicate (position - head.length) 0 ++ [n])

/-! ## The interpreter -/

/-- The first `switch`.  `none` when the character is not one of its cases. -/
def unpackDirective (host : Endian) (data : List UInt8) (s : UnpackState) :
    Char → Option (Except Stop UnpackState)
  | 'r' => some do
      let bs ← bytesAt data s.offs s.size
      .ok (s.store s.size (.buf bs))
  | 'p' => some do
      let bs ← bytesAt data s.offs s.size
      .ok (s.store s.size (.ptr bs))
  | 's' => some <|
      if s.size = 0 then do
        let bs ← stringAt data s.offs
        .ok (s.store (bs.length + 1) (.str bs))
      else do
        let bs ← bytesAt data s.offs s.size
        .ok (s.store s.size (.str bs))
  | 'u' | 'i' => some do
      let (size, v) ← readNum host data s
      .ok (s.store size (.num size v))
  | '$' => some do
      let (size, v) ← readNum host data s
      let head ← insertSize s.position v s.head
      .ok (between (s.offs + size) head s.out)
  | 'k' => some <| .ok (s.skip s.size)
  | 'Z' => some do
      let b ← byteAt data s.offs
      if b ≠ 0 then .error .error
      else .ok (s.skip 1)
  | _ => none

/-- A percent sign takes the first pending size. -/
def UnpackState.takePercent (s : UnpackState) : UnpackState :=
  match s.head with
  | [] => { s with percent := true }
  | n :: head => { s with percent := true, size := n, head := head }

/-- Whether the number just read is a position: `$` stands behind it, with at most
one of `l`, `h` and `b` between them. -/
def isPosition : List Char → Bool
  | 'l' :: '$' :: _ | 'h' :: '$' :: _ | 'b' :: '$' :: _ | '$' :: _ => true
  | _ => false

/-- `_unpack_data`, from a state on. -/
def unpackLoop (host : Endian) (data : List UInt8) :
    List Char → UnpackState → Except Stop (Nat × List Out)
  | [], s => .ok (s.offs, s.out)
  | c :: fmt, s =>
      if data.length < s.offs + s.size then .error .error
      else if c = '%' ∧ s.percent = false then unpackLoop host data fmt s.takePercent
      else if c = '%' ∨ s.percent = false then do
        unpackLoop host data fmt (← checkChar data c s)
      else match unpackDirective host data s c with
      | some r => do unpackLoop host data fmt (← r)
      | none =>
          if s.size ≠ 0 then .error .error
          else if c = '^' then unpackLoop host data fmt { s with bigendian := true }
          else if _hc : c.isDigit = true then
            if (digits 0 (c :: fmt)).2 = [] then .error .error
            else if isPosition (digits 0 (c :: fmt)).2 then
              unpackLoop host data (digits 0 (c :: fmt)).2
                { s with position := (digits 0 (c :: fmt)).1, size := 0 }
            else unpackLoop host data (digits 0 (c :: fmt)).2
              { s with size := (digits 0 (c :: fmt)).1 }
          else if c = 'l' then unpackLoop host data fmt { s with size := sizeLong }
          else if c = 'h' then unpackLoop host data fmt { s with size := sizeShort }
          else if c = 'b' then unpackLoop host data fmt { s with size := sizeChar }
          else do unpackLoop host data fmt (← checkChar data c s)
termination_by fmt => fmt.length
decreasing_by
  all_goals first
    | exact Nat.lt_succ_self _
    | exact length_digits_lt _hc 0 fmt

/-- `buf_unpack_data`. -/
def unpackData (host : Endian) (fmt : List Char) (data : List UInt8) :
    Except Stop (Nat × List Out) :=
  unpackLoop host data fmt (between 0 [] [])

/-! ## Steps of the interpreter -/

section Steps

variable {host : Endian} {data : List UInt8} {fmt : List Char}

theorem loop_short {s : UnpackState} (h : data.length < s.offs + s.size) (c : Char) :
    unpackLoop host data (c :: fmt) s = .error .error := by
  rw [unpackLoop, if_pos h]

theorem loop_literal {s : UnpackState} (h : s.offs + s.size ≤ data.length) {c : Char}
    (hc : c ≠ '%') (hs : s.percent = false) :
    unpackLoop host data (c :: fmt) s = (checkChar data c s).bind (unpackLoop host data fmt) := by
  rw [unpackLoop, if_neg (Nat.not_lt.mpr h), if_neg (fun hp => hc hp.1), if_pos (Or.inr hs)]
  rfl

theorem loop_percent {s : UnpackState} (h : s.offs + s.size ≤ data.length)
    (hs : s.percent = false) :
    unpackLoop host data ('%' :: fmt) s = unpackLoop host data fmt s.takePercent := by
  rw [unpackLoop, if_neg (Nat.not_lt.mpr h), if_pos ⟨rfl, hs⟩]

theorem loop_percent_percent {s : UnpackState} (h : s.offs + s.size ≤ data.length)
    (hs : s.percent = true) :
    unpackLoop host data ('%' :: fmt) s =
      (checkChar data '%' s).bind (unpackLoop host data fmt) := by
  rw [unpackLoop, if_neg (Nat.not_lt.mpr h), if_neg (fun hp => by simp [hs] at hp),
    if_pos (Or.inl rfl)]
  rfl

theorem loop_directive {s : UnpackState} (h : s.offs + s.size ≤ data.length) {c : Char}
    (hc : c ≠ '%') (hs : s.percent = true) {r : Except Stop UnpackState}
    (hr : unpackDirective host data s c = some r) :
    unpackLoop host data (c :: fmt) s = r.bind (unpackLoop host data fmt) := by
  rw [unpackLoop, if_neg (Nat.not_lt.mpr h), if_neg (fun hp => hc hp.1),
    if_neg (fun hp => hp.elim hc (by simp [hs])), hr]
  rfl

theorem loop_caret {s : UnpackState} (h : s.offs ≤ data.length) (hz : s.size = 0)
    (hs : s.percent = true) :
    unpackLoop host data ('^' :: fmt) s =
      unpackLoop host data fmt { s with bigendian := true } := by
  rw [unpackLoop]
  simp [hz, Nat.not_lt.mpr h, hs, unpackDirective]

theorem loop_letter {s : UnpackState} (h : s.offs ≤ data.length) (hz : s.size = 0)
    (hs : s.percent = true) :
    unpackLoop host data ('h' :: fmt) s = unpackLoop host data fmt { s with size := sizeShort } ∧
    unpackLoop host data ('b' :: fmt) s = unpackLoop host data fmt { s with size := sizeChar } := by
  constructor <;> rw [unpackLoop] <;> simp [hz, Nat.not_lt.mpr h, hs, unpackDirective]

theorem unpackDirective_digit {s : UnpackState} {c : Char} (hc : c.isDigit = true) :
    unpackDirective host data s c = none := by
  unfold unpackDirective
  split <;> first | rfl | (exact absurd hc (by decide))

theorem loop_decimal {s : UnpackState} (h : s.offs ≤ data.length) (hz : s.size = 0)
    (hs : s.percent = true) (n : Nat) {c : Char} (hc : c = 'p' ∨ c = 'k') :
    unpackLoop host data (decimal n ++ c :: fmt) s =
      unpackLoop host data (c :: fmt) { s with size := n } := by
  obtain ⟨d, ds, hd, hdig⟩ := exists_decimal n
  have hnot : c.isDigit = false := by rcases hc with rfl | rfl <;> decide
  have hdigits := digits_decimal n hnot fmt
  have hpos : isPosition (c :: fmt) = false := by
    rcases hc with rfl | rfl <;> simp [isPosition]
  have hp : d ≠ '%' := by rintro rfl; exact absurd hdig (by decide)
  have hcaret : d ≠ '^' := by rintro rfl; exact absurd hdig (by decide)
  rw [hd, List.cons_append] at hdigits ⊢
  rw [unpackLoop]
  simp only [hz, Nat.add_zero, Nat.not_lt.mpr h, if_false, hp, hs, false_and, false_or,
    unpackDirective_digit hdig, hcaret, hdig, dif_pos, hdigits, hpos]
  simp

theorem bytesAt_drop {offs n : Nat} (h : offs + n ≤ data.length) :
    bytesAt data offs n = .ok ((data.drop offs).take n) := if_pos h

theorem stringAt_drop (offs : Nat) : stringAt data offs = stringAt (data.drop offs) 0 := by
  simp [stringAt]

theorem stringAt_eq_ok {data bs : List UInt8} {offs : Nat} (h : stringAt data offs = .ok bs) :
    0 ∈ data.drop offs ∧ bs = (data.drop offs).takeWhile (· ≠ 0) := by
  unfold stringAt at h
  split at h
  · cases h
    exact ⟨‹_›, rfl⟩
  · cases h

theorem length_takeWhile_lt {xs : List UInt8} (h : 0 ∈ xs) :
    (xs.takeWhile (· ≠ 0)).length < xs.length := by
  induction xs with
  | nil => cases h
  | cons x xs ih =>
      by_cases hx : x = 0
      · simp [hx]
      · have hxs : 0 ∈ xs := by
          rcases List.mem_cons.mp h with h0 | h0
          · exact absurd h0.symm hx
          · exact h0
        simpa [hx] using ih hxs

theorem dollar_eq (s : UnpackState) :
    unpackDirective host data s '$' = some ((readNum host data s).bind fun p => do
      let head ← insertSize s.position p.2 s.head
      .ok (between (s.offs + p.1) head s.out)) := rfl

end Steps

end Buffer
end IrC6
