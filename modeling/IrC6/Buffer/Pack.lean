import IrC6.Base.Endian
import IrC6.Buffer.Format

/-!
# Packing

`_build_pack_queue` interprets a format and queues the blocks that the buffer is
made of; `buf_new_pack` lays them end to end.  `PARAM_RESET` for a failed
allocation is left out, because a failed allocation ends the program.
-/

namespace IrC6
namespace Buffer

/-- An argument of `buf_new_pack`. -/
inductive PackArg where
  /-- A number, as its bits. -/
  | int (v : Nat)
  /-- A pointer, as the bytes that can be read there, or `NULL`. -/
  | ptr (mem : Option (List UInt8))
  /-- A string, as the bytes before its terminator. -/
  | str (bs : List UInt8)
  /-- A buffer, as its data, or `NULL`. -/
  | buf (data : Option (List UInt8))
deriving DecidableEq, Repr

/-- The variables of `_build_pack_queue`.  `size` is `q.size`. -/
structure PackState where
  size : Nat
  percent : Bool
  bigendian : Bool
  /-- The blocks queued so far. -/
  queue : List (List UInt8)
  totsize : Nat
  /-- The arguments not yet taken. -/
  args : List PackArg
deriving DecidableEq, Repr

/-- The state between two directives. -/
def idle (queue : List (List UInt8)) (totsize : Nat) (args : List PackArg) : PackState :=
  { size := 0, percent := false, bigendian := false, queue := queue, totsize := totsize,
    args := args }

/-- `QUEUE_ADD`: an empty block, which is also what a null pointer gives, is not
queued. -/
def PackState.add (s : PackState) (bs : List UInt8) (args : List PackArg) : PackState :=
  idle (if bs = [] then s.queue else s.queue ++ [bs]) (s.totsize + bs.length) args

def PackState.addChar (s : PackState) (b : UInt8) : PackState := s.add [b] s.args

/-- `BUILD_NUM_PTR`: the argument is cast to the size of the number. -/
def buildNum (host : Endian) (bigendian : Bool) (size v : Nat) : List UInt8 :=
  let v := v % 256 ^ size
  host.bytes size (if bigendian = true ∧ size ≠ sizeChar then host.hton size v else v)

/-- The first `switch`.  `none` when the character is not one of its cases. -/
def packDirective (host : Endian) (s : PackState) : Char → Option (Except Stop PackState)
  | 'p' => some <|
      match s.args with
      | .ptr none :: args => .ok (s.add [] args)
      | .ptr (some mem) :: args =>
          if s.size ≤ mem.length then .ok (s.add (mem.take s.size) args) else .error .outside
      | _ => .error .badArg
  | 's' => some <|
      match s.args with
      | .str bs :: args => .ok (s.add bs args)
      | _ => .error .badArg
  | 'r' => some <|
      match s.args with
      | .buf none :: args => .ok (s.add [] args)
      | .buf (some data) :: args =>
          let size := if s.size = 0 ∨ data.length < s.size then data.length else s.size
          .ok (s.add (data.take size) args)
      | _ => .error .badArg
  | 'u' | 'i' => some <|
      let size := numSize s.size
      if size = sizeInt ∨ size = sizeShort ∨ size = sizeChar then
        match s.args with
        | .int v :: args => .ok (s.add (buildNum host s.bigendian size v) args)
        | _ => .error .badArg
      else .error .error
  | 'Z' => some <| .ok (s.addChar 0)
  | _ => none

/-- `_build_pack_queue`, from a state on. -/
def packLoop (host : Endian) : List Char → PackState → Except Stop PackState
  | [], s => .ok s
  | c :: fmt, s =>
      if c = '%' ∧ s.percent = false then packLoop host fmt { s with percent := true }
      else if c = '%' ∨ s.percent = false then packLoop host fmt (s.addChar c.toUInt8)
      else match packDirective host s c with
      | some r => do packLoop host fmt (← r)
      | none =>
          if s.size ≠ 0 then .error .error
          else if c = '^' then packLoop host fmt { s with bigendian := true }
          else if _hc : c.isDigit = true then
            packLoop host (digits 0 (c :: fmt)).2 { s with size := (digits 0 (c :: fmt)).1 }
          else if c = 'l' then packLoop host fmt { s with size := sizeLong }
          else if c = 'h' then packLoop host fmt { s with size := sizeShort }
          else if c = 'b' then packLoop host fmt { s with size := sizeChar }
          else packLoop host fmt (s.addChar c.toUInt8)
termination_by fmt => fmt.length
decreasing_by
  all_goals first
    | exact Nat.lt_succ_self _
    | exact length_digits_lt _hc 0 fmt

/-- `buf_new_pack`: `NULL` when the format is wrong or nothing was queued. -/
def bufNewPack (host : Endian) (fmt : List Char) (args : List PackArg) :
    Except Stop (Option (List UInt8)) :=
  match packLoop host fmt (idle [] 0 args) with
  | .ok s => .ok (if 0 < s.totsize then some s.queue.flatten else none)
  | .error .error => .ok none
  | .error e => .error e

/-- `buf_append_pack`, which leaves the buffer as it is where `buf_new_pack` gives
`NULL`. -/
def bufAppendPack (host : Endian) (buf : List UInt8) (fmt : List Char) (args : List PackArg) :
    Except Stop (List UInt8) :=
  match packLoop host fmt (idle [] 0 args) with
  | .ok s => .ok (if 0 < s.totsize then buf ++ s.queue.flatten else buf)
  | .error .error => .ok buf
  | .error e => .error e

/-! ## Steps of the interpreter -/

section Steps

variable {host : Endian} {fmt : List Char}

theorem pack_literal {s : PackState} {c : Char} (hc : c ≠ '%') (hs : s.percent = false) :
    packLoop host (c :: fmt) s = packLoop host fmt (s.addChar c.toUInt8) := by
  rw [packLoop, if_neg (fun hp => hc hp.1), if_pos (Or.inr hs)]

theorem pack_percent {s : PackState} (hs : s.percent = false) :
    packLoop host ('%' :: fmt) s = packLoop host fmt { s with percent := true } := by
  rw [packLoop, if_pos ⟨rfl, hs⟩]

theorem pack_percent_percent {s : PackState} (hs : s.percent = true) :
    packLoop host ('%' :: fmt) s = packLoop host fmt (s.addChar 37) := by
  rw [packLoop, if_neg (fun hp => by simp [hs] at hp), if_pos (Or.inl rfl)]
  rfl

theorem pack_directive {s s' : PackState} {c : Char} (hc : c ≠ '%') (hs : s.percent = true)
    (hr : packDirective host s c = some (.ok s')) :
    packLoop host (c :: fmt) s = packLoop host fmt s' := by
  rw [packLoop, if_neg (fun hp => hc hp.1), if_neg (fun hp => hp.elim hc (by simp [hs])), hr]
  rfl

theorem pack_caret {s : PackState} (hz : s.size = 0) (hs : s.percent = true) :
    packLoop host ('^' :: fmt) s = packLoop host fmt { s with bigendian := true } := by
  rw [packLoop]
  simp [hz, hs, packDirective]

theorem pack_letter {s : PackState} (hz : s.size = 0) (hs : s.percent = true) :
    packLoop host ('h' :: fmt) s = packLoop host fmt { s with size := sizeShort } ∧
    packLoop host ('b' :: fmt) s = packLoop host fmt { s with size := sizeChar } := by
  constructor <;> rw [packLoop] <;> simp [hz, hs, packDirective]

theorem packDirective_digit {s : PackState} {c : Char} (hc : c.isDigit = true) :
    packDirective host s c = none := by
  unfold packDirective
  split <;> first | rfl | (exact absurd hc (by decide))

theorem pack_decimal {s : PackState} (hz : s.size = 0) (hs : s.percent = true) (n : Nat)
    {c : Char} (hc : c.isDigit = false) :
    packLoop host (decimal n ++ c :: fmt) s = packLoop host (c :: fmt) { s with size := n } := by
  obtain ⟨d, ds, hd, hdig⟩ := exists_decimal n
  have hdigits := digits_decimal n hc fmt
  have hp : d ≠ '%' := by rintro rfl; exact absurd hdig (by decide)
  have hcaret : d ≠ '^' := by rintro rfl; exact absurd hdig (by decide)
  rw [hd, List.cons_append] at hdigits ⊢
  rw [packLoop]
  simp [hz, hp, hs, packDirective_digit hdig, hcaret, hdig, hdigits]

end Steps

end Buffer
end IrC6
