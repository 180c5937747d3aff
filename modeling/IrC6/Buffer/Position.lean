import IrC6.Buffer.Unpack

/-!
# Sizes with a position

`%N$` puts the size it reads at place `N` of the pending sizes.  `position` is a `size_t`
that `SIMPLEQ_FOREACH` counts down along the queue.  The size goes behind the element where
it becomes zero; what is left of it behind the last element is the number of zero sizes to
pad with.

An insertion inside the queue is followed by `RESET_VAR` and `continue`, which goes on with
the loop over the queue: `position` is counted down below zero, and the padding that follows
asks for as many entries as there are numbers in a `size_t`.  So memory matters here.  It is
the number of entries that `a_new` can still give.
-/

namespace IrC6
namespace Buffer

/-- `--position` of a `size_t`. -/
def countDown (position : Nat) : Nat := if position = 0 then 2 ^ 64 - 1 else position - 1

/-- `SIMPLEQ_FOREACH(slt, &head, queue)` of the size `sl`, with the elements behind it and
those still to come: the queue after it, and `position`. -/
def foreachInsert (sl : Nat) (done : List Nat) (position : Nat) (todo : List Nat) :
    List Nat × Nat :=
  match todo with
  | [] => (done, position)
  | slt :: todo =>
      if _hzero : countDown position = 0 then
        -- `RESET_VAR`, and the next element is the new one.
        foreachInsert sl (done ++ [slt]) 0 (sl :: todo)
      else foreachInsert sl (done ++ [slt]) (countDown position) todo
termination_by 2 * todo.length + if position = 0 then 0 else 1
decreasing_by
  · have hone : position ≠ 0 := fun h => by simp [countDown, h] at _hzero
    simp only [List.length_cons, if_neg hone, if_true]
    omega
  · simp only [List.length_cons, if_neg _hzero]
    omega

/-- `for (i = 0; i < position; i++)`: the zero sizes at the end of the queue. -/
def pad : Nat → Nat → List Nat → Except Stop (List Nat × Nat)
  | 0, cells, head => .ok (head, cells)
  | _ + 1, 0, _ => .error .error
  | position + 1, cells + 1, head => pad position cells (head ++ [0])

/-- The end of the case of `$`, once `sl` has its size. -/
def insertPosition (position sl cells : Nat) (head : List Nat) :
    Except Stop (List Nat × Nat) :=
  if position = 0 then .ok (sl :: head, cells)
  else do
    let r := foreachInsert sl [] position head
    let (head, cells) ← pad r.2 cells r.1
    .ok (head ++ [sl], cells)

/-- The case of `$` with memory for `cells` entries.  The digits of the position were
added up in a `size_t`. -/
def dollar (host : Endian) (data : List UInt8) (cells : Nat) (s : UnpackState) :
    Except Stop (UnpackState × Nat) :=
  match cells with
  | 0 => .error .error
  | cells + 1 => do
      let (size, v) ← readNum host data s
      let (head, cells) ← insertPosition (s.position % 2 ^ 64) v cells s.head
      .ok (between (s.offs + size) head s.out, cells)

/-! ## The loops -/

/-- A position behind the end of the queue. -/
theorem foreachInsert_behind (sl : Nat) (done : List Nat) {position : Nat} {todo : List Nat}
    (h : todo.length < position) :
    foreachInsert sl done position todo = (done ++ todo, position - todo.length) := by
  induction todo generalizing done position with
  | nil =>
      rw [foreachInsert, List.append_nil]
      rfl
  | cons slt todo ih =>
      rw [List.length_cons] at h
      have hdown : countDown position = position - 1 := if_neg (by omega)
      rw [foreachInsert, hdown, dif_neg (by omega), ih _ (by omega), List.append_assoc,
        List.length_cons, Nat.sub_sub, Nat.add_comm 1]
      rfl

/-- Behind an insertion the rest of the queue counts down below zero. -/
theorem foreachInsert_wrapped (sl : Nat) (done : List Nat) {todo : List Nat}
    (h : todo.length < 2 ^ 64) (hne : todo ≠ []) :
    foreachInsert sl done 0 todo = (done ++ todo, 2 ^ 64 - todo.length) := by
  obtain ⟨slt, rest, rfl⟩ := List.exists_cons_of_ne_nil hne
  rw [List.length_cons] at h
  have hdown : countDown 0 = 2 ^ 64 - 1 := rfl
  rw [foreachInsert, hdown, dif_neg (by omega), foreachInsert_behind _ _ (by omega),
    List.append_assoc, List.length_cons, Nat.sub_sub, Nat.add_comm 1]
  rfl

/-- A position inside the queue: the size is put there, and `position` wraps. -/
theorem foreachInsert_inside (sl : Nat) (done : List Nat) {position : Nat} {todo : List Nat}
    (hone : 1 ≤ position) (h : position ≤ todo.length) (hlen : todo.length < 2 ^ 64 - 1) :
    foreachInsert sl done position todo =
      (done ++ todo.take position ++ sl :: todo.drop position,
        2 ^ 64 - (todo.length - position + 1)) := by
  induction todo generalizing done position with
  | nil =>
      rw [List.length_nil] at h
      omega
  | cons slt todo ih =>
      rw [List.length_cons] at h hlen
      have hdown : countDown position = position - 1 := if_neg (by omega)
      rw [foreachInsert, hdown]
      by_cases hlast : position = 1
      · subst hlast
        rw [dif_pos rfl, foreachInsert_wrapped _ _ (by rw [List.length_cons]; omega)
          (List.cons_ne_nil _ _)]
        rfl
      · have hsucc : position = position - 1 + 1 := by omega
        rw [dif_neg (by omega), ih _ (by omega) (by omega) (by omega), List.length_cons]
        conv => rhs; rw [hsucc]
        rw [List.take_succ_cons, List.drop_succ_cons, Nat.add_sub_add_right, List.append_assoc]
        simp

theorem pad_eq (position cells : Nat) (head : List Nat) :
    pad position cells head =
      if position ≤ cells then .ok (head ++ List.replicate position 0, cells - position)
      else .error .error := by
  induction position generalizing cells head with
  | zero => simp [pad]
  | succ position ih =>
      cases cells with
      | zero => rfl
      | succ cells =>
          rw [pad, ih, Nat.add_sub_add_right, List.append_assoc]
          simp [List.replicate_succ]

/-- What the end of `$` makes of a queue: there is no memory for a position inside it. -/
theorem insertPosition_eq {position cells : Nat} (sl : Nat) {head : List Nat}
    (hposition : position < 2 ^ 64) (hspace : head.length + cells ≤ 2 ^ 60) :
    insertPosition position sl cells head =
      if position = 0 then .ok (sl :: head, cells)
      else if head.length < position ∧ position - head.length ≤ cells then
        .ok (head ++ List.replicate (position - head.length) 0 ++ [sl],
          cells - (position - head.length))
      else .error .error := by
  unfold insertPosition
  by_cases hzero : position = 0
  · rw [if_pos hzero, if_pos hzero]
  · rw [if_neg hzero, if_neg hzero]
    by_cases hbehind : head.length < position
    · simp only [foreachInsert_behind sl [] hbehind, List.nil_append, pad_eq]
      by_cases hmemory : position - head.length ≤ cells
      · rw [if_pos hmemory, if_pos ⟨hbehind, hmemory⟩]
        rfl
      · rw [if_neg hmemory, if_neg (fun h => hmemory h.2)]
        rfl
    · have hinside : foreachInsert sl [] position head =
          ([] ++ head.take position ++ sl :: head.drop position,
            2 ^ 64 - (head.length - position + 1)) :=
        foreachInsert_inside sl [] (by omega) (by omega) (by omega)
      simp only [hinside, pad_eq]
      rw [if_neg (by omega), if_neg (fun h => hbehind h.1)]
      rfl

/-- With memory for all it asks for, `$` does what `insertSize` says. -/
theorem dollar_insertSize {host : Endian} {data : List UInt8} {cells cells' : Nat}
    {s s' : UnpackState} (hposition : s.position < 2 ^ 64)
    (hspace : s.head.length + cells ≤ 2 ^ 60) (h : dollar host data cells s = .ok (s', cells')) :
    unpackDirective host data s '$' = some (.ok s') := by
  cases cells with
  | zero => cases h
  | succ cells =>
      rw [dollar_eq]
      unfold dollar at h
      cases hread : readNum host data s with
      | error e =>
          rw [hread] at h
          cases h
      | ok r =>
          rw [hread] at h
          simp only [bind, Except.bind] at h ⊢
          rw [Nat.mod_eq_of_lt hposition, insertPosition_eq _ hposition (by omega)] at h
          unfold insertSize
          by_cases hzero : s.position = 0
          · rw [if_pos hzero] at h ⊢
            cases h
            rfl
          · rw [if_neg hzero] at h ⊢
            by_cases hbehind : s.head.length < s.position ∧ s.position - s.head.length ≤ cells
            · rw [if_pos hbehind] at h
              rw [if_neg (by omega)]
              cases h
              rfl
            · rw [if_neg hbehind] at h
              cases h

/-! ## The directive -/

/-- The letter that may stand in front of `$`. -/
inductive Letter where
  | none
  | long
  | short
  | char
deriving DecidableEq

def Letter.chars : Letter → List Char
  | none => []
  | long => ['l']
  | short => ['h']
  | char => ['b']

def Letter.size : Letter → Nat
  | none => 0
  | long => sizeLong
  | short => sizeShort
  | char => sizeChar

/-- The state in which `%N$` gets to its `$`, with `carets` marks in front of `N`. -/
def atDollar (offs carets position : Nat) (letter : Letter) (head : List Nat) (out : List Out) :
    UnpackState :=
  { offs := offs, size := letter.size, position := position, percent := true,
    bigendian := decide (0 < carets), head := head, out := out }

/-- The number that a run of digits writes. -/
def number (ds : List Char) : Nat := Nat.ofDigitChars 10 ds 0

/-- The queue with a size at place `position`, padded with zeros in front of it. -/
def placed (head : List Nat) (position sl : Nat) : List Nat :=
  (head ++ List.replicate (position - head.length) 0).insertIdx position sl

/-- `%N$` reads a size and puts it at place `N`. -/
def Lands (host : Endian) (data : List UInt8) (cells : Nat) (s : UnpackState) (position : Nat) :
    Prop :=
  ∃ size v cells', readNum host data s = .ok (size, v) ∧
    dollar host data cells s =
      .ok (between (s.offs + size) (placed s.head position v) s.out, cells')

theorem length_placed {head : List Nat} {position : Nat} (sl : Nat) :
    (placed head position sl).length = max head.length position + 1 := by
  rw [placed, List.length_insertIdx_of_le_length, List.length_append, List.length_replicate]
  · omega
  · rw [List.length_append, List.length_replicate]
    omega

theorem placed_behind {head : List Nat} {position : Nat} (sl : Nat) (h : head.length < position) :
    placed head position sl = head ++ List.replicate (position - head.length) 0 ++ [sl] := by
  have hlen : (head ++ List.replicate (position - head.length) 0).length = position := by
    rw [List.length_append, List.length_replicate]
    omega
  have hend := List.insertIdx_length_self
    (l := head ++ List.replicate (position - head.length) 0) (x := sl)
  rwa [hlen] at hend

section Marks

variable {host : Endian} {data : List UInt8} {offs : Nat} (hoffs : offs ≤ data.length)
  (head : List Nat) (out : List Out) (fmt : List Char)
include hoffs

theorem loop_carets (carets : Nat) (big : Bool) :
    unpackLoop host data (List.replicate carets '^' ++ fmt) (within offs 0 big head out) =
      unpackLoop host data fmt (within offs 0 (big || decide (0 < carets)) head out) := by
  induction carets generalizing big with
  | zero => simp
  | succ carets ih =>
      rw [List.replicate_succ, List.cons_append, loop_caret hoffs rfl rfl]
      show unpackLoop host data _ (within offs 0 true head out) = _
      rw [ih, Bool.true_or, decide_eq_true (Nat.succ_pos carets), Bool.or_true]

/-- Digits with `$` behind them are a position. -/
theorem loop_position {ds : List Char} (hne : ds ≠ []) (hds : ∀ d ∈ ds, d.isDigit = true)
    (letter : Letter) (big : Bool) :
    unpackLoop host data (ds ++ (letter.chars ++ '$' :: fmt)) (within offs 0 big head out) =
      unpackLoop host data (letter.chars ++ '$' :: fmt)
        { within offs 0 big head out with position := number ds } := by
  obtain ⟨c, rest, hrest, hc⟩ : ∃ c rest, letter.chars ++ '$' :: fmt = c :: rest ∧
      c.isDigit = false := by
    cases letter <;> exact ⟨_, _, rfl, rfl⟩
  have hpos : isPosition (letter.chars ++ '$' :: fmt) = true := by cases letter <;> rfl
  obtain ⟨d, tail, rfl⟩ := List.exists_cons_of_ne_nil hne
  have hdig := hds d List.mem_cons_self
  have hdigits := digits_append hds 0 hc rest
  have hp : d ≠ '%' := by rintro rfl; exact absurd hdig (by decide)
  have hcaret : d ≠ '^' := by rintro rfl; exact absurd hdig (by decide)
  rw [hrest] at hpos ⊢
  rw [List.cons_append] at hdigits ⊢
  rw [unpackLoop]
  simp only [within, Nat.add_zero, Nat.not_lt.mpr hoffs, if_false, hp, false_and, false_or,
    unpackDirective_digit hdig, hcaret, hdig, dif_pos, hdigits, hpos]
  simp [number]

theorem loop_long {s : UnpackState} (hs : s.offs = offs) (hz : s.size = 0)
    (hpercent : s.percent = true) :
    unpackLoop host data ('l' :: fmt) s = unpackLoop host data fmt { s with size := sizeLong } := by
  rw [unpackLoop]
  simp [hz, hs, Nat.not_lt.mpr hoffs, hpercent, unpackDirective]

/-- The digits and marks of `%N$` lead to its `$`. -/
theorem loop_marks (carets : Nat) {ds : List Char} (hne : ds ≠ [])
    (hds : ∀ d ∈ ds, d.isDigit = true) (letter : Letter) :
    unpackLoop host data (List.replicate carets '^' ++ (ds ++ (letter.chars ++ '$' :: fmt)))
        (within offs 0 false head out) =
      unpackLoop host data ('$' :: fmt) (atDollar offs carets (number ds) letter head out) := by
  rw [loop_carets hoffs, loop_position hoffs head out fmt hne hds, Bool.false_or]
  cases letter with
  | none => rfl
  | long => exact loop_long hoffs _ rfl rfl rfl
  | short => exact (loop_letter hoffs rfl rfl).1
  | char => exact (loop_letter hoffs rfl rfl).2

end Marks

theorem dollar_readNum {host : Endian} {data : List UInt8} {cells : Nat} {s : UnpackState}
    {r : Nat × Nat} (hread : readNum host data s = .ok r) :
    dollar host data (cells + 1) s =
      (insertPosition (s.position % 2 ^ 64) r.2 cells s.head).map fun q =>
        (between (s.offs + r.1) q.1 s.out, q.2) := by
  simp only [dollar, hread, bind, Except.bind]
  cases insertPosition (s.position % 2 ^ 64) r.2 cells s.head with
  | error e => rfl
  | ok q => rfl

theorem lands_condition {host : Endian} {data : List UInt8} {cells : Nat} {s : UnpackState}
    (hone : 1 ≤ s.position) (hspace : s.head.length + cells ≤ 2 ^ 60) :
    Lands host data cells s s.position ↔ (∃ r, readNum host data s = .ok r) ∧
      s.head.length < s.position ∧ s.position - s.head.length < cells := by
  have hmod : s.position % 2 ^ 64 < 2 ^ 64 := Nat.mod_lt _ (by decide)
  constructor
  · rintro ⟨size, v, cells', hread, hdollar⟩
    refine ⟨⟨_, hread⟩, ?_⟩
    cases cells with
    | zero => cases hdollar
    | succ cells =>
        rw [dollar_readNum hread, insertPosition_eq v hmod (by omega)] at hdollar
        by_cases hzero : s.position % 2 ^ 64 = 0
        · -- The size is at the front, and the queue is too short for the place.
          rw [if_pos hzero] at hdollar
          have hlen := congrArg List.length
            (congrArg UnpackState.head (congrArg Prod.fst (Except.ok.inj hdollar)))
          change (v :: s.head).length = (placed s.head s.position v).length at hlen
          rw [length_placed, List.length_cons] at hlen
          omega
        · rw [if_neg hzero] at hdollar
          by_cases hbehind : s.head.length < s.position % 2 ^ 64 ∧
              s.position % 2 ^ 64 - s.head.length ≤ cells
          · rw [if_pos hbehind] at hdollar
            have hlen := congrArg List.length
              (congrArg UnpackState.head (congrArg Prod.fst (Except.ok.inj hdollar)))
            change
              (s.head ++ List.replicate (s.position % 2 ^ 64 - s.head.length) 0 ++ [v]).length =
              (placed s.head s.position v).length at hlen
            rw [length_placed, List.length_append, List.length_append, List.length_replicate,
              List.length_singleton] at hlen
            omega
          · rw [if_neg hbehind] at hdollar
            cases hdollar
  · rintro ⟨⟨r, hread⟩, hshort, hmemory⟩
    obtain ⟨cells, rfl⟩ : ∃ n, cells = n + 1 := ⟨cells - 1, by omega⟩
    have hsmall : s.position % 2 ^ 64 = s.position := Nat.mod_eq_of_lt (by omega)
    refine ⟨r.1, r.2, cells - (s.position - s.head.length), hread, ?_⟩
    rw [dollar_readNum hread, hsmall, insertPosition_eq r.2 (by omega) (by omega),
      if_neg (by omega), if_pos ⟨hshort, by omega⟩, placed_behind r.2 hshort]
    rfl

/-- The marks of `%N$` lead to its `$`, which puts the size it reads at place `N` exactly
when the size can be read, the queue is shorter than `N`, and there is memory for the padding
and the size. -/
theorem lands_iff (host : Endian) (data : List UInt8) (offs cells carets : Nat) (ds : List Char)
    (letter : Letter) (fmt : List Char) (head : List Nat) (out : List Out)
    (hoffs : offs ≤ data.length) (hne : ds ≠ []) (hds : ∀ d ∈ ds, d.isDigit = true)
    (hone : 1 ≤ number ds) (hspace : head.length + cells ≤ 2 ^ 60) :
    unpackLoop host data (List.replicate carets '^' ++ (ds ++ (letter.chars ++ '$' :: fmt)))
        (within offs 0 false head out) =
      unpackLoop host data ('$' :: fmt) (atDollar offs carets (number ds) letter head out) ∧
    (Lands host data cells (atDollar offs carets (number ds) letter head out) (number ds) ↔
      (∃ r, readNum host data (atDollar offs carets (number ds) letter head out) = .ok r) ∧
      head.length < number ds ∧ number ds - head.length < cells) :=
  ⟨loop_marks hoffs head out fmt carets hne hds letter,
    lands_condition (s := atDollar offs carets (number ds) letter head out) hone hspace⟩

theorem lands_iff_second :
    Lands .little [5, 6] 8 (atDollar 0 0 2 .char [] []) 2 :=
  (lands_iff .little [5, 6] 0 8 0 ['2'] .char [] [] [] (by decide) (by decide)
    (List.forall_mem_singleton.mpr rfl) (by decide) (by decide)).2.mpr
    ⟨⟨_, rfl⟩, by decide, by decide⟩

/-- The second directive of `%2b$%1b$`, whose queue is longer than its position. -/
theorem first_not_lands : ¬ Lands .little [5, 6] (2 ^ 59) (atDollar 1 0 1 .char [0, 5] []) 1 := by
  intro h
  have hcond := (lands_condition (by decide) (by decide)).mp h
  exact absurd hcond.2.1 (by decide)

end Buffer
end IrC6
