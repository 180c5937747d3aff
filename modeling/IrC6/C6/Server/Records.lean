import IrC6.Base.SizeT
import IrC6.C6.Server.Decode

/-!
# The offsets of the record loops

Seven handlers take one record after the other out of their payload and write into arrays
with as many elements as the payload says.  `C6_UNPACK` gets what is left of the payload, a
`size_t` difference.  It is a parameter here that uses no more bytes than it is given.  Then
the difference never wraps, but for `cmd_roomlist`, which steps over two bytes behind a room
without looking whether they are there.
-/

namespace IrC6
namespace C6

open Buffer

namespace Records

/-- `C6_UNPACK` from a pointer on, with the length it is given: how many bytes it has used,
with zero for a failure, and what it has stored. -/
abbrev Unpack := Format → List UInt8 → Nat → Nat × List Out

/-- A turn of a loop: where it unpacks, and which elements it writes, each with the number of
elements of its array. -/
structure Turn where
  offs : Nat
  writes : List (Nat × Nat)

/-- The turns of a handler, and what it has made.  It makes nothing where `_CER` returns. -/
abbrev Run (α : Type) := List Turn × Option α

section Handlers

variable (unpack : Unpack) (buf : List UInt8)

/-- `C6_UNPACK(c, buf + offs, len - offs, ..)`. -/
def unpackAt (f : Format) (offs : Nat) : Nat × List Out :=
  unpack f (buf.drop offs) (sizeSub buf.length offs)

/-- The loops, from an element and an offset on.  `store` says which elements a record is
written to and which comes next.  `skip` bytes are stepped over behind each record. -/
def loop (f : Format) (skip : Nat) (store : Nat → List Out → Nat × List (Nat × Nat)) :
    Nat → Nat → Nat → Run (Nat × List (List Out))
  | 0, _, offs => ([], some (offs, []))
  | count + 1, i, offs =>
      let r := unpackAt unpack buf f offs
      if r.1 = 0 then ([⟨offs, []⟩], none)
      else
        let rest := loop f skip store count (store i r.2).1 (offs + r.1 + skip)
        (⟨offs, (store i r.2).2⟩ :: rest.1, rest.2.map fun s => (s.1, r.2 :: s.2))

/-- One element of an array of `n`. -/
def fill (n : Nat) : Nat → List Out → Nat × List (Nat × Nat) := fun i _ => (i + 1, [(i, n)])

/-- One element of each of the three arrays of `cmd_roomlist`. -/
def fillRooms (n : Nat) : Nat → List Out → Nat × List (Nat × Nat) :=
  fun i _ => (i + 1, [(i, n), (i, n), (i, n)])

/-- Two elements of `info`, if the table has the field and the value. -/
def fillInfo (table : List Nat) (n : Nat) : Nat → List Out → Nat × List (Nat × Nat) :=
  fun infos vs => match vs with
  | [.num _ id, .num _ val] =>
      if id = 0 ∨ table.length < id ∨ table.getD (id - 1) 0 ≤ val then (infos, [])
      else (infos + 1, [(infos * 2, n * 2), (infos * 2 + 1, n * 2)])
  | _ => (infos, [])

def cmdInfologin : Run (List (List Out) × List (List Out)) :=
  let r := unpack .infologin buf buf.length
  if r.1 = 0 then ([], none)
  else
    let banners := lastNum r.2 % 2 ^ 8
    let b := loop unpack buf .infologinBanner 0 (fill banners) banners 0 r.1
    match b.2 with
    | none => (b.1, none)
    | some (offs, bannerv) =>
        let r := unpackAt unpack buf .infologin2 offs
        if r.1 = 0 then (b.1 ++ [⟨offs, []⟩], none)
        else
          let pulsanti := lastNum r.2 % 2 ^ 8
          let p := loop unpack buf .infologinBotton 0 (fill pulsanti) pulsanti 0 (offs + r.1)
          (b.1 ++ ⟨offs, []⟩ :: p.1, p.2.map fun s => (bannerv, s.2))

/-- A loop over a count of two bytes in front, behind `CHECK_BAD` on the length. -/
def countedLoop (f : Format) : Run (Nat × List (List Out)) :=
  if buf.length < sizeShort then ([], none)
  else
    let n := ntohs (buf.getD 0 0) (buf.getD 1 0)
    loop unpack buf f 0 (fill n) n 0 sizeShort

def cmdSndUsers : Run (Nat × List (List Out)) := countedLoop unpack buf .sendUsers
def cmdFoundnicks : Run (Nat × List (List Out)) := countedLoop unpack buf .foundnicks
def cmdFoundemail : Run (Nat × List (List Out)) := countedLoop unpack buf .foundemail

/-- A loop behind a record of its own, whose last field is the count. -/
def headedLoop (head f : Format) (width skip : Nat)
    (store : Nat → Nat → List Out → Nat × List (Nat × Nat)) : Run (Nat × List (List Out)) :=
  let r := unpack head buf buf.length
  if r.1 = 0 then ([], none)
  else
    let n := lastNum r.2 % 2 ^ width
    loop unpack buf f skip (store n) n 0 r.1

/-- `table` has the number of values of each field of `c6_userinfo`. -/
def cmdUserInfo (table : List Nat) : Run (Nat × List (List Out)) :=
  headedLoop unpack buf .userinfo .userinfoEntries 16 0 (fillInfo table)

def cmdRoomlist : Run (Nat × List (List Out)) :=
  headedLoop unpack buf .roomlist .roomlist2 16 2 fillRooms

def cmdRoomuserlist : Run (Nat × List (List Out)) :=
  headedLoop unpack buf .roomuserlist .roomuserlistNick 8 0 fill

/-- Every turn starts inside the payload and writes inside its arrays. -/
def Inside (ts : List Turn) : Prop :=
  ∀ t ∈ ts, t.offs ≤ buf.length ∧ ∀ w ∈ t.writes, w.1 < w.2

/-- The loops of the seven handlers stay inside a payload. -/
def LoopsInside (table : List Nat) : Prop :=
  Inside buf (cmdInfologin unpack buf).1 ∧ Inside buf (cmdSndUsers unpack buf).1 ∧
  Inside buf (cmdUserInfo unpack buf table).1 ∧ Inside buf (cmdRoomlist unpack buf).1 ∧
  Inside buf (cmdRoomuserlist unpack buf).1 ∧ Inside buf (cmdFoundnicks unpack buf).1 ∧
  Inside buf (cmdFoundemail unpack buf).1

/-- Each record of some bytes but the last is followed by `skip` of them. -/
def Followed (f : Format) (skip : Nat) : Nat → List UInt8 → Prop
  | 0, _ | 1, _ => True
  | count + 2, rest =>
      let ret := (unpack f rest rest.length).1
      ret ≠ 0 → ret + skip ≤ rest.length ∧ Followed f skip (count + 1) (rest.drop (ret + skip))

/-- Each room of a list but the last has two bytes behind it. -/
def RoomsFollowed : Prop :=
  let r := unpack .roomlist buf buf.length
  r.1 ≠ 0 → Followed unpack .roomlist2 2 (lastNum r.2 % 2 ^ 16) (buf.drop r.1)

end Handlers

/-! ## Loops -/

section Loops

variable {unpack : Unpack} {buf : List UInt8}

theorem inside_nil : Inside buf [] := fun _ h => absurd h List.not_mem_nil

theorem inside_cons {t : Turn} {ts : List Turn} :
    Inside buf (t :: ts) ↔
      (t.offs ≤ buf.length ∧ ∀ w ∈ t.writes, w.1 < w.2) ∧ Inside buf ts :=
  List.forall_mem_cons

theorem inside_append {ts us : List Turn} :
    Inside buf (ts ++ us) ↔ Inside buf ts ∧ Inside buf us := List.forall_mem_append

/-- A record is stored inside the arrays, and takes up one element of them at most. -/
def Stores (n : Nat) (store : Nat → List Out → Nat × List (Nat × Nat)) : Prop :=
  ∀ i vs, i < n → (store i vs).1 ≤ i + 1 ∧ ∀ w ∈ (store i vs).2, w.1 < w.2

theorem stores_fill (n : Nat) : Stores n (fill n) := by
  intro i vs hi
  exact ⟨Nat.le_refl _, by simpa [fill] using hi⟩

theorem stores_fillRooms (n : Nat) : Stores n (fillRooms n) := by
  intro i vs hi
  exact ⟨Nat.le_refl _, by simpa [fillRooms] using hi⟩

theorem stores_fillInfo (table : List Nat) (n : Nat) : Stores n (fillInfo table n) := by
  intro infos vs hi
  unfold fillInfo
  split
  · split
    · exact ⟨Nat.le_succ _, fun _ h => absurd h List.not_mem_nil⟩
    · refine ⟨Nat.le_refl _, fun w hw => ?_⟩
      rcases List.mem_cons.mp hw with rfl | hw
      · show infos * 2 < n * 2
        omega
      · rw [List.mem_singleton.mp hw]
        show infos * 2 + 1 < n * 2
        omega
  · exact ⟨Nat.le_succ _, fun _ h => absurd h List.not_mem_nil⟩

variable {f : Format} {skip n : Nat} {store : Nat → List Out → Nat × List (Nat × Nat)}

theorem followed_zero (hunpack : ∀ f ptr len, (unpack f ptr len).1 ≤ len) (f : Format)
    (count : Nat) (rest : List UInt8) : Followed unpack f 0 count rest := by
  induction count generalizing rest with
  | zero => trivial
  | succ count ih =>
      cases count with
      | zero => trivial
      | succ count => exact fun _ => ⟨hunpack f rest rest.length, ih _⟩

theorem unpackAt_eq (hlen : buf.length < 2 ^ 64) {offs : Nat} (h : offs ≤ buf.length) :
    unpackAt unpack buf f offs = unpack f (buf.drop offs) (buf.drop offs).length := by
  rw [unpackAt, sizeSub_of_le hlen h, List.length_drop]

/-- What has to follow a record that has been read, in offsets of the payload. -/
theorem followed_drop {count offs ret : Nat}
    (hret : (unpack f (buf.drop offs) (buf.drop offs).length).1 = ret) (hne : ret ≠ 0)
    (hoffs : offs ≤ buf.length) :
    Followed unpack f skip (count + 2) (buf.drop offs) ↔
      offs + ret + skip ≤ buf.length ∧
        Followed unpack f skip (count + 1) (buf.drop (offs + ret + skip)) := by
  have hdrop : (buf.drop offs).drop (ret + skip) = buf.drop (offs + ret + skip) := by
    rw [List.drop_drop, Nat.add_assoc]
  simp only [Followed]
  rw [hret]
  simp only [hdrop, List.length_drop]
  constructor
  · intro h
    have hle := (h hne).1
    exact ⟨by omega, (h hne).2⟩
  · rintro ⟨hle, h⟩ -
    exact ⟨by omega, h⟩

/-- A loop with a turn unpacks where it starts. -/
theorem start_of_inside {count i offs : Nat}
    (h : Inside buf (loop unpack buf f skip store (count + 1) i offs).1) : offs ≤ buf.length := by
  simp only [loop] at h
  split at h
  · exact (inside_cons.mp h).1.1
  · exact (inside_cons.mp h).1.1

/-- A loop stays inside exactly when each record but the last is followed by the bytes that
are stepped over. -/
theorem inside_loop_iff (hlen : buf.length < 2 ^ 64) (hstore : Stores n store)
    {count i offs : Nat} (hi : i + count ≤ n) (hoffs : offs ≤ buf.length) :
    Inside buf (loop unpack buf f skip store count i offs).1 ↔
      Followed unpack f skip count (buf.drop offs) := by
  induction count generalizing i offs with
  | zero => exact iff_of_true inside_nil trivial
  | succ count ih =>
      have hunpack : unpackAt unpack buf f offs =
          unpack f (buf.drop offs) (buf.drop offs).length := unpackAt_eq hlen hoffs
      rcases hr : unpackAt unpack buf f offs with ⟨ret, vs⟩
      rw [hr] at hunpack
      by_cases hret : ret = 0
      · -- `_CER` ends the loop.
        have hinside : Inside buf (loop unpack buf f skip store (count + 1) i offs).1 := by
          simp only [loop, hr, if_pos hret]
          exact inside_cons.mpr ⟨⟨hoffs, fun _ h => absurd h List.not_mem_nil⟩, inside_nil⟩
        refine iff_of_true hinside ?_
        cases count with
        | zero => trivial
        | succ count =>
            intro hne
            rw [← hunpack] at hne
            exact absurd hret hne
      · have hturn := hstore i vs (by omega)
        have hcons : Inside buf (loop unpack buf f skip store (count + 1) i offs).1 ↔
            Inside buf (loop unpack buf f skip store count (store i vs).1
              (offs + ret + skip)).1 := by
          simp only [loop, hr, if_neg hret]
          rw [inside_cons]
          exact and_iff_right ⟨hoffs, hturn.2⟩
        rw [hcons]
        cases count with
        | zero => exact iff_of_true inside_nil trivial
        | succ count =>
            rw [followed_drop (congrArg Prod.fst hunpack).symm hret hoffs]
            constructor
            · intro h
              have hle := start_of_inside h
              exact ⟨hle, (ih (by omega) hle).mp h⟩
            · rintro ⟨hle, h⟩
              exact (ih (by omega) hle).mpr h

/-- A loop that steps over nothing, and where it ends. -/
theorem inside_loop (hunpack : ∀ f ptr len, (unpack f ptr len).1 ≤ len)
    (hlen : buf.length < 2 ^ 64) (hstore : Stores n store) {count i offs : Nat}
    (hi : i + count ≤ n) (hoffs : offs ≤ buf.length) :
    Inside buf (loop unpack buf f 0 store count i offs).1 :=
  (inside_loop_iff hlen hstore hi hoffs).mpr (followed_zero hunpack f count _)

theorem end_loop (hunpack : ∀ f ptr len, (unpack f ptr len).1 ≤ len)
    (hlen : buf.length < 2 ^ 64) {count i offs : Nat} (hoffs : offs ≤ buf.length)
    {s : Nat × List (List Out)} (h : (loop unpack buf f 0 store count i offs).2 = some s) :
    s.1 ≤ buf.length := by
  induction count generalizing i offs s with
  | zero =>
      cases h
      exact hoffs
  | succ count ih =>
      have hle := hunpack f (buf.drop offs) (sizeSub buf.length offs)
      rw [sizeSub_of_le hlen hoffs] at hle
      simp only [loop, unpackAt, sizeSub_of_le hlen hoffs] at h
      split at h
      · cases h
      · rcases Option.map_eq_some_iff.mp h with ⟨s', hs', rfl⟩
        exact ih (s := s') (by omega) hs'

end Loops

/-! ## The handlers -/

section Handlers

variable {unpack : Unpack} (hunpack : ∀ f ptr len, (unpack f ptr len).1 ≤ len)
  {buf : List UInt8} (hlen : buf.length < 2 ^ 64)

include hunpack hlen

theorem inside_countedLoop (f : Format) : Inside buf (countedLoop unpack buf f).1 := by
  unfold countedLoop
  split
  · exact inside_nil
  · rename_i hshort
    exact inside_loop hunpack hlen (stores_fill _) (by omega) (by omega)

theorem inside_headedLoop_iff {head f : Format} {width skip : Nat}
    {store : Nat → Nat → List Out → Nat × List (Nat × Nat)} (hstore : ∀ n, Stores n (store n)) :
    Inside buf (headedLoop unpack buf head f width skip store).1 ↔
      ((unpack head buf buf.length).1 ≠ 0 →
        Followed unpack f skip (lastNum (unpack head buf buf.length).2 % 2 ^ width)
          (buf.drop (unpack head buf buf.length).1)) := by
  have hle := hunpack head buf buf.length
  unfold headedLoop
  by_cases hret : (unpack head buf buf.length).1 = 0
  · rw [if_pos hret]
    exact iff_of_true inside_nil fun hne => absurd hret hne
  · rw [if_neg hret, inside_loop_iff hlen (hstore _) (by omega) hle]
    exact ⟨fun h _ => h, fun h => h hret⟩

theorem inside_headedLoop {head f : Format} {width : Nat}
    {store : Nat → Nat → List Out → Nat × List (Nat × Nat)} (hstore : ∀ n, Stores n (store n)) :
    Inside buf (headedLoop unpack buf head f width 0 store).1 :=
  (inside_headedLoop_iff hunpack hlen hstore).mpr fun _ => followed_zero hunpack _ _ _

theorem inside_cmdInfologin : Inside buf (cmdInfologin unpack buf).1 := by
  have hle := hunpack .infologin buf buf.length
  have hbanners : ∀ count, Inside buf (loop unpack buf .infologinBanner 0 (fill count) count 0
      (unpack .infologin buf buf.length).1).1 :=
    fun count => inside_loop hunpack hlen (stores_fill _) (by omega) hle
  dsimp only [cmdInfologin]
  split
  · exact inside_nil
  · split
    · exact hbanners _
    · rename_i offs bannerv hb
      have hoffs : offs ≤ buf.length := end_loop hunpack hlen hle hb
      have hturn : offs ≤ buf.length ∧ ∀ w ∈ ([] : List (Nat × Nat)), w.1 < w.2 :=
        ⟨hoffs, fun _ h => absurd h List.not_mem_nil⟩
      have hret := hunpack .infologin2 (buf.drop offs) (sizeSub buf.length offs)
      rw [sizeSub_of_le hlen hoffs] at hret
      split
      · exact inside_append.mpr ⟨hbanners _, inside_cons.mpr ⟨hturn, inside_nil⟩⟩
      · refine inside_append.mpr ⟨hbanners _, inside_cons.mpr ⟨hturn, ?_⟩⟩
        refine inside_loop hunpack hlen (stores_fill _) (by omega) ?_
        rw [unpackAt, sizeSub_of_le hlen hoffs]
        omega

theorem inside_cmdRoomlist_iff : Inside buf (cmdRoomlist unpack buf).1 ↔ RoomsFollowed unpack buf :=
  inside_headedLoop_iff hunpack hlen stores_fillRooms

/-- The loops stay inside a payload exactly when, in a list of rooms, each room but the last
has two bytes behind it. -/
theorem loopsInside_iff (table : List Nat) :
    LoopsInside unpack buf table ↔ RoomsFollowed unpack buf := by
  rw [LoopsInside, inside_cmdRoomlist_iff hunpack hlen]
  constructor
  · intro h
    exact h.2.2.2.1
  · intro h
    exact ⟨inside_cmdInfologin hunpack hlen, inside_countedLoop hunpack hlen _,
      inside_headedLoop hunpack hlen (stores_fillInfo table), h,
      inside_headedLoop hunpack hlen stores_fill, inside_countedLoop hunpack hlen _,
      inside_countedLoop hunpack hlen _⟩

end Handlers

/-- The unpacker on bytes that are there. -/
def unpackHere : Unpack := fun f ptr len =>
  match c6Unpack .little f (ptr.take len) with
  | .ok r => if r.1 ≤ len then r else (0, [])
  | .error _ => (0, [])

theorem unpackHere_le (f : Format) (ptr : List UInt8) (len : Nat) :
    (unpackHere f ptr len).1 ≤ len := by
  unfold unpackHere
  split
  · split
    · assumption
    · exact Nat.zero_le _
  · exact Nat.zero_le _

theorem unpackHere_ok {f : Format} {ptr : List UInt8} {r : Nat × List Out}
    (h : (readFields .little f.fields ptr).map (fun r => (r.1, r.2.map Out.seen)) = .ok r)
    (hle : r.1 ≤ ptr.length) : unpackHere f ptr ptr.length = r := by
  rw [unpackHere, List.take_length, c6Unpack_eq, h]
  exact if_pos hle

/-- A list of two rooms, `A` and `B`, with the two bytes behind the first. -/
theorem loopsInside_iff_rooms :
    LoopsInside unpackHere [0, 0, 0, 2, 1, 65, 0, 5, 1, 0, 0, 1, 66, 0, 5, 1] [] ↔
      RoomsFollowed unpackHere [0, 0, 0, 2, 1, 65, 0, 5, 1, 0, 0, 1, 66, 0, 5, 1] :=
  loopsInside_iff unpackHere_le (by decide) []

/-- The list ends with the first of its two rooms. -/
theorem loopsInside_fails :
    ¬ ∀ unpack : Unpack, (∀ f ptr len, (unpack f ptr len).1 ≤ len) →
      ∀ buf : List UInt8, buf.length < 2 ^ 64 → ∀ table, LoopsInside unpack buf table := by
  intro h
  have hrooms := (h unpackHere unpackHere_le [0, 0, 0, 2, 1, 65, 0, 5, 1] (by decide) []).2.2.2.1
  rw [inside_cmdRoomlist_iff unpackHere_le (by decide)] at hrooms
  have hhead : unpackHere .roomlist [0, 0, 0, 2, 1, 65, 0, 5, 1] 9 = (4, [.num 2 2]) :=
    unpackHere_ok (by decide) (by decide)
  have hroom : unpackHere .roomlist2 [1, 65, 0, 5, 1] 5 = (5, [.str [65], .num 2 5, .num 1 1]) :=
    unpackHere_ok (by decide) (by decide)
  have hfollowed : Followed unpackHere .roomlist2 2 2 [1, 65, 0, 5, 1] := by
    have hne : (unpackHere .roomlist [0, 0, 0, 2, 1, 65, 0, 5, 1] 9).1 ≠ 0 := by
      rw [hhead]
      decide
    have hrest := hrooms hne
    simp only [List.length_cons, List.length_nil, hhead] at hrest
    exact hrest
  have hret : (unpackHere .roomlist2 [1, 65, 0, 5, 1] 5).1 + 2 ≤ 5 := by
    refine (hfollowed ?_).1
    show (unpackHere .roomlist2 [1, 65, 0, 5, 1] 5).1 ≠ 0
    rw [hroom]
    decide
  rw [hroom] at hret
  exact absurd hret (by decide)

end Records
end C6
end IrC6
