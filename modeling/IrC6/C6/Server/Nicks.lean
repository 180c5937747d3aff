import Mathlib.Logic.Function.Basic
import IrC6.Buffer.RoundTrip
import IrC6.C6.Blob
import IrC6.C6.Server.Decode
import IrC6.Irc.Args

/-!
# The list of nicks

`cmd_nicks` decodes a text with the nicks of a user and their passwords between tags.  It
looks for the tags with `strstr` and puts a NUL where each value ends, so that the pointers
that it collects are strings.  The two arrays of pointers grow by ten elements at a time.

Pointers into the text are offsets.  An array is a chunk of an area, with the size that its
header records.
-/

namespace IrC6
namespace C6

open Buffer

namespace Nicks

/-- What ends `cmd_nicks` before its end: `gui fatal`, which closes the connection, an access
outside the text or an array, and a loop that has not come to its end. -/
inductive Halt where
  | fatal
  | outside
  | depth
deriving DecidableEq, Repr

/-- What `cmd_nicks` emits: `gui warning` and `gui dump data`, or `gui select nick` with the
nicks and their passwords. -/
inductive Emit where
  | invalid (func : String) (buf : List UInt8)
  | selectNick (nicks : List (List UInt8 × List UInt8))
deriving DecidableEq, Repr

def tagNickname : List UInt8 := ascii "<nickname>"
def tagPassword : List UInt8 := ascii "<password>"
def tagError : List UInt8 := ascii "<error>"
def tagOldnick : List UInt8 := ascii "<oldnick"

/-- The string at a pointer. -/
def str (mem : List UInt8) (p : Nat) : List UInt8 := (mem.drop p).takeWhile (· ≠ 0)

/-- `strstr` from a pointer on.  With one character it is `strchr`. -/
def find (mem : List UInt8) (p : Nat) (text : List UInt8) : Option Nat :=
  (Irc.strstr (str mem p) text).map fun found => p + ((str mem p).length - found.length)

/-- `NLIST_ASSERT`. -/
def nlistAssert (p : Option Nat) : Except Halt Nat :=
  match p with
  | some p => .ok p
  | none => .error .fatal

/-- An array of pointers, or `NULL`, with the size in the header of its chunk. -/
structure Vec where
  size : Option Nat
  elems : Nat → Nat

namespace Vec

def null : Vec where
  size := none
  elems := fun _ => 0

/-- `a_nexpand` to `n` pointers of eight bytes. -/
def expand (v : Vec) (n : Nat) : Vec :=
  { v with size := some (match v.size with
      | none => n * 8
      | some old => if old < n * 8 then n * 8 else old) }

def put (v : Vec) (i p : Nat) : Except Halt Vec :=
  if (i + 1) * 8 ≤ v.size.getD 0 then .ok { v with elems := Function.update v.elems i p }
  else .error .outside

end Vec

def roundup (x y : Nat) : Nat := (x + (y - 1)) / y * y

/-- The variables of the loop. -/
structure Scan where
  mem : List UInt8
  xml : Nat
  nicks : Nat
  nickv : Vec
  passv : Vec

/-- A turn of the loop.  It gives nothing where the loop is left. -/
def turn (s : Scan) : Except Halt (Option Scan) :=
  match find s.mem s.xml tagNickname with
  | none => .ok none
  | some p => do
      let p := p + tagNickname.length
      let q ← nlistAssert (find s.mem p [60])
      let mem := s.mem.set q 0
      let n := roundup (s.nicks + 1) 10
      let nickv := if s.nicks % 10 = 0 then s.nickv.expand n else s.nickv
      let passv := if s.nicks % 10 = 0 then s.passv.expand n else s.passv
      let nickv ← nickv.put s.nicks p
      let p ← nlistAssert (find mem (q + 1) tagPassword)
      let p := p + tagPassword.length
      let q ← nlistAssert (find mem p [60])
      let mem := mem.set q 0
      let passv ← passv.put s.nicks p
      .ok (some { mem := mem, xml := q + 1, nicks := s.nicks + 1, nickv := nickv, passv := passv })

def scan : Nat → Scan → Except Halt Scan
  | 0, _ => .error .depth
  | fuel + 1, s => do
      match ← turn s with
      | none => .ok s
      | some s' => scan fuel s'

/-- `cmd_nicks` behind the decoding.  Each way through the branch for `<error>` comes to
`gui fatal`. -/
def selectNicks (data : List UInt8) : Except Halt Emit :=
  if data = [] then .error .outside
  else
    let mem := data.set (data.length - 1) 0
    if (find mem 0 tagOldnick).isSome then .ok (.selectNick [])
    else if (find mem 0 tagError).isSome then .error .fatal
    else do
      let s ← scan (mem.length + 1)
        { mem := mem, xml := 0, nicks := 0, nickv := .null, passv := .null }
      .ok (.selectNick ((List.range s.nicks).map fun i =>
        (str s.mem (s.nickv.elems i), str s.mem (s.passv.elems i))))

def cmdNicks (host : Endian) (long : Long) (md5Key : Fin 16 → UInt8) (buf : List UInt8) :
    Except Halt Emit :=
  if buf.length ≤ sizeShort ∨ buf.getD 0 0 = 0 ∧ buf.getD 1 0 = 0 then .error .fatal
  else match c6Unpack host .nicks buf with
  | .ok (_, [.buf blob]) => selectNicks (c6DecodeXmlBlob long blob md5Key)
  | .error .error => .ok (.invalid "NICKS" buf)
  | _ => .error .outside

/-! ## The texts -/

/-- What may stand between and around the values. -/
structure Filler where
  bytes : List UInt8
  noNul : 0 ∉ bytes
  noTag : ∀ tag ∈ [tagNickname, tagPassword, tagError, tagOldnick], ¬tag <:+: bytes

structure Value where
  bytes : List UInt8
  noNul : 0 ∉ bytes
  noTag : 60 ∉ bytes

/-- A nick and its password, with what stands in front of each of them. -/
structure Entry where
  before : Filler
  nick : Value
  middle : Filler
  pass : Value

def Entry.text (e : Entry) : List UInt8 :=
  e.before.bytes ++ (tagNickname ++ (e.nick.bytes ++ (ascii "</nickname>" ++
    (e.middle.bytes ++ (tagPassword ++ (e.pass.bytes ++ ascii "</password>"))))))

def textOf (es : List Entry) (after : Filler) : List UInt8 := es.flatMap Entry.text ++ after.bytes

/-! ## Finding a tag -/

section Tags

variable {t f rest : List UInt8}

theorem strstr_here (tag rest : List UInt8) :
    Irc.strstr (tag ++ rest) tag = some (tag ++ rest) := by
  have hprefix : tag.isPrefixOf (tag ++ rest) = true :=
    List.isPrefixOf_iff_prefix.mpr (List.prefix_append tag rest)
  unfold Irc.strstr
  rw [if_pos hprefix]

theorem strstr_cons {b : UInt8} (h : ¬t <+: b :: rest) :
    Irc.strstr (b :: rest) t = Irc.strstr rest t := by
  have hprefix : ¬t.isPrefixOf (b :: rest) = true :=
    fun hp => h (List.isPrefixOf_iff_prefix.mp hp)
  rw [Irc.strstr, if_neg hprefix]

/-- Bytes other than `<` are skipped. -/
theorem strstr_free (h : 60 ∉ f) :
    Irc.strstr (f ++ rest) (60 :: t) = Irc.strstr rest (60 :: t) := by
  induction f with
  | nil => rfl
  | cons b f ih =>
      have hb : b ≠ 60 := fun hb => h (hb ▸ List.mem_cons_self)
      rw [List.cons_append, strstr_cons fun hp => hb (List.cons_prefix_cons.mp hp).1.symm,
        ih fun hf => h (List.mem_cons_of_mem b hf)]

/-- A tag that begins otherwise is skipped. -/
theorem strstr_other {b c : UInt8} (h : b ≠ c) :
    Irc.strstr (60 :: b :: rest) (60 :: c :: t) = Irc.strstr (b :: rest) (60 :: c :: t) :=
  strstr_cons fun hp => h (List.cons_prefix_cons.mp (List.cons_prefix_cons.mp hp).2).1.symm

/-- A tag does not begin in what stands before a `<` and end behind it. -/
theorem not_prefix_of_not_infix (ht : 60 ∉ t) {b : UInt8} (hf : ¬60 :: t <:+: b :: f) :
    ¬60 :: t <+: b :: f ++ 60 :: rest := by
  intro hp
  rcases List.prefix_or_prefix_of_prefix hp (List.prefix_append (b :: f) (60 :: rest)) with h | h
  · exact hf h.isInfix
  · rcases h with ⟨u, hu⟩
    rw [← hu] at hp
    have hrest := (List.prefix_append_right_inj (b :: f)).mp hp
    cases u with
    | nil => exact hf (by rw [← hu, List.append_nil])
    | cons x u =>
        have hx : x = 60 := (List.cons_prefix_cons.mp hrest).1
        rw [List.cons_append, List.cons.injEq] at hu
        exact ht (hu.2 ▸ List.mem_append_right f (hx ▸ List.mem_cons_self))

/-- A filler without the tag is skipped. -/
theorem strstr_skip (ht : 60 ∉ t) (hf : ¬60 :: t <:+: f) :
    Irc.strstr (f ++ 60 :: rest) (60 :: t) = Irc.strstr (60 :: rest) (60 :: t) := by
  induction f with
  | nil => rfl
  | cons b f ih =>
      have hnot : ¬60 :: t <+: b :: f ++ 60 :: rest := not_prefix_of_not_infix ht hf
      rw [List.cons_append] at hnot ⊢
      rw [strstr_cons hnot, ih fun h => hf (List.infix_cons h)]

theorem strstr_none (hf : ¬60 :: t <:+: f) : Irc.strstr f (60 :: t) = none := by
  induction f with
  | nil => rfl
  | cons b f ih =>
      rw [strstr_cons fun hp => hf hp.isInfix, ih fun h => hf (List.infix_cons h)]

end Tags

/-! ## Strings in the text -/

section Strings

variable {mem body tail : List UInt8} {p q : Nat}

theorem str_of_drop (h : mem.drop p = body ++ 0 :: tail) (hbody : 0 ∉ body) : str mem p = body := by
  have hall : ∀ b ∈ body, (decide (b ≠ 0)) = true := by
    intro b hb
    exact decide_eq_true fun h0 => hbody (h0 ▸ hb)
  rw [str, h, List.takeWhile_append_of_pos hall, List.takeWhile_cons_of_neg (by decide),
    List.append_nil]

theorem find_of_drop {skip found text : List UInt8}
    (h : mem.drop p = (skip ++ found) ++ 0 :: tail) (hbody : 0 ∉ skip ++ found)
    (hfound : Irc.strstr (skip ++ found) text = some found) :
    find mem p text = some (p + skip.length) := by
  rw [find, str_of_drop h hbody, hfound, Option.map_some, List.length_append,
    Nat.add_sub_cancel]

theorem find_eq_none {text : List UInt8} (h : mem.drop p = body ++ 0 :: tail) (hbody : 0 ∉ body)
    (hnone : Irc.strstr body text = none) : find mem p text = none := by
  rw [find, str_of_drop h hbody, hnone]
  rfl

/-- The end of a value. -/
theorem find_end {value rest : List UInt8} (h : mem.drop p = value ++ 60 :: rest ++ 0 :: tail)
    (hnul : 0 ∉ value ++ 60 :: rest) (hvalue : 60 ∉ value) :
    find mem p [60] = some (p + value.length) := by
  refine find_of_drop h hnul ?_
  rw [strstr_free hvalue]
  exact strstr_here [60] rest

/-- A string with its NUL, which lies before an offset. -/
def Ends (mem : List UInt8) (xml p : Nat) (value : List UInt8) : Prop :=
  (∃ r, mem.drop p = value ++ 0 :: r) ∧ p + value.length < xml

/-- A NUL that is written behind a string leaves it as it is. -/
theorem Ends.set {xml xml' : Nat} {value : List UInt8} (h : Ends mem xml p value) (hq : xml ≤ q)
    (hxml : xml ≤ xml') : Ends (mem.set q 0) xml' p value := by
  rcases h with ⟨⟨r, hr⟩, hlt⟩
  refine ⟨⟨r.set (q - p - value.length - 1) 0, ?_⟩, by omega⟩
  rw [List.drop_set, if_neg (by omega), hr, List.set_append_right _ _ (by omega)]
  obtain ⟨k, hk⟩ : ∃ k, q - p - value.length = k + 1 := ⟨q - p - value.length - 1, by omega⟩
  rw [hk, List.set_cons_succ, Nat.add_sub_cancel]

/-- The NUL that ends a value. -/
theorem ends_set {value rest : List UInt8} (h : mem.drop p = value ++ 60 :: rest) :
    Ends (mem.set (p + value.length) 0) (p + value.length + 1) p value := by
  refine ⟨⟨rest, ?_⟩, Nat.lt_succ_self _⟩
  rw [List.drop_set, if_neg (by omega), h, Nat.add_sub_cancel_left,
    List.set_append_right _ _ (Nat.le_refl _), Nat.sub_self, List.set_cons_zero]

theorem drop_set_succ (mem : List UInt8) (q : Nat) :
    (mem.set q 0).drop (q + 1) = mem.drop (q + 1) := by
  rw [List.drop_set, if_pos (Nat.lt_succ_self q)]

end Strings

/-! ## The loop -/

theorem size_expand {v : Vec} {n : Nat} (h : v.size.getD 0 < n * 8) :
    (v.expand n).size.getD 0 = n * 8 := by
  rcases hv : v.size with _ | old
  · simp [Vec.expand, hv]
  · rw [hv, Option.getD_some] at h
    simp only [Vec.expand, hv, Option.getD_some]
    rw [if_pos h]

/-- An array that has grown for its next element takes it. -/
theorem put_grown {v : Vec} {n : Nat} (h : v.size.getD 0 = roundup n 10 * 8) (p : Nat) :
    ∃ v', (if n % 10 = 0 then v.expand (roundup (n + 1) 10) else v).put n p = .ok v' ∧
      v'.size.getD 0 = roundup (n + 1) 10 * 8 ∧ v'.elems = Function.update v.elems n p := by
  have hround : roundup n 10 = (n + 9) / 10 * 10 ∧ roundup (n + 1) 10 = (n + 1 + 9) / 10 * 10 :=
    ⟨rfl, rfl⟩
  by_cases hn : n % 10 = 0
  · have hsize : (v.expand (roundup (n + 1) 10)).size.getD 0 = roundup (n + 1) 10 * 8 :=
      size_expand (by omega)
    have hroom : (n + 1) * 8 ≤ (v.expand (roundup (n + 1) 10)).size.getD 0 := by omega
    rw [if_pos hn]
    exact ⟨_, if_pos hroom, hsize, rfl⟩
  · have hsize : v.size.getD 0 = roundup (n + 1) 10 * 8 := by omega
    have hroom : (n + 1) * 8 ≤ v.size.getD 0 := by omega
    rw [if_neg hn]
    exact ⟨_, if_pos hroom, hsize, rfl⟩

theorem drop_add {mem a b : List UInt8} {p : Nat} (h : mem.drop p = a ++ b) :
    mem.drop (p + a.length) = b := by
  rw [← List.drop_drop, h, List.drop_left]

/-- A tag is found, the value behind it ends at the next `<`, and a NUL is put there. -/
theorem read_value {mem skip tag value rest tail : List UInt8} {p : Nat}
    (h : mem.drop p = (skip ++ (tag ++ (value ++ 60 :: rest))) ++ 0 :: tail)
    (hnul : 0 ∉ skip ++ (tag ++ (value ++ 60 :: rest))) (hvalue : 60 ∉ value)
    (htag : Irc.strstr (skip ++ (tag ++ (value ++ 60 :: rest))) tag =
      some (tag ++ (value ++ 60 :: rest))) :
    ∃ i q, find mem p tag = some i ∧ find mem (i + tag.length) [60] = some q ∧ p ≤ q ∧
      Ends (mem.set q 0) (q + 1) (i + tag.length) value ∧
      (mem.set q 0).drop (q + 1) = rest ++ 0 :: tail := by
  have hskip : mem.drop (p + skip.length) = tag ++ (value ++ 60 :: rest ++ 0 :: tail) :=
    drop_add (by rw [h]; simp only [List.append_assoc])
  have hstart : mem.drop (p + skip.length + tag.length) = value ++ 60 :: rest ++ 0 :: tail :=
    drop_add hskip
  have hnul' : 0 ∉ value ++ 60 :: rest :=
    fun hmem => hnul (List.mem_append_right _ (List.mem_append_right _ hmem))
  have hvend : mem.drop (p + skip.length + tag.length) =
      value ++ 60 :: (rest ++ 0 :: tail) := by
    rw [hstart, List.append_assoc, List.cons_append]
  have hnext : mem.drop (p + skip.length + tag.length + value.length + 1) = rest ++ 0 :: tail := by
    rw [← List.drop_drop, drop_add hvend, List.drop_one, List.tail_cons]
  refine ⟨p + skip.length, _, find_of_drop h hnul htag, find_end hstart hnul' hvalue, by omega,
    ends_set hvend, ?_⟩
  rw [drop_set_succ, hnext]

/-- The pairs that have been read: their strings stand in front of the unread text, and the
arrays have room for them. -/
structure Read (s : Scan) (ps : List (List UInt8 × List UInt8)) : Prop where
  count : s.nicks = ps.length
  ends : ∀ i x, ps[i]? = some x →
    Ends s.mem s.xml (s.nickv.elems i) x.1 ∧ Ends s.mem s.xml (s.passv.elems i) x.2
  nickRoom : s.nickv.size.getD 0 = roundup s.nicks 10 * 8
  passRoom : s.passv.size.getD 0 = roundup s.nicks 10 * 8

theorem Entry.noNul (e : Entry) : 0 ∉ e.text := by
  have htags : 0 ∉ tagNickname ∧ 0 ∉ ascii "</nickname>" ∧ 0 ∉ tagPassword ∧
      0 ∉ ascii "</password>" := by decide
  simp only [Entry.text, List.mem_append, not_or]
  exact ⟨e.before.noNul, htags.1, e.nick.noNul, htags.2.1, e.middle.noNul, htags.2.2.1,
    e.pass.noNul, htags.2.2.2⟩

/-- What stands behind the nick of an entry, and behind its password. -/
def Entry.afterNick (e : Entry) (rest : List UInt8) : List UInt8 :=
  (ascii "/nickname>" ++ e.middle.bytes) ++
    (tagPassword ++ (e.pass.bytes ++ 60 :: (ascii "/password>" ++ rest)))

theorem Entry.text_append (e : Entry) (g rest : List UInt8) : g ++ e.text ++ rest =
    (g ++ e.before.bytes) ++ (tagNickname ++ (e.nick.bytes ++ 60 :: e.afterNick rest)) := by
  have hcloseN : ascii "</nickname>" = 60 :: ascii "/nickname>" := by decide
  have hcloseP : ascii "</password>" = 60 :: ascii "/password>" := by decide
  simp only [Entry.text, Entry.afterNick, hcloseN, hcloseP, List.append_assoc, List.cons_append]

/-- The next tag is the one behind a filler, with bytes other than `<` in front of it. -/
theorem strstr_filler {tag t : List UInt8} (htag : tag = 60 :: t) (ht : 60 ∉ t) {g : List UInt8}
    (hg : 60 ∉ g) (f : Filler)
    (hmem : tag ∈ [tagNickname, tagPassword, tagError, tagOldnick]) (rest : List UInt8) :
    Irc.strstr ((g ++ f.bytes) ++ (tag ++ rest)) tag = some (tag ++ rest) := by
  have hf := f.noTag tag hmem
  subst htag
  rw [List.append_assoc, strstr_free hg, List.cons_append, strstr_skip ht hf]
  exact strstr_here (60 :: t) rest

/-- A turn reads an entry, with some bytes in front of it that the turn before has left. -/
theorem turn_entry {s : Scan} {ps : List (List UInt8 × List UInt8)} {g rest tail : List UInt8}
    (hread : Read s ps) (e : Entry) (hg : 60 ∉ g) (hnul : 0 ∉ g ++ e.text ++ rest)
    (hdrop : s.mem.drop s.xml = (g ++ e.text ++ rest) ++ 0 :: tail) :
    ∃ s', turn s = .ok (some s') ∧ Read s' (ps ++ [(e.nick.bytes, e.pass.bytes)]) ∧
      s'.mem.drop s'.xml = (ascii "/password>" ++ rest) ++ 0 :: tail := by
  rw [e.text_append] at hnul hdrop
  have htagN : tagNickname = 60 :: ascii "nickname>" := by decide
  have htagP : tagPassword = 60 :: ascii "password>" := by decide
  have hfree : 60 ∉ ascii "nickname>" ∧ 60 ∉ ascii "password>" ∧ 60 ∉ ascii "/nickname>" := by
    decide
  obtain ⟨i, q, hfindN, hendN, hleN, hnick, hdropN⟩ := read_value hdrop hnul e.nick.noTag
    (strstr_filler htagN hfree.1 hg e.before (by simp) _)
  have hnulP : 0 ∉ e.afterNick rest := fun hmem => hnul (List.mem_append_right _
    (List.mem_append_right _ (List.mem_append_right _ (List.mem_cons_of_mem _ hmem))))
  obtain ⟨j, r, hfindP, hendP, hleP, hpass, hdropP⟩ := read_value hdropN hnulP e.pass.noTag
    (strstr_filler htagP hfree.2.1 hfree.2.2 e.middle (by simp) _)
  obtain ⟨nickv, hnickv, hnroom, hnelems⟩ := put_grown hread.nickRoom (i + tagNickname.length)
  obtain ⟨passv, hpassv, hproom, hpelems⟩ := put_grown hread.passRoom (j + tagPassword.length)
  refine ⟨{ mem := (s.mem.set q 0).set r 0, xml := r + 1, nicks := s.nicks + 1, nickv := nickv,
            passv := passv }, ?_, ⟨?_, ?_, hnroom, hproom⟩, hdropP⟩
  · simp only [turn, hfindN, hendN, hfindP, hendP, nlistAssert, bind, Except.bind, hnickv, hpassv]
  · rw [List.length_append, ← hread.count, List.length_singleton]
  · intro k x hk
    simp only [hnelems, hpelems]
    by_cases hlast : k = ps.length
    · -- The pair of this turn.
      subst hlast
      rw [List.getElem?_append_right (Nat.le_refl _), Nat.sub_self] at hk
      obtain rfl : (e.nick.bytes, e.pass.bytes) = x := Option.some.inj hk
      rw [← hread.count, Function.update_self, Function.update_self]
      exact ⟨hnick.set hleP (by omega), hpass⟩
    · have hlt : k < ps.length := by
        have hlen := (List.getElem?_eq_some_iff.mp hk).1
        rw [List.length_append, List.length_singleton] at hlen
        omega
      rw [List.getElem?_append_left hlt] at hk
      have hne : k ≠ s.nicks := fun h => hlast (h.trans hread.count)
      rw [Function.update_of_ne hne, Function.update_of_ne hne]
      rcases hread.ends k x hk with ⟨hn, hp⟩
      have hle : s.xml ≤ q + 1 := by omega
      exact ⟨(hn.set hleN hle).set hleP (by omega), (hp.set hleN hle).set hleP (by omega)⟩

/-- The loop reads the entries, and leaves at the end of the text. -/
theorem scan_entries {fuel : Nat} {s : Scan} {ps : List (List UInt8 × List UInt8)}
    {g tail : List UInt8} (es : List Entry) (after : Filler) (hread : Read s ps) (hg : 60 ∉ g)
    (hg0 : 0 ∉ g) (hdrop : s.mem.drop s.xml = (g ++ textOf es after) ++ 0 :: tail)
    (hfuel : es.length < fuel) :
    ∃ s', scan fuel s = .ok s' ∧
      Read s' (ps ++ es.map fun e => (e.nick.bytes, e.pass.bytes)) := by
  induction es generalizing fuel s ps g with
  | nil =>
      obtain ⟨fuel, rfl⟩ : ∃ n, fuel = n + 1 := ⟨fuel - 1, by omega⟩
      have hnone : find s.mem s.xml tagNickname = none := by
        refine find_eq_none hdrop ?_ ?_
        · simp only [textOf, List.flatMap_nil, List.nil_append, List.mem_append, not_or]
          exact ⟨hg0, after.noNul⟩
        · have htag : tagNickname = 60 :: ascii "nickname>" := by decide
          rw [htag, strstr_free hg]
          exact strstr_none (htag ▸ after.noTag tagNickname (by simp))
      have hturn : turn s = .ok none := by rw [turn, hnone]
      refine ⟨s, ?_, by rw [List.map_nil, List.append_nil]; exact hread⟩
      rw [scan, hturn]
      rfl
  | cons e es ih =>
      obtain ⟨fuel, rfl⟩ : ∃ n, fuel = n + 1 := ⟨fuel - 1, by omega⟩
      have htext : g ++ textOf (e :: es) after = g ++ e.text ++ textOf es after := by
        simp only [textOf, List.flatMap_cons, List.append_assoc]
      have hnul : 0 ∉ g ++ e.text ++ textOf es after := by
        simp only [List.mem_append, textOf, List.mem_flatMap, not_or]
        exact ⟨⟨hg0, e.noNul⟩, fun ⟨e', _, h⟩ => e'.noNul h, after.noNul⟩
      rw [htext] at hdrop
      obtain ⟨s', hturn, hread', hdrop'⟩ := turn_entry hread e hg hnul hdrop
      have hfuel' : es.length < fuel := Nat.lt_of_succ_lt_succ hfuel
      obtain ⟨s'', hscan, hread''⟩ := ih hread' (by decide) (by decide) hdrop' hfuel'
      refine ⟨s'', ?_, ?_⟩
      · rw [scan, hturn]
        exact hscan
      · rw [List.append_assoc] at hread''
        exact hread''

/-! ## The whole text -/

/-- A tag that is not one of those around the values. -/
theorem strstr_entry {c : UInt8} {t : List UInt8} (hc : c ≠ 110 ∧ c ≠ 112 ∧ c ≠ 47)
    (ht : 60 ∉ c :: t) (hmem : 60 :: c :: t ∈ [tagNickname, tagPassword, tagError, tagOldnick])
    (e : Entry) (rest : List UInt8) :
    Irc.strstr (e.text ++ rest) (60 :: c :: t) = Irc.strstr rest (60 :: c :: t) := by
  have htag : ∀ (b : UInt8) (name : List UInt8), b ≠ c → 60 ∉ b :: name → ∀ rest,
      Irc.strstr (60 :: b :: (name ++ rest)) (60 :: c :: t) = Irc.strstr rest (60 :: c :: t) := by
    intro b name hb hname rest
    rw [strstr_other hb, ← List.cons_append, strstr_free hname]
  have hnick : ∀ rest, Irc.strstr (tagNickname ++ rest) (60 :: c :: t) =
      Irc.strstr rest (60 :: c :: t) := htag 110 (ascii "ickname>") hc.1.symm (by decide)
  have hpass : ∀ rest, Irc.strstr (tagPassword ++ rest) (60 :: c :: t) =
      Irc.strstr rest (60 :: c :: t) := htag 112 (ascii "assword>") hc.2.1.symm (by decide)
  have hcloseN : ∀ rest, Irc.strstr (ascii "</nickname>" ++ rest) (60 :: c :: t) =
      Irc.strstr rest (60 :: c :: t) := htag 47 (ascii "nickname>") hc.2.2.symm (by decide)
  have hcloseP : ∀ rest, Irc.strstr (ascii "</password>" ++ rest) (60 :: c :: t) =
      Irc.strstr rest (60 :: c :: t) := htag 47 (ascii "password>") hc.2.2.symm (by decide)
  have hfiller : ∀ (f : Filler) (tag rest : List UInt8), tag.head? = some 60 →
      Irc.strstr (f.bytes ++ (tag ++ rest)) (60 :: c :: t) =
        Irc.strstr (tag ++ rest) (60 :: c :: t) := by
    intro f tag rest hhead
    obtain ⟨name, rfl⟩ := List.head?_eq_some_iff.mp hhead
    exact strstr_skip ht (f.noTag _ hmem)
  simp only [Entry.text, List.append_assoc]
  rw [hfiller e.before tagNickname _ (by decide), hnick, strstr_free e.nick.noTag, hcloseN,
    hfiller e.middle tagPassword _ (by decide), hpass, strstr_free e.pass.noTag, hcloseP]

theorem strstr_textOf {c : UInt8} {t : List UInt8} (hc : c ≠ 110 ∧ c ≠ 112 ∧ c ≠ 47)
    (ht : 60 ∉ c :: t) (hmem : 60 :: c :: t ∈ [tagNickname, tagPassword, tagError, tagOldnick])
    (es : List Entry) (after : Filler) :
    Irc.strstr (textOf es after) (60 :: c :: t) = none := by
  induction es with
  | nil => exact strstr_none (after.noTag _ hmem)
  | cons e es ih =>
      have htext : textOf (e :: es) after = e.text ++ textOf es after := by
        simp only [textOf, List.flatMap_cons, List.append_assoc]
      rw [htext, strstr_entry hc ht hmem, ih]

theorem noNul_textOf (es : List Entry) (after : Filler) : 0 ∉ textOf es after := by
  simp only [textOf, List.mem_append, List.mem_flatMap, not_or]
  exact ⟨fun ⟨e, _, h⟩ => e.noNul h, after.noNul⟩

theorem length_le_textOf (es : List Entry) (after : Filler) :
    es.length ≤ (textOf es after).length := by
  induction es with
  | nil => exact Nat.zero_le _
  | cons e es ih =>
      have hpos : 0 < tagNickname.length := by decide
      simp only [textOf, List.flatMap_cons, Entry.text, List.length_append,
        List.length_cons] at ih ⊢
      omega

/-- The pairs that have been read are what is emitted. -/
theorem Read.emitted {s : Scan} {ps : List (List UInt8 × List UInt8)} (h : Read s ps)
    (hnul : ∀ x ∈ ps, 0 ∉ x.1 ∧ 0 ∉ x.2) :
    (List.range s.nicks).map (fun i =>
      (str s.mem (s.nickv.elems i), str s.mem (s.passv.elems i))) = ps := by
  refine List.ext_getElem? fun i => ?_
  by_cases hi : i < ps.length
  · have hx : ps[i]? = some ps[i] := List.getElem?_eq_getElem hi
    rcases h.ends i _ hx with ⟨⟨⟨r, hr⟩, -⟩, ⟨⟨r', hr'⟩, -⟩⟩
    have hbytes := hnul _ (List.getElem_mem hi)
    rw [List.getElem?_map, List.getElem?_range (h.count ▸ hi), hx, Option.map_some,
      str_of_drop hr hbytes.1, str_of_drop hr' hbytes.2]
  · have hlen : s.nicks ≤ i := by rw [h.count]; omega
    rw [List.getElem?_eq_none (Nat.not_lt.mp hi), List.getElem?_map,
      List.getElem?_eq_none (by rwa [List.length_range])]
    rfl

/-- The NUL at the end of the memory leaves the text in front of its own NUL. -/
theorem set_last (body tail : List UInt8) : ∃ tail',
    (body ++ 0 :: tail).set ((body ++ 0 :: tail).length - 1) 0 = body ++ 0 :: tail' := by
  have hlast : (body ++ 0 :: tail).length - 1 = body.length + tail.length := by
    rw [List.length_append, List.length_cons]
    omega
  rw [hlast, List.set_append_right _ _ (Nat.le_add_right _ _), Nat.add_sub_cancel_left]
  cases tail with
  | nil => exact ⟨[], rfl⟩
  | cons b tail => exact ⟨(b :: tail).set tail.length 0, rfl⟩

theorem selectNicks_eq (es : List Entry) (after : Filler) (tail : List UInt8) :
    selectNicks (textOf es after ++ 0 :: tail) =
      .ok (.selectNick (es.map fun e => (e.nick.bytes, e.pass.bytes))) := by
  have hne : textOf es after ++ 0 :: tail ≠ [] := by simp
  obtain ⟨tail', hmem⟩ := set_last (textOf es after) tail
  have hnul := noNul_textOf es after
  have hnone : ∀ (c : UInt8) (t : List UInt8), c ≠ 110 ∧ c ≠ 112 ∧ c ≠ 47 → 60 ∉ c :: t →
      60 :: c :: t ∈ [tagNickname, tagPassword, tagError, tagOldnick] →
      find (textOf es after ++ 0 :: tail') 0 (60 :: c :: t) = none :=
    fun c t hc ht hmem => find_eq_none (List.drop_zero ..) hnul (strstr_textOf hc ht hmem es after)
  have hold : find (textOf es after ++ 0 :: tail') 0 tagOldnick = none :=
    hnone 111 (ascii "ldnick") (by decide) (by decide) (by decide)
  have herror : find (textOf es after ++ 0 :: tail') 0 tagError = none :=
    hnone 101 (ascii "rror>") (by decide) (by decide) (by decide)
  have hnull : Vec.null.size.getD 0 = roundup 0 10 * 8 := by decide
  have hstart : Read { mem := textOf es after ++ 0 :: tail', xml := 0, nicks := 0, nickv := .null,
                       passv := .null } [] :=
    ⟨rfl, fun i x hx => by simp at hx, hnull, hnull⟩
  have hfuel : es.length < (textOf es after ++ 0 :: tail').length + 1 := by
    have hle := length_le_textOf es after
    rw [List.length_append]
    omega
  obtain ⟨s, hscan, hread⟩ := scan_entries (g := []) es after hstart List.not_mem_nil
    List.not_mem_nil (List.drop_zero ..) hfuel
  rw [List.nil_append] at hread
  have hemit := hread.emitted fun x hx => by
    obtain ⟨e, -, rfl⟩ := List.mem_map.mp hx
    exact ⟨e.nick.noNul, e.pass.noNul⟩
  rw [selectNicks, if_neg hne]
  simp only [hmem, hold, herror, Option.isSome_none, Bool.false_eq_true, if_false, hscan, bind,
    Except.bind, hemit]

/-- A count of zero has two zero bytes. -/
theorem read_zero {host : Endian} {buf : List UInt8} {len : Nat}
    (h : Num.read host ⟨.short, true⟩ buf = .ok len) (h0 : buf.getD 0 0 = 0)
    (h1 : buf.getD 1 0 = 0) : len = 0 := by
  rcases buf with _ | ⟨a, _ | ⟨b, buf⟩⟩
  · cases h
  · cases h
  · obtain rfl : a = 0 := h0
    obtain rfl : b = 0 := h1
    exact (Except.ok.inj h).symm

/-- The nicks and their passwords are given on in order, whatever the list. -/
theorem cmdNicks_select {host : Endian} {long : Long} {md5Key : Fin 16 → UInt8}
    {buf blob tail : List UInt8} {used : Nat} (es : List Entry) (after : Filler)
    (hunpack : c6Unpack host .nicks buf = .ok (used, [.buf blob]))
    (htext : c6DecodeXmlBlob long blob md5Key = textOf es after ++ 0 :: tail) :
    cmdNicks host long md5Key buf =
      .ok (.selectNick (es.map fun e => (e.nick.bytes, e.pass.bytes))) := by
  have hpos : 0 < blob.length := by
    have hlen := congrArg List.length htext
    rw [c6DecodeXmlBlob_eq, length_eachBlock (length_codeBlock _), List.length_append,
      List.length_cons] at hlen
    omega
  have hfront : ¬(buf.length ≤ sizeShort ∨ buf.getD 0 0 = 0 ∧ buf.getD 1 0 = 0) := by
    obtain ⟨ws, hread, hws⟩ := c6Unpack_eq_ok.mp hunpack
    obtain ⟨r, hblob, hread⟩ := exists_of_bind_eq_ok hread
    obtain ⟨len, hlen, hfit, rfl⟩ := Field.read_blob_inv hblob
    cases hread
    have htake : (buf.drop Width.short.size).take len = blob := by simpa [Out.seen] using hws
    rintro (hshort | ⟨h0, h1⟩)
    · have hnil : buf.drop Width.short.size = [] := List.drop_eq_nil_of_le hshort
      rw [hnil, List.take_nil] at htake
      rw [← htake] at hpos
      exact Nat.lt_irrefl 0 hpos
    · rw [read_zero hlen h0 h1, List.take_zero] at htake
      rw [← htake] at hpos
      exact Nat.lt_irrefl 0 hpos
  rw [cmdNicks, if_neg hfront, hunpack]
  simp only [htext, selectNicks_eq]

/-- Two nicks, with a tag of another name in front of each of them and a line end behind it. -/
def twoEntries : List Entry :=
  let item : Filler := ⟨ascii "<item>", by decide, by decide⟩
  let line : Filler := ⟨ascii "\r\n", by decide, by decide⟩
  [⟨item, ⟨ascii "a", by decide, by decide⟩, line, ⟨ascii "bc", by decide, by decide⟩⟩,
    ⟨item, ⟨ascii "de", by decide, by decide⟩, line, ⟨ascii "", by decide, by decide⟩⟩]

def closing : Filler := ⟨ascii "</item>", by decide, by decide⟩

def twoText : List UInt8 := textOf twoEntries closing ++ [0]

theorem cmdNicks_select_two :
    let blob := c6EncodeXmlBlob .lp64 twoText fun _ => 7
    cmdNicks .little .lp64 (fun _ => 7) (Endian.big.bytes sizeShort blob.length ++ blob) =
      .ok (.selectNick [(ascii "a", ascii "bc"), (ascii "de", ascii "")]) := by
  intro blob
  have hlen : blob.length ≤ 65535 := by
    have hblob : blob.length = twoText.length := by
      simp only [blob]
      rw [c6EncodeXmlBlob_eq, length_eachBlock (length_codeBlock _)]
    rw [hblob]
    decide +kernel
  have hread := readFields_encode .little [.blob blob hlen] []
  have hencode : encode .little [.blob blob hlen] ++ [] =
      Endian.big.bytes sizeShort blob.length ++ blob := by
    rw [List.append_nil, encode, List.flatMap_cons, List.flatMap_nil, List.append_nil]
    rfl
  rw [hencode] at hread
  have hunpack : c6Unpack .little .nicks (Endian.big.bytes sizeShort blob.length ++ blob) =
      .ok ((encode .little [.blob blob hlen]).length, [.buf blob]) :=
    c6Unpack_eq_ok.mpr ⟨_, hread, rfl⟩
  exact cmdNicks_select twoEntries closing hunpack
    (c6DecodeXmlBlob_c6EncodeXmlBlob .lp64 twoText _)

end Nicks
end C6
end IrC6
