import Mathlib.Algebra.Order.BigOperators.Group.List
import Mathlib.Data.List.TakeWhile
import IrC6.Base.Memory
import IrC6.Irc.Tokens

/-!
# `args_sep` and `args_join`

The words of a string are its maximal runs of characters that are not blank.  The first loop
of `args_sep` counts them and the second finds them, so that the loops agree.  `args_join`
puts words into one string, with a space between them.  The sizes of the array and of the text
are `int`s, and with many words or a long text they are not what is needed.
-/

namespace IrC6
namespace Irc

open Memory

/-- What `args_sep` returns, and the numbers and the array that it stores. -/
structure Separated where
  ret : Nat
  argc : Nat
  argv : Option (List (Option (List UInt8)))
deriving DecidableEq, Repr

/-- What is left in an `int` that a size is assigned to. -/
def toInt (n : Nat) : Int := (n : Int).bmod (2 ^ 32)

/-- The bytes of a `struct A_chunk`, which `a_malloc` adds to a size. -/
def chunkHeader : Nat := 24

/-- `args_sep` with an array to store, and with whether the block for it is found.  There is no
result when a sum of `int`s overflows and when the array, the text or what `strsep` scans
leaves its place in the block. -/
def argsSepCall (found : Bool) (str : List UInt8) : Option Separated :=
  let error := { ret := 0, argc := 0, argv := none }
  let argc := countArgs false str
  let len := toInt (str.length + 1)
  let k := toInt ((argc + 1) * 8)
  if 2 ^ 31 ≤ argc + 1 ∨ k + len < -2 ^ 31 ∨ 2 ^ 31 ≤ k + len then none
  -- a negative size is near 2^64, and only one that wraps with the header can be found
  else if !found ∨ k + len < -chunkHeader then some error
  -- the text is put behind `k` bytes and the array takes eight for each of its entries
  else if k ≠ (argc + 1) * 8 ∨ len < 0 then none
  else if len = str.length + 1 then
    let argv := takeArgs argc (strsep isBlank str)
    if argc ≠ argv.length then some error
    else some { ret := 1, argc := argc, argv := some (argv.map some ++ [none]) }
  else
    -- a cut text has no NUL, so its last token goes on behind the block
    let argv := takeArgs argc (strsep isBlank (str.take len.toNat)).dropLast
    if argc ≠ argv.length then none
    else some { ret := 1, argc := argc, argv := some (argv.map some ++ [none]) }

/-- The loop of `args_join` from the place `p` of its block on. -/
def joinLoop : List (List UInt8) → Nat → (Nat → UInt8) → Nat → UInt8
  | [], _, m => m
  | word :: argv, p, m =>
      -- `len` is an `unsigned int`
      let len := word.length % 2 ^ 32
      joinLoop argv (p + (len + 1) % 2 ^ 32) (store (store m p (word.take len)) (p + len) [32])

/-- `args_join` in a block that holds `m`.  Without words it writes in front of the block. -/
def argsJoin (m : Nat → UInt8) (argv : List (List UInt8)) : Option (List UInt8) :=
  let totlen := (argv.map (·.length + 1)).sum
  if 2 ^ 31 ≤ argv.length ∨ 2 ^ 64 ≤ totlen + chunkHeader ∨ totlen = 0 then none
  else
    let str := store (joinLoop argv 0 m) (totlen - 1) [0]
    some ((slice str 0 totlen).takeWhile (· ≠ 0))

/-- The maximal runs of characters that are not blank, one behind the other. -/
inductive Runs : List UInt8 → List (List UInt8) → Prop where
  | blanks {g : List UInt8} (hg : ∀ b ∈ g, isBlank b = true) : Runs g []
  | run {g w rest : List UInt8} {ws : List (List UInt8)} (hg : ∀ b ∈ g, isBlank b = true)
      (hne : w ≠ []) (hw : ∀ b ∈ w, isBlank b = false)
      (hend : ∀ b ∈ rest.head?, isBlank b = true) (hrest : Runs rest ws) :
      Runs (g ++ (w ++ rest)) (w :: ws)

/-- A word: what `args_sep` can give back. -/
structure Word where
  bytes : List UInt8
  ne : bytes ≠ []
  noBlank : ∀ b ∈ bytes, isBlank b = false
  noNul : 0 ∉ bytes

/-! ## The runs are what `args_sep` gives -/

theorem argsSep_blanks {g : List UInt8} (hg : ∀ b ∈ g, isBlank b = true) (s : List UInt8) :
    argsSep (g ++ s) = argsSep s := by
  induction g with
  | nil => rfl
  | cons b g ih =>
      have hrest := ih fun c hc => hg c (List.mem_cons_of_mem _ hc)
      rw [argsSep_eq, argsSep_eq] at hrest
      rw [argsSep_eq, argsSep_eq, List.cons_append, wordsFrom, if_pos (hg b List.mem_cons_self),
        hrest]

/-- A run at the front of a string. -/
theorem argsSep_run {w rest : List UInt8} (hne : w ≠ []) (hw : ∀ b ∈ w, isBlank b = false)
    (hend : ∀ b ∈ rest.head?, isBlank b = true) : argsSep (w ++ rest) = w :: argsSep rest := by
  cases rest with
  | nil =>
      rw [List.append_nil, argsSep_word hne hw]
      rfl
  | cons b rest =>
      have hb : isBlank b = true := hend b rfl
      have hskip : argsSep ([b] ++ rest) = argsSep rest :=
        argsSep_blanks (by simpa using hb) rest
      rw [argsSep_append hne hw hb, ← hskip]
      rfl

theorem argsSep_of_runs {str : List UInt8} {ws : List (List UInt8)} (h : Runs str ws) :
    argsSep str = ws := by
  induction h with
  | blanks hg =>
      rename_i g
      have hnil := argsSep_blanks hg []
      rw [List.append_nil] at hnil
      exact hnil
  | run hg hne hw hend _ ih => rw [argsSep_blanks hg, argsSep_run hne hw hend, ih]

theorem Runs.cons_blank {b : UInt8} (hb : isBlank b = true) {s : List UInt8}
    {ws : List (List UInt8)} (h : Runs s ws) : Runs (b :: s) ws := by
  cases h with
  | blanks hg => exact .blanks (List.forall_mem_cons.mpr ⟨hb, hg⟩)
  | run hg hne hw hend hrest => exact .run (List.forall_mem_cons.mpr ⟨hb, hg⟩) hne hw hend hrest

/-- A character that is not blank begins a run, or the run behind it. -/
theorem Runs.cons_char {b : UInt8} (hb : isBlank b = false) {s : List UInt8}
    {ws : List (List UInt8)} (h : Runs s ws) : ∃ ws', Runs (b :: s) ws' := by
  have halone : ∀ {s}, (∀ c ∈ s.head?, isBlank c = true) → Runs s ws →
      Runs (b :: s) ([b] :: ws) := by
    intro s hend h
    exact .run (g := []) (w := [b]) (fun _ hc => absurd hc List.not_mem_nil)
      (List.cons_ne_nil _ _) (by simpa using hb) hend h
  have hhead : ∀ {g s : List UInt8}, (∀ c ∈ g, isBlank c = true) → g ≠ [] →
      ∀ c ∈ (g ++ s).head?, isBlank c = true := by
    intro g s hg hne c hc
    cases g with
    | nil => exact absurd rfl hne
    | cons a g =>
        obtain rfl : a = c := Option.some.inj hc
        exact hg a List.mem_cons_self
  cases h with
  | blanks hg =>
      refine ⟨_, halone (fun c hc => ?_) (.blanks hg)⟩
      exact hg c (List.mem_of_mem_head? hc)
  | run hg hne hw hend hrest =>
      rename_i g w rest ws
      by_cases hnil : g = []
      · subst hnil
        exact ⟨_, .run (g := []) (w := b :: w) hg (List.cons_ne_nil _ _)
          (List.forall_mem_cons.mpr ⟨hb, hw⟩) hend hrest⟩
      · exact ⟨_, halone (hhead hg hnil) (.run hg hne hw hend hrest)⟩

/-- Every string has its runs. -/
theorem exists_runs (str : List UInt8) : ∃ ws, Runs str ws := by
  induction str with
  | nil => exact ⟨[], .blanks fun _ hb => absurd hb List.not_mem_nil⟩
  | cons b s ih =>
      rcases ih with ⟨ws, h⟩
      cases hb : isBlank b with
      | true => exact ⟨ws, h.cons_blank hb⟩
      | false => exact h.cons_char hb

/-! ## A text that is cut -/

theorem strsep_append_blank {b : UInt8} (hb : isBlank b = true) (s t : List UInt8) :
    strsep isBlank (s ++ b :: t) = strsep isBlank s ++ strsep isBlank t := by
  induction s with
  | nil => simp [strsep, hb]
  | cons c s ih =>
      rcases strsep_eq s with ⟨tokens, htokens, -⟩
      cases hc : isBlank c with
      | true => simp only [List.cons_append, strsep, hc, if_true, ih]
      | false => simp [strsep, hc, ih, htokens]

theorem strsep_noBlank {w : List UInt8} (hw : ∀ b ∈ w, isBlank b = false) :
    strsep isBlank w = [w] := by
  induction w with
  | nil => rfl
  | cons b w ih =>
      have hb := hw b List.mem_cons_self
      simp only [strsep, hb, Bool.false_eq_true, if_false,
        ih fun c hc => hw c (List.mem_cons_of_mem _ hc)]

theorem filter_strsep_eq (str : List UInt8) :
    (strsep isBlank str).filter (· ≠ []) = argsSep str := by
  rw [filter_strsep, argsSep_eq]

theorem argsSep_append_blank {b : UInt8} (hb : isBlank b = true) (s t : List UInt8) :
    argsSep (s ++ b :: t) = argsSep s ++ argsSep t := by
  rw [← filter_strsep_eq, strsep_append_blank hb, List.filter_append, filter_strsep_eq,
    filter_strsep_eq]

theorem argsSep_eq_nil_iff (str : List UInt8) :
    argsSep str = [] ↔ ∀ b ∈ str, isBlank b = true := by
  rw [argsSep_eq, List.map_eq_nil_iff]
  induction str with
  | nil => simp [wordsFrom]
  | cons b s ih =>
      unfold wordsFrom
      by_cases hb : isBlank b = true
      · rw [if_pos hb, ih, List.forall_mem_cons]
        exact ⟨fun h => ⟨hb, h⟩, fun h => h.2⟩
      · simp [hb]

/-- The blanks behind a text are no words. -/
theorem argsSep_append_blanks (s : List UInt8) {g : List UInt8}
    (hg : ∀ b ∈ g, isBlank b = true) : argsSep (s ++ g) = argsSep s := by
  cases g with
  | nil => rw [List.append_nil]
  | cons b g =>
      rcases List.forall_mem_cons.mp hg with ⟨hb, hg⟩
      rw [argsSep_append_blank hb, (argsSep_eq_nil_iff g).mpr hg, List.append_nil]

/-- A text is a word, or it has a last blank and a word behind this one. -/
theorem exists_lastBlank (s : List UInt8) : (∀ b ∈ s, isBlank b = false) ∨
    ∃ t b w, s = t ++ b :: w ∧ isBlank b = true ∧ ∀ c ∈ w, isBlank c = false := by
  induction s with
  | nil => exact .inl fun _ hb => absurd hb List.not_mem_nil
  | cons c s ih =>
      rcases ih with hs | ⟨t, b, w, rfl, hb, hw⟩
      · cases hc : isBlank c with
        | true => exact .inr ⟨[], c, s, rfl, hc, hs⟩
        | false => exact .inl (List.forall_mem_cons.mpr ⟨hc, hs⟩)
      · exact .inr ⟨c :: t, b, w, rfl, hb, hw⟩

/-- The tokens of a text that have a blank behind them are the words in front of its last
blank, and the words of a longer text go on behind this blank. -/
theorem closed_tokens (s rest : List UInt8) : ∃ words w, s = words ++ w ∧
    (∀ b ∈ w, isBlank b = false) ∧ (∀ b ∈ words.getLast?, isBlank b = true) ∧
    ((strsep isBlank s).dropLast).filter (· ≠ []) = argsSep words ∧
    argsSep (s ++ rest) = argsSep words ++ argsSep (w ++ rest) := by
  rcases exists_lastBlank s with hs | ⟨t, b, w, rfl, hb, hw⟩
  · refine ⟨[], s, rfl, hs, by simp, ?_, rfl⟩
    rw [strsep_noBlank hs]
    rfl
  · have hwords : argsSep (t ++ [b]) = argsSep t := argsSep_append_blanks t (by simpa using hb)
    refine ⟨t ++ [b], w, by simp, hw, by simpa using hb, ?_, ?_⟩
    · rw [strsep_append_blank hb, strsep_noBlank hw, List.dropLast_concat, filter_strsep_eq,
        hwords]
    · rw [List.append_assoc, List.cons_append, argsSep_append_blank hb, hwords]

/-- From the last byte of a text on. -/
theorem drop_lastByte (t : List UInt8) (c : UInt8) (rest : List UInt8) :
    ((t ++ [c]) ++ rest).drop ((t ++ [c]).length - 1) = c :: rest := by
  rw [List.append_assoc, List.length_append, List.length_singleton, Nat.add_sub_cancel,
    List.drop_left]
  rfl

/-- A word and a rest behind what ends in a blank are blanks if the word is empty and the bytes
from that blank on are blanks. -/
theorem blanks_behind_iff {words w : List UInt8} (rest : List UInt8)
    (hw : ∀ b ∈ w, isBlank b = false) (hlast : ∀ b ∈ words.getLast?, isBlank b = true) :
    (∀ b ∈ w ++ rest, isBlank b = true) ↔
      ∀ b ∈ ((words ++ w) ++ rest).drop ((words ++ w).length - 1), isBlank b = true := by
  rcases List.eq_nil_or_concat' w with rfl | ⟨v, c, rfl⟩
  · rw [List.append_nil, List.nil_append]
    rcases List.eq_nil_or_concat' words with rfl | ⟨t, b, rfl⟩
    · rfl
    · have hb : isBlank b = true := hlast b (by simp)
      rw [drop_lastByte, List.forall_mem_cons]
      exact ⟨fun h => ⟨hb, h⟩, fun h => h.2⟩
  · have hc : isBlank c ≠ true := by simp [hw c (by simp)]
    rw [← List.append_assoc words, drop_lastByte]
    exact iff_of_false (fun h => hc (h c (by simp))) fun h => hc (h c List.mem_cons_self)

/-- What is found in a cut text are the first words, and all of them if nothing but blanks is
from the byte in front of the cut on. -/
theorem takeArgs_cut (str : List UInt8) {m : Nat} (hm : m ≤ str.length) :
    let argv := takeArgs (argsSep str).length (strsep isBlank (str.take m)).dropLast
    argv <+: argsSep str ∧ (argv = argsSep str ↔ ∀ b ∈ str.drop (m - 1), isBlank b = true) := by
  rcases closed_tokens (str.take m) (str.drop m) with ⟨words, w, hcut, hw, hlast, htokens, hargs⟩
  have hbehind := blanks_behind_iff (str.drop m) hw hlast
  rw [← hcut, List.take_append_drop, List.length_take_of_le hm] at hbehind
  rw [List.take_append_drop] at hargs
  intro argv
  have hargv : argv = argsSep words := by
    show takeArgs _ _ = _
    rw [takeArgs_eq, htokens, List.take_of_length_le]
    rw [hargs, List.length_append]
    exact Nat.le_add_right _ _
  rw [hargv, hargs, ← hbehind, ← argsSep_eq_nil_iff]
  exact ⟨List.prefix_append _ _, by rw [List.self_eq_append_right]⟩

/-! ## The call -/

theorem toInt_of_lt {n : Nat} (h : n < 2 ^ 31) : toInt n = n := by
  unfold toInt
  exact Int.bmod_eq_of_le (by omega) (by omega)

/-- The second loop finds what the first one has counted. -/
theorem takeArgs_countArgs (str : List UInt8) :
    takeArgs (argsSep str).length (strsep isBlank str) = argsSep str := by
  rw [takeArgs_eq, filter_strsep_eq, List.take_length]

theorem countArgs_eq_length (str : List UInt8) : countArgs false str = (argsSep str).length := by
  rw [countArgs_eq, length_argsSep]

/-- An `int` holds the size of the text, but for blanks at its end, and its sum with eight bytes
for each run and for the last entry. -/
def IntsFit (str : List UInt8) : Prop :=
  0 ≤ toInt (str.length + 1) ∧
  (∀ ws, Runs str ws → 8 * (ws.length + 1) + toInt (str.length + 1) < 2 ^ 31) ∧
  ∀ b ∈ str.drop ((toInt (str.length + 1)).toNat - 1), isBlank b = true

theorem intsFit_iff {str : List UInt8} : IntsFit str ↔ 0 ≤ toInt (str.length + 1) ∧
    8 * ((argsSep str).length + 1) + toInt (str.length + 1) < 2 ^ 31 ∧
    ∀ b ∈ str.drop ((toInt (str.length + 1)).toNat - 1), isBlank b = true := by
  have hruns : (∀ ws, Runs str ws → 8 * (ws.length + 1) + toInt (str.length + 1) < 2 ^ 31) ↔
      8 * ((argsSep str).length + 1) + toInt (str.length + 1) < 2 ^ 31 := by
    constructor
    · intro hall
      obtain ⟨ws, hws⟩ := exists_runs str
      rw [argsSep_of_runs hws]
      exact hall ws hws
    · intro hsum ws hws
      rwa [argsSep_of_runs hws] at hsum
  rw [IntsFit, hruns]

/-- What the call is to give for a string. -/
def separated (ws : List (List UInt8)) : Separated :=
  { ret := 1, argc := ws.length, argv := some (ws.map some ++ [none]) }

theorem toInt_le (n : Nat) : toInt n ≤ n := by
  unfold toInt Int.bmod
  dsimp only
  split <;> omega

/-- With sizes that fit there remain a whole text and a cut one. -/
theorem argsSepCall_sizes {str : List UInt8} (hlen : 0 ≤ toInt (str.length + 1))
    (hsum : 8 * ((argsSep str).length + 1) + toInt (str.length + 1) < 2 ^ 31) :
    argsSepCall true str =
      if toInt (str.length + 1) = str.length + 1 then some (separated (argsSep str))
      else
        let argv := takeArgs (argsSep str).length
          (strsep isBlank (str.take (toInt (str.length + 1)).toNat)).dropLast
        if (argsSep str).length ≠ argv.length then none else some (separated argv) := by
  have hk : toInt (((argsSep str).length + 1) * 8) = ((argsSep str).length + 1) * 8 := by
    rw [toInt_of_lt (by omega)]
    omega
  simp only [argsSepCall, countArgs_eq_length, takeArgs_countArgs, hk]
  rw [if_neg (by omega), if_neg (by simp [chunkHeader]; omega), if_neg (by omega)]
  simp only [separated, ne_eq, not_true_eq_false, if_false]
  split
  · rfl
  · split
    · rfl
    · rename_i hcount
      simp only [← not_not.mp hcount]

/-- With other sizes there is no result or the error. -/
theorem argsSepCall_overflow {str : List UInt8} (h : ¬ (0 ≤ toInt (str.length + 1) ∧
    8 * ((argsSep str).length + 1) + toInt (str.length + 1) < 2 ^ 31)) (ws : List (List UInt8)) :
    argsSepCall true str ≠ some (separated ws) := by
  intro hcall
  simp only [argsSepCall, countArgs_eq_length] at hcall
  split at hcall
  · nomatch hcall
  · split at hcall
    · simp [separated] at hcall
    · split at hcall
      · nomatch hcall
      · omega

theorem separated_inj {ws ws' : List (List UInt8)} : separated ws = separated ws' ↔ ws = ws' := by
  refine ⟨fun h => ?_, congrArg separated⟩
  have hargv := congrArg Separated.argv h
  simpa [separated, List.map_inj_right] using hargv

theorem argsSepCall_iff {str : List UInt8} {ws : List (List UInt8)} :
    argsSepCall true str = some (separated ws) ↔ IntsFit str ∧ ws = argsSep str := by
  by_cases hsizes : 0 ≤ toInt (str.length + 1) ∧
      8 * ((argsSep str).length + 1) + toInt (str.length + 1) < 2 ^ 31
  · rcases hsizes with ⟨hlen, hsum⟩
    have hle := toInt_le (str.length + 1)
    rw [argsSepCall_sizes hlen hsum]
    by_cases hwhole : toInt (str.length + 1) = str.length + 1
    · have hfits : IntsFit str := by
        refine intsFit_iff.mpr ⟨hlen, hsum, ?_⟩
        rw [List.drop_eq_nil_of_le (by omega)]
        exact fun b hb => absurd hb List.not_mem_nil
      rw [if_pos hwhole, Option.some_inj, separated_inj]
      exact ⟨fun h => ⟨hfits, h.symm⟩, fun h => h.2.symm⟩
    · rw [if_neg hwhole]
      rcases takeArgs_cut str (m := (toInt (str.length + 1)).toNat) (by omega) with
        ⟨hpre, hcut⟩
      simp only [intsFit_iff, hlen, hsum, true_and, ← hcut]
      constructor
      · intro h
        split at h
        · nomatch h
        · rename_i hcount
          have hall := hpre.eq_of_length (not_not.mp hcount).symm
          refine ⟨hall, ?_⟩
          rw [← separated_inj.mp (Option.some.inj h), hall]
      · rintro ⟨hall, rfl⟩
        rw [hall, if_neg (by simp)]
  · refine iff_of_false (argsSepCall_overflow hsizes _) fun h => ?_
    obtain ⟨hlen, hsum, -⟩ := intsFit_iff.mp h.1
    exact hsizes ⟨hlen, hsum⟩

/-! ## Joining -/

/-- Words with a space between them. -/
def spaced (w : List UInt8) : List (List UInt8) → List UInt8
  | [] => w
  | v :: ws => w ++ 32 :: spaced v ws

/-- The last space is the one that becomes a NUL. -/
theorem flatMap_spaced (w : List UInt8) (ws : List (List UInt8)) :
    (w :: ws).flatMap (· ++ [32]) = spaced w ws ++ [32] := by
  induction ws generalizing w with
  | nil => simp [spaced]
  | cons v ws ih =>
      rw [List.flatMap_cons, ih, spaced, List.append_assoc, List.append_assoc]
      rfl

theorem noNul_spaced {w : List UInt8} {ws : List (List UInt8)} (hw : 0 ∉ w)
    (hws : ∀ v ∈ ws, 0 ∉ v) : 0 ∉ spaced w ws := by
  induction ws generalizing w with
  | nil => exact hw
  | cons v ws ih =>
      rcases List.forall_mem_cons.mp hws with ⟨hv, hws⟩
      simp only [spaced, List.mem_append, List.mem_cons, not_or]
      exact ⟨hw, by decide, ih hv hws⟩

theorem length_flatMap_spaces (argv : List (List UInt8)) :
    (argv.flatMap (· ++ [32])).length = (argv.map (·.length + 1)).sum := by
  simp [List.length_flatMap]

/-- The loop of `args_join` puts the words behind what is in the block. -/
theorem slice_joinLoop {argv : List (List UInt8)} (h : ∀ word ∈ argv, word.length + 1 < 2 ^ 32)
    (p : Nat) (m : Nat → UInt8) :
    slice (joinLoop argv p m) 0 (p + (argv.map (·.length + 1)).sum) =
      slice m 0 p ++ argv.flatMap (· ++ [32]) := by
  induction argv generalizing p m with
  | nil => simp [joinLoop]
  | cons word argv ih =>
      rcases List.forall_mem_cons.mp h with ⟨hword, h⟩
      have hlen : word.length % 2 ^ 32 = word.length := Nat.mod_eq_of_lt (by omega)
      have hword' : slice (store (store m p word) (p + word.length) [32]) 0
          (p + (word.length + 1)) = slice m 0 p ++ (word ++ [32]) := by
        rw [← Nat.add_assoc, ← List.append_assoc, ← slice_store_append m p word]
        exact slice_store_append (store m p word) (p + word.length) [32]
      have hrest := ih h (p + (word.length + 1))
        (store (store m p word) (p + word.length) [32])
      rw [Nat.add_assoc] at hrest
      rw [joinLoop, hlen, List.take_length, Nat.mod_eq_of_lt hword, List.map_cons, List.sum_cons,
        hrest, hword', List.flatMap_cons, List.append_assoc]

/-- The last space becomes the NUL of the text. -/
theorem slice_joined {w : List UInt8} {ws : List (List UInt8)}
    (h : ∀ v ∈ w :: ws, v.length + 1 < 2 ^ 32) (m : Nat → UInt8) :
    slice (store (joinLoop (w :: ws) 0 m) (spaced w ws).length [0]) 0
      ((spaced w ws).length + 1) = spaced w ws ++ [0] := by
  have hloop := slice_joinLoop h 0 m
  rw [← length_flatMap_spaces, flatMap_spaced, Nat.zero_add, slice_zero, List.nil_append,
    List.length_append, List.length_singleton, slice_add] at hloop
  have hfront : slice (joinLoop (w :: ws) 0 m) 0 (spaced w ws).length = spaced w ws :=
    List.append_inj_left hloop (length_slice _ _ _)
  have hstore := slice_store_append (joinLoop (w :: ws) 0 m) (spaced w ws).length [0]
  rwa [hfront] at hstore

theorem argsJoin_eq {w : List UInt8} {ws : List (List UInt8)} (hw : 0 ∉ w)
    (hws : ∀ v ∈ ws, 0 ∉ v) (m : Nat → UInt8)
    (hsum : ((w :: ws).map (·.length + 1)).sum < 2 ^ 31) :
    argsJoin m (w :: ws) = some (spaced w ws) := by
  have hlen : ((w :: ws).map (·.length + 1)).sum = (spaced w ws).length + 1 := by
    rw [← length_flatMap_spaces, flatMap_spaced, List.length_append, List.length_singleton]
  have hwords : (w :: ws).length ≤ ((w :: ws).map (·.length + 1)).sum := by
    rw [← List.length_map (·.length + 1)]
    exact List.length_le_sum_of_one_le _ (by simp)
  have hword : ∀ v ∈ w :: ws, v.length + 1 < 2 ^ 32 := by
    intro v hv
    have := List.le_sum_of_mem (List.mem_map_of_mem (f := (·.length + 1)) hv)
    omega
  have hall : ∀ b ∈ spaced w ws, decide (b ≠ 0) = true :=
    fun b hb => decide_eq_true fun h0 => noNul_spaced hw hws (h0 ▸ hb)
  simp only [argsJoin]
  rw [if_neg (by simp only [chunkHeader]; omega), hlen, Nat.add_sub_cancel, slice_joined hword,
    List.takeWhile_append_of_pos hall, List.takeWhile_cons_of_neg (by decide), List.append_nil]

theorem argsSep_spaced (w : Word) (ws : List Word) :
    argsSep (spaced w.bytes (ws.map Word.bytes)) = (w :: ws).map Word.bytes := by
  induction ws generalizing w with
  | nil => exact argsSep_word w.ne w.noBlank
  | cons v ws ih =>
      rw [List.map_cons, spaced, argsSep_append w.ne w.noBlank (by decide), ih]
      rfl

/-- The words of a text, each with a byte behind it, are no longer than the text and its NUL,
and in a text that begins with a blank not even that long. -/
theorem Runs.sum_le {str : List UInt8} {ws : List (List UInt8)} (h : Runs str ws) :
    (ws.map (·.length + 1)).sum ≤ str.length + 1 ∧
    ((∀ b ∈ str.head?, isBlank b = true) → (ws.map (·.length + 1)).sum ≤ str.length) := by
  induction h with
  | blanks hg => simp
  | @run g w rest ws hg hne hw hend hrest ih =>
      have hsum := ih.2 hend
      rw [List.map_cons, List.sum_cons, List.length_append, List.length_append]
      refine ⟨by omega, fun hhead => ?_⟩
      cases g with
      | nil =>
          cases w with
          | nil => exact absurd rfl hne
          | cons b w =>
              have hb := hhead b rfl
              rw [hw b List.mem_cons_self] at hb
              nomatch hb
      | cons b g =>
          rw [List.length_cons]
          omega

theorem IntsFit.sum_le {str : List UInt8} (h : IntsFit str) :
    8 * ((argsSep str).length + 1) + ((argsSep str).map (·.length + 1)).sum < 2 ^ 31 := by
  rcases intsFit_iff.mp h with ⟨hlen, hsum, hblanks⟩
  rcases Nat.eq_zero_or_pos (toInt (str.length + 1)).toNat with hzero | hpos
  · rw [hzero, List.drop_zero, ← argsSep_eq_nil_iff] at hblanks
    rw [hblanks]
    decide
  · have hcut : argsSep str = argsSep (str.take ((toInt (str.length + 1)).toNat - 1)) := by
      rw [← argsSep_append_blanks (str.take _) hblanks, List.take_append_drop]
    rcases exists_runs (str.take ((toInt (str.length + 1)).toNat - 1)) with ⟨ws, hruns⟩
    have hle := hruns.sum_le.1
    rw [← argsSep_of_runs hruns, ← hcut, List.length_take] at hle
    omega

/-- `args_sep` returns 1 with the maximal runs of the string. -/
def SepExact (str : List UInt8) : Prop :=
  ∃ ws, Runs str ws ∧ (∀ ws', Runs str ws' → ws' = ws) ∧
    argsSepCall true str = some (separated ws)

/-- `args_sep` gives back the words that `args_join` puts into the block `m`. -/
def JoinExact (m : Nat → UInt8) (words : List Word) : Prop :=
  ∃ str, argsJoin m (words.map Word.bytes) = some str ∧
    argsSepCall true str = some (separated (words.map Word.bytes))

theorem sepExact_iff (str : List UInt8) : SepExact str ↔ IntsFit str := by
  constructor
  · rintro ⟨ws, -, -, hcall⟩
    exact (argsSepCall_iff.mp hcall).1
  · intro hfits
    rcases exists_runs str with ⟨ws, hruns⟩
    have hws := argsSep_of_runs hruns
    refine ⟨ws, hruns, fun ws' h => ?_, argsSepCall_iff.mpr ⟨hfits, hws.symm⟩⟩
    rw [← argsSep_of_runs h, hws]

theorem joinExact_iff (m : Nat → UInt8) (w : Word) (ws : List Word) :
    JoinExact m (w :: ws) ↔ 8 * ((w :: ws).length + 1) +
      (((w :: ws).map Word.bytes).map (·.length + 1)).sum < 2 ^ 31 := by
  constructor
  · rintro ⟨str, -, hcall⟩
    rcases argsSepCall_iff.mp hcall with ⟨hfits, hwords⟩
    have hsum := hfits.sum_le
    rwa [← hwords, List.length_map] at hsum
  · intro hsum
    have hnul : ∀ v ∈ ws.map Word.bytes, 0 ∉ v := by
      intro v hv
      rcases List.mem_map.mp hv with ⟨u, -, rfl⟩
      exact u.noNul
    have hlen := length_flatMap_spaces ((w :: ws).map Word.bytes)
    rw [List.map_cons, flatMap_spaced, List.length_append, List.length_singleton] at hlen
    refine ⟨_, argsJoin_eq w.noNul hnul m (by simp only [List.map_cons] at hsum ⊢; omega), ?_⟩
    rw [argsSepCall_iff, intsFit_iff, argsSep_spaced]
    have hint := toInt_of_lt (n := (spaced w.bytes (ws.map Word.bytes)).length + 1) (by
      simp only [List.map_cons] at hsum hlen ⊢; omega)
    refine ⟨⟨by omega, ?_, ?_⟩, rfl⟩
    · rw [hint, List.length_map]
      simp only [List.map_cons] at hsum hlen ⊢
      omega
    · rw [hint, List.drop_eq_nil_of_le (by omega)]
      exact fun b hb => absurd hb List.not_mem_nil

/-- `args_sep` gives the maximal runs of a string if its `int`s fit, and gives back the words
that `args_join` has joined if the array and the joined words have less than 2^31 bytes. -/
theorem argsSep_exact_iff (str : List UInt8) (m : Nat → UInt8) (w : Word) (ws : List Word) :
    (SepExact str ↔ IntsFit str) ∧
    (JoinExact m (w :: ws) ↔ 8 * ((w :: ws).length + 1) +
      (((w :: ws).map Word.bytes).map (·.length + 1)).sum < 2 ^ 31) :=
  ⟨sepExact_iff str, joinExact_iff m w ws⟩

/-- Words of one letter with a space behind each of them. -/
def letters (n : Nat) : List UInt8 := (List.replicate n [97, 32]).flatten

theorem argsSep_letters (n : Nat) : argsSep (letters n) = List.replicate n [97] := by
  induction n with
  | zero => rfl
  | succ n ih =>
      have hcons : letters (n + 1) = [97] ++ 32 :: letters n := rfl
      have hblank : ∀ b ∈ ([97] : List UInt8), isBlank b = false :=
        List.forall_mem_singleton.mpr rfl
      rw [hcons, argsSep_append (List.cons_ne_nil _ _) hblank rfl, ih]
      rfl

theorem length_letters (n : Nat) : (letters n).length = 2 * n := by
  rw [letters, List.length_flatten, List.map_replicate, List.sum_replicate]
  exact Nat.mul_comm n 2

/-- With 2^29 - 1 words `k` is 0, so the array is stored over the text. -/
theorem argsSep_wraps : argsSepCall true (letters (2 ^ 29 - 1)) = none ∧
    ¬ SepExact (letters (2 ^ 29 - 1)) := by
  have hcount : (argsSep (letters (2 ^ 29 - 1))).length = 2 ^ 29 - 1 := by
    rw [argsSep_letters, List.length_replicate]
  have hlen : toInt ((letters (2 ^ 29 - 1)).length + 1) = 2 ^ 30 - 1 := by
    rw [length_letters, toInt_of_lt (by decide)]
    rfl
  have hk : toInt ((2 ^ 29 - 1 + 1) * 8) = 0 := by decide
  constructor
  · simp only [argsSepCall, countArgs_eq_length, hcount, hlen, hk]
    rfl
  · rw [sepExact_iff]
    intro hfits
    have hsum := (intsFit_iff.mp hfits).2.1
    rw [hcount, hlen] at hsum
    omega

end Irc
end IrC6
