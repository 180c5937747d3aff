import Mathlib.Data.List.Infix
import Mathlib.Data.List.TakeWhile
import IrC6.Irc.Input

/-!
# Where the words of a line are

The handlers are given the words of a line without their places in it.  `wordsFrom` are the
rests of the line from its words on, and `args_sep` gives the words that these rests begin
with.  `strstr` gives the rest from the first place at which a text is, which may be before
the word that it was taken from.
-/

namespace IrC6
namespace Irc

/-- The rests of a line that start where its words do; `q` says that the byte before belongs
to a word. -/
def wordsFrom : Bool → List UInt8 → List (List UInt8)
  | _, [] => []
  | q, b :: bs =>
      if isBlank b then wordsFrom false bs
      else if q then wordsFrom true bs
      else (b :: bs) :: wordsFrom true bs

/-- The word that a rest begins with. -/
def word (rest : List UInt8) : List UInt8 := rest.takeWhile fun b => !isBlank b

/-- The first loop of `args_sep` counts the words. -/
theorem countArgs_eq (q : Bool) (str : List UInt8) :
    countArgs q str = (wordsFrom q str).length := by
  induction str generalizing q with
  | nil => rfl
  | cons b bs ih =>
      unfold countArgs wordsFrom
      by_cases hb : isBlank b = true
      · rw [if_pos hb, if_pos hb, ih]
      · rw [if_neg hb, if_neg hb, ih]
        cases q
        · exact Nat.add_comm _ _
        · exact Nat.zero_add _

/-- What `strsep` cuts a line into: a word or nothing, and then the words behind it with
empty tokens between them. -/
theorem strsep_eq (str : List UInt8) :
    ∃ tokens, strsep isBlank str = word str :: tokens ∧
      tokens.filter (· ≠ []) = (wordsFrom true str).map word := by
  induction str with
  | nil => exact ⟨[], rfl, rfl⟩
  | cons b bs ih =>
      rcases ih with ⟨tokens, htokens, hfilter⟩
      unfold strsep wordsFrom
      by_cases hb : isBlank b = true
      · rw [if_pos hb, if_pos hb, htokens]
        refine ⟨word bs :: tokens, by simp [word, hb], ?_⟩
        cases bs with
        | nil => simpa [word, wordsFrom] using hfilter
        | cons c cs =>
            unfold wordsFrom at hfilter ⊢
            by_cases hc : isBlank c = true
            · rw [if_pos hc] at hfilter ⊢
              rw [← hfilter, List.filter_cons_of_neg]
              simp [word, hc]
            · rw [if_neg hc, if_neg Bool.false_ne_true, List.map_cons]
              rw [if_neg hc, if_pos rfl] at hfilter
              rw [← hfilter, List.filter_cons_of_pos]
              simp [word, hc]
      · rw [if_neg hb, if_neg hb, if_pos rfl, htokens]
        exact ⟨tokens, by simp [word, hb], hfilter⟩

theorem filter_strsep (str : List UInt8) :
    (strsep isBlank str).filter (· ≠ []) = (wordsFrom false str).map word := by
  rcases strsep_eq str with ⟨tokens, htokens, hfilter⟩
  rw [htokens]
  cases str with
  | nil => simpa [word, wordsFrom] using hfilter
  | cons b bs =>
      unfold wordsFrom at hfilter ⊢
      by_cases hb : isBlank b = true
      · rw [if_pos hb] at hfilter ⊢
        rw [← hfilter, List.filter_cons_of_neg]
        simp [word, hb]
      · rw [if_neg hb, if_neg Bool.false_ne_true, List.map_cons]
        rw [if_neg hb, if_pos rfl] at hfilter
        rw [← hfilter, List.filter_cons_of_pos]
        simp [word, hb]

theorem takeArgs_eq (n : Nat) (tokens : List (List UInt8)) :
    takeArgs n tokens = (tokens.filter (· ≠ [])).take n := by
  induction tokens generalizing n with
  | nil => cases n <;> rfl
  | cons token tokens ih =>
      cases n with
      | zero => rfl
      | succ n =>
          unfold takeArgs
          by_cases h : token = []
          · rw [if_pos h, ih, List.filter_cons_of_neg (by simpa using h)]
          · rw [if_neg h, ih, List.filter_cons_of_pos (by simpa using h), List.take_succ_cons]

/-- The two loops of `args_sep` agree, and it gives the words of the line. -/
theorem argsSep_eq (str : List UInt8) : argsSep str = (wordsFrom false str).map word := by
  have htake : takeArgs (countArgs false str) (strsep isBlank str) =
      (wordsFrom false str).map word := by
    rw [takeArgs_eq, filter_strsep, countArgs_eq, List.take_of_length_le]
    rw [List.length_map]
  unfold argsSep
  rw [htake, if_pos]
  rw [List.length_map, countArgs_eq]

theorem length_argsSep (str : List UInt8) :
    (argsSep str).length = (wordsFrom false str).length := by
  rw [argsSep_eq, List.length_map]

theorem suffix_of_mem_wordsFrom {q : Bool} {str rest : List UInt8}
    (h : rest ∈ wordsFrom q str) : rest <:+ str := by
  induction str generalizing q with
  | nil => nomatch h
  | cons b bs ih =>
      have hcons : bs <:+ b :: bs := List.suffix_cons b bs
      unfold wordsFrom at h
      split at h
      · exact (ih h).trans hcons
      · split at h
        · exact (ih h).trans hcons
        · rcases List.mem_cons.mp h with rfl | h
          · exact List.suffix_rfl
          · exact (ih h).trans hcons

/-- A rest begins with a byte that is not blank. -/
theorem word_ne_nil {q : Bool} {str rest : List UInt8} (h : rest ∈ wordsFrom q str) :
    word rest ≠ [] := by
  induction str generalizing q with
  | nil => nomatch h
  | cons b bs ih =>
      unfold wordsFrom at h
      split at h
      · exact ih h
      · rename_i hb
        split at h
        · exact ih h
        · rcases List.mem_cons.mp h with rfl | h
          · simp [word, hb]
          · exact ih h

theorem word_start (rest : List UInt8) : word rest <+: rest := List.takeWhile_prefix _

/-! ## A line of given words -/

section Words

variable {w : List UInt8}

theorem wordsFrom_true_append (h : ∀ b ∈ w, isBlank b = false) (rest : List UInt8) :
    wordsFrom true (w ++ rest) = wordsFrom true rest := by
  induction w with
  | nil => rfl
  | cons b w ih =>
      rw [List.cons_append, wordsFrom, h b List.mem_cons_self, if_neg Bool.false_ne_true,
        if_pos rfl]
      exact ih fun c hc => h c (List.mem_cons_of_mem _ hc)

theorem wordsFrom_append (hw : w ≠ []) (h : ∀ b ∈ w, isBlank b = false) (rest : List UInt8) :
    wordsFrom false (w ++ rest) = (w ++ rest) :: wordsFrom true rest := by
  cases w with
  | nil => exact absurd rfl hw
  | cons b w =>
      rw [List.cons_append, wordsFrom, h b List.mem_cons_self, if_neg Bool.false_ne_true,
        if_neg Bool.false_ne_true]
      rw [wordsFrom_true_append fun c hc => h c (List.mem_cons_of_mem _ hc)]

/-- A word with a blank behind it. -/
theorem argsSep_append (hw : w ≠ []) (h : ∀ b ∈ w, isBlank b = false) {blank : UInt8}
    (hblank : isBlank blank = true) (rest : List UInt8) :
    argsSep (w ++ blank :: rest) = w :: argsSep rest := by
  have hword : word (w ++ blank :: rest) = w := by
    unfold word
    rw [List.takeWhile_append_of_pos (by simpa using h),
      List.takeWhile_cons_of_neg (by simp [hblank]), List.append_nil]
  rw [argsSep_eq, argsSep_eq, wordsFrom_append hw h, List.map_cons, hword, wordsFrom, if_pos hblank]

/-- A line of one word. -/
theorem argsSep_word (hw : w ≠ []) (h : ∀ b ∈ w, isBlank b = false) : argsSep w = [w] := by
  have hwords := wordsFrom_append hw h []
  rw [List.append_nil] at hwords
  have hword : word w = w := List.takeWhile_eq_self_iff.mpr (by simpa using h)
  rw [argsSep_eq, hwords, List.map_cons, hword]
  rfl

end Words

/-! ## `strstr` -/

theorem strstr_eq_some {str text found : List UInt8} :
    strstr str text = some found ↔
      ∃ i, i ≤ str.length ∧ found = str.drop i ∧ text <+: str.drop i ∧
        ∀ j < i, ¬text <+: str.drop j := by
  induction str with
  | nil =>
      unfold strstr
      constructor
      · intro h
        split at h
        · rename_i hprefix
          injection h with h
          exact ⟨0, Nat.le_refl 0, h.symm, List.isPrefixOf_iff_prefix.mp hprefix,
            fun j hj => absurd hj (Nat.not_lt_zero j)⟩
        · nomatch h
      · rintro ⟨i, -, rfl, hprefix, -⟩
        rw [List.drop_nil] at hprefix ⊢
        rw [if_pos (List.isPrefixOf_iff_prefix.mpr hprefix)]
  | cons b bs ih =>
      unfold strstr
      by_cases hb : text.isPrefixOf (b :: bs) = true
      · rw [if_pos hb]
        have hprefix := List.isPrefixOf_iff_prefix.mp hb
        constructor
        · intro h
          injection h with h
          exact ⟨0, Nat.zero_le _, h.symm, hprefix, fun j hj => absurd hj (Nat.not_lt_zero j)⟩
        · rintro ⟨i, -, rfl, -, hbefore⟩
          rcases Nat.eq_zero_or_pos i with rfl | hi
          · rfl
          · exact absurd hprefix (hbefore 0 hi)
      · rw [if_neg hb]
        have hnot : ¬text <+: b :: bs := fun h => hb (List.isPrefixOf_iff_prefix.mpr h)
        refine ih.trans ⟨?_, ?_⟩
        · rintro ⟨i, hi, rfl, hprefix, hbefore⟩
          refine ⟨i + 1, Nat.succ_le_succ hi, rfl, hprefix, fun j hj => ?_⟩
          cases j with
          | zero => exact hnot
          | succ j => exact hbefore j (Nat.lt_of_succ_lt_succ hj)
        · rintro ⟨i, hi, rfl, hprefix, hbefore⟩
          cases i with
          | zero => exact absurd hprefix hnot
          | succ i =>
              exact ⟨i, Nat.le_of_succ_le_succ hi, rfl, hprefix, fun j hj =>
                hbefore (j + 1) (Nat.succ_lt_succ hj)⟩

/-- A text that is somewhere in the line is found, there or before. -/
theorem exists_strstr {str text rest : List UInt8} (hrest : rest <:+ str) (h : text <+: rest) :
    ∃ found, strstr str text = some found ∧ rest <:+ found ∧ text <+: found := by
  induction str with
  | nil =>
      have hnil : rest = [] := List.suffix_nil.mp hrest
      subst hnil
      refine ⟨[], ?_, List.suffix_rfl, h⟩
      rw [strstr, if_pos (List.isPrefixOf_iff_prefix.mpr h)]
  | cons b bs ih =>
      unfold strstr
      by_cases hb : text.isPrefixOf (b :: bs) = true
      · rw [if_pos hb]
        exact ⟨_, rfl, hrest, List.isPrefixOf_iff_prefix.mp hb⟩
      · rw [if_neg hb]
        rcases List.suffix_cons_iff.mp hrest with rfl | hrest
        · exact absurd (List.isPrefixOf_iff_prefix.mpr h) hb
        · exact ih hrest

/-- The text of a word without its colon is the start of a rest of the line. -/
theorem skipColon_word (rest : List UInt8) :
    skipColon rest <:+ rest ∧ skipColon (word rest) <+: skipColon rest := by
  match rest with
  | [] => exact ⟨List.suffix_rfl, List.prefix_rfl⟩
  | b :: bs =>
      by_cases hcolon : b = 58
      · subst hcolon
        refine ⟨List.suffix_cons _ _, ?_⟩
        have hword : word (58 :: bs) = 58 :: word bs := List.takeWhile_cons_of_pos rfl
        rw [hword]
        exact word_start bs
      · have hskip : ∀ text, skipColon (b :: text) = b :: text := by
          intro text
          unfold skipColon
          split
          · rename_i heq
            injection heq with heq _
            exact absurd heq hcolon
          · rfl
        rw [hskip]
        refine ⟨List.suffix_rfl, ?_⟩
        by_cases hb : isBlank b = true
        · have hword : word (b :: bs) = [] := List.takeWhile_cons_of_neg (by simp [hb])
          rw [hword]
          exact List.nil_prefix
        · have hword : word (b :: bs) = b :: word bs := List.takeWhile_cons_of_pos (by simp [hb])
          rw [hword, hskip, ← hword]
          exact word_start _

/-- A word of a line is found in it, with its colon and without. -/
theorem exists_strstr_arg {str arg : List UInt8} (h : arg ∈ argsSep str) :
    (∃ found, strstr str arg = some found) ∧ ∃ found, strstr str (skipColon arg) = some found := by
  rw [argsSep_eq] at h
  rcases List.mem_map.mp h with ⟨rest, hrest, rfl⟩
  have hsuffix := suffix_of_mem_wordsFrom hrest
  rcases skipColon_word rest with ⟨hskip, hprefix⟩
  rcases exists_strstr hsuffix (word_start rest) with ⟨found, hfound, -⟩
  rcases exists_strstr (hskip.trans hsuffix) hprefix with ⟨found', hfound', -⟩
  exact ⟨⟨found, hfound⟩, ⟨found', hfound'⟩⟩

end Irc
end IrC6
