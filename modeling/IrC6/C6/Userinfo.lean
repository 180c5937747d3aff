import Mathlib.Data.List.TakeWhile
import Mathlib.Data.Nat.Digits.Defs
import IrC6.C6.Profilo
import IrC6.C6.Client.Layouts

/-!
# The search profile

`userinfo.c` lets the user say what to search for: a field of the profile and one of its
values, each by its name or its number.  `_getid` and `_getval` find out which is meant, and
`search_id` keeps a byte for each field, `0xff` where nothing is set.
-/

namespace IrC6
namespace C6
namespace Userinfo

open Irc (strtoul isSpace isDigit)

/-- What ends a handler before its end: a read outside a table, and `FATAL`. -/
inductive Halt where
  | outside
  | fatal (text : List UInt8)
deriving DecidableEq

/-- `xs[i]`. -/
def readAt {α : Type} (xs : List α) (i : Int) : Except Halt α :=
  if i < 0 then .error .outside
  else match xs[i.toNat]? with
    | some x => .ok x
    | none => .error .outside

/-- Where `strtoul(str, &err, 10)` leaves `err`: behind the number, or at the front of a
string that has none. -/
def strtoulEnd (str : List UInt8) : List UInt8 :=
  let body := match str.dropWhile isSpace with
    | 43 :: rest | 45 :: rest => rest
    | rest => rest
  if body.takeWhile isDigit = [] then str else body.dropWhile isDigit

/-- The cast to `int`. -/
def toInt (n : UInt64) : Int := n.toUInt32.toInt32.toInt

/-! ## The lookups -/

/-- The loop of `_getid` over the places of a word. -/
def getidLoop (p : Profilo) (name : List UInt8) :
    List Values → Except Halt (Option (List UInt8 × Int))
  | [] => .ok none
  | v :: vs =>
      if v.val ≠ -1 then getidLoop p name vs
      else do
        let f ← readAt p.fields v.id
        if sameWord name f.name then .ok (some (name, v.id)) else getidLoop p name vs

/-- `_getid`: `*name` and `*id` when it returns 1. -/
def getid (p : Profilo) (name : Option (List UInt8)) (id : Int) :
    Except Halt (Option (List UInt8 × Int)) :=
  match name with
  | none =>
      if id < 0 ∨ p.fields.length ≤ id then .ok none
      else (readAt p.fields id).map fun f => some (f.name, id)
  | some name =>
      let id := toInt (strtoul name)
      if strtoulEnd name ≠ [] then
        match c6UserinfoHash p name with
        | none => .ok none
        | some v => getidLoop p name v
      else if 0 ≤ id ∧ id < p.fields.length then
        (readAt p.fields id).map fun f => some (f.name, id)
      else .ok none

/-- The loop of `_getval` over the places of a word, for the field `id`. -/
def getvalLoop (p : Profilo) (name : List UInt8) (id : Int) :
    List Values → Except Halt (Option (List UInt8 × Int))
  | [] => .ok none
  | v :: vs =>
      if v.id ≠ id then getvalLoop p name id vs
      else do
        let f ← readAt p.fields id
        -- The place of a name has -1 here.
        let w ← readAt f.info v.val
        if sameWord name w then .ok (some (name, v.val)) else getvalLoop p name id vs

/-- `_getval`: `*name` and `*val` when it returns 1. -/
def getval (p : Profilo) (name : Option (List UInt8)) (id val : Int) :
    Except Halt (Option (List UInt8 × Int)) :=
  if id < 0 ∨ p.fields.length ≤ id then .ok none
  else do
    let f ← readAt p.fields id
    match name with
    | none =>
        if f.info.length ≤ val ∨ val < 0 then .ok none
        else (readAt f.info val).map fun w => some (w, val)
    | some name =>
        let val := toInt (strtoul name)
        if strtoulEnd name ≠ [] then
          match c6UserinfoHash p name with
          | none => .ok none
          | some v => getvalLoop p name id v
        else if 0 ≤ val ∧ val < f.info.length then
          (readAt f.info val).map fun w => some (w, val)
        else .ok none

/-! ## The commands -/

def errorInHash : Halt := .fatal (ascii "error in userinfo hash")

/-- `c6_reset_uinfo`. -/
def c6ResetUinfo (c : Client) : Client := { c with searchId := fun _ => 0xff }

/-- `C6(c)->search_id[id] = val`. -/
def storeSearch (c : Client) (id val : Int) : Except Halt Client :=
  if h : 0 ≤ id ∧ id < 256 then
    .ok { c with searchId := Function.update c.searchId ⟨id.toNat, by omega⟩ (UInt8.ofInt val) }
  else .error .outside

/-- `*name` and `*value` after `c6_set_uinfo_val`, and the client. -/
structure SetResult where
  name : Option (List UInt8)
  value : Option (List UInt8)
  client : Client

/-- `c6_set_uinfo_val`.  The lookups do not read `id` and `val` when there is a name. -/
def c6SetUinfoVal (p : Profilo) (c : Client) (name value : List UInt8) :
    Except Halt SetResult := do
  match ← getid p (some name) 0 with
  | none => .ok ⟨none, some value, c⟩
  | some (name, id) =>
      if id < 0 ∨ p.fields.length ≤ id then .error errorInHash
      else match ← getval p (some value) id 0 with
        | none => .ok ⟨some name, none, c⟩
        | some (value, val) =>
            let f ← readAt p.fields id
            if val < 0 ∨ f.info.length ≤ val then .error errorInHash
            else do
              let c ← storeSearch c id val
              .ok ⟨some name, some value, c⟩

/-- The indices of the loops, `i < 256 && i < c6_userinfo_elms`. -/
def indices (p : Profilo) : List (Fin 256) :=
  (List.finRange 256).filter (·.val < p.fields.length)

/-- The second loop of `c6_get_set_uinfo_val`: what it writes to `name` and `value`. -/
def fillSet (p : Profilo) (c : Client) :
    List (Fin 256) → Except Halt (List (List UInt8 × List UInt8))
  | [] => .ok []
  | i :: is =>
      if c.searchId i = 0xff then fillSet p c is
      else do
        let f ← readAt p.fields i.val
        if f.info.length ≤ (c.searchId i).toNat then .error errorInHash
        else do
          let w ← readAt f.info (c.searchId i).toNat
          let rest ← fillSet p c is
          .ok ((f.name, w) :: rest)

/-- `c6_get_set_uinfo_val`: `*elms`, and the names with their values. -/
def c6GetSetUinfoVal (p : Profilo) (c : Client) :
    Except Halt (Nat × List (List UInt8 × List UInt8)) :=
  (fillSet p c (indices p)).map fun filled =>
    ((indices p).countP (c.searchId · ≠ 0xff), filled)

/-- The commands that change the profile. -/
inductive Command where
  | set (name value : List UInt8)
  | reset
deriving DecidableEq

def step (p : Profilo) (c : Client) : Command → Except Halt Client
  | .set name value => (c6SetUinfoVal p c name value).map SetResult.client
  | .reset => .ok (c6ResetUinfo c)

/-- A history of commands. -/
def run (p : Profilo) (c : Client) : List Command → Except Halt Client
  | [] => .ok c
  | cmd :: cmds => do
      let c ← step p c cmd
      run p c cmds

/-! ## Numbers -/

/-- The number that a string of digits denotes. -/
def numeral (ds : List UInt8) : Nat := Nat.ofDigits 10 (ds.reverse.map fun b => (b - 48).toNat)

/-- A lookup takes a number below `bound`, which it yields, and no other. -/
def Checked (r : Except Halt (Option (List UInt8 × Int))) (n bound : Nat) : Prop :=
  if n < bound then ∃ text, r = .ok (some (text, n)) else r = .ok none

theorem foldl_digits (ds : List UInt8) :
    ds.foldl (fun n b => n * 10 + (b - 48).toNat) 0 = numeral ds := by
  rw [numeral, Nat.ofDigits_eq_foldr, List.foldr_map, List.foldr_reverse]
  congr 1
  funext n b
  show n * 10 + (b - 48).toNat = (b - 48).toNat + 10 * n
  omega

theorem digit_plain {b : UInt8} (h : isDigit b = true) : isSpace b = false ∧ b ≠ 43 ∧ b ≠ 45 := by
  simp only [isDigit, Bool.and_eq_true, decide_eq_true_eq, UInt8.le_iff_toNat_le] at h
  have hlow : 48 ≤ b.toNat := h.1
  refine ⟨?_, fun hb => ?_, fun hb => ?_⟩
  · simp only [isSpace, Bool.or_eq_false_iff, Bool.and_eq_false_iff, decide_eq_false_iff_not,
      UInt8.le_iff_toNat_le, ← UInt8.toNat_inj]
    show b.toNat ≠ 32 ∧ (¬ 9 ≤ b.toNat ∨ ¬ b.toNat ≤ 13)
    omega
  · rw [hb] at hlow
    exact absurd hlow (by decide)
  · rw [hb] at hlow
    exact absurd hlow (by decide)

theorem toInt_eq (n : UInt64) :
    toInt n = if 2 * n.toUInt32.toNat < 2 ^ 32 then (n.toUInt32.toNat : Int)
      else n.toUInt32.toNat - 2 ^ 32 := by
  show n.toUInt32.toBitVec.toInt = _
  rw [BitVec.toInt_eq_toNat_cond]
  rfl

section Digits

variable {ds : List UInt8} (hdigits : ∀ b ∈ ds, isDigit b = true)
include hdigits

theorem takeWhile_digits : ds.takeWhile isDigit = ds := by
  rw [List.takeWhile_eq_self_iff]
  exact hdigits

variable (hne : ds ≠ [])
include hne

theorem strtoulEnd_digits : strtoulEnd ds = [] := by
  obtain ⟨b, bs, rfl⟩ := List.exists_cons_of_ne_nil hne
  obtain ⟨hspace, hplus, hminus⟩ := digit_plain (hdigits b List.mem_cons_self)
  have hfront : (b :: bs).dropWhile isSpace = b :: bs :=
    List.dropWhile_cons_of_neg (by simp [hspace])
  have htake := takeWhile_digits hdigits
  have hdrop : (b :: bs).dropWhile isDigit = [] := by
    rw [List.dropWhile_eq_nil_iff]
    exact hdigits
  rw [strtoulEnd, hfront]
  split
  · rename_i rest heq
    exact absurd (List.cons.inj heq).1 hplus
  · rename_i rest heq
    exact absurd (List.cons.inj heq).1 hminus
  · rw [htake, if_neg hne]
    exact hdrop

theorem strtoul_digits :
    strtoul ds =
      if 2 ^ 64 ≤ numeral ds then 18446744073709551615 else UInt64.ofNat (numeral ds) := by
  obtain ⟨b, bs, rfl⟩ := List.exists_cons_of_ne_nil hne
  obtain ⟨hspace, hplus, hminus⟩ := digit_plain (hdigits b List.mem_cons_self)
  have hfront : (b :: bs).dropWhile isSpace = b :: bs :=
    List.dropWhile_cons_of_neg (by simp [hspace])
  have hhead : (b :: bs).head? ≠ some 45 := fun h => hminus (Option.some.inj h)
  rw [strtoul, hfront]
  simp only [if_neg hhead]
  split
  · rename_i rest heq
    exact absurd (List.cons.inj heq).1 hplus
  · rename_i rest heq
    exact absurd (List.cons.inj heq).1 hminus
  · rw [takeWhile_digits hdigits, foldl_digits]

/-- The cast to `int` keeps the low 32 bits, and `strtoul` stops at 64. -/
theorem toInt_strtoul {bound : Nat} (hbound : bound ≤ 255) :
    (0 ≤ toInt (strtoul ds) ∧ toInt (strtoul ds) < bound ↔
      numeral ds < 2 ^ 64 ∧ numeral ds % 2 ^ 32 < bound) ∧
    (0 ≤ toInt (strtoul ds) → toInt (strtoul ds) = (numeral ds % 2 ^ 32 : Nat)) := by
  rw [strtoul_digits hdigits hne]
  by_cases hbig : 2 ^ 64 ≤ numeral ds
  · rw [if_pos hbig]
    have hmax : toInt 18446744073709551615 = -1 := by decide
    rw [hmax]
    omega
  · rw [if_neg hbig, toInt_eq]
    have hlow : (UInt64.ofNat (numeral ds)).toUInt32.toNat = numeral ds % 2 ^ 32 := by
      have hsize : numeral ds < UInt64.size := Nat.not_le.mp hbig
      rw [UInt64.toNat_toUInt32, UInt64.toNat_ofNat_of_lt' hsize]
    rw [hlow]
    split <;> omega

end Digits

theorem readAt_eq {α : Type} {xs : List α} {i : Nat} {x : α} (h : xs[i]? = some x) :
    readAt xs i = .ok x := by
  have hindex : (i : Int).toNat = i := Int.toNat_natCast i
  rw [readAt, if_neg (by omega), hindex, h]

/-- What a lookup makes of digits, from the range test on. -/
theorem checked_iff {r : Except Halt (Option (List UInt8 × Int))} {n bound : Nat}
    (hbound : bound ≤ 255)
    (htaken : n < 2 ^ 64 ∧ n % 2 ^ 32 < bound → ∃ text, r = .ok (some (text, (n % 2 ^ 32 : Nat))))
    (hrefused : ¬ (n < 2 ^ 64 ∧ n % 2 ^ 32 < bound) → r = .ok none) :
    Checked r n bound ↔ n < 2 ^ 32 ∨ 2 ^ 64 ≤ n ∨ bound ≤ n % 2 ^ 32 := by
  unfold Checked
  by_cases hlt : n < bound
  · rw [if_pos hlt]
    obtain ⟨text, htext⟩ := htaken (by omega)
    have hsmall : n % 2 ^ 32 = n := Nat.mod_eq_of_lt (by omega)
    rw [hsmall] at htext
    exact iff_of_true ⟨text, htext⟩ (Or.inl (by omega))
  · rw [if_neg hlt]
    by_cases htest : n < 2 ^ 64 ∧ n % 2 ^ 32 < bound
    · obtain ⟨text, htext⟩ := htaken htest
      refine iff_of_false (fun h => ?_) (by omega)
      rw [htext] at h
      cases h
    · exact iff_of_true (hrefused htest) (by omega)

/-- Digits behind the test `0 <= n && n < xs`. -/
theorem number_checked {α : Type} {xs : List α} (hbound : xs.length ≤ 255) {ds : List UInt8}
    (hdigits : ∀ b ∈ ds, isDigit b = true) (hne : ds ≠ []) (text : α → List UInt8) :
    Checked (if 0 ≤ toInt (strtoul ds) ∧ toInt (strtoul ds) < xs.length then
        (readAt xs (toInt (strtoul ds))).map fun x => some (text x, toInt (strtoul ds))
      else .ok none) (numeral ds) xs.length ↔
    numeral ds < 2 ^ 32 ∨ 2 ^ 64 ≤ numeral ds ∨ xs.length ≤ numeral ds % 2 ^ 32 := by
  obtain ⟨htest, hvalue⟩ := toInt_strtoul hdigits hne hbound
  refine checked_iff hbound (fun hin => ?_) (fun hout => if_neg (mt htest.mp hout))
  have hrange := htest.mpr hin
  have hread := readAt_eq (List.getElem?_eq_getElem hin.2)
  rw [if_pos hrange, hvalue hrange.1, hread]
  exact ⟨_, rfl⟩

theorem getid_number (p : Profilo) {ds : List UInt8} (hdigits : ∀ b ∈ ds, isDigit b = true)
    (hne : ds ≠ []) (id : Int) :
    Checked (getid p (some ds) id) (numeral ds) p.fields.length ↔
      numeral ds < 2 ^ 32 ∨ 2 ^ 64 ≤ numeral ds ∨ p.fields.length ≤ numeral ds % 2 ^ 32 := by
  simp only [getid, strtoulEnd_digits hdigits hne]
  exact number_checked p.elms_le hdigits hne Userinfos.name

theorem getval_number (p : Profilo) {ds : List UInt8} (hdigits : ∀ b ∈ ds, isDigit b = true)
    (hne : ds ≠ []) {id : Nat} {f : Userinfos} (hf : p.fields[id]? = some f) (val : Int) :
    Checked (getval p (some ds) id val) (numeral ds) f.info.length ↔
      numeral ds < 2 ^ 32 ∨ 2 ^ 64 ≤ numeral ds ∨ f.info.length ≤ numeral ds % 2 ^ 32 := by
  have hlt : id < p.fields.length := (List.getElem?_eq_some_iff.mp hf).1
  have hentries := p.entries_le f (List.mem_of_getElem? hf)
  rw [getval, if_neg (by omega), readAt_eq hf]
  simp only [strtoulEnd_digits hdigits hne]
  exact number_checked hentries hdigits hne fun w => w

/-- A string of digits is range checked by its low 32 bits: the lookups are right about it
exactly when these are not in range by accident. -/
theorem numeric_iff (p : Profilo) (ds : List UInt8) (hne : ds ≠ [])
    (hdigits : ∀ b ∈ ds, isDigit b = true) :
    (∀ id, Checked (getid p (some ds) id) (numeral ds) p.fields.length ↔
      numeral ds < 2 ^ 32 ∨ 2 ^ 64 ≤ numeral ds ∨ p.fields.length ≤ numeral ds % 2 ^ 32) ∧
    ∀ (id : Nat) (f : Userinfos), p.fields[id]? = some f → ∀ val,
      (Checked (getval p (some ds) id val) (numeral ds) f.info.length ↔
        numeral ds < 2 ^ 32 ∨ 2 ^ 64 ≤ numeral ds ∨ f.info.length ≤ numeral ds % 2 ^ 32) :=
  ⟨getid_number p hdigits hne, fun _ _ hf => getval_number p hdigits hne hf⟩

theorem numeric_iff_genere :
    Checked (getid profilo (some (ascii "7")) 0) (numeral (ascii "7")) profilo.fields.length ∧
    Checked (getval profilo (some (ascii "7")) 1 0) (numeral (ascii "7")) 4 := by
  have h := numeric_iff profilo (ascii "7") (by decide +kernel) (by decide +kernel)
  have hseven : numeral (ascii "7") < 2 ^ 32 := by
    rw [show numeral (ascii "7") = 7 by decide +kernel]
    omega
  exact ⟨(h.1 0).mpr (Or.inl hseven), (h.2 1 _ rfl 0).mpr (Or.inl hseven)⟩

/-- Number 4294967296 is taken for field 0. -/
theorem getid_not_checked :
    ¬ Checked (getid profilo (some (ascii "4294967296")) 0) (numeral (ascii "4294967296"))
      profilo.fields.length := by
  intro h
  have hcond := (getid_number profilo (by decide +kernel) (by decide +kernel) 0).mp h
  have hnumeral : numeral (ascii "4294967296") = 4294967296 := by decide +kernel
  have hpos : 0 < profilo.fields.length := by decide +kernel
  rw [hnumeral] at hcond
  omega

end Userinfo
end C6
end IrC6
