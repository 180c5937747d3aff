import IrC6.Irc.Rooms

/-!
# Insertions into the lists

`chanlist_add` and `nicklist_add` allocate a structure, give it its name and put it into the
hash table under that name; a room gets the rest of its structure only then.  When the table
does not take it they free what they have allocated and make the result of the table their
own.  Here the table is that of `hash.c`, and the structures are at the addresses that the
table has as arguments.

The two say the same of a room or nick that is there or that is new.  Of a name that the
table refuses, the empty one or one that agrees with another in both hashes, `chanlist_add`
says that it is stored.
-/

namespace IrC6

open Hash

/-- The numbers of the results of `hash.h`. -/
def Hash.Ret.code : Ret → Int
  | .ok => 1
  | .dup => 0
  | .ecoll => -1
  | .enotfound => -2
  | .unspec => -63
  | .einval => -126

/-- A table of the connection, and the structures that are allocated. -/
structure Listed (σ : Type) where
  table : Table Nat
  structs : Nat → Option σ

/-- The cells for a structure, a tree node and a list node. -/
structure ListCells where
  struct : Nat
  tnew : Nat
  lnew : Nat

/-- `struct chanlist`, with the fields that are `NULL` until the table has taken it. -/
structure ChanStruct where
  name : List UInt8
  cname : Option (List UInt8)
  nicks : Option (Dict Unit)

/-- `struct nicklist`. -/
structure NickStruct where
  name : List UInt8
  info : NickInfo

namespace Listed

variable {σ : Type}

/-- What the two functions do: `filled` is the structure when the table gets it, `complete`
what they do to it when the table has taken it, and `failed` what they return otherwise. -/
def insert (s : Listed σ) (name : List UInt8) (filled : σ) (complete : σ → σ) (failed : Ret → Int)
    (c : ListCells) : Listed σ × Int :=
  let structs := Function.update s.structs c.struct (some filled)
  let r := s.table.hashtableAdd (hashNew name c.struct) c.tnew c.lnew
  if r.2.2.code ≤ 0 then
    -- `a_free`
    ({ table := r.1, structs := Function.update structs c.struct none }, failed r.2.2)
  else ({ table := r.1, structs := Function.update structs c.struct (some (complete filled)) }, 1)

/-- `(ret == HASH_DUP) ? 0 : 1`. -/
def chanlistFailed (ret : Ret) : Int := if ret = .dup then 0 else 1

/-- `(ret == HASH_DUP) ? 0 : -1`. -/
def nicklistFailed (ret : Ret) : Int := if ret = .dup then 0 else -1

/-- The structure of a room when the table gets it. -/
def newRoom (room : List UInt8) : ChanStruct := { name := room, cname := none, nicks := none }

/-- The rest of the structure. -/
def openRoom (croom : List UInt8) (cl : ChanStruct) : ChanStruct :=
  { cl with cname := some croom, nicks := some ∅ }

/-- The structure of a nick, which `a_new0` has cleared. -/
def newNick (nick : List UInt8) : NickStruct :=
  { name := nick, info := { status := 0, blackList := false } }

def chanlistAdd (s : Listed ChanStruct) (room croom : List UInt8) (c : ListCells) :
    Listed ChanStruct × Int :=
  s.insert room (newRoom room) (openRoom croom) chanlistFailed c

def nicklistAdd (s : Listed NickStruct) (nick : List UInt8) (c : ListCells) :
    Listed NickStruct × Int :=
  s.insert nick (newNick nick) (fun nl => nl) nicklistFailed c

/-! ## What a list holds -/

/-- A name is in the list. -/
def Has (s : Listed σ) (name : List UInt8) : Prop := ∃ p, (name, p) ∈ s.table.entries

/-- A name is in the list with a structure. -/
def Holds (s : Listed σ) (name : List UInt8) (x : σ) : Prop :=
  ∃ p, (name, p) ∈ s.table.entries ∧ s.structs p = some x

/-- Another name in the list agrees with this one in both hashes. -/
def Clashes (s : Listed σ) (name : List UInt8) : Prop :=
  ∃ k, k ≠ name ∧ s.Has k ∧ fnvHash k = fnvHash name ∧ oatHash k = oatHash name

/-- A list as the program keeps it: the table has `CHMATCH` alone, no name is empty, and each
has its structure. -/
structure Sound (s : Listed σ) : Prop where
  exact : s.table.Exact
  named : ¬ s.Has []
  stored : ∀ k p, (k, p) ∈ s.table.entries → s.structs p ≠ none

/-- The allocations give cells that are not in use. -/
structure Fresh (s : Listed σ) (c : ListCells) : Prop where
  struct : s.structs c.struct = none
  table : s.table.Fresh c.tnew c.lnew

/-- The list is as it was. -/
def Unchanged (s' s : Listed σ) : Prop :=
  (∀ k p, (k, p) ∈ s'.table.entries ↔ (k, p) ∈ s.table.entries) ∧ s'.structs = s.structs

/-- What an insertion is to report: 1 exactly for a name that was not there and now is, with
its structure, 0 exactly for one that was there, and a negative number otherwise; and unless
it reports 1 the list is as it was. -/
structure Reports (s : Listed σ) (name : List UInt8) (x : σ) (r : Listed σ × Int) : Prop where
  added : r.2 = 1 ↔ ¬ s.Has name ∧ r.1.Holds name x
  present : r.2 = 0 ↔ s.Has name
  refused : r.2 ≠ 1 → r.2 ≠ 0 → r.2 < 0
  unchanged : r.2 ≠ 1 → Unchanged r.1 s
  others : ∀ k, k ≠ name → ∀ y, r.1.Holds k y ↔ s.Holds k y

/-! ## The insertion -/

section Insert

variable {s : Listed σ} {name : List UInt8} {filled : σ} {complete : σ → σ} {failed : Ret → Int}
  {c : ListCells}

/-- An insertion that the table does not take. -/
theorem insert_failed (hc : s.Fresh c) {ret : Ret}
    (hret : (s.table.hashtableAdd (hashNew name c.struct) c.tnew c.lnew).2.2 = ret)
    (hcode : ret.code ≤ 0) :
    s.insert name filled complete failed c =
      ({ s with table := (s.table.hashtableAdd (hashNew name c.struct) c.tnew c.lnew).1 },
        failed ret) := by
  have hstructs : Function.update (Function.update s.structs c.struct (some filled)) c.struct none =
      s.structs := by
    rw [Function.update_idem, ← hc.struct, Function.update_eq_self]
  rw [← hret] at hcode ⊢
  rw [insert, if_pos hcode, hstructs]

theorem insert_added
    (hret : (s.table.hashtableAdd (hashNew name c.struct) c.tnew c.lnew).2.2 = .ok) :
    s.insert name filled complete failed c =
      ({ table := (s.table.hashtableAdd (hashNew name c.struct) c.tnew c.lnew).1,
         structs := Function.update s.structs c.struct (some (complete filled)) }, 1) := by
  have hcode : ¬ (s.table.hashtableAdd (hashNew name c.struct) c.tnew c.lnew).2.2.code ≤ 0 := by
    rw [hret]
    decide
  rw [insert, if_neg hcode, Function.update_idem]

/-- One more entry, with a structure of its own. -/
theorem holds_cons {t : Table Nat} (hs : s.Sound) (hc : s.Fresh c) (hhas : ¬ s.Has name)
    (hperm : t.entries.Perm ((name, c.struct) :: s.table.entries)) (x : σ) (k : List UInt8)
    (y : σ) :
    Holds { table := t, structs := Function.update s.structs c.struct (some x) } k y ↔
      (k = name ∧ y = x) ∨ (k ≠ name ∧ s.Holds k y) := by
  have hold : ∀ q, (k, q) ∈ s.table.entries → q ≠ c.struct := fun q hq heq =>
    hs.stored k q hq (heq ▸ hc.struct)
  constructor
  · rintro ⟨q, hq, hstruct⟩
    obtain heq | hmem := List.mem_cons.mp (hperm.mem_iff.mp hq)
    · obtain ⟨rfl, rfl⟩ := Prod.mk.inj heq
      have hself : some x = some y :=
        (Function.update_self c.struct (some x) s.structs).symm.trans hstruct
      exact Or.inl ⟨rfl, (Option.some.inj hself).symm⟩
    · have hother : s.structs q = some y :=
        (Function.update_of_ne (hold q hmem) _ _).symm.trans hstruct
      exact Or.inr ⟨fun hk => hhas ⟨q, hk ▸ hmem⟩, q, hmem, hother⟩
  · rintro (⟨rfl, rfl⟩ | ⟨-, q, hmem, hstruct⟩)
    · exact ⟨c.struct, hperm.mem_iff.mpr List.mem_cons_self, Function.update_self ..⟩
    · have hother : Function.update s.structs c.struct (some x) q = some y :=
        (Function.update_of_ne (hold q hmem) _ _).trans hstruct
      exact ⟨q, hperm.mem_iff.mpr (List.mem_cons_of_mem _ hmem), hother⟩

variable (name filled complete failed)

/-- The four ways of an insertion: the name is empty, there, refused or new. -/
theorem insert_cases (hs : s.Sound) (hc : s.Fresh c) :
    (name = [] ∧ Unchanged (s.insert name filled complete failed c).1 s ∧
      (s.insert name filled complete failed c).2 = failed .einval) ∨
    (name ≠ [] ∧ s.Has name ∧ Unchanged (s.insert name filled complete failed c).1 s ∧
      (s.insert name filled complete failed c).2 = failed .dup) ∨
    (name ≠ [] ∧ ¬ s.Has name ∧ s.Clashes name ∧
      Unchanged (s.insert name filled complete failed c).1 s ∧
      (s.insert name filled complete failed c).2 = failed .ecoll) ∨
    (name ≠ [] ∧ ¬ s.Has name ∧ ¬ s.Clashes name ∧
      ∃ t, t.entries.Perm ((name, c.struct) :: s.table.entries) ∧
        s.insert name filled complete failed c =
          ({ table := t,
             structs := Function.update s.structs c.struct (some (complete filled)) }, 1)) := by
  by_cases hname : name = []
  · subst hname
    have hadd : s.table.hashtableAdd (hashNew [] c.struct) c.tnew c.lnew =
        (s.table, hashNew [] c.struct, .einval) := if_pos rfl
    have hret : (s.table.hashtableAdd (hashNew [] c.struct) c.tnew c.lnew).2.2 = .einval :=
      congrArg (fun r => r.2.2) hadd
    rw [insert_failed hc hret (by decide), hadd]
    exact Or.inl ⟨rfl, ⟨fun _ _ => Iff.rfl, rfl⟩, rfl⟩
  · refine Or.inr ?_
    obtain ⟨-, hadds⟩ := hs.exact.hashtableAdd hname c.struct hc.table
    obtain ⟨p, hp, hfnv, hoat, hperm, hret⟩ | ⟨hnone, hperm, hret⟩ := hadds
    · have hunchanged : ∀ k q, (k, q) ∈
          (s.table.hashtableAdd (hashNew name c.struct) c.tnew c.lnew).1.entries ↔
          (k, q) ∈ s.table.entries := fun k q => hperm.mem_iff
      by_cases hkey : name = p.1
      · rw [if_pos hkey] at hret
        rw [insert_failed hc hret (by decide)]
        exact Or.inl ⟨hname, ⟨p.2, hkey ▸ hp⟩, ⟨hunchanged, rfl⟩, rfl⟩
      · rw [if_neg hkey] at hret
        have hhas : ¬ s.Has name := by
          rintro ⟨q, hq⟩
          obtain ⟨l, hl, hlk, -⟩ := Table.mem_entries.mp hq
          obtain ⟨l', hl', hlp, -⟩ :=
            Table.mem_entries.mp (show (p.1, p.2) ∈ s.table.entries from hp)
          have heq := hs.exact.eq_of_hashes hl hl' (by rw [hlk, hlp, hfnv]) (by rw [hlk, hlp, hoat])
          exact hkey (by rw [← hlk, heq, hlp])
        rw [insert_failed hc hret (by decide)]
        exact Or.inr (Or.inl ⟨hname, hhas, ⟨p.1, Ne.symm hkey, ⟨p.2, hp⟩, hfnv, hoat⟩,
          ⟨hunchanged, rfl⟩, rfl⟩)
    · rw [insert_added hret]
      have hhas : ¬ s.Has name := fun ⟨q, hq⟩ => hnone (name, q) hq rfl rfl
      refine Or.inr (Or.inr ⟨hname, hhas, ?_, _, hperm, rfl⟩)
      rintro ⟨k, -, ⟨q, hq⟩, hfnv, hoat⟩
      exact hnone (k, q) hq hfnv hoat

variable {name} in
theorem Holds.has {x : σ} (h : s.Holds name x) : s.Has name := by
  obtain ⟨p, hp, -⟩ := h
  exact ⟨p, hp⟩

theorem Unchanged.has {s' : Listed σ} (h : Unchanged s' s) (name : List UInt8) :
    s'.Has name ↔ s.Has name :=
  exists_congr fun p => h.1 name p

theorem Unchanged.holds {s' : Listed σ} (h : Unchanged s' s) (name : List UInt8) (x : σ) :
    s'.Holds name x ↔ s.Holds name x :=
  exists_congr fun p => and_congr (h.1 name p) (by rw [h.2])

variable {name} in
/-- A name that is not put in must be reported by a negative number. -/
theorem reports_of_refused {x : σ} {r : Listed σ × Int} (habsent : ¬ s.Has name)
    (hsame : Unchanged r.1 s) : Reports s name x r ↔ r.2 < 0 := by
  have hout : ¬ r.1.Holds name x := fun h => habsent ((hsame.has name).mp h.has)
  constructor
  · intro h
    exact h.refused (fun hone => hout (h.added.mp hone).2) fun hzero =>
      habsent (h.present.mp hzero)
  · intro hneg
    exact ⟨⟨fun hone => by omega, fun h => absurd h.2 hout⟩,
      ⟨fun hzero => by omega, fun h => absurd h habsent⟩, fun _ _ => hneg, fun _ => hsame,
      fun k _ => hsame.holds k⟩

/-- What a list reports of a name depends on the results it gives for the ones that the table
refuses. -/
theorem reports_iff (hs : s.Sound) (hc : s.Fresh c) (hdup : failed .dup = 0) :
    Reports s name (complete filled) (s.insert name filled complete failed c) ↔
      (name = [] → failed .einval < 0) ∧
      (name ≠ [] → ¬ s.Has name → s.Clashes name → failed .ecoll < 0) := by
  obtain ⟨hnil, hsame, hret⟩ | ⟨hname, hhas, hsame, hret⟩ | ⟨hname, hhas, hclash, hsame, hret⟩ |
    ⟨hname, hhas, hclash, t, hperm, hadded⟩ := insert_cases name filled complete failed hs hc
  · have habsent : ¬ s.Has name := by
      rw [hnil]
      exact hs.named
    rw [reports_of_refused habsent hsame, hret]
    exact ⟨fun hneg => ⟨fun _ => hneg, fun hne => absurd hnil hne⟩, fun h => h.1 hnil⟩
  · have hzero : (s.insert name filled complete failed c).2 = 0 := hret.trans hdup
    refine iff_of_true ?_ ⟨fun hnil => absurd hnil hname, fun _ hnot => absurd hhas hnot⟩
    exact ⟨⟨fun h => by omega, fun h => absurd hhas h.1⟩, ⟨fun _ => hhas, fun _ => hzero⟩,
      fun _ h => absurd hzero h, fun _ => hsame, fun k _ => hsame.holds k⟩
  · rw [reports_of_refused hhas hsame, hret]
    exact ⟨fun hneg => ⟨fun hnil => absurd hnil hname, fun _ _ _ => hneg⟩,
      fun h => h.2 hname hhas hclash⟩
  · refine iff_of_true ?_ ⟨fun hnil => absurd hnil hname, fun _ _ h => absurd h hclash⟩
    have hholds := holds_cons hs hc hhas hperm (complete filled)
    rw [hadded]
    refine ⟨⟨fun _ => ⟨hhas, (hholds name _).mpr (Or.inl ⟨rfl, rfl⟩)⟩, fun _ => rfl⟩,
      ⟨fun h => absurd (show (1 : Int) = 0 from h) (by decide), fun h => absurd h hhas⟩,
      fun h => absurd rfl h,
      fun h => absurd rfl h, fun k hk x => (hholds k x).trans ?_⟩
    constructor
    · rintro (⟨rfl, -⟩ | ⟨-, h⟩)
      · exact absurd rfl hk
      · exact h
    · exact fun h => Or.inr ⟨hk, h⟩

end Insert

theorem chanlistAdd_reports {s : Listed ChanStruct} {c : ListCells} (hs : s.Sound)
    (hc : s.Fresh c) (room croom : List UInt8) :
    Reports s room (openRoom croom (newRoom room)) (s.chanlistAdd room croom c) ↔
      room ≠ [] ∧ (s.Has room ∨ ¬ s.Clashes room) := by
  have hdup : chanlistFailed .dup = 0 := rfl
  have hrefused : ∀ ret, ret ≠ .dup → ¬ chanlistFailed ret < 0 := fun ret hret => by
    rw [chanlistFailed, if_neg hret]
    decide
  refine (reports_iff room (newRoom room) (openRoom croom) chanlistFailed hs hc hdup).trans ?_
  constructor
  · rintro ⟨hnil, hclash⟩
    have hne : room ≠ [] := fun h => hrefused .einval (by decide) (hnil h)
    refine ⟨hne, ?_⟩
    by_contra h
    push Not at h
    exact hrefused .ecoll (by decide) (hclash hne h.1 h.2)
  · rintro ⟨hne, hclear⟩
    refine ⟨fun h => absurd h hne, fun _ hhas hclash => ?_⟩
    exact absurd hclear (not_or.mpr ⟨hhas, not_not.mpr hclash⟩)

theorem nicklistAdd_reports {s : Listed NickStruct} {c : ListCells} (hs : s.Sound)
    (hc : s.Fresh c) (nick : List UInt8) :
    Reports s nick (newNick nick) (s.nicklistAdd nick c) := by
  have hdup : nicklistFailed .dup = 0 := rfl
  refine (reports_iff nick (newNick nick) (fun nl => nl) nicklistFailed hs hc hdup).mpr ?_
  exact ⟨fun _ => by decide, fun _ _ _ => by decide⟩

/-! ## The lists of a connection -/

/-- A new list, of `hashtable_new` with `HASHTABLE_CHMATCH`. -/
def empty (σ : Type) : Listed σ :=
  { table := hashtableNew false true false 0, structs := fun _ => none }

theorem empty_sound (σ : Type) : (empty σ).Sound where
  exact := hashtableNew_exact false
  named h := by
    obtain ⟨p, hp⟩ := h
    exact absurd hp List.not_mem_nil
  stored k p hp := absurd hp List.not_mem_nil

theorem empty_fresh (σ : Type) (c : ListCells) : (empty σ).Fresh c where
  struct := rfl
  table := ⟨List.not_mem_nil, List.not_mem_nil⟩

theorem insert_table {σ : Type} (s : Listed σ) (name : List UInt8) (filled : σ) (complete : σ → σ)
    (failed : Ret → Int) (c : ListCells) :
    (s.insert name filled complete failed c).1.table =
      (s.table.hashtableAdd (hashNew name c.struct) c.tnew c.lnew).1 := by
  unfold insert
  dsimp only
  split <;> rfl

/-- An insertion leaves a list as the program keeps it. -/
theorem insert_sound {σ : Type} {s : Listed σ} {c : ListCells} (hs : s.Sound) (hc : s.Fresh c)
    (name : List UInt8) (filled : σ) (complete : σ → σ) (failed : Ret → Int) :
    (s.insert name filled complete failed c).1.Sound := by
  have hexact : (s.insert name filled complete failed c).1.table.Exact := by
    rw [insert_table]
    by_cases hname : name = []
    · subst hname
      exact hs.exact
    · exact (hs.exact.hashtableAdd hname c.struct hc.table).1
  have hkept : Unchanged (s.insert name filled complete failed c).1 s →
      (s.insert name filled complete failed c).1.Sound := fun hsame =>
    ⟨hexact, fun h => hs.named ((hsame.has []).mp h), fun k p hp => by
      rw [hsame.2]
      exact hs.stored k p ((hsame.1 k p).mp hp)⟩
  obtain ⟨-, hsame, -⟩ | ⟨-, -, hsame, -⟩ | ⟨-, -, -, hsame, -⟩ |
    ⟨hname, hhas, hclash, t, hperm, hadded⟩ := insert_cases name filled complete failed hs hc
  · exact hkept hsame
  · exact hkept hsame
  · exact hkept hsame
  · rw [hadded] at hexact ⊢
    refine ⟨hexact, ?_, fun k p hp => ?_⟩
    · rintro ⟨p, hp⟩
      obtain heq | hmem := List.mem_cons.mp (hperm.mem_iff.mp hp)
      · exact hname (Prod.mk.inj heq).1.symm
      · exact hs.named ⟨p, hmem⟩
    · obtain heq | hmem := List.mem_cons.mp (hperm.mem_iff.mp hp)
      · obtain ⟨-, rfl⟩ := Prod.mk.inj heq
        show Function.update s.structs c.struct (some (complete filled)) c.struct ≠ none
        rw [Function.update_self]
        exact Option.some_ne_none _
      · have hother : p ≠ c.struct := fun heq => hs.stored k p hmem (heq ▸ hc.struct)
        show Function.update s.structs c.struct (some (complete filled)) p ≠ none
        rw [Function.update_of_ne hother]
        exact hs.stored k p hmem

/-- The list and the map of `Lists` hold the same rooms. -/
structure Models (s : Listed ChanStruct) (d : Dict Chan) : Prop where
  has : ∀ k, s.Has k ↔ k ∈ d
  holds : ∀ k cl, s.Holds k ⟨cl.name, some cl.cname, some cl.nicks⟩ ↔ d.lookup k = some cl

theorem Models.clashes {s : Listed ChanStruct} {d : Dict Chan} (hm : Models s d)
    {room : List UInt8} (hhas : ¬ s.Has room) :
    s.Clashes room ↔ IrC6.clashes d.keys room = true := by
  simp only [IrC6.clashes, List.any_eq_true, decide_eq_true_eq]
  constructor
  · rintro ⟨k, -, hk, hhash⟩
    exact ⟨k, AList.mem_keys.mpr ((hm.has k).mp hk), hhash⟩
  · rintro ⟨k, hk, hhash⟩
    have hin := (hm.has k).mpr (AList.mem_keys.mp hk)
    exact ⟨k, fun heq => hhas (heq ▸ hin), hin, hhash⟩

theorem Models.unchanged {s s' : Listed ChanStruct} {d : Dict Chan} (hm : Models s d)
    (hsame : Unchanged s' s) : Models s' d :=
  ⟨fun k => (hsame.has k).trans (hm.has k), fun k cl => (hsame.holds k _).trans (hm.holds k cl)⟩

theorem empty_models (nick : List UInt8) : (empty ChanStruct).Models (connNew nick).chans where
  has k := iff_of_false (fun ⟨_, hp⟩ => absurd hp List.not_mem_nil) (AList.notMem_empty k)
  holds _ _ := iff_of_false (fun ⟨_, hp, _⟩ => absurd hp List.not_mem_nil) fun h => nomatch h

/-- On both levels `chanlist_add` returns the same and leaves the same rooms. -/
theorem chanlistAdd_models {s : Listed ChanStruct} {d : Dict Chan} {c : ListCells} (hs : s.Sound)
    (hc : s.Fresh c) (hm : Models s d) (room croom : List UInt8) :
    (s.chanlistAdd room croom c).2 = (IrC6.chanlistAdd clashes d room croom).2 ∧
      Models (s.chanlistAdd room croom c).1 (IrC6.chanlistAdd clashes d room croom).1 := by
  rw [chanlistAdd, IrC6.chanlistAdd, hashtableAddD]
  obtain ⟨hnil, hsame, hret⟩ | ⟨hname, hhas, hsame, hret⟩ | ⟨hname, hhas, hclash, hsame, hret⟩ |
    ⟨hname, hhas, hclash, t, hperm, hadded⟩ :=
      insert_cases room (newRoom room) (openRoom croom) chanlistFailed hs hc
  · rw [if_pos hnil, hret]
    exact ⟨rfl, hm.unchanged hsame⟩
  · rw [if_neg hname, if_pos ((hm.has room).mp hhas), hret]
    exact ⟨rfl, hm.unchanged hsame⟩
  · rw [if_neg hname, if_neg (mt (hm.has room).mpr hhas), if_pos ((hm.clashes hhas).mp hclash),
      hret]
    exact ⟨rfl, hm.unchanged hsame⟩
  · have hholds := holds_cons hs hc hhas hperm (openRoom croom (newRoom room))
    rw [if_neg hname, if_neg (mt (hm.has room).mpr hhas),
      if_neg (mt (hm.clashes hhas).mpr hclash), hadded]
    refine ⟨rfl, fun k => ?_, fun k cl => ?_⟩
    · show (∃ p, (k, p) ∈ t.entries) ↔ k ∈ d.insert room _
      rw [AList.mem_insert, ← hm.has k]
      constructor
      · rintro ⟨p, hp⟩
        obtain heq | hmem := List.mem_cons.mp (hperm.mem_iff.mp hp)
        · exact Or.inl (Prod.mk.inj heq).1
        · exact Or.inr ⟨p, hmem⟩
      · rintro (rfl | ⟨p, hmem⟩)
        · exact ⟨c.struct, hperm.mem_iff.mpr List.mem_cons_self⟩
        · exact ⟨p, hperm.mem_iff.mpr (List.mem_cons_of_mem _ hmem)⟩
    · show _ ↔ (d.insert room _).lookup k = some cl
      rw [hholds k]
      by_cases hk : k = room
      · subst hk
        rw [AList.lookup_insert]
        constructor
        · rintro (⟨-, heq⟩ | ⟨hk, -⟩)
          · obtain ⟨hname, hcname, hnicks⟩ := ChanStruct.mk.inj heq
            cases cl
            cases hname
            cases hcname
            cases hnicks
            rfl
          · exact absurd rfl hk
        · intro h
          obtain rfl := Option.some.inj h
          exact Or.inl ⟨rfl, rfl⟩
      · rw [AList.lookup_insert_ne hk, ← hm.holds k cl]
        constructor
        · rintro (⟨heq, -⟩ | ⟨-, h⟩)
          · exact absurd heq hk
          · exact h
        · exact fun h => Or.inr ⟨hk, h⟩

end Listed

/-! ## The room that was entered -/

/-- `irc_out_room_ulist` does not find the room that it has added. -/
def ChanlistError (c : Conn) (room : List UInt8) (usersv : List (List UInt8)) : Prop :=
  ∃ outs, Irc.ircOutRoomUlist clashes c room usersv = .error (.fatal (ascii "chanlist error"), outs)

theorem chanlistError_iff {c : Conn} (hc : [] ∉ c.chans) (room : List UInt8)
    (usersv : List (List UInt8)) :
    ChanlistError c room usersv ↔
      room = [] ∨ (room ∉ c.chans ∧ clashes c.chans.keys room = true) := by
  have habsent : room ∉ c.chans → chanlistGetstruct c.chans room = none := AList.lookup_eq_none.mpr
  unfold ChanlistError Irc.ircOutRoomUlist
  by_cases hname : room = []
  · subst hname
    have hadd : ∀ croom, chanlistAdd clashes c.chans [] croom = (c.chans, 1) := fun _ => rfl
    simp only [hadd, if_true, habsent hc, true_or, iff_true]
    exact ⟨_, rfl⟩
  · by_cases hmem : room ∈ c.chans
    · have hadd : ∀ croom, chanlistAdd clashes c.chans room croom = (c.chans, 0) := fun croom => by
        rw [chanlistAdd, hashtableAddD, if_neg hname, if_pos hmem]
      simp [hadd, hname, hmem]
    · by_cases hclash : clashes c.chans.keys room = true
      · have hadd : ∀ croom, chanlistAdd clashes c.chans room croom = (c.chans, 1) := by
          intro croom
          rw [chanlistAdd, hashtableAddD, if_neg hname, if_neg hmem, if_pos hclash]
        simp only [hadd, if_true, habsent hmem]
        exact iff_of_true ⟨_, rfl⟩ (Or.inr ⟨hmem, hclash⟩)
      · have hadd : ∀ croom, chanlistAdd clashes c.chans room croom =
            (c.chans.insert room { name := room, cname := croom, nicks := ∅ }, 1) := fun croom => by
          rw [chanlistAdd, hashtableAddD, if_neg hname, if_neg hmem, if_neg hclash]
        simp only [hadd, if_true, chanlistGetstruct, AList.lookup_insert]
        refine iff_of_false (fun h => ?_) (fun h => ?_)
        · obtain ⟨outs, h⟩ := h
          cases h
        · exact h.elim hname fun h => hclash h.2

/-- `nicklist_add` always reports what it did, and `chanlist_add` of the names that are not
empty and that the table does not refuse; of just these a user list does not end irC6. -/
theorem insertion_iff {s : Listed ChanStruct} (hs : s.Sound) {cells : ListCells}
    (hcells : s.Fresh cells) {ns : Listed NickStruct} (hns : ns.Sound) {ncells : ListCells}
    (hncells : ns.Fresh ncells) {c : Conn} (hm : s.Models c.chans) (room croom nick : List UInt8)
    (usersv : List (List UInt8)) :
    (s.Reports room (Listed.openRoom croom (Listed.newRoom room))
        (s.chanlistAdd room croom cells) ↔ room ≠ [] ∧ (s.Has room ∨ ¬ s.Clashes room)) ∧
    ns.Reports nick (Listed.newNick nick) (ns.nicklistAdd nick ncells) ∧
    (¬ ChanlistError c room usersv ↔ room ≠ [] ∧ (s.Has room ∨ ¬ s.Clashes room)) := by
  refine ⟨Listed.chanlistAdd_reports hs hcells room croom,
    Listed.nicklistAdd_reports hns hncells nick, ?_⟩
  have hnil : [] ∉ c.chans := mt (hm.has []).mpr hs.named
  rw [chanlistError_iff hnil, not_or, not_and_or, not_not, ← hm.has room]
  by_cases hhas : s.Has room
  · simp [hhas]
  · rw [hm.clashes hhas]

/-- The lists of a connection behind one room and one nick. -/
def oneRoom : Listed ChanStruct := ((Listed.empty ChanStruct).chanlistAdd [65] [35, 65] ⟨1, 2, 3⟩).1

def oneNick : Listed NickStruct := ((Listed.empty NickStruct).nicklistAdd [109] ⟨1, 2, 3⟩).1

def oneRoomConn : Conn :=
  { connNew [109] with chans := (chanlistAdd clashes (connNew [109]).chans [65] [35, 65]).1 }

/-- A second room is entered, and the nick is added again. -/
theorem insertion_iff_oneRoom :
    oneRoom.Has [65] ∧
      oneRoom.Reports [66] (Listed.openRoom [35, 66] (Listed.newRoom [66]))
        (oneRoom.chanlistAdd [66] [35, 66] ⟨4, 5, 6⟩) ∧
      oneNick.Reports [109] (Listed.newNick [109]) (oneNick.nicklistAdd [109] ⟨4, 5, 6⟩) ∧
      ¬ ChanlistError oneRoomConn [66] [] := by
  have hsound : oneRoom.Sound :=
    Listed.insert_sound (Listed.empty_sound _) (Listed.empty_fresh _ _) _ _ _ _
  have hnicks : oneNick.Sound :=
    Listed.insert_sound (Listed.empty_sound _) (Listed.empty_fresh _ _) _ _ _ _
  have hmodels : oneRoom.Models oneRoomConn.chans :=
    (Listed.chanlistAdd_models (Listed.empty_sound _) (Listed.empty_fresh _ _)
      (Listed.empty_models [109]) [65] [35, 65]).2
  have hentries : oneRoom.table.entries = [([65], 1)] := rfl
  have hfresh : oneRoom.Fresh ⟨4, 5, 6⟩ := ⟨rfl, by decide, by decide⟩
  have hfresh' : oneNick.Fresh ⟨4, 5, 6⟩ := ⟨rfl, by decide, by decide⟩
  obtain ⟨hchan, hnick, hulist⟩ :=
    insertion_iff hsound hfresh hnicks hfresh' hmodels [66] [35, 66] [109] []
  have hclear : ¬ oneRoom.Clashes [66] := by
    rintro ⟨k, -, ⟨p, hp⟩, hhash, -⟩
    rw [hentries, List.mem_singleton] at hp
    cases hp
    exact absurd hhash (by decide)
  have hopen : ([66] : List UInt8) ≠ [] ∧ (oneRoom.Has [66] ∨ ¬ oneRoom.Clashes [66]) :=
    ⟨List.cons_ne_nil _ _, Or.inr hclear⟩
  exact ⟨⟨1, by rw [hentries]; exact List.mem_singleton_self _⟩, hchan.mpr hopen, hnick,
    hulist.mpr hopen⟩

/-- The room without a name: it is not stored, and the user list of it ends irC6. -/
theorem nameless_not_reported :
    ¬ (Listed.empty ChanStruct).Reports [] (Listed.openRoom [35] (Listed.newRoom []))
        ((Listed.empty ChanStruct).chanlistAdd [] [35] ⟨1, 2, 3⟩) ∧
      ChanlistError (connNew [109]) [] [] := by
  refine ⟨fun h => ?_, (chanlistError_iff (AList.notMem_empty _) _ _).mpr (Or.inl rfl)⟩
  have hcond := (Listed.chanlistAdd_reports (Listed.empty_sound _) (Listed.empty_fresh _ _)
    [] [35]).mp h
  exact hcond.1 rfl

end IrC6
