import IrC6.C6.Userinfo

/-!
# What the search profile holds

To the user the profile says which value each field has.  A command to set names a field
and a value, by words or numbers of the table.  `search_id` keeps the profile: what it shows and
what is sent are the values set last, as long as no command reads outside the table.  One
kind of command does: for a word, `_getval` takes the place of the field's own name for a
value.
-/

namespace IrC6
namespace C6
namespace Userinfo

open Buffer
open Irc (strtoul)

/-! ## The places of a word -/

/-- A part for each element of which one index alone has something. -/
theorem flatMap_zipIdx_at {α β : Type} {g : α × Nat → List β} {n : Nat}
    (hg : ∀ a i, i ≠ n → g (a, i) = []) (xs : List α) (k : Nat) :
    (xs.zipIdx k).flatMap g =
      if k ≤ n then xs[n - k]?.elim [] fun a => g (a, n) else [] := by
  induction xs generalizing k with
  | nil => simp
  | cons a xs ih =>
      rw [List.zipIdx_cons, List.flatMap_cons, ih]
      by_cases hlt : k < n
      · have hindex : n - k = n - (k + 1) + 1 := by omega
        rw [hg a k (by omega), if_pos (by omega), if_pos (by omega), hindex, List.nil_append,
          List.getElem?_cons_succ]
      · rw [if_neg (by omega), List.append_nil]
        by_cases heq : k = n
        · subst heq
          rw [if_pos (Nat.le_refl k), Nat.sub_self, List.getElem?_cons_zero]
          rfl
        · rw [if_neg (by omega)]
          exact hg a k heq

/-- The places of a word in the hash. -/
def places (p : Profilo) (word : List UInt8) : List Values :=
  (p.lines.filter (sameWord word ·.1)).map Prod.snd

theorem sameWord_ne_nil {v w : List UInt8} (h : sameWord v w = true) (hne : v ≠ []) : w ≠ [] := by
  rintro rfl
  rw [sameWord, decide_eq_true_eq, List.map_nil, List.map_eq_nil_iff] at h
  exact hne h

/-- Some of the places of a word: a line that has the word is not empty. -/
theorem places_filter (p : Profilo) {word : List UInt8} (hne : word ≠ []) (q : Values → Bool) :
    (places p word).filter q =
      (((p.fields.zipIdx.flatMap valueLines ++ p.fields.zipIdx.map nameLine).filter
        fun l => q l.2).filter fun l => sameWord word l.1).map Prod.snd := by
  rw [places, Profilo.lines, List.filter_map]
  simp only [List.filter_filter]
  refine congrArg (List.map Prod.snd) (List.filter_congr fun l _ => ?_)
  have hfull : sameWord word l.1 = true → l.1 ≠ [] := fun h => sameWord_ne_nil h hne
  by_cases hword : sameWord word l.1 = true
  · simp [hword, hfull hword]
  · simp [hword]

/-- The lines of a field that have a word. -/
theorem filter_valueLines (word : List UInt8) (f : Userinfos) (id : Nat) :
    ((valueLines (f, id)).filter fun l => sameWord word l.1).map Prod.snd =
      (f.info.zipIdx.filter (sameWord word ·.1)).map fun w => ⟨id, w.2⟩ := by
  rw [valueLines, List.filter_map, List.map_map]
  rfl

/-- The places of a word for one field: those of its values, then that of its name. -/
theorem places_at (p : Profilo) {word : List UInt8} (hne : word ≠ []) {id : Nat} {f : Userinfos}
    (hf : p.fields[id]? = some f) :
    (places p word).filter (fun v => v.id = (id : Int)) =
      (f.info.zipIdx.filter (sameWord word ·.1)).map (fun w => ⟨id, w.2⟩) ++
        if sameWord word f.name then [⟨id, -1⟩] else [] := by
  have hvalues : (p.fields.zipIdx.flatMap valueLines).filter (fun l => l.2.id = (id : Int)) =
      valueLines (f, id) := by
    rw [List.filter_flatMap, flatMap_zipIdx_at (n := id)]
    · rw [if_pos (Nat.zero_le _), Nat.sub_zero, hf]
      refine List.filter_eq_self.mpr fun l hl => ?_
      obtain ⟨w, -, rfl⟩ := List.mem_map.mp hl
      simp
    · intro a i hi
      refine List.filter_eq_nil_iff.mpr fun l hl => ?_
      obtain ⟨w, -, rfl⟩ := List.mem_map.mp hl
      simpa using hi
  have hnames : (p.fields.zipIdx.map nameLine).filter (fun l => l.2.id = (id : Int)) =
      [nameLine (f, id)] := by
    rw [List.map_eq_flatMap, List.filter_flatMap, flatMap_zipIdx_at (n := id)]
    · rw [if_pos (Nat.zero_le _), Nat.sub_zero, hf]
      simp [nameLine]
    · intro a i hi
      simpa [nameLine] using hi
  rw [places_filter p hne, List.filter_append, hvalues, hnames, List.filter_append, List.map_append,
    filter_valueLines]
  refine congrArg _ ?_
  rw [List.filter_cons, List.filter_nil, nameLine]
  by_cases hword : sameWord word f.name = true
  · rw [if_pos hword, if_pos hword]
    rfl
  · rw [if_neg hword, if_neg hword]
    rfl

/-- The places of a word as a name. -/
theorem places_names (p : Profilo) {word : List UInt8} (hne : word ≠ []) :
    (places p word).filter (fun v => v.val = -1) =
      (p.fields.zipIdx.filter fun f => sameWord word f.1.name).map fun f => ⟨f.2, -1⟩ := by
  have hvalues : (p.fields.zipIdx.flatMap valueLines).filter (fun l => l.2.val = -1) = [] := by
    refine List.filter_eq_nil_iff.mpr fun l hl => ?_
    obtain ⟨f, -, hline⟩ := List.mem_flatMap.mp hl
    obtain ⟨w, -, rfl⟩ := List.mem_map.mp hline
    simp
  have hnames : (p.fields.zipIdx.map nameLine).filter (fun l => l.2.val = -1) =
      p.fields.zipIdx.map nameLine := by
    refine List.filter_eq_self.mpr fun l hl => ?_
    obtain ⟨f, -, rfl⟩ := List.mem_map.mp hl
    exact decide_eq_true rfl
  rw [places_filter p hne, List.filter_append, hvalues, hnames, List.nil_append, List.filter_map,
    List.map_map]
  rfl

/-! ## The lookups by name -/

theorem getvalLoop_filter (p : Profilo) (name : List UInt8) (id : Int) (vs : List Values) :
    getvalLoop p name id vs = getvalLoop p name id (vs.filter fun v => v.id = id) := by
  induction vs with
  | nil => rfl
  | cons v vs ih =>
      rw [List.filter_cons, getvalLoop]
      by_cases hid : v.id = id
      · rw [if_pos (decide_eq_true hid), getvalLoop, ih]
      · rw [if_pos hid, if_neg (by simpa using hid), ih]

theorem getidLoop_filter (p : Profilo) (name : List UInt8) (vs : List Values) :
    getidLoop p name vs = getidLoop p name (vs.filter fun v => v.val = -1) := by
  induction vs with
  | nil => rfl
  | cons v vs ih =>
      rw [List.filter_cons, getidLoop]
      by_cases hval : v.val = -1
      · rw [if_pos (decide_eq_true hval), getidLoop, ih]
      · rw [if_pos hval, if_neg (by simpa using hval), ih]

theorem ne_nil_of_word {name : List UInt8} (hword : strtoulEnd name ≠ []) : name ≠ [] := by
  intro hnil
  exact hword (by rw [hnil]; rfl)

/-- Each lookup goes through the places of the word, also when there are none. -/
theorem getid_word (p : Profilo) {name : List UInt8} (hword : strtoulEnd name ≠ []) (id : Int) :
    getid p (some name) id = getidLoop p name (places p name) := by
  have hplaces : List.map Prod.snd (List.filter (fun x => sameWord name x.1) p.lines) =
      places p name := rfl
  simp only [getid, if_pos hword, c6UserinfoHash, hplaces]
  cases places p name with
  | nil => rfl
  | cons v vs => rfl

theorem getval_word (p : Profilo) {name : List UInt8} (hword : strtoulEnd name ≠ []) {id : Nat}
    {f : Userinfos} (hf : p.fields[id]? = some f) (val : Int) :
    getval p (some name) id val = getvalLoop p name id (places p name) := by
  have hlt : id < p.fields.length := (List.getElem?_eq_some_iff.mp hf).1
  rw [getval, if_neg (by omega), readAt_eq hf]
  have hplaces : List.map Prod.snd (List.filter (fun x => sameWord name x.1) p.lines) =
      places p name := rfl
  simp only [bind, Except.bind, if_pos hword, c6UserinfoHash, hplaces]
  cases places p name with
  | nil => rfl
  | cons v vs => rfl

theorem findIdx?_eq_head? {α : Type} (q : α → Bool) (xs : List α) :
    xs.findIdx? q = ((xs.zipIdx.filter fun x => q x.1).head?).map Prod.snd := by
  rw [List.findIdx?_eq_fst_find?_zipIdx, List.head?_filter]

theorem of_zipIdx_filter {α : Type} {q : α → Bool} {xs : List α} {x : α × Nat}
    {rest : List (α × Nat)} (h : xs.zipIdx.filter (fun x => q x.1) = x :: rest) :
    xs[x.2]? = some x.1 ∧ q x.1 = true := by
  have hmem : x ∈ xs.zipIdx.filter fun x => q x.1 := by
    rw [h]
    exact List.mem_cons_self
  obtain ⟨hmem, hq⟩ := List.mem_filter.mp hmem
  exact ⟨List.mem_zipIdx_iff_getElem?.mp hmem, hq⟩

theorem mem_of_findIdx? {α : Type} {q : α → Bool} {xs : List α} {i : Nat}
    (h : xs.findIdx? q = some i) : ∃ x, xs[i]? = some x ∧ q x = true := by
  obtain ⟨hlt, hq, -⟩ := List.findIdx?_eq_some_iff_getElem.mp h
  exact ⟨xs[i], List.getElem?_eq_getElem hlt, hq⟩

/-! ## What a name and a number stand for -/

/-- The element of a table that a text names: by its number, or the first of its name. -/
def denoted {α : Type} (xs : List α) (name : α → List UInt8) (text : List UInt8) : Option Nat :=
  if strtoulEnd text = [] then
    if 0 ≤ toInt (strtoul text) ∧ toInt (strtoul text) < xs.length then
      some (toInt (strtoul text)).toNat
    else none
  else xs.findIdx? fun x => sameWord text (name x)

def fieldOf (p : Profilo) (text : List UInt8) : Option Nat := denoted p.fields Userinfos.name text

def valueOf (f : Userinfos) (text : List UInt8) : Option Nat := denoted f.info (fun w => w) text

theorem denoted_lt {α : Type} {xs : List α} {name : α → List UInt8} {text : List UInt8} {i : Nat}
    (h : denoted xs name text = some i) : i < xs.length := by
  unfold denoted at h
  split at h
  · split at h
    · have hi := Option.some.inj h
      omega
    · cases h
  · obtain ⟨x, hx, -⟩ := mem_of_findIdx? h
    exact (List.getElem?_eq_some_iff.mp hx).1

theorem number_denoted {α : Type} {xs : List α} (name : α → List UInt8) {text : List UInt8}
    (hnumber : strtoulEnd text = []) :
    (if 0 ≤ toInt (strtoul text) ∧ toInt (strtoul text) < xs.length then
        (readAt xs (toInt (strtoul text))).map fun x => some (name x, toInt (strtoul text))
      else .ok none) =
    (.ok (((denoted xs name text).bind fun i => xs[i]?.map fun x => (name x, (i : Int)))) :
      Except Halt (Option (List UInt8 × Int))) := by
  rw [denoted, if_pos hnumber]
  by_cases hrange : 0 ≤ toInt (strtoul text) ∧ toInt (strtoul text) < xs.length
  · have hint : ((toInt (strtoul text)).toNat : Int) = toInt (strtoul text) :=
      Int.toNat_of_nonneg hrange.1
    have hget := List.getElem?_eq_getElem (l := xs) (i := (toInt (strtoul text)).toNat) (by omega)
    have hread := readAt_eq hget
    rw [hint] at hread
    rw [if_pos hrange, if_pos hrange, hread, Option.bind_some, hget, hint]
    rfl
  · rw [if_neg hrange, if_neg hrange]
    rfl

/-- `_getid` finds the field that is meant. -/
theorem getid_eq (p : Profilo) (name : List UInt8) (id : Int) :
    (fieldOf p name = none ∧ getid p (some name) id = .ok none) ∨
    ∃ i f text, fieldOf p name = some i ∧ p.fields[i]? = some f ∧
      getid p (some name) id = .ok (some (text, (i : Int))) := by
  by_cases hnumber : strtoulEnd name = []
  · have hget : getid p (some name) id =
        .ok ((fieldOf p name).bind fun i => p.fields[i]?.map fun f => (f.name, (i : Int))) := by
      rw [fieldOf, ← number_denoted _ hnumber]
      simp only [getid, hnumber]
      rfl
    cases hfield : fieldOf p name with
    | none => exact Or.inl ⟨rfl, by rw [hget, hfield]; rfl⟩
    | some i =>
        have hf := List.getElem?_eq_getElem (denoted_lt hfield)
        exact Or.inr ⟨i, _, _, rfl, hf, by rw [hget, hfield, Option.bind_some, hf]; rfl⟩
  · have hne := ne_nil_of_word hnumber
    rw [getid_word p hnumber, getidLoop_filter, places_names p hne, fieldOf, denoted,
      if_neg hnumber, findIdx?_eq_head?]
    cases hfound : p.fields.zipIdx.filter fun f => sameWord name f.1.name with
    | nil => exact Or.inl ⟨rfl, rfl⟩
    | cons f fs =>
        obtain ⟨hf, hsame⟩ :=
          of_zipIdx_filter (q := fun f : Userinfos => sameWord name f.name) hfound
        refine Or.inr ⟨f.2, f.1, name, rfl, hf, ?_⟩
        rw [List.map_cons, getidLoop, if_neg (fun h => h rfl), readAt_eq hf]
        exact if_pos hsame

/-- The name of a field given as its value, where no value of the field has that name. -/
def OwnName (f : Userinfos) (text : List UInt8) : Prop :=
  strtoulEnd text ≠ [] ∧ sameWord text f.name = true ∧ valueOf f text = none

instance (f : Userinfos) (text : List UInt8) : Decidable (OwnName f text) :=
  inferInstanceAs (Decidable (_ ∧ _ ∧ _))

/-- `_getval` finds the value that is meant, and reads in front of the table for the name of
the field itself. -/
theorem getval_eq (p : Profilo) {id : Nat} {f : Userinfos} (hf : p.fields[id]? = some f)
    (value : List UInt8) (val : Int) :
    (OwnName f value ∧ getval p (some value) id val = .error .outside) ∨
    (¬ OwnName f value ∧ valueOf f value = none ∧ getval p (some value) id val = .ok none) ∨
    ∃ v w text, ¬ OwnName f value ∧ valueOf f value = some v ∧ f.info[v]? = some w ∧
      getval p (some value) id val = .ok (some (text, (v : Int))) := by
  by_cases hnumber : strtoulEnd value = []
  · have hlt : id < p.fields.length := (List.getElem?_eq_some_iff.mp hf).1
    have hown : ¬ OwnName f value := fun h => h.1 hnumber
    have hget : getval p (some value) id val =
        .ok ((valueOf f value).bind fun v => f.info[v]?.map fun w => (w, (v : Int))) := by
      rw [valueOf, ← number_denoted (fun w => w) hnumber, getval, if_neg (by omega),
        readAt_eq hf]
      simp only [bind, Except.bind, hnumber]
      rfl
    cases hvalue : valueOf f value with
    | none => exact Or.inr (Or.inl ⟨hown, rfl, by rw [hget, hvalue]; rfl⟩)
    | some v =>
        have hw := List.getElem?_eq_getElem (denoted_lt hvalue)
        exact Or.inr (Or.inr ⟨v, _, _, hown, rfl, hw,
          by rw [hget, hvalue, Option.bind_some, hw]; rfl⟩)
  · have hne := ne_nil_of_word hnumber
    have hvalueOf : valueOf f value =
        ((f.info.zipIdx.filter fun w => sameWord value w.1).head?).map Prod.snd := by
      rw [valueOf, denoted, if_neg hnumber, findIdx?_eq_head?]
    rw [getval_word p hnumber hf, getvalLoop_filter, places_at p hne hf]
    cases hfound : f.info.zipIdx.filter fun w => sameWord value w.1 with
    | nil =>
        rw [hfound] at hvalueOf
        by_cases hname : sameWord value f.name = true
        · refine Or.inl ⟨⟨hnumber, hname, hvalueOf⟩, ?_⟩
          rw [if_pos hname, List.map_nil, List.nil_append, getvalLoop, if_neg (fun h => h rfl),
            readAt_eq hf]
          rfl
        · refine Or.inr (Or.inl ⟨fun h => hname h.2.1, hvalueOf, ?_⟩)
          rw [if_neg hname]
          rfl
    | cons w ws =>
        obtain ⟨hw, hsame⟩ := of_zipIdx_filter (q := sameWord value) hfound
        rw [hfound] at hvalueOf
        refine Or.inr (Or.inr ⟨w.2, w.1, value, fun h => ?_, hvalueOf, hw, ?_⟩)
        · have hnone := h.2.2
          rw [hvalueOf] at hnone
          cases hnone
        · rw [List.map_cons, List.cons_append, getvalLoop, if_neg (fun h => h rfl), readAt_eq hf]
          show (do let w' ← readAt f.info w.2; _) = _
          rw [readAt_eq hw]
          exact if_pos hsame

/-! ## The profile of a history -/

/-- Which value each field has. -/
abbrev Profile := Nat → Option Nat

/-- The field and the value that a command to set means. -/
def denotes (p : Profilo) (name value : List UInt8) : Option (Nat × Nat) :=
  (fieldOf p name).bind fun i =>
    p.fields[i]?.bind fun f => (valueOf f value).map fun v => (i, v)

def Profile.after (p : Profilo) (s : Profile) : Command → Profile
  | .reset => fun _ => none
  | .set name value =>
      match denotes p name value with
      | none => s
      | some (i, v) => Function.update s i (some v)

theorem after_none {p : Profilo} {s : Profile} {name value : List UInt8}
    (h : denotes p name value = none) : s.after p (.set name value) = s := by
  simp only [Profile.after, h]

theorem after_some {p : Profilo} {s : Profile} {name value : List UInt8} {x : Nat × Nat}
    (h : denotes p name value = some x) :
    s.after p (.set name value) = Function.update s x.1 (some x.2) := by
  simp only [Profile.after, h]

/-- What was set since the last reset, the latest value for each field. -/
def latest (p : Profilo) (cmds : List Command) : Profile :=
  cmds.foldl (Profile.after p) fun _ => none

/-- The fields that are set with their values, in ascending order. -/
def chosen (p : Profilo) (s : Profile) : List (Nat × Nat) :=
  (List.range p.fields.length).filterMap fun i => (s i).map fun v => (i, v)

/-- The name of a field and the text of one of its values. -/
def texts (p : Profilo) (x : Nat × Nat) : List UInt8 × List UInt8 :=
  (p.fields[x.1]?.elim [] Userinfos.name, (p.fields[x.1]?.bind fun f => f.info[x.2]?).getD [])

/-- `search_id` with the value of one field changed. -/
def withSearch (c : Client) (i v : Nat) : Client :=
  { c with searchId := fun k => if k.val = i then UInt8.ofNat v else c.searchId k }

/-- `search_id` keeps a profile. -/
def Keeps (p : Profilo) (c : Client) (s : Profile) : Prop :=
  ∀ k : Fin 256,
    (s k = none ∧ c.searchId k = 0xff) ∨
    ∃ v f w, s k = some v ∧ p.fields[k.val]? = some f ∧ f.info[v]? = some w ∧
      c.searchId k = UInt8.ofNat v

/-- What a command to set leaves: nothing changed and one of the texts cleared, or the value
that is meant. -/
def SetRight (p : Profilo) (c : Client) (name value : List UInt8) : Prop :=
  ∃ r, c6SetUinfoVal p c name value = .ok r ∧
    match denotes p name value with
    | none => (r.name = none ∨ r.value = none) ∧ r.client = c
    | some (i, v) => r.name ≠ none ∧ r.value ≠ none ∧ r.client = withSearch c i v

/-- A command that gives a field its own name as its value. -/
def OwnNameSet (p : Profilo) (name value : List UInt8) : Prop :=
  ∃ i f, fieldOf p name = some i ∧ p.fields[i]? = some f ∧ OwnName f value

theorem c6SetUinfoVal_outside (p : Profilo) (c : Client) {name value : List UInt8}
    (h : OwnNameSet p name value) : c6SetUinfoVal p c name value = .error .outside := by
  obtain ⟨i, f, hfield, hf, hown⟩ := h
  obtain ⟨hnone, -⟩ | ⟨i', f', text, hfield', hf', hget⟩ := getid_eq p name 0
  · rw [hfield] at hnone
    cases hnone
  · obtain rfl : i = i' := Option.some.inj (hfield.symm.trans hfield')
    obtain rfl : f = f' := Option.some.inj (hf.symm.trans hf')
    have hlt : i < p.fields.length := (List.getElem?_eq_some_iff.mp hf).1
    obtain ⟨-, hval⟩ | ⟨hnot, -⟩ | ⟨v, w, text', hnot, -⟩ := getval_eq p hf value 0
    · rw [c6SetUinfoVal, hget]
      simp only [bind, Except.bind]
      rw [if_neg (by omega), hval]
    · exact absurd hown hnot
    · exact absurd hown hnot

theorem storeSearch_eq (p : Profilo) (c : Client) {i v : Nat} {f : Userinfos}
    (hf : p.fields[i]? = some f) (hv : v < f.info.length) :
    storeSearch c i v = .ok (withSearch c i v) := by
  have hlt : i < p.fields.length := (List.getElem?_eq_some_iff.mp hf).1
  have hbyte := p.elms_le
  rw [storeSearch, dif_pos (by omega), withSearch]
  refine congrArg (fun search => Except.ok { c with searchId := search }) (funext fun k => ?_)
  by_cases hk : k.val = i
  · have hfin : k = ⟨(i : Int).toNat, by omega⟩ := Fin.ext (by simpa using hk)
    have hbyte : ((v : Int) % 2 ^ 8).toNat = v := by
      have hentries := p.entries_le f (List.mem_of_getElem? hf)
      omega
    rw [if_pos hk, hfin, Function.update_self, UInt8.ofInt, hbyte]
  · have hfin : k ≠ ⟨(i : Int).toNat, by omega⟩ := fun h => hk (by rw [h]; rfl)
    rw [if_neg hk, Function.update_of_ne hfin]

theorem setRight_of_not_own (p : Profilo) (c : Client) {name value : List UInt8}
    (h : ¬ OwnNameSet p name value) : SetRight p c name value := by
  obtain ⟨hnone, hget⟩ | ⟨i, f, text, hfield, hf, hget⟩ := getid_eq p name 0
  · refine ⟨⟨none, some value, c⟩, by rw [c6SetUinfoVal, hget]; rfl, ?_⟩
    rw [denotes, hnone]
    exact ⟨Or.inl rfl, rfl⟩
  · have hlt : i < p.fields.length := (List.getElem?_eq_some_iff.mp hf).1
    obtain ⟨hown, -⟩ | ⟨-, hvalue, hval⟩ | ⟨v, w, text', -, hvalue, hw, hval⟩ :=
      getval_eq p hf value 0
    · exact absurd ⟨i, f, hfield, hf, hown⟩ h
    · refine ⟨⟨some text, none, c⟩, ?_, ?_⟩
      · rw [c6SetUinfoVal, hget]
        simp only [bind, Except.bind]
        rw [if_neg (by omega), hval]
      · rw [denotes, hfield, Option.bind_some, hf, Option.bind_some, hvalue]
        exact ⟨Or.inr rfl, rfl⟩
    · have hv : v < f.info.length := (List.getElem?_eq_some_iff.mp hw).1
      refine ⟨⟨some text, some text', withSearch c i v⟩, ?_, ?_⟩
      · rw [c6SetUinfoVal, hget]
        simp only [bind, Except.bind]
        rw [if_neg (by omega), hval]
        simp only [readAt_eq hf, storeSearch_eq p c hf hv]
        rw [if_neg (by omega)]
      · rw [denotes, hfield, Option.bind_some, hf, Option.bind_some, hvalue]
        exact ⟨nofun, nofun, rfl⟩

/-! ## Runs -/

theorem keeps_reset (p : Profilo) (c : Client) : Keeps p (c6ResetUinfo c) fun _ => none :=
  fun _ => Or.inl ⟨rfl, rfl⟩

theorem keeps_withSearch {p : Profilo} {c : Client} {s : Profile} (h : Keeps p c s) {i v : Nat}
    {f : Userinfos} {w : List UInt8} (hf : p.fields[i]? = some f) (hw : f.info[v]? = some w) :
    Keeps p (withSearch c i v) (Function.update s i (some v)) := by
  intro k
  by_cases hk : k.val = i
  · subst hk
    refine Or.inr ⟨v, f, w, Function.update_self .., hf, hw, ?_⟩
    exact if_pos rfl
  · rw [Function.update_of_ne hk]
    show (_ ∧ (if k.val = i then _ else c.searchId k) = 0xff) ∨ ∃ v f w, _ ∧ _ ∧ _ ∧
      (if k.val = i then _ else c.searchId k) = _
    rw [if_neg hk]
    exact h k

theorem denotes_some {p : Profilo} {name value : List UInt8} {i v : Nat}
    (h : denotes p name value = some (i, v)) :
    ∃ f w, p.fields[i]? = some f ∧ f.info[v]? = some w := by
  unfold denotes at h
  obtain ⟨j, -, h⟩ := Option.bind_eq_some_iff.mp h
  obtain ⟨f, hf, h⟩ := Option.bind_eq_some_iff.mp h
  obtain ⟨u, hvalue, h⟩ := Option.map_eq_some_iff.mp h
  obtain ⟨rfl, rfl⟩ := Prod.mk.inj h
  exact ⟨f, _, hf, List.getElem?_eq_getElem (denoted_lt hvalue)⟩

/-- No command of a history gives a field its own name as its value. -/
def NoOwnName (p : Profilo) (cmds : List Command) : Prop :=
  ∀ name value, Command.set name value ∈ cmds → ¬ OwnNameSet p name value

/-- One command keeps the profile. -/
theorem step_keeps {p : Profilo} {c : Client} {s : Profile} (h : Keeps p c s) {cmd : Command}
    (hcmd : NoOwnName p [cmd]) : ∃ c', step p c cmd = .ok c' ∧ Keeps p c' (s.after p cmd) := by
  cases cmd with
  | reset => exact ⟨_, rfl, keeps_reset p c⟩
  | set name value =>
      obtain ⟨r, hr, hright⟩ := setRight_of_not_own p c (hcmd name value List.mem_cons_self)
      refine ⟨r.client, by rw [step, hr]; rfl, ?_⟩
      cases hmeant : denotes p name value with
      | none =>
          rw [hmeant] at hright
          rw [hright.2, after_none hmeant]
          exact h
      | some x =>
          rw [hmeant] at hright
          obtain ⟨f, w, hf, hw⟩ := denotes_some hmeant
          rw [hright.2.2, after_some hmeant]
          exact keeps_withSearch h hf hw

theorem run_keeps {p : Profilo} {c : Client} {s : Profile} (h : Keeps p c s)
    {cmds : List Command} (hcmds : NoOwnName p cmds) :
    ∃ c', run p c cmds = .ok c' ∧ Keeps p c' (cmds.foldl (Profile.after p) s) := by
  induction cmds generalizing c s with
  | nil => exact ⟨c, rfl, h⟩
  | cons cmd cmds ih =>
      have hfirst : NoOwnName p [cmd] := fun name value hmem =>
        hcmds name value (List.mem_cons.mpr (Or.inl (List.mem_singleton.mp hmem)))
      obtain ⟨c', hstep, hkeeps⟩ := step_keeps h hfirst
      obtain ⟨c'', hrun, hrest⟩ :=
        ih hkeeps fun name value hmem => hcmds name value (List.mem_cons_of_mem _ hmem)
      exact ⟨c'', by rw [run, hstep]; exact hrun, hrest⟩

/-! ## What is shown and sent -/

theorem indices_range (p : Profilo) :
    (indices p).map Fin.val = List.range p.fields.length := by
  have hle := p.elms_le
  have hsplit : List.range 256 = List.range p.fields.length ++
      (List.range (256 - p.fields.length)).map (p.fields.length + ·) := by
    rw [← List.range_add]
    congr 1
    omega
  have hall : (List.finRange 256).map Fin.val = List.range 256 := by simp
  have hfilter : (indices p).map Fin.val =
      ((List.finRange 256).map Fin.val).filter (· < p.fields.length) := by
    rw [indices, List.filter_map]
    rfl
  rw [hfilter, hall, hsplit, List.filter_append, List.filter_eq_self.mpr,
    List.filter_eq_nil_iff.mpr, List.append_nil]
  · intro i hi
    obtain ⟨k, -, rfl⟩ := List.mem_map.mp hi
    simp
  · intro i hi
    simpa using hi

theorem chosen_eq (p : Profilo) (s : Profile) :
    chosen p s = (indices p).filterMap fun i => (s i.val).map fun v => (i.val, v) := by
  rw [chosen, ← indices_range, List.filterMap_map]
  rfl

section Reads

variable {p : Profilo} {c : Client} {s : Profile} (h : Keeps p c s)
include h

/-- A byte that is not `0xff` is a value. -/
theorem keeps_cases (k : Fin 256) :
    (s k = none ∧ c.searchId k = 0xff) ∨
    ∃ v f w, s k = some v ∧ p.fields[k.val]? = some f ∧ f.info[v]? = some w ∧
      c.searchId k = UInt8.ofNat v ∧ c.searchId k ≠ 0xff ∧ (c.searchId k).toNat = v := by
  obtain hnone | ⟨v, f, w, hs, hf, hw, hbyte⟩ := h k
  · exact Or.inl hnone
  · have hv : v < f.info.length := (List.getElem?_eq_some_iff.mp hw).1
    have hentries := p.entries_le f (List.mem_of_getElem? hf)
    have hnat : (c.searchId k).toNat = v := by
      rw [hbyte, UInt8.toNat_ofNat']
      omega
    refine Or.inr ⟨v, f, w, hs, hf, hw, hbyte, fun hff => ?_, hnat⟩
    rw [hff] at hnat
    have hlast : (0xff : UInt8).toNat = 255 := rfl
    omega

theorem fillSet_eq (is : List (Fin 256)) :
    fillSet p c is =
      .ok ((is.filterMap fun i => (s i.val).map fun v => (i.val, v)).map (texts p)) := by
  induction is with
  | nil => rfl
  | cons i is ih =>
      rw [fillSet]
      obtain ⟨hs, hff⟩ | ⟨v, f, w, hs, hf, hw, -, hff, hnat⟩ := keeps_cases h i
      · rw [if_pos hff, List.filterMap_cons, hs]
        exact ih
      · have hv : v < f.info.length := (List.getElem?_eq_some_iff.mp hw).1
        have htexts : texts p (i.val, v) = (f.name, w) := by
          simp only [texts, hf, Option.elim, Option.bind_some, hw, Option.getD_some]
        rw [if_neg hff, readAt_eq hf, List.filterMap_cons, hs, hnat]
        simp only [bind, Except.bind]
        rw [if_neg (by omega), readAt_eq hw, ih]
        simp only [Option.map_some, List.map_cons, htexts]

theorem countP_eq (is : List (Fin 256)) :
    is.countP (c.searchId · ≠ 0xff) =
      (is.filterMap fun i => (s i.val).map fun v => (i.val, v)).length := by
  induction is with
  | nil => rfl
  | cons i is ih =>
      rw [List.countP_cons, List.filterMap_cons, ih]
      obtain ⟨hs, hff⟩ | ⟨v, f, w, hs, hf, hw, -, hff, hnat⟩ := keeps_cases h i
      · simp [hs, hff]
      · simp [hs, hff]

/-- The profile as it is shown. -/
theorem c6GetSetUinfoVal_eq :
    c6GetSetUinfoVal p c = .ok ((chosen p s).length, (chosen p s).map (texts p)) := by
  rw [c6GetSetUinfoVal, fillSet_eq h, countP_eq h, chosen_eq]
  rfl

/-- The pairs of the packet. -/
theorem searchSlots_eq (is : List (Fin 256)) (his : ∀ i ∈ is, i.val < 255) :
    slotBytes .big (searchSlots c (is.filter (c.searchId · ≠ 0xff))) =
      (is.filterMap fun i => (s i.val).map fun v => (i.val, v)).flatMap
        fun x => [UInt8.ofNat (x.1 + 1), UInt8.ofNat x.2] := by
  induction is with
  | nil => rfl
  | cons i is ih =>
      have hrest := ih fun k hk => his k (List.mem_cons_of_mem _ hk)
      have hlt := his i List.mem_cons_self
      rw [List.filter_cons, List.filterMap_cons]
      obtain ⟨hs, hff⟩ | ⟨v, f, w, hs, hf, hw, hbyte, hff, hnat⟩ := keeps_cases h i
      · rw [hs, hff]
        exact hrest
      · have hcons : slotBytes .big (searchSlots c (i :: is.filter (c.searchId · ≠ 0xff))) =
            slotBytes .big [byteSlot ((i.val + 1) % 256), byteSlot (c.searchId i).toNat] ++
              slotBytes .big (searchSlots c (is.filter (c.searchId · ≠ 0xff))) := by
          rw [← slotBytes_append]
          rfl
        have hmod : (i.val + 1) % 256 = i.val + 1 := Nat.mod_eq_of_lt (by omega)
        rw [if_pos (by simpa using hff), hcons, hrest, hs, hmod, hnat]
        rfl

/-- The packet of a search. -/
theorem c6SearchNicks_eq (host : Endian) :
    c6SearchNicks host c p.fields.length =
      .ok (c.sent ([0x10, 0x0e] ++ Endian.big.bytes sizeShort c.cltId.toNat ++ [0, 0] ++
        Endian.big.bytes sizeShort (chosen p s).length ++
        (chosen p s).flatMap fun x => [UInt8.ofNat (x.1 + 1), UInt8.ofNat x.2])) := by
  have hsend := Request.send_eq host ⟨[], 0, p.fields.length⟩ c .searchNicks
  have hle := p.elms_le
  have hpairs := searchSlots_eq h (indices p) fun i hi => by
    have hlt := (List.mem_filter.mp hi).2
    simp only [decide_eq_true_eq] at hlt
    omega
  have hcount : (searchSet c p.fields.length).length = (chosen p s).length := by
    rw [searchSet, ← List.countP_eq_length_filter, chosen_eq, ← countP_eq h]
    rfl
  have hshort : uint16 (chosen p s).length = (chosen p s).length := by
    have hlen := List.length_filterMap_le (fun i => (s i).map fun v => (i, v))
      (List.range p.fields.length)
    rw [List.length_range] at hlen
    exact Nat.mod_eq_of_lt (Nat.lt_of_le_of_lt hlen (by omega))
  rw [← chosen_eq] at hpairs
  have hset : (indices p).filter (c.searchId · ≠ 0xff) = searchSet c p.fields.length := rfl
  rw [hset] at hpairs
  have hbytes : slotBytes host (Request.slots ⟨[], 0, p.fields.length⟩ c .searchNicks) =
      [0x10, 0x0e] ++ Endian.big.bytes sizeShort c.cltId.toNat ++ [0, 0] ++
        Endian.big.bytes sizeShort (chosen p s).length ++
        (chosen p s).flatMap fun x => [UInt8.ofNat (x.1 + 1), UInt8.ofNat x.2] := by
    have hzero : Endian.big.bytes sizeShort 0 = [0, 0] := by decide
    simp only [Request.slots, hcount, hshort, hpairs]
    simp [slotBytes, layoutBytes, headSlots, shortSlot, Slot.piece, Piece.bytes, Num.order,
      Width.size, hzero]
  rw [hbytes] at hsend
  refine hsend.trans ?_
  simp only [Request.rooms, List.append_nil]
  rfl

end Reads

/-! ## Histories -/

/-- The profile of a history is what the user set: each command to set does what it says or
nothing, what is shown are the fields that are set with their latest values, and so are the
pairs that a search sends behind their count. -/
def ProfileRight (p : Profilo) (c : Client) (cmds : List Command) : Prop :=
  (∀ name value, Command.set name value ∈ cmds → ∀ c, SetRight p c name value) ∧
  ∃ c', run p c cmds = .ok c' ∧
    c6GetSetUinfoVal p c' =
      .ok ((chosen p (latest p cmds)).length, (chosen p (latest p cmds)).map (texts p)) ∧
    ∀ host, c6SearchNicks host c' p.fields.length =
      .ok (c'.sent ([0x10, 0x0e] ++ Endian.big.bytes sizeShort c'.cltId.toNat ++ [0, 0] ++
        Endian.big.bytes sizeShort (chosen p (latest p cmds)).length ++
        (chosen p (latest p cmds)).flatMap fun x => [UInt8.ofNat (x.1 + 1), UInt8.ofNat x.2]))

/-- From a connection without a profile, a history is right exactly when no command gives a
field its own name as its value. -/
theorem profileRight_iff (p : Profilo) (c : Client) (hreset : c.searchId = fun _ => 0xff)
    (cmds : List Command) : ProfileRight p c cmds ↔ NoOwnName p cmds := by
  constructor
  · intro h name value hmem hown
    obtain ⟨r, hr, -⟩ := h.1 name value hmem c
    rw [c6SetUinfoVal_outside p c hown] at hr
    cases hr
  · intro h
    refine ⟨fun name value hmem c => setRight_of_not_own p c (h name value hmem), ?_⟩
    have hstart : Keeps p c fun _ => none := fun k => Or.inl ⟨rfl, by rw [hreset]⟩
    obtain ⟨c', hrun, hkeeps⟩ := run_keeps hstart h
    exact ⟨c', hrun, c6GetSetUinfoVal_eq hkeeps, c6SearchNicks_eq hkeeps⟩

theorem profileRight_iff_genere :
    ProfileRight profilo connectionNew [.reset, .set (ascii "genere") (ascii "maschile")] := by
  refine (profileRight_iff profilo connectionNew rfl _).mpr ?_
  intro name value hmem hown
  obtain ⟨i, f, hfield, hf, hown⟩ := hown
  have hset : Command.set name value = .set (ascii "genere") (ascii "maschile") := by
    simpa using hmem
  obtain ⟨rfl, rfl⟩ := Command.set.inj hset
  have hone : fieldOf profilo (ascii "genere") = some 1 := by decide +kernel
  obtain rfl : i = 1 := Option.some.inj (hfield.symm.trans hone)
  obtain rfl := Option.some.inj hf
  exact absurd hown (by decide +kernel)

/-- `Genere = Genere` reads in front of the values of the field. -/
theorem genere_not_right :
    ¬ ProfileRight profilo connectionNew [.set (ascii "Genere") (ascii "Genere")] := by
  intro h
  obtain ⟨r, hr, -⟩ := h.1 _ _ List.mem_cons_self connectionNew
  have hown : OwnNameSet profilo (ascii "Genere") (ascii "Genere") :=
    ⟨1, _, by decide +kernel, rfl, by decide +kernel⟩
  rw [c6SetUinfoVal_outside profilo connectionNew hown] at hr
  cases hr

end Userinfo
end C6
end IrC6
