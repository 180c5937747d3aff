import Mathlib.Data.List.Nodup
import Mathlib.Data.List.Perm.Basic
import Mathlib.Logic.Function.Basic

/-!
# Tail queues

A tail queue has a pointer to its first element, and each element one to the next.  Each
element also has the address of the pointer that points to it, and the head the address of
the last pointer, which is null.  An element is put anywhere in the queue without a walk.

`Linked` says which elements stand between two pointers, and `Holds` which the queue has.
`Follows` looks only at where the pointers to the next elements lead.
-/

namespace IrC6
namespace Tailq

variable {α : Type}

/-- Where a pointer to an element is: `tqh_first` of the head, or `tqe_next` of an element. -/
inductive Place (α : Type) where
  | first
  | next (elm : α)
deriving DecidableEq

/-- The head, and the `TAILQ_ENTRY` of every element. -/
structure Queue (α : Type) where
  first : Option α
  last : Place α
  next : α → Option α
  prev : α → Option (Place α)

namespace Queue

/-- The pointer at a place. -/
def value (q : Queue α) : Place α → Option α
  | .first => q.first
  | .next elm => q.next elm

section Macros

variable [DecidableEq α]

def assign (q : Queue α) (v : Option α) : Place α → Queue α
  | .first => { q with first := v }
  | .next elm => { q with next := Function.update q.next elm v }

def setPrev (q : Queue α) (elm : α) (v : Option (Place α)) : Queue α :=
  { q with prev := Function.update q.prev elm v }

def tailqInit (q : Queue α) : Queue α := { q with first := none, last := .first }

def tailqInsertHead (q : Queue α) (elm : α) : Queue α :=
  let q := q.assign q.first (.next elm)
  let q := match q.next elm with
    | some first => q.setPrev first (some (.next elm))
    | none => { q with last := .next elm }
  let q := q.assign (some elm) .first
  q.setPrev elm (some .first)

def tailqInsertTail (q : Queue α) (elm : α) : Queue α :=
  let q := q.assign none (.next elm)
  let q := q.setPrev elm (some q.last)
  let q := q.assign (some elm) q.last
  { q with last := .next elm }

/-- `TAILQ_INSERT_BEFORE`, or nothing where `tqe_prev` is null. -/
def tailqInsertBefore (q : Queue α) (listelm elm : α) : Option (Queue α) :=
  let q := q.setPrev elm (q.prev listelm)
  let q := q.assign (some listelm) (.next elm)
  match q.prev listelm with
  | none => none
  | some a => some ((q.assign (some elm) a).setPrev listelm (some (.next elm)))

/-- `TAILQ_REMOVE`, or nothing where `tqe_prev` is null. -/
def tailqRemove (q : Queue α) (elm : α) : Option (Queue α) :=
  match q.prev elm with
  | none => none
  | some a =>
      let q := match q.next elm with
        | some nxt => q.setPrev nxt (some a)
        | none => { q with last := a }
      some (q.assign (q.next elm) a)

/-! ## Reading back -/

section Fields

variable (q : Queue α) (v : Option α) (a b : Place α) (elm p : α) (u : Option (Place α))

theorem value_assign : (q.assign v a).value b = if b = a then v else q.value b := by
  cases a <;> cases b <;> simp [assign, value, Function.update_apply]

@[simp] theorem prev_assign : (q.assign v a).prev = q.prev := by cases a <;> rfl

@[simp] theorem last_assign : (q.assign v a).last = q.last := by cases a <;> rfl

@[simp] theorem value_setPrev : (q.setPrev elm u).value a = q.value a := by cases a <;> rfl

theorem prev_setPrev : (q.setPrev elm u).prev p = if p = elm then u else q.prev p :=
  Function.update_apply _ _ _ _

@[simp] theorem next_assign_self : (q.assign v (.next elm)).next elm = v :=
  Function.update_self _ _ _

@[simp] theorem last_setPrev : (q.setPrev elm u).last = q.last := rfl

end Fields

end Macros

/-! ## Which elements a queue has -/

/-- The elements `l` are linked from the pointer at `a` to the pointer at `b`. -/
def Linked (q : Queue α) : Place α → List α → Place α → Prop
  | a, [], b => a = b
  | a, p :: l, b => q.value a = some p ∧ q.prev p = some a ∧ q.Linked (.next p) l b

structure Holds (q : Queue α) (l : List α) : Prop where
  linked : q.Linked .first l q.last
  ends : q.value q.last = none
  nodup : l.Nodup

/-- A walk from a pointer comes by the elements `l`, and ends. -/
def Follows (q : Queue α) : Option α → List α → Prop
  | o, [] => o = none
  | o, p :: l => o = some p ∧ q.Follows (q.next p) l

variable {q q' : Queue α} {a b c : Place α} {l l₁ l₂ : List α} {elm : α}

theorem linked_append :
    q.Linked a (l₁ ++ l₂) c ↔ ∃ b, q.Linked a l₁ b ∧ q.Linked b l₂ c := by
  induction l₁ generalizing a with
  | nil => exact ⟨fun h => ⟨a, rfl, h⟩, fun ⟨_, hab, h⟩ => hab ▸ h⟩
  | cons p l₁ ih =>
      constructor
      · rintro ⟨hvalue, hprev, h⟩
        rcases ih.mp h with ⟨b, h₁, h₂⟩
        exact ⟨b, ⟨hvalue, hprev, h₁⟩, h₂⟩
      · rintro ⟨b, ⟨hvalue, hprev, h₁⟩, h₂⟩
        exact ⟨hvalue, hprev, ih.mpr ⟨b, h₁, h₂⟩⟩

/-- The places of the pointers to the elements and of the one behind them. -/
def places (a : Place α) (l : List α) : List (Place α) := a :: l.map Place.next

theorem Linked.mem_places (h : q.Linked a l b) : b ∈ places a l := by
  induction l generalizing a with
  | nil => exact h ▸ List.mem_cons_self
  | cons p l ih => exact List.mem_cons_of_mem _ (ih h.2.2)

theorem nodup_places (h : l.Nodup) : (places .first l).Nodup := by
  refine List.nodup_cons.mpr ⟨fun hmem => ?_, h.map fun p p' hp => ?_⟩
  · rcases List.mem_map.mp hmem with ⟨p, -, hp⟩
    nomatch hp
  · injection hp

/-- What is linked stays so while the pointers in front of the last one, and the addresses
in the elements, stay. -/
theorem Linked.frame (h : q.Linked a l b) (hnodup : (places a l).Nodup)
    (hvalue : ∀ x ∈ places a l, x ≠ b → q'.value x = q.value x)
    (hprev : ∀ p ∈ l, q'.prev p = q.prev p) : q'.Linked a l b := by
  induction l generalizing a with
  | nil => exact h
  | cons p l ih =>
      rcases h with ⟨ha, hp, h⟩
      rcases List.nodup_cons.mp hnodup with ⟨hout, hnodup⟩
      have hab : a ≠ b := fun hab => hout (hab ▸ h.mem_places)
      refine ⟨?_, ?_, ih h hnodup (fun x hx => hvalue x (List.mem_cons_of_mem _ hx))
        fun x hx => hprev x (List.mem_cons_of_mem _ hx)⟩
      · rw [hvalue a List.mem_cons_self hab, ha]
      · rw [hprev p List.mem_cons_self, hp]

theorem Linked.head (h : q.Linked a l b) (hend : q.value b = none) : q.value a = l.head? := by
  cases l with
  | nil => exact h ▸ hend
  | cons p l => exact h.1

theorem Linked.eq_end (h : q.Linked a l b) (h' : q.Linked a l c) : b = c := by
  induction l generalizing a with
  | nil => exact h.symm.trans h'
  | cons p l ih => exact ih h.2.2 h'.2.2

/-- An element put between the elements `l₁` and `l₂`, when that is what has become of the
pointers around it. -/
theorem Holds.insert (h : q.Holds (l₁ ++ l₂)) (hb : q.Linked .first l₁ b)
    (helm : elm ∉ l₁ ++ l₂) (hat : q'.value b = some elm)
    (hnext : q'.value (.next elm) = l₂.head?)
    (hvalue : ∀ x, x ≠ b → x ≠ .next elm → q'.value x = q.value x)
    (hprev : q'.prev elm = some b) (hhead : ∀ p, l₂.head? = some p → q'.prev p = some (.next elm))
    (hprevs : ∀ p, p ≠ elm → l₂.head? ≠ some p → q'.prev p = q.prev p)
    (hlast : q'.last = if l₂ = [] then .next elm else q.last) : q'.Holds (l₁ ++ elm :: l₂) := by
  rcases linked_append.mp h.linked with ⟨b', h₁, h₂⟩
  rcases h₁.eq_end hb with rfl
  have hplaces : (places .first l₁ ++ l₂.map Place.next).Nodup := by
    have hnodup := nodup_places h.nodup
    rwa [places, List.map_append, ← List.cons_append] at hnodup
  have hdisjoint := (List.nodup_append.mp hplaces).2.2
  have hout : ∀ x ∈ places .first l₁ ++ l₂.map Place.next, x ≠ .next elm := by
    rintro x hx rfl
    rcases List.mem_append.mp hx with hx | hx
    · rcases List.mem_cons.mp hx with hx | hx
      · nomatch hx
      · rcases List.mem_map.mp hx with ⟨p, hp, heq⟩
        injection heq with heq
        exact helm (List.mem_append_left _ (heq ▸ hp))
    · rcases List.mem_map.mp hx with ⟨p, hp, heq⟩
      injection heq with heq
      exact helm (List.mem_append_right _ (heq ▸ hp))
  have hfront : q'.Linked .first l₁ b' := by
    refine h₁.frame (List.nodup_append.mp hplaces).1 (fun x hx hne => ?_) fun p hp => ?_
    · exact hvalue x hne (hout x (List.mem_append_left _ hx))
    · refine hprevs p (fun hpe => helm (hpe ▸ List.mem_append_left _ hp)) fun hp₂ => ?_
      have hp₂ : p ∈ l₂ := List.mem_of_mem_head? hp₂
      exact (List.nodup_append.mp h.nodup).2.2 p hp p hp₂ rfl
  have hback : ∀ x ∈ l₂.map Place.next, q'.value x = q.value x := fun x hx =>
    hvalue x (fun hxb => hdisjoint b' hb.mem_places x hx hxb.symm)
      (hout x (List.mem_append_right _ hx))
  have hnodup : (l₁ ++ elm :: l₂).Nodup :=
    List.perm_middle.nodup_iff.mpr (List.nodup_cons.mpr ⟨helm, h.nodup⟩)
  cases l₂ with
  | nil =>
      rw [if_pos rfl] at hlast
      exact ⟨linked_append.mpr ⟨b', hfront, hat, hprev, hlast.symm⟩, hlast ▸ hnext, hnodup⟩
  | cons p l₂ =>
      rw [if_neg (List.cons_ne_nil _ _)] at hlast
      have hrest : q'.Linked (.next p) l₂ q'.last := by
        refine hlast ▸ h₂.2.2.frame ?_ (fun x hx _ => hback x hx) fun p' hp' => ?_
        · exact (List.nodup_append.mp hplaces).2.1
        · refine hprevs p' (fun hpe => helm ?_) fun hpp => ?_
          · exact hpe ▸ List.mem_append_right _ (List.mem_cons_of_mem _ hp')
          · have hnot := (List.nodup_append.mp h.nodup).2.1
            injection hpp with hpp
            exact (List.nodup_cons.mp hnot).1 (hpp ▸ hp')
      refine ⟨linked_append.mpr ⟨b', hfront, hat, hprev, hnext, hhead p rfl, hrest⟩, ?_, hnodup⟩
      rw [hlast, hback _ h₂.2.2.mem_places, h.ends]

/-- The place of the last pointer is not in an element that is not in the queue. -/
theorem Linked.ne_next (h : q.Linked .first l b) (helm : elm ∉ l) : b ≠ .next elm := by
  rintro rfl
  rcases List.mem_cons.mp h.mem_places with hmem | hmem
  · nomatch hmem
  · rcases List.mem_map.mp hmem with ⟨p, hp, hpe⟩
    injection hpe with hpe
    exact helm (hpe ▸ hp)

theorem Holds.congr (h : q.Holds l) (hvalue : ∀ x ∈ places .first l, q'.value x = q.value x)
    (hprev : ∀ p ∈ l, q'.prev p = q.prev p) (hlast : q'.last = q.last) : q'.Holds l where
  linked := hlast ▸ h.linked.frame (nodup_places h.nodup) (fun x hx _ => hvalue x hx) hprev
  ends := by rw [hlast, hvalue _ h.linked.mem_places, h.ends]
  nodup := h.nodup

/-- The only pointer to an element is the one that it has the address of. -/
theorem Linked.prev_eq (h : q.Linked a l b) (hend : q.value b = none) {x : Place α} {p : α}
    (hx : x ∈ places a l) (hp : q.value x = some p) : q.prev p = some x := by
  induction l generalizing a with
  | nil =>
      rw [List.mem_singleton.mp hx, show a = b from h, hend] at hp
      nomatch hp
  | cons p' l ih =>
      rcases List.mem_cons.mp hx with rfl | hx
      · rw [h.1] at hp
        injection hp with hp
        exact hp ▸ h.2.1
      · exact ih h.2.2 hx

/-! ## Where the pointers lead -/

theorem Linked.follows (h : q.Linked a l b) (hend : q.value b = none) :
    q.Follows (q.value a) l := by
  induction l generalizing a with
  | nil => exact (show a = b from h) ▸ hend
  | cons p l ih => exact ⟨h.1, ih h.2.2⟩

theorem Follows.unique {o : Option α} (h : q.Follows o l) (h' : q.Follows o l₁) : l = l₁ := by
  induction l generalizing o l₁ with
  | nil =>
      cases l₁ with
      | nil => rfl
      | cons p l₁ => exact absurd (h.symm.trans h'.1) nofun
  | cons p l ih =>
      cases l₁ with
      | nil => exact absurd (h'.symm.trans h.1) nofun
      | cons p' l₁ =>
          have hp : p = p' := Option.some.inj (h.1.symm.trans h'.1)
          rw [hp, ih h.2 (hp ▸ h'.2)]

/-- An element that is come by has a pointer to it. -/
theorem Follows.exists_place (h : q.Follows (q.value a) l) {p : α} (hp : p ∈ l) :
    ∃ x ∈ places a l, q.value x = some p := by
  induction l generalizing a with
  | nil => nomatch hp
  | cons p' l ih =>
      rcases List.mem_cons.mp hp with rfl | hp
      · exact ⟨a, List.mem_cons_self, h.1⟩
      · have hnext : q.Follows (q.value (.next p')) l := h.2
        rcases ih hnext hp with ⟨x, hx, hvalue⟩
        exact ⟨x, List.mem_cons_of_mem _ hx, hvalue⟩

theorem Holds.next_eq (h : q.Holds (l₁ ++ elm :: l₂)) : q.next elm = l₂.head? := by
  obtain ⟨b, -, -, -, hrest⟩ := linked_append.mp h.linked
  exact hrest.head h.ends

section Inserts

variable [DecidableEq α]

theorem Holds.insertHead (h : q.Holds l) (helm : elm ∉ l) :
    (q.tailqInsertHead elm).Holds (elm :: l) := by
  have hfirst : q.first = l.head? := h.linked.head h.ends
  have hnil : q.Holds ([] ++ l) := h
  have hat : (q.tailqInsertHead elm).value .first = some elm := by cases l <;> rfl
  have hprev : (q.tailqInsertHead elm).prev elm = some .first := Function.update_self _ _ _
  cases l with
  | nil =>
      have hq : q.tailqInsertHead elm = ({ q.assign none (.next elm) with
          last := .next elm }.assign (some elm) .first).setPrev elm (some .first) := by
        simp only [tailqInsertHead, hfirst, List.head?_nil, next_assign_self]
      refine hnil.insert (b := .first) rfl helm hat ?_ ?_ hprev nofun ?_ (by rw [hq]; rfl)
      · rw [hq]
        exact next_assign_self _ _ _
      · intro x hx hne
        rw [hq, value_setPrev, value_assign, if_neg hx]
        exact (value_assign _ _ _ _).trans (if_neg hne)
      · intro p hp _
        rw [hq, prev_setPrev, if_neg hp]
        rfl
  | cons p l =>
      have hpe : p ≠ elm := fun hpe => helm (hpe ▸ List.mem_cons_self)
      have hq : q.tailqInsertHead elm = (((q.assign (some p) (.next elm)).setPrev p
          (some (.next elm))).assign (some elm) .first).setPrev elm (some .first) := by
        simp only [tailqInsertHead, hfirst, List.head?_cons, next_assign_self]
      refine hnil.insert (b := .first) rfl helm hat ?_ ?_ hprev ?_ ?_ (by rw [hq]; rfl)
      · rw [hq]
        exact next_assign_self _ _ _
      · intro x hx hne
        rw [hq, value_setPrev, value_assign, if_neg hx, value_setPrev, value_assign, if_neg hne]
      · intro p' hp'
        injection hp' with hp'
        rw [hq, ← hp', prev_setPrev, if_neg hpe, prev_assign, prev_setPrev, if_pos rfl]
      · intro p' hp' hne
        rw [hq, prev_setPrev, if_neg hp', prev_assign, prev_setPrev,
          if_neg (fun hpp => hne (congrArg some hpp.symm)), prev_assign]

theorem Holds.insertTail (h : q.Holds l) (helm : elm ∉ l) :
    (q.tailqInsertTail elm).Holds (l ++ [elm]) := by
  have hnil : q.Holds (l ++ []) := by rwa [List.append_nil]
  have hlast := h.linked.ne_next helm
  have hvalue : ∀ x, (q.tailqInsertTail elm).value x =
      if x = q.last then some elm else if x = .next elm then none else q.value x := by
    intro x
    have hset : (q.tailqInsertTail elm).value x =
        (((q.assign none (.next elm)).setPrev elm (some q.last)).assign (some elm)
          q.last).value x := by
      simp only [tailqInsertTail, last_assign, last_setPrev]
      cases x <;> rfl
    rw [hset, value_assign, value_setPrev, value_assign]
  have hprev : ∀ p, (q.tailqInsertTail elm).prev p =
      if p = elm then some q.last else q.prev p := by
    intro p
    simp only [tailqInsertTail, last_assign, last_setPrev, prev_assign, prev_setPrev]
  refine hnil.insert h.linked (by rwa [List.append_nil]) ?_ ?_ ?_ ?_ nofun ?_ rfl
  · rw [hvalue, if_pos rfl]
  · rw [hvalue, if_neg hlast.symm, if_pos rfl]
    rfl
  · intro x hx hne
    rw [hvalue, if_neg hx, if_neg hne]
  · rw [hprev, if_pos rfl]
  · intro p hp _
    rw [hprev, if_neg hp]

/-- What `TAILQ_INSERT_BEFORE` changes. -/
theorem insertBefore_eq_some {p : α} (hp : q.prev p = some b) (hpe : p ≠ elm) :
    ∃ q', q.tailqInsertBefore p elm = some q' ∧ q'.last = q.last ∧
      (∀ x, q'.value x =
        if x = b then some elm else if x = .next elm then some p else q.value x) ∧
      ∀ x, q'.prev x =
        if x = p then some (.next elm) else if x = elm then some b else q.prev x := by
  have hprev : ((q.setPrev elm (q.prev p)).assign (some p) (.next elm)).prev p = some b := by
    rw [prev_assign, prev_setPrev, if_neg hpe, hp]
  refine ⟨(((q.setPrev elm (q.prev p)).assign (some p) (.next elm)).assign (some elm) b).setPrev p
    (some (.next elm)), ?_, ?_, ?_, ?_⟩
  · simp only [tailqInsertBefore, hprev]
  · rw [last_setPrev, last_assign, last_assign, last_setPrev]
  · intro x
    rw [value_setPrev, value_assign, value_assign, value_setPrev]
  · intro x
    rw [prev_setPrev, prev_assign, prev_assign, prev_setPrev, hp]

theorem Holds.insertBefore {p : α} (h : q.Holds (l₁ ++ p :: l₂)) (helm : elm ∉ l₁ ++ p :: l₂)
    (hb : q.Linked .first l₁ b) (hp : q.prev p = some b) :
    ∃ q', q.tailqInsertBefore p elm = some q' ∧ q'.Holds (l₁ ++ elm :: p :: l₂) ∧
      ∀ x, q'.value x =
        if x = b then some elm else if x = .next elm then some p else q.value x := by
  have hpe : p ≠ elm := fun hpe => helm (hpe ▸ List.mem_append_right _ List.mem_cons_self)
  have hbe := hb.ne_next fun hmem => helm (List.mem_append_left _ hmem)
  rcases insertBefore_eq_some hp hpe with ⟨q', hq', hlast, hvalue, hprev⟩
  refine ⟨q', hq', h.insert hb helm ?_ ?_ ?_ ?_ ?_ ?_ ?_, hvalue⟩
  · rw [hvalue, if_pos rfl]
  · rw [hvalue, if_neg hbe.symm, if_pos rfl]
    rfl
  · intro x hx hne
    rw [hvalue, if_neg hx, if_neg hne]
  · rw [hprev, if_neg hpe.symm, if_pos rfl]
  · intro p' hp'
    injection hp' with hp'
    rw [hprev, if_pos hp'.symm]
  · intro p' hp' hne
    rw [hprev, if_neg (fun hpp => hne (congrArg some hpp.symm)), if_neg hp']
  · rw [hlast, if_neg (List.cons_ne_nil _ _)]

end Inserts

section Removes

variable [DecidableEq α]

/-- What `TAILQ_REMOVE` changes. -/
theorem remove_eq_some (hprev : q.prev elm = some b) :
    ∃ q', q.tailqRemove elm = some q' ∧
      q'.last = (if q.next elm = none then b else q.last) ∧
      (∀ x, q'.value x = if x = b then q.next elm else q.value x) ∧
      ∀ p, q'.prev p = if q.next elm = some p then some b else q.prev p := by
  unfold tailqRemove
  rw [hprev]
  cases hnext : q.next elm with
  | none =>
      have hlast : ({ q with last := b } : Queue α).next elm = none := hnext
      refine ⟨_, rfl, ?_, fun x => ?_, fun p => ?_⟩
      · rw [if_pos rfl, last_assign]
      · rw [value_assign, hlast]
        cases x <;> rfl
      · rw [if_neg nofun, prev_assign]
  | some nxt =>
      have hset : (q.setPrev nxt (some b)).next elm = some nxt := hnext
      refine ⟨_, rfl, ?_, fun x => ?_, fun p => ?_⟩
      · rw [if_neg nofun, last_assign, last_setPrev]
      · rw [value_assign, hset, value_setPrev]
      · rw [prev_assign, prev_setPrev]
        simp only [Option.some.injEq, eq_comm]

theorem Holds.remove (h : q.Holds (l₁ ++ elm :: l₂)) :
    ∃ q', q.tailqRemove elm = some q' ∧ q'.Holds (l₁ ++ l₂) := by
  obtain ⟨b, hfront, hat, hprev, hrest⟩ := linked_append.mp h.linked
  obtain ⟨q', hremove, hlast, hvalue, hprevs⟩ := remove_eq_some hprev
  rw [h.next_eq] at hlast hvalue hprevs
  obtain ⟨hnodup₁, hnodup₂, hdisjoint⟩ := List.nodup_append.mp h.nodup
  have hnodup : (l₁ ++ l₂).Nodup := List.nodup_append.mpr ⟨hnodup₁, hnodup₂.of_cons,
    fun p hp p' hp' => hdisjoint p hp p' (List.mem_cons_of_mem _ hp')⟩
  have hplaces : (places .first l₁ ++ (elm :: l₂).map Place.next).Nodup := by
    have hnodup := nodup_places h.nodup
    rwa [places, List.map_append, ← List.cons_append] at hnodup
  have hlinked₁ : q'.Linked .first l₁ b := by
    refine hfront.frame (List.nodup_append.mp hplaces).1 (fun x _ hx => ?_) fun p hp => ?_
    · rw [hvalue, if_neg hx]
    · rw [hprevs, if_neg]
      intro hhead
      exact hdisjoint p hp p (List.mem_cons_of_mem _ (List.mem_of_mem_head? hhead)) rfl
  refine ⟨q', hremove, ?_⟩
  cases l₂ with
  | nil =>
      rw [List.head?_nil, if_pos rfl] at hlast
      exact ⟨linked_append.mpr ⟨b, hlinked₁, hlast.symm⟩, by rw [hlast, hvalue, if_pos rfl]; rfl,
        hnodup⟩
  | cons p l₂ =>
      rw [if_neg (by simp)] at hlast
      -- The place in front of the element is not behind it.
      have hout : ∀ x ∈ places (.next p) l₂, x ≠ b := by
        rintro x hx rfl
        refine (List.nodup_append.mp hplaces).2.2 x hfront.mem_places x ?_ rfl
        exact List.mem_cons_of_mem _ hx
      have hlinked₂ : q'.Linked (.next p) l₂ q'.last := by
        refine hlast ▸ hrest.2.2.frame ?_ (fun x hx _ => ?_) fun p' hp' => ?_
        · exact ((List.nodup_append.mp hplaces).2.1).of_cons
        · rw [hvalue, if_neg (hout x hx)]
        · rw [hprevs, if_neg]
          intro hhead
          exact (List.nodup_cons.mp hnodup₂.of_cons).1 (Option.some.inj hhead ▸ hp')
      refine ⟨linked_append.mpr ⟨b, hlinked₁, ?_, ?_, hlinked₂⟩, ?_, hnodup⟩
      · rw [hvalue, if_pos rfl]
        rfl
      · rw [hprevs, List.head?_cons, if_pos rfl]
      · rw [hlast, hvalue, if_neg (hout _ hrest.2.2.mem_places), h.ends]

end Removes

end Queue

end Tailq
end IrC6
