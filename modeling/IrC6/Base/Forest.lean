import Mathlib.Data.List.Nodup
import Mathlib.Data.List.Basic

/-!
# Forests of linked nodes

A forest is a list of trees: the first tree as a label with its children, and the trees
behind it.  `Linked` says that nodes which know their parent and the list of their children
are linked like a forest.  A node can then be given a child, and a subtree be cut off, and
`Below` says in terms of the links alone which nodes a subtree has.
-/

namespace IrC6

inductive Forest (α : Type) where
  | nil
  | cons (a : α) (kids sibs : Forest α)

namespace Forest

variable {α : Type}

def labels : Forest α → List α
  | nil => []
  | cons a kids sibs => a :: (kids.labels ++ sibs.labels)

/-- The roots of the trees. -/
def roots : Forest α → List α
  | nil => []
  | cons a _ sibs => a :: sibs.roots

/-- Calls nested and one behind the other in a walk over the forest. -/
def depth : Forest α → Nat
  | nil => 0
  | cons _ kids sibs => kids.depth + sibs.depth + 2

/-- A label with its children. -/
inductive Has (a : α) (kids : Forest α) : Forest α → Prop where
  | here (sibs : Forest α) : Has a kids (cons a kids sibs)
  | kid (b : α) {ks : Forest α} (sibs : Forest α) : Has a kids ks → Has a kids (cons b ks sibs)
  | sib (b : α) (ks : Forest α) {sibs : Forest α} : Has a kids sibs → Has a kids (cons b ks sibs)

theorem mem_labels_cons {a b : α} {kids sibs : Forest α} :
    b ∈ (cons a kids sibs).labels ↔ b = a ∨ b ∈ kids.labels ∨ b ∈ sibs.labels := by
  rw [labels, List.mem_cons, List.mem_append]

theorem roots_sublist (F : Forest α) : F.roots.Sublist F.labels := by
  induction F with
  | nil => exact List.Sublist.refl _
  | cons a kids sibs _ ih =>
      rw [roots, labels]
      exact (ih.trans (List.sublist_append_right _ _)).cons_cons a

theorem exists_has {F : Forest α} {a : α} (h : a ∈ F.labels) : ∃ kids, Has a kids F := by
  induction F with
  | nil => exact absurd h List.not_mem_nil
  | cons b kids sibs ihk ihs =>
      rcases mem_labels_cons.mp h with rfl | h | h
      · exact ⟨kids, .here sibs⟩
      · rcases ihk h with ⟨ks, hk⟩
        exact ⟨ks, .kid b sibs hk⟩
      · rcases ihs h with ⟨ks, hs⟩
        exact ⟨ks, .sib b kids hs⟩

/-- The labels of a subtree come one behind the other. -/
theorem Has.sublist {F : Forest α} {a : α} {kids : Forest α} (h : Has a kids F) :
    (a :: kids.labels).Sublist F.labels := by
  induction h with
  | here sibs => exact (List.sublist_append_left _ _).cons_cons a
  | kid b sibs _ ih => exact (ih.trans (List.sublist_append_left _ _)).cons b
  | sib b ks _ ih => exact (ih.trans (List.sublist_append_right _ _)).cons b

/-! ## Links -/

/-- Nodes with their parent and the list of their children, linked like a forest. -/
def Linked (links : α → Option (Option α × List α)) (parent : Option α) : Forest α → Prop
  | nil => True
  | cons a kids sibs =>
      links a = some (parent, kids.roots) ∧ Linked links (some a) kids ∧ Linked links parent sibs

/-- The nodes of a subtree, in terms of the links. -/
inductive Below (links : α → Option (Option α × List α)) (a : α) : α → Prop where
  | refl : Below links a a
  | child {b c : α} {parent : Option α} {nodes : List α} : Below links a b →
      links b = some (parent, nodes) → c ∈ nodes → Below links a c

variable {links links' : α → Option (Option α × List α)} {parent : Option α} {F : Forest α}

theorem Below.trans {a b c : α} (hab : Below links a b) (hbc : Below links b c) :
    Below links a c := by
  induction hbc with
  | refl => exact hab
  | child _ hlinks hc ih => exact ih.child hlinks hc

/-- A way down goes through one of the children. -/
theorem Below.head {a b : α} (h : Below links a b) :
    b = a ∨ ∃ p nodes c, links a = some (p, nodes) ∧ c ∈ nodes ∧ Below links c b := by
  induction h with
  | refl => exact Or.inl rfl
  | @child b d p nodes _ hlinks hd ih =>
      rcases ih with rfl | ⟨q, ns, c, ha, hc, hcb⟩
      · exact Or.inr ⟨p, nodes, d, hlinks, hd, .refl⟩
      · exact Or.inr ⟨q, ns, c, ha, hc, hcb.child hlinks hd⟩

theorem Linked.congr (h : Linked links parent F) (hsame : ∀ a ∈ F.labels, links' a = links a) :
    Linked links' parent F := by
  induction F generalizing parent with
  | nil => trivial
  | cons a kids sibs ihk ihs =>
      refine ⟨(hsame a List.mem_cons_self).trans h.1, ihk h.2.1 fun b hb => ?_,
        ihs h.2.2 fun b hb => ?_⟩
      · exact hsame b (mem_labels_cons.mpr (Or.inr (Or.inl hb)))
      · exact hsame b (mem_labels_cons.mpr (Or.inr (Or.inr hb)))

theorem Linked.isSome (h : Linked links parent F) {a : α} (ha : a ∈ F.labels) :
    (links a).isSome := by
  induction F generalizing parent with
  | nil => exact absurd ha List.not_mem_nil
  | cons b kids sibs ihk ihs =>
      rcases mem_labels_cons.mp ha with rfl | ha | ha
      · rw [h.1]
        rfl
      · exact ihk h.2.1 ha
      · exact ihs h.2.2 ha

theorem Linked.root (h : Linked links parent F) {a : α} (ha : a ∈ F.roots) :
    ∃ nodes, links a = some (parent, nodes) := by
  induction F with
  | nil => exact absurd ha List.not_mem_nil
  | cons b kids sibs _ ihs =>
      rcases List.mem_cons.mp ha with rfl | ha
      · exact ⟨_, h.1⟩
      · exact ihs h.2.2 ha

/-- A node of a forest with its children, which are in the forest too. -/
theorem Linked.node (h : Linked links parent F) {a : α} (ha : a ∈ F.labels) :
    ∃ p nodes, links a = some (p, nodes) ∧
      ∀ b ∈ nodes, b ∈ F.labels ∧ ∃ nodes', links b = some (some a, nodes') := by
  induction F generalizing parent with
  | nil => exact absurd ha List.not_mem_nil
  | cons c kids sibs ihk ihs =>
      rcases mem_labels_cons.mp ha with rfl | ha | ha
      · refine ⟨_, _, h.1, fun b hb => ⟨?_, h.2.1.root hb⟩⟩
        exact mem_labels_cons.mpr (Or.inr (Or.inl (kids.roots_sublist.subset hb)))
      · rcases ihk h.2.1 ha with ⟨p, nodes, hlinks, hnodes⟩
        refine ⟨p, nodes, hlinks, fun b hb => ⟨?_, (hnodes b hb).2⟩⟩
        exact mem_labels_cons.mpr (Or.inr (Or.inl (hnodes b hb).1))
      · rcases ihs h.2.2 ha with ⟨p, nodes, hlinks, hnodes⟩
        refine ⟨p, nodes, hlinks, fun b hb => ⟨?_, (hnodes b hb).2⟩⟩
        exact mem_labels_cons.mpr (Or.inr (Or.inr (hnodes b hb).1))

/-- A subtree is linked.  Its root is a root of the forest, or a child of a node outside the
subtree. -/
theorem Linked.has {a : α} {kids : Forest α} (hh : Has a kids F) (h : Linked links parent F)
    (hn : F.labels.Nodup) :
    ∃ p, links a = some (p, kids.roots) ∧ Linked links (some a) kids ∧
      ((p = parent ∧ a ∈ F.roots) ∨ ∃ q p' nodes, p = some q ∧ q ∈ F.labels ∧
        q ∉ a :: kids.labels ∧ links q = some (p', nodes) ∧ a ∈ nodes) := by
  induction hh generalizing parent with
  | here sibs => exact ⟨parent, h.1, h.2.1, Or.inl ⟨rfl, List.mem_cons_self⟩⟩
  | @kid b ks sibs hk ih =>
      rw [labels, List.nodup_cons, List.nodup_append] at hn
      rcases ih h.2.1 hn.2.1 with ⟨p, hlinks, hlinked, ⟨rfl, hroot⟩ | ⟨q, p', nodes, hp, hq, hrest⟩⟩
      · refine ⟨_, hlinks, hlinked, Or.inr ⟨b, parent, ks.roots, rfl, List.mem_cons_self, ?_, h.1,
          hroot⟩⟩
        exact fun hb => hn.1 (List.mem_append_left _ (hk.sublist.subset hb))
      · exact ⟨p, hlinks, hlinked, Or.inr ⟨q, p', nodes, hp,
          mem_labels_cons.mpr (Or.inr (Or.inl hq)), hrest⟩⟩
  | @sib b ks sibs hs ih =>
      rw [labels, List.nodup_cons, List.nodup_append] at hn
      rcases ih h.2.2 hn.2.2.1 with
        ⟨p, hlinks, hlinked, ⟨hp, hroot⟩ | ⟨q, p', nodes, hp, hq, hrest⟩⟩
      · exact ⟨p, hlinks, hlinked, Or.inl ⟨hp, List.mem_cons_of_mem _ hroot⟩⟩
      · exact ⟨p, hlinks, hlinked, Or.inr ⟨q, p', nodes, hp,
          mem_labels_cons.mpr (Or.inr (Or.inr hq)), hrest⟩⟩

theorem Linked.nodup (h : Linked links parent F) (hn : F.labels.Nodup) {a : α} (ha : a ∈ F.labels)
    {p : Option α} {nodes : List α} (hlinks : links a = some (p, nodes)) : nodes.Nodup := by
  rcases exists_has ha with ⟨kids, hhas⟩
  rcases h.has hhas hn with ⟨p', hlinks', -, -⟩
  rw [hlinks] at hlinks'
  cases hlinks'
  exact (hn.sublist ((List.sublist_cons_self a _).trans hhas.sublist)).sublist kids.roots_sublist

/-- The links lead from the root of a subtree to the labels of it and to no others. -/
theorem Linked.below_iff {a : α} {p : Option α} {kids : Forest α}
    (ha : links a = some (p, kids.roots)) (h : Linked links (some a) kids) (b : α) :
    Below links a b ↔ b ∈ a :: kids.labels := by
  constructor
  · intro hb
    have hlinked : Linked links p (cons a kids nil) := ⟨ha, h, trivial⟩
    have hlabels : (cons a kids nil).labels = a :: kids.labels := by
      rw [labels, labels, List.append_nil]
    rw [← hlabels]
    induction hb with
    | refl => exact List.mem_cons_self
    | child _ hlinks hc ih =>
        rcases hlinked.node ih with ⟨p', nodes, hlinks', hnodes⟩
        rw [hlinks] at hlinks'
        cases hlinks'
        exact (hnodes _ hc).1
  · intro hb
    have hall : ∀ (F : Forest α) (q : Option α), Linked links q F →
        (∀ r ∈ F.roots, Below links a r) → ∀ b ∈ F.labels, Below links a b := by
      intro F
      induction F with
      | nil => exact fun _ _ _ b hb => absurd hb List.not_mem_nil
      | cons c ks sibs ihk ihs =>
          intro q hF hroots b hb
          have hc : Below links a c := hroots c List.mem_cons_self
          rcases mem_labels_cons.mp hb with rfl | hb | hb
          · exact hc
          · exact ihk (some c) hF.2.1 (fun r hr => hc.child hF.1 hr) b hb
          · exact ihs q hF.2.2 (fun r hr => hroots r (List.mem_cons_of_mem _ hr)) b hb
    rcases List.mem_cons.mp hb with rfl | hb
    · exact .refl
    · exact hall kids (some a) h (fun r hr => Below.refl.child ha hr) b hb

/-! ## Cutting off and adding -/

variable [DecidableEq α]

/-- The forest without the subtree of a label. -/
def remove (a : α) : Forest α → Forest α
  | nil => nil
  | cons b kids sibs => if b = a then sibs else cons b (kids.remove a) (sibs.remove a)

/-- The forest with `b` in front of the children of `a`. -/
def adopt (a b : α) : Forest α → Forest α
  | nil => nil
  | cons c kids sibs =>
      if c = a then cons c (cons b nil kids) sibs else cons c (kids.adopt a b) (sibs.adopt a b)

theorem roots_remove (a : α) (F : Forest α) : (F.remove a).roots = F.roots.erase a := by
  induction F with
  | nil => rfl
  | cons b kids sibs _ ih =>
      rw [remove]
      by_cases hb : b = a
      · subst hb
        rw [if_pos rfl, roots, List.erase_cons_head]
      · rw [if_neg hb, roots, roots, ih, List.erase_cons_tail (by simpa using hb)]

theorem remove_of_notMem {a : α} {F : Forest α} (h : a ∉ F.labels) : F.remove a = F := by
  induction F with
  | nil => rfl
  | cons b kids sibs ihk ihs =>
      rw [mem_labels_cons, not_or, not_or] at h
      rw [remove, if_neg (Ne.symm h.1), ihk h.2.1, ihs h.2.2]

theorem sublist_remove (a : α) (F : Forest α) : (F.remove a).labels.Sublist F.labels := by
  induction F with
  | nil => exact List.Sublist.refl _
  | cons b kids sibs ihk ihs =>
      rw [remove]
      by_cases hb : b = a
      · rw [if_pos hb]
        exact (List.sublist_append_right _ _).cons b
      · rw [if_neg hb]
        exact (ihk.append ihs).cons_cons b

theorem mem_remove_iff {F : Forest α} (hn : F.labels.Nodup) {a : α} {kids : Forest α}
    (h : Has a kids F) (b : α) :
    b ∈ (F.remove a).labels ↔ b ∈ F.labels ∧ b ∉ a :: kids.labels := by
  induction h with
  | here sibs =>
      rw [labels, List.nodup_cons, List.nodup_append] at hn
      rw [remove, if_pos rfl, labels, List.mem_cons, List.mem_cons, List.mem_append]
      constructor
      · intro hb
        refine ⟨Or.inr (Or.inr hb), ?_⟩
        rintro (rfl | hk)
        · exact hn.1 (List.mem_append_right _ hb)
        · exact hn.2.2.2 b hk b hb rfl
      · rintro ⟨rfl | hk | hs, hnot⟩
        · exact absurd (Or.inl rfl) hnot
        · exact absurd (Or.inr hk) hnot
        · exact hs
  | @kid c ks sibs hk ih =>
      rw [labels, List.nodup_cons, List.nodup_append] at hn
      have hsub := hk.sublist.subset
      have hca : c ≠ a := fun hc => hn.1 (List.mem_append_left _ (hsub (hc ▸ List.mem_cons_self)))
      have hsibs : a ∉ sibs.labels := fun ha =>
        hn.2.2.2 a (hsub List.mem_cons_self) a ha rfl
      rw [remove, if_neg hca, remove_of_notMem hsibs, mem_labels_cons, ih hn.2.1,
        mem_labels_cons]
      constructor
      · rintro (rfl | ⟨hb, hnot⟩ | hb)
        · exact ⟨Or.inl rfl, fun hmem => hn.1 (List.mem_append_left _ (hsub hmem))⟩
        · exact ⟨Or.inr (Or.inl hb), hnot⟩
        · exact ⟨Or.inr (Or.inr hb), fun hmem => hn.2.2.2 b (hsub hmem) b hb rfl⟩
      · rintro ⟨rfl | hb | hb, hnot⟩
        · exact Or.inl rfl
        · exact Or.inr (Or.inl ⟨hb, hnot⟩)
        · exact Or.inr (Or.inr hb)
  | @sib c ks sibs hs ih =>
      rw [labels, List.nodup_cons, List.nodup_append] at hn
      have hsub := hs.sublist.subset
      have hca : c ≠ a := fun hc => hn.1 (List.mem_append_right _ (hsub (hc ▸ List.mem_cons_self)))
      have hkids : a ∉ ks.labels := fun ha =>
        hn.2.2.2 a ha a (hsub List.mem_cons_self) rfl
      rw [remove, if_neg hca, remove_of_notMem hkids, mem_labels_cons, ih hn.2.2.1,
        mem_labels_cons]
      constructor
      · rintro (rfl | hb | ⟨hb, hnot⟩)
        · exact ⟨Or.inl rfl, fun hmem => hn.1 (List.mem_append_right _ (hsub hmem))⟩
        · exact ⟨Or.inr (Or.inl hb), fun hmem => hn.2.2.2 b hb b (hsub hmem) rfl⟩
        · exact ⟨Or.inr (Or.inr hb), hnot⟩
      · rintro ⟨rfl | hb | hb, hnot⟩
        · exact Or.inl rfl
        · exact Or.inr (Or.inl hb)
        · exact Or.inr (Or.inr ⟨hb, hnot⟩)

theorem roots_adopt (a b : α) (F : Forest α) : (F.adopt a b).roots = F.roots := by
  induction F with
  | nil => rfl
  | cons c kids sibs _ ih =>
      rw [adopt]
      by_cases hca : c = a
      · rw [if_pos hca]
        rfl
      · rw [if_neg hca, roots, ih, roots]

theorem adopt_of_notMem {a : α} (b : α) {F : Forest α} (h : a ∉ F.labels) : F.adopt a b = F := by
  induction F with
  | nil => rfl
  | cons c kids sibs ihk ihs =>
      rw [mem_labels_cons, not_or, not_or] at h
      rw [adopt, if_neg (Ne.symm h.1), ihk h.2.1, ihs h.2.2]

theorem perm_adopt {a : α} (b : α) {F : Forest α} (hn : F.labels.Nodup) (h : a ∈ F.labels) :
    (F.adopt a b).labels.Perm (b :: F.labels) := by
  induction F with
  | nil => exact absurd h List.not_mem_nil
  | cons c kids sibs ihk ihs =>
      have hn' := hn
      rw [labels, List.nodup_cons, List.nodup_append] at hn'
      rw [adopt]
      by_cases hca : c = a
      · rw [if_pos hca]
        exact List.Perm.swap b c _
      · rw [if_neg hca, labels, labels]
        refine List.Perm.trans (List.Perm.cons c ?_) (List.Perm.swap b c _)
        rcases mem_labels_cons.mp h with rfl | hk | hs
        · exact absurd rfl hca
        · have hsibs : a ∉ sibs.labels := fun hs => hn'.2.2.2 a hk a hs rfl
          rw [adopt_of_notMem b hsibs]
          exact (ihk hn'.2.1 hk).append_right _
        · have hkids : a ∉ kids.labels := fun hk => hn'.2.2.2 a hk a hs rfl
          rw [adopt_of_notMem b hkids]
          exact ((ihs hn'.2.2.1 hs).append_left _).trans List.perm_middle

/-- The links when the subtree of `a` has been cut off. -/
theorem Linked.remove {a : α} (h : Linked links parent F)
    (hlinks : ∀ b ∈ (F.remove a).labels, ∀ p nodes, links b = some (p, nodes) →
      links' b = some (p, nodes.erase a)) (hn : F.labels.Nodup) :
    Linked links' parent (F.remove a) := by
  induction F generalizing parent with
  | nil => trivial
  | cons b kids sibs ihk ihs =>
      rw [labels, List.nodup_cons, List.nodup_append] at hn
      rw [Forest.remove] at hlinks ⊢
      by_cases hb : b = a
      · subst hb
        rw [if_pos rfl] at hlinks ⊢
        have hsibs : sibs.remove b = sibs :=
          remove_of_notMem fun hs => hn.1 (List.mem_append_right _ hs)
        rw [← hsibs] at hlinks ⊢
        exact ihs h.2.2 hlinks hn.2.2.1
      · rw [if_neg hb] at hlinks ⊢
        refine ⟨?_, ihk h.2.1 (fun c hc => ?_) hn.2.1, ihs h.2.2 (fun c hc => ?_) hn.2.2.1⟩
        · rw [hlinks b List.mem_cons_self _ _ h.1, roots_remove]
        · exact hlinks c (mem_labels_cons.mpr (Or.inr (Or.inl hc)))
        · exact hlinks c (mem_labels_cons.mpr (Or.inr (Or.inr hc)))

/-- The links when `b` has become the first child of `a`. -/
theorem Linked.adopt {a b : α} (h : Linked links parent F) (hn : F.labels.Nodup)
    (hb : b ∉ F.labels) (hnew : links' b = some (some a, []))
    (ha : ∀ p nodes, links a = some (p, nodes) → links' a = some (p, b :: nodes))
    (hsame : ∀ c ∈ F.labels, c ≠ a → links' c = links c) : Linked links' parent (F.adopt a b) := by
  induction F generalizing parent with
  | nil => trivial
  | cons c kids sibs ihk ihs =>
      rw [labels, List.nodup_cons, List.nodup_append] at hn
      rw [mem_labels_cons, not_or, not_or] at hb
      have hkids : ∀ d ∈ kids.labels, d ≠ a → links' d = links d := fun d hd =>
        hsame d (mem_labels_cons.mpr (Or.inr (Or.inl hd)))
      have hsibs : ∀ d ∈ sibs.labels, d ≠ a → links' d = links d := fun d hd =>
        hsame d (mem_labels_cons.mpr (Or.inr (Or.inr hd)))
      rw [Forest.adopt]
      by_cases hca : c = a
      · subst hca
        rw [if_pos rfl]
        have hk : ∀ d ∈ kids.labels, links' d = links d := fun d hd =>
          hkids d hd fun hdc => hn.1 (List.mem_append_left _ (hdc ▸ hd))
        have hs : ∀ d ∈ sibs.labels, links' d = links d := fun d hd =>
          hsibs d hd fun hdc => hn.1 (List.mem_append_right _ (hdc ▸ hd))
        exact ⟨ha _ _ h.1, ⟨hnew, trivial, h.2.1.congr hk⟩, h.2.2.congr hs⟩
      · rw [if_neg hca]
        refine ⟨?_, ihk h.2.1 hn.2.1 hb.2.1 hkids, ihs h.2.2 hn.2.2.1 hb.2.2 hsibs⟩
        rw [hsame c List.mem_cons_self hca, h.1, roots_adopt]

end Forest
end IrC6
