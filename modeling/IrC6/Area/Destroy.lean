import IrC6.Base.Runs
import IrC6.Area.Ownership

/-!
# Destroying an area

`area_destroy` frees the areas of a subtree and their chunks.  The loop over the areas of an
area always has the first of those that are left, because each call takes its own out of the
list, and so it ends with an empty list.  A block that is freed twice would be a fault.
-/

namespace IrC6
namespace Area

open Forest

namespace Heap

/-- The chunks of an area. -/
def chunksOf (h : Heap) (a : Nat) : List Nat := ((h.areas a).map Node.list).getD []

/-- The heap without some areas and their chunks. -/
def prune (h : Heap) (as : List Nat) : Heap where
  areas a := if a ∈ as then none else h.areas a
  chunks cp := if ∃ a ∈ as, cp ∈ h.chunksOf a then none else h.chunks cp

end Heap

open Heap

variable {h : Heap} {a b rp : Nat} {node : Node}

theorem mem_chunksOf_iff {cp : Nat} :
    cp ∈ h.chunksOf a ↔ ∃ node, h.areas a = some node ∧ cp ∈ node.list := by
  unfold chunksOf
  cases h.areas a with
  | none => simp
  | some node => simp

theorem areas_prune_of_mem {as : List Nat} (ha : a ∈ as) : (h.prune as).areas a = none :=
  if_pos ha

theorem areas_prune_of_notMem {as : List Nat} (ha : a ∉ as) :
    (h.prune as).areas a = h.areas a :=
  if_neg ha

theorem areas_prune_cases {as : List Nat} (ha : (h.prune as).areas a = some node) :
    a ∉ as ∧ h.areas a = some node := by
  by_cases hin : a ∈ as
  · rw [areas_prune_of_mem hin] at ha
    cases ha
  · exact ⟨hin, (areas_prune_of_notMem hin).symm.trans ha⟩

theorem chunks_prune_of_mem {as : List Nat} {cp : Nat} (ha : a ∈ as) (hcp : cp ∈ h.chunksOf a) :
    (h.prune as).chunks cp = none :=
  if_pos ⟨a, ha, hcp⟩

theorem chunks_prune_of_notMem {as : List Nat} {cp : Nat} (hcp : ∀ a ∈ as, cp ∉ h.chunksOf a) :
    (h.prune as).chunks cp = h.chunks cp :=
  if_neg fun ⟨a, ha, hin⟩ => hcp a ha hin

theorem Filed.chunks_prune {as : List Nat} {cp : Nat} (hf : Filed h none) (ha : a ∉ as)
    (hnode : h.areas a = some node) (hcp : cp ∈ node.list) :
    (h.prune as).chunks cp = h.chunks cp := by
  refine chunks_prune_of_notMem fun b hb hin => ha ?_
  rcases mem_chunksOf_iff.mp hin with ⟨nb, hnb, hin⟩
  rw [hf.unique a b node nb hnode hnb cp hcp hin]
  exact hb

theorem Filed.prune (hf : Filed h none) (as : List Nat) : Filed (h.prune as) none := by
  constructor
  · intro a node ha
    exact hf.nodup a node (areas_prune_cases ha).2
  · intro a node ha cp hcp
    rcases areas_prune_cases ha with ⟨hin, ha⟩
    rw [hf.chunks_prune hin ha hcp]
    exact hf.live a node ha cp hcp
  · intro a node ha
    rcases areas_prune_cases ha with ⟨hin, ha⟩
    rw [hf.allocated a node ha]
    exact (sizes_congr fun cp hcp => hf.chunks_prune hin ha hcp).symm
  · intro cp hcp _
    have hnot : ∀ a ∈ as, cp ∉ h.chunksOf a := by
      intro a ha hin
      rw [chunks_prune_of_mem ha hin] at hcp
      exact absurd hcp (by simp)
    rw [chunks_prune_of_notMem hnot] at hcp
    rcases hf.owner cp hcp (by simp) with ⟨a, node, ha, hin⟩
    have has : a ∉ as := fun has => hnot a has (mem_chunksOf_iff.mpr ⟨node, ha, hin⟩)
    exact ⟨a, node, (areas_prune_of_notMem has).trans ha, hin⟩
  · intro a b na nb hna hnb
    exact hf.unique a b na nb (areas_prune_cases hna).2 (areas_prune_cases hnb).2

/-! ## The loops -/

theorem freeChunks_eq {list : List Nat} (hn : list.Nodup)
    (hlive : ∀ cp ∈ list, (h.chunks cp).isSome) :
    h.freeChunks list =
      .ok { h with chunks := fun cp => if cp ∈ list then none else h.chunks cp } := by
  induction list generalizing h with
  | nil => rfl
  | cons cp cps ih =>
      rw [List.nodup_cons] at hn
      rcases Option.isSome_iff_exists.mp (hlive cp List.mem_cons_self) with ⟨c, hc⟩
      have hne : ∀ q ∈ cps, q ≠ cp := fun q hq hqc => hn.1 (hqc ▸ hq)
      rw [freeChunks, chunk_eq hc]
      refine (ih (h := h.setChunk cp none) hn.2 fun q hq => ?_).trans ?_
      · rw [chunks_setChunk_of_ne (hne q hq)]
        exact hlive q (List.mem_cons_of_mem _ hq)
      · congr 2
        funext q
        by_cases hqc : q = cp
        · subst hqc
          rw [chunks_setChunk_self, if_pos List.mem_cons_self, ite_self]
        · rw [chunks_setChunk_of_ne hqc]
          simp only [List.mem_cons, hqc, false_or]

theorem slistNext_head (a : Nat) (as : List Nat) : slistNext (a :: as) a = as.head? := by
  rw [slistNext, if_pos rfl]

theorem slistRemove_eq (hrp : h.areas rp = some node) (hmem : a ∈ node.nodes) :
    h.slistRemove rp a = .ok (h.setArea rp (some { node with nodes := node.nodes.erase a })) := by
  rw [slistRemove, area_eq hrp]
  exact if_pos hmem

theorem slistRemove_setArea (x : Option Node) (hne : rp ≠ a) :
    (h.slistRemove rp a >>= fun h => .ok (h.setArea a x)) = (h.setArea a x).slistRemove rp a := by
  have harea : (h.setArea a x).area rp = h.area rp := by
    rw [Heap.area, Heap.area, areas_setArea_of_ne hne]
  rw [slistRemove, slistRemove, harea]
  cases h.area rp with
  | error e => rfl
  | ok node =>
      show (if a ∈ node.nodes then _ else _ : Except Fault Heap) >>= _ =
        if a ∈ node.nodes then _ else _
      by_cases hmem : a ∈ node.nodes
      · rw [if_pos hmem, if_pos hmem]
        refine congrArg Except.ok (Heap.ext ?_ rfl)
        exact Function.update_comm hne _ _ _
      · rw [if_neg hmem, if_neg hmem]
        rfl

/-- The area itself is the last to go, behind its chunks. -/
theorem prune_cons (ha : h.areas a = some node) (as : List Nat) (x : Option Node) :
    Heap.setArea
      { areas := ((h.prune as).setArea a x).areas
        chunks := fun cp => if cp ∈ node.list then none else (h.prune as).chunks cp } a none =
      h.prune (a :: as) := by
  have hchunks : h.chunksOf a = node.list := by
    rw [Heap.chunksOf, ha]
    rfl
  refine Heap.ext (funext fun b => ?_) (funext fun cp => ?_)
  · by_cases hba : b = a
    · subst hba
      rw [areas_setArea_self, areas_prune_of_mem List.mem_cons_self]
    · rw [areas_setArea_of_ne hba]
      show ((h.prune as).setArea a x).areas b = _
      rw [areas_setArea_of_ne hba]
      simp only [Heap.prune, List.mem_cons, hba, false_or]
  · show (if cp ∈ node.list then none else (h.prune as).chunks cp) = (h.prune (a :: as)).chunks cp
    simp only [Heap.prune, List.mem_cons, exists_eq_or_imp, hchunks]
    by_cases hcp : cp ∈ node.list
    · rw [if_pos hcp, if_pos (Or.inl hcp)]
    · rw [if_neg hcp]
      simp only [hcp, false_or]

/-- The call for an area, when the loop over its areas has done its work. -/
theorem areaDestroy_succ {depth : Nat} {as : List Nat} (hf : Filed h none)
    (ha : h.areas a = some node) (has : a ∉ as) (hparent : node.parent ≠ some a)
    (hloop : destroyNodes depth h a node.nodes.head? =
      .ok ((h.prune as).setArea a (some { node with nodes := [] }))) :
    areaDestroy (depth + 1) h a = (match node.parent with
      | some parent => (h.prune (a :: as)).slistRemove parent a
      | none => .ok (h.prune (a :: as))) := by
  have hlive : ∀ cp ∈ node.list,
      (((h.prune as).setArea a (some { node with nodes := [] })).chunks cp).isSome := by
    intro cp hcp
    show ((h.prune as).chunks cp).isSome
    rw [hf.chunks_prune has ha hcp]
    exact (hf.live a node ha cp hcp).1
  have hfree := freeChunks_eq (hf.nodup a node ha) hlive
  rw [areaDestroy, area_eq ha]
  show (destroyNodes depth h a node.nodes.head? >>= _) = _
  rw [hloop]
  show (Heap.area _ a >>= _) = _
  rw [area_eq (areas_setArea_self _)]
  show (Heap.freeChunks _ node.list >>= _) = _
  rw [hfree]
  cases hp : node.parent with
  | none => exact congrArg Except.ok (prune_cons ha as _)
  | some q =>
      have hne : q ≠ a := fun hqa => hparent (by rw [hp, hqa])
      refine (slistRemove_setArea none hne).trans ?_
      exact congrArg (fun h => Heap.slistRemove h q a) (prune_cons ha as _)

theorem chunksOf_prune {as : List Nat} (x : Option Node) (hb : b ≠ rp) (cp : Nat) :
    cp ∈ ((h.prune as).setArea rp x).chunksOf b ↔ b ∉ as ∧ cp ∈ h.chunksOf b := by
  have hareas : ((h.prune as).setArea rp x).chunksOf b = (h.prune as).chunksOf b := by
    rw [Heap.chunksOf, Heap.chunksOf, areas_setArea_of_ne hb]
  rw [hareas]
  by_cases hin : b ∈ as
  · rw [Heap.chunksOf, areas_prune_of_mem hin]
    simp [hin]
  · rw [Heap.chunksOf, areas_prune_of_notMem hin, Heap.chunksOf]
    simp only [hin, not_false_eq_true, true_and]

theorem prune_prune {as bs : List Nat} (hbs : rp ∉ bs) (x y : Option Node) :
    (((h.prune as).setArea rp x).prune bs).setArea rp y = (h.prune (as ++ bs)).setArea rp y := by
  refine Heap.ext (funext fun b => ?_) (funext fun cp => ?_)
  · by_cases hb : b = rp
    · rw [hb, areas_setArea_self, areas_setArea_self]
    · rw [areas_setArea_of_ne hb, areas_setArea_of_ne hb]
      by_cases hbb : b ∈ bs
      · rw [areas_prune_of_mem hbb, areas_prune_of_mem (List.mem_append_right as hbb)]
      · rw [areas_prune_of_notMem hbb, areas_setArea_of_ne hb]
        simp only [Heap.prune, List.mem_append, hbb, or_false]
  · show (if ∃ b ∈ bs, cp ∈ ((h.prune as).setArea rp x).chunksOf b then none
      else (h.prune as).chunks cp) = (h.prune (as ++ bs)).chunks cp
    by_cases has : ∃ a ∈ as, cp ∈ h.chunksOf a
    · rcases has with ⟨a, ha, hcp⟩
      rw [chunks_prune_of_mem ha hcp, ite_self,
        chunks_prune_of_mem (List.mem_append_left bs ha) hcp]
    · have hiff : (∃ b ∈ bs, cp ∈ ((h.prune as).setArea rp x).chunksOf b) ↔
          ∃ b ∈ as ++ bs, cp ∈ h.chunksOf b := by
        constructor
        · rintro ⟨b, hb, hcp⟩
          have hne : b ≠ rp := fun hbr => hbs (hbr ▸ hb)
          exact ⟨b, List.mem_append_right as hb, ((chunksOf_prune x hne cp).mp hcp).2⟩
        · rintro ⟨b, hb, hcp⟩
          have hnot : b ∉ as := fun hba => has ⟨b, hba, hcp⟩
          have hb' : b ∈ bs := (List.mem_append.mp hb).resolve_left hnot
          have hne : b ≠ rp := fun hbr => hbs (hbr ▸ hb')
          exact ⟨b, hb', (chunksOf_prune x hne cp).mpr ⟨hnot, hcp⟩⟩
      have hcp : (h.prune as).chunks cp = h.chunks cp := if_neg has
      rw [hcp]
      exact if_congr hiff rfl rfl

theorem exists_of_links {p : Option Nat} {nodes : List Nat} (hl : h.links a = some (p, nodes)) :
    ∃ node, h.areas a = some node ∧ node.parent = p ∧ node.nodes = nodes := by
  rcases Option.map_eq_some_iff.mp hl with ⟨node, ha, heq⟩
  cases heq
  exact ⟨node, ha, rfl, rfl⟩

theorem destroyNodes_none (depth : Nat) (h : Heap) (rp : Nat) :
    destroyNodes depth h rp none = .ok h := by
  cases depth with
  | zero => rw [destroyNodes]
  | succ depth => rw [destroyNodes]

/-- The loop over the areas of an area frees their subtrees. -/
theorem destroyNodes_eq {F : Forest Nat} {depth : Nat} (hdepth : F.depth ≤ depth)
    (hrp : h.areas rp = some node) (hnodes : node.nodes = F.roots)
    (hF : F.Linked h.links (some rp)) (hn : F.labels.Nodup) (hnot : rp ∉ F.labels)
    (hf : Filed h none) :
    destroyNodes depth h rp F.roots.head? =
      .ok ((h.prune F.labels).setArea rp (some { node with nodes := [] })) := by
  induction F generalizing h rp node depth with
  | nil =>
      rw [roots] at hnodes
      rw [roots, List.head?_nil, destroyNodes_none]
      refine congrArg Except.ok (Heap.ext (funext fun b => ?_) (funext fun cp => ?_))
      · by_cases hb : b = rp
        · rw [hb, areas_setArea_self, hrp, ← hnodes]
        · rw [areas_setArea_of_ne hb]
          exact (areas_prune_of_notMem List.not_mem_nil).symm
      · exact (chunks_prune_of_notMem fun a ha => absurd ha List.not_mem_nil).symm
  | cons a kids sibs ihk ihs =>
      rw [Forest.depth] at hdepth
      rcases Nat.exists_eq_add_of_le hdepth with ⟨d, rfl⟩
      have hd : kids.depth + sibs.depth + 2 + d = (kids.depth + sibs.depth + d) + 1 + 1 := by omega
      rw [labels, List.nodup_cons, List.mem_append, not_or, List.nodup_append] at hn
      rcases hn with ⟨⟨hak, has⟩, hnk, hns, hdisj⟩
      rw [mem_labels_cons, not_or, not_or] at hnot
      rcases hnot with ⟨hra, hrk, hrs⟩
      rcases exists_of_links hF.1 with ⟨anode, ha, hparent, hanodes⟩
      -- the first area: its own areas, its chunks, and out of the list
      have hkids : kids.depth ≤ kids.depth + sibs.depth + d := by omega
      have hsibs : sibs.depth ≤ kids.depth + sibs.depth + d + 1 := by omega
      have hloop := ihk hkids ha hanodes hF.2.1 hnk hak hf
      rw [← hanodes] at hloop
      have hself : anode.parent ≠ some a := by
        rw [hparent]
        exact fun heq => hra (Option.some.inj heq)
      have hcall := areaDestroy_succ hf ha hak hself hloop
      have hrp₁ : (h.prune (a :: kids.labels)).areas rp = some node := by
        rw [areas_prune_of_notMem (by simp [hra, hrk]), hrp]
      have hmem : a ∈ node.nodes := by
        rw [hnodes]
        exact List.mem_cons_self
      simp only [hparent] at hcall
      rw [slistRemove_eq hrp₁ hmem] at hcall
      -- the areas behind it
      have herase : node.nodes.erase a = sibs.roots := by
        rw [hnodes, roots, List.erase_cons_head]
      have hnext : slistNext node.nodes a = sibs.roots.head? := by
        rw [hnodes, roots, slistNext_head]
      have hlinked : sibs.Linked ((h.prune (a :: kids.labels)).setArea rp
          (some { node with nodes := node.nodes.erase a })).links (some rp) := by
        refine hF.2.2.congr fun b hb => ?_
        have hbr : b ≠ rp := fun hbr => hrs (hbr ▸ hb)
        have hba : b ∉ a :: kids.labels := by
          rw [List.mem_cons, not_or]
          exact ⟨fun hba => has (hba ▸ hb), fun hbk => hdisj b hbk b hb rfl⟩
        rw [Heap.links, areas_setArea_of_ne hbr, areas_prune_of_notMem hba, Heap.links]
      have hrest := ihs hsibs (areas_setArea_self _) herase hlinked hns hrs
        ((hf.prune _).setNodes hrp₁ _)
      rw [prune_prune hrs] at hrest
      rw [hd, roots, List.head?_cons, destroyNodes, area_eq hrp]
      show (areaDestroy (kids.depth + sibs.depth + d + 1) h a >>= fun h =>
        destroyNodes (kids.depth + sibs.depth + d + 1) h rp (slistNext node.nodes a)) = _
      rw [hcall, hnext]
      exact hrest

/-! ## The call -/

/-- What `area_destroy` of an area leaves.  The areas of the subtree and their chunks are
gone, the parent does not have the area any more, and all the rest is as it was. -/
structure Destroyed (h : Heap) (a : Nat) (h' : Heap) : Prop where
  areas : ∀ b, Below h.links a b → (h.areas b).isSome ∧ h'.areas b = none
  chunks : ∀ b cp, Below h.links a b → cp ∈ h.chunksOf b →
    (h.chunks cp).isSome ∧ h'.chunks cp = none
  parent : ∀ node q, h.areas a = some node → node.parent = some q →
    ¬Below h.links a q ∧ ∃ qnode, h.areas q = some qnode ∧ a ∈ qnode.nodes ∧
      h'.areas q = some { qnode with nodes := qnode.nodes.erase a } ∧ a ∉ qnode.nodes.erase a
  others : ∀ b, ¬Below h.links a b → (∀ node, h.areas a = some node → node.parent ≠ some b) →
    h'.areas b = h.areas b
  kept : ∀ cp, (∀ b, Below h.links a b → cp ∉ h.chunksOf b) → h'.chunks cp = h.chunks cp

/-- More depth changes nothing but that the recursion comes to its end. -/
theorem depth_succ (depth : Nat) :
    (∀ h a, areaDestroy depth h a = .error .depth ∨
      areaDestroy (depth + 1) h a = areaDestroy depth h a) ∧
    ∀ h rp ap, destroyNodes depth h rp ap = .error .depth ∨
      destroyNodes (depth + 1) h rp ap = destroyNodes depth h rp ap := by
  induction depth with
  | zero =>
      refine ⟨fun h a => Or.inl (by rw [areaDestroy]), fun h rp ap => ?_⟩
      cases ap with
      | none => exact Or.inr (by rw [destroyNodes_none, destroyNodes_none])
      | some ap => exact Or.inl (by rw [destroyNodes])
  | succ depth ih =>
      constructor
      · intro h a
        rw [areaDestroy, areaDestroy]
        cases h.area a with
        | error e => exact Or.inr rfl
        | ok node =>
            rcases ih.2 h a node.nodes.head? with hd | hd
            · refine Or.inl ?_
              show (destroyNodes depth h a node.nodes.head? >>= _) = _
              rw [hd]
              rfl
            · refine Or.inr ?_
              show (destroyNodes (depth + 1) h a node.nodes.head? >>= _) =
                destroyNodes depth h a node.nodes.head? >>= _
              rw [hd]
      · intro h rp ap
        cases ap with
        | none => exact Or.inr (by rw [destroyNodes_none, destroyNodes_none])
        | some ap =>
            rw [destroyNodes, destroyNodes]
            cases h.area rp with
            | error e => exact Or.inr rfl
            | ok node =>
                show (areaDestroy depth h ap >>= _) = _ ∨
                  (areaDestroy (depth + 1) h ap >>= _) = areaDestroy depth h ap >>= _
                rcases ih.1 h ap with hd | hd
                · exact Or.inl (by rw [hd]; rfl)
                · rw [hd]
                  cases areaDestroy depth h ap with
                  | error e => exact Or.inr rfl
                  | ok h₁ => exact ih.2 h₁ rp (slistNext node.nodes ap)

theorem areaDestroy_depth {depth depth' : Nat} (hle : depth ≤ depth') (h : Heap) (a : Nat) :
    areaDestroy depth h a = .error .depth ∨ areaDestroy depth' h a = areaDestroy depth h a := by
  induction hle with
  | refl => exact Or.inr rfl
  | @step d _ ih =>
      rcases ih with herr | heq
      · exact Or.inl herr
      · rcases (depth_succ d).1 h a with herr | hsucc
        · exact Or.inl (heq.symm.trans herr)
        · exact Or.inr (hsucc.trans heq)

/-- An area with its subtree in the tree, of which `kids` are the areas below. -/
structure Placed (h : Heap) (F kids : Forest Nat) (p : Option Nat) (a : Nat) : Prop where
  linked : F.Linked h.links none
  nodup : F.labels.Nodup
  live : ∀ b, (h.areas b).isSome → b ∈ F.labels
  has : Has a kids F
  links : h.links a = some (p, kids.roots)
  below : kids.Linked h.links (some a)
  parent : ∀ q, p = some q → q ∈ F.labels ∧ q ∉ a :: kids.labels ∧
    ∃ qnode, h.areas q = some qnode ∧ a ∈ qnode.nodes

/-- The heap without the subtree. -/
structure Cut (h : Heap) (kids : Forest Nat) (p : Option Nat) (a : Nat) (h' : Heap) : Prop where
  areas : ∀ b ∈ a :: kids.labels, h'.areas b = none
  chunks : h'.chunks = (h.prune (a :: kids.labels)).chunks
  parent : ∀ q qnode, p = some q → h.areas q = some qnode →
    h'.areas q = some { qnode with nodes := qnode.nodes.erase a }
  others : ∀ b, b ∉ a :: kids.labels → p ≠ some b → h'.areas b = h.areas b

section Cut

variable {h' : Heap} {F kids : Forest Nat} {p : Option Nat}

theorem Owned.placed (ho : Owned h) (ha : (h.areas a).isSome) :
    ∃ F kids p, Placed h F kids p a := by
  rcases ho.tree with ⟨F, hF, hn, hlive⟩
  rcases exists_has (hlive a ha) with ⟨kids, hhas⟩
  rcases hF.has hhas hn with ⟨p, hlinks, hkids, hcase⟩
  refine ⟨F, kids, p, hF, hn, hlive, hhas, hlinks, hkids, ?_⟩
  rintro q rfl
  rcases hcase with ⟨hp, -⟩ | ⟨q', p', nodes, hp, hqF, hqk, hql, haq⟩
  · cases hp
  · cases hp
    rcases exists_of_links hql with ⟨qnode, hqa, -, rfl⟩
    exact ⟨hqF, hqk, qnode, hqa, haq⟩

theorem Placed.areaDestroy (hp : Placed h F kids p a) (hf : Filed h none) :
    ∃ h', Cut h kids p a h' ∧ Filed h' none ∧
      ∀ depth, kids.depth ≤ depth → Heap.areaDestroy (depth + 1) h a = .ok h' := by
  rcases exists_of_links hp.links with ⟨node, ha, hparent, hnodes⟩
  have hnk : (a :: kids.labels).Nodup := hp.nodup.sublist hp.has.sublist
  rw [List.nodup_cons] at hnk
  have hself : node.parent ≠ some a := by
    intro heq
    exact (hp.parent a (hparent.symm.trans heq)).2.1 List.mem_cons_self
  have hcall := fun depth (hdepth : kids.depth ≤ depth) =>
    areaDestroy_succ hf ha hnk.1 hself
      (hnodes ▸ destroyNodes_eq hdepth ha hnodes hp.below hnk.2 hnk.1 hf)
  cases p with
  | none =>
      refine ⟨h.prune (a :: kids.labels), ⟨fun b hb => areas_prune_of_mem hb, rfl, by simp,
        fun b hb _ => areas_prune_of_notMem hb⟩, hf.prune _, fun depth hdepth => ?_⟩
      rw [hcall depth hdepth, hparent]
  | some q =>
      rcases hp.parent q rfl with ⟨-, hqk, qnode, hqa, haq⟩
      have hq₁ : (h.prune (a :: kids.labels)).areas q = some qnode := by
        rw [areas_prune_of_notMem hqk, hqa]
      refine ⟨(h.prune (a :: kids.labels)).setArea q
        (some { qnode with nodes := qnode.nodes.erase a }), ⟨fun b hb => ?_, rfl,
        fun q' qnode' hq' hqa' => ?_, fun b hb hbq => ?_⟩, (hf.prune _).setNodes hq₁ _,
        fun depth hdepth => ?_⟩
      · have hbq : b ≠ q := fun hbq => hqk (hbq ▸ hb)
        rw [areas_setArea_of_ne hbq, areas_prune_of_mem hb]
      · cases hq'
        cases hqa.symm.trans hqa'
        exact areas_setArea_self _
      · have hbq' : b ≠ q := fun hbq' => hbq (congrArg some hbq'.symm)
        rw [areas_setArea_of_ne hbq', areas_prune_of_notMem hb]
      · rw [hcall depth hdepth, hparent]
        exact slistRemove_eq hq₁ haq

/-- The tree without the subtree. -/
theorem Cut.rooted (hc : Cut h kids p a h') (hp : Placed h F kids p a) : Rooted h' := by
  refine ⟨F.remove a, hp.linked.remove (fun b hb p' nodes hb' => ?_) hp.nodup,
    hp.nodup.sublist (F.sublist_remove a), fun b hb => ?_⟩
  · rcases (mem_remove_iff hp.nodup hp.has b).mp hb with ⟨hbF, hbk⟩
    by_cases hpb : p = some b
    · rcases exists_of_links hb' with ⟨bnode, hba, rfl, rfl⟩
      rw [Heap.links, hc.parent b bnode hpb hba]
      rfl
    · have hnot : a ∉ nodes := by
        intro hin
        rcases hp.linked.node hbF with ⟨p'', nodes', hl, hkids⟩
        rw [hb'] at hl
        cases hl
        rcases (hkids a hin).2 with ⟨nodes', hla⟩
        rw [hp.links] at hla
        cases hla
        exact hpb rfl
      rw [List.erase_of_not_mem hnot, Heap.links, hc.others b hbk hpb]
      exact hb'
  · have hbk : b ∉ a :: kids.labels := by
      intro hin
      rw [hc.areas b hin] at hb
      exact absurd hb (by simp)
    refine (mem_remove_iff hp.nodup hp.has b).mpr ⟨?_, hbk⟩
    by_cases hpb : p = some b
    · exact (hp.parent b hpb).1
    · rw [hc.others b hbk hpb] at hb
      exact hp.live b hb

theorem Cut.destroyed (hc : Cut h kids p a h') (hp : Placed h F kids p a) (hf : Filed h none) :
    Destroyed h a h' := by
  have hbelow := Linked.below_iff hp.links hp.below
  have hnode : ∀ node, h.areas a = some node → node.parent = p := by
    intro node ha
    rcases exists_of_links hp.links with ⟨node', ha', hpar, -⟩
    rw [ha] at ha'
    cases ha'
    exact hpar
  constructor
  · intro b hb
    rw [hbelow] at hb
    refine ⟨?_, hc.areas b hb⟩
    have hsome := hp.linked.isSome (hp.has.sublist.subset hb)
    rwa [Heap.links, Option.isSome_map] at hsome
  · intro b cp hb hcp
    rw [hbelow] at hb
    rcases mem_chunksOf_iff.mp hcp with ⟨bnode, hba, hin⟩
    refine ⟨(hf.live b bnode hba cp hin).1, ?_⟩
    rw [hc.chunks]
    exact chunks_prune_of_mem hb hcp
  · intro node q ha hq
    have hpq : p = some q := (hnode node ha).symm.trans hq
    rcases hp.parent q hpq with ⟨hqF, hqk, qnode, hqa, haq⟩
    have hql : h.links q = some (qnode.parent, qnode.nodes) := by
      rw [Heap.links, hqa]
      rfl
    rw [hbelow]
    exact ⟨hqk, qnode, hqa, haq, hc.parent q qnode hpq hqa,
      (hp.linked.nodup hp.nodup hqF hql).not_mem_erase⟩
  · intro b hb hpar
    rw [hbelow] at hb
    rcases exists_of_links hp.links with ⟨node, ha, hparent, -⟩
    exact hc.others b hb (hparent ▸ hpar node ha)
  · intro cp hcp
    rw [hc.chunks]
    exact chunks_prune_of_notMem fun b hb => hcp b ((hbelow b).mpr hb)

end Cut

theorem Owned.areaDestroy (ho : Owned h) (ha : (h.areas a).isSome) :
    ∃ h', Destroyed h a h' ∧ Owned h' ∧
      ∃ depth, ∀ depth' ≥ depth, Heap.areaDestroy depth' h a = .ok h' := by
  rcases ho.placed ha with ⟨F, kids, p, hp⟩
  rcases hp.areaDestroy ho.filed with ⟨h', hcut, hfiled, hrun⟩
  refine ⟨h', hcut.destroyed hp ho.filed, ⟨hcut.rooted hp, hfiled⟩, kids.depth + 1,
    fun depth hdepth => ?_⟩
  rcases Nat.exists_eq_add_of_le' hdepth with ⟨d, rfl⟩
  exact hrun (d + kids.depth) (Nat.le_add_left _ _)

/-! ## Any heap -/

/-- No area comes back. -/
def Shrinks (h h' : Heap) : Prop := ∀ b, (h'.areas b).isSome → (h.areas b).isSome

theorem Shrinks.refl (h : Heap) : Shrinks h h := fun _ hb => hb

theorem Shrinks.trans {h₁ h₂ : Heap} (h01 : Shrinks h h₁) (h12 : Shrinks h₁ h₂) : Shrinks h h₂ :=
  fun b hb => h01 b (h12 b hb)

theorem shrinks_setArea_none (h : Heap) (a : Nat) : Shrinks h (h.setArea a none) := by
  intro b hb
  by_cases hba : b = a
  · rw [hba, areas_setArea_self] at hb
    nomatch hb
  · rwa [areas_setArea_of_ne hba] at hb

theorem isSome_of_area {rp : Nat} {node : Node} (hnode : h.area rp = .ok node) :
    (h.areas rp).isSome := by
  unfold Heap.area at hnode
  cases hrp : h.areas rp with
  | none =>
      rw [hrp] at hnode
      nomatch hnode
  | some _ => rfl

theorem isSome_of_areaNode {h' : Heap} {rp new b : Nat} (hrun : h.areaNode rp new = .ok h')
    (hb : (h'.areas b).isSome) (hne : b ≠ new) : (h.areas b).isSome := by
  obtain ⟨node, hnode, hrun⟩ := exists_of_bind_eq_ok hrun
  injection hrun with hrun
  rw [← hrun, areas_setArea_of_ne hne] at hb
  by_cases hbr : b = rp
  · exact hbr ▸ isSome_of_area hnode
  · rwa [areas_setArea_of_ne hbr] at hb

theorem shrinks_slistRemove {h' : Heap} {rp : Nat} (hrun : h.slistRemove rp a = .ok h') :
    Shrinks h h' := by
  obtain ⟨node, hnode, hrun⟩ := exists_of_bind_eq_ok hrun
  by_cases hmem : a ∈ node.nodes
  · rw [if_pos hmem] at hrun
    injection hrun with hrun
    intro b hb
    by_cases hbr : b = rp
    · exact hbr ▸ isSome_of_area hnode
    · rwa [← hrun, areas_setArea_of_ne hbr] at hb
  · rw [if_neg hmem] at hrun
    nomatch hrun

theorem areas_freeChunks {list : List Nat} {h' : Heap} (hrun : h.freeChunks list = .ok h') :
    h'.areas = h.areas := by
  induction list generalizing h with
  | nil =>
      injection hrun with hrun
      rw [hrun]
  | cons cp cps ih =>
      obtain ⟨-, -, hrun⟩ := exists_of_bind_eq_ok hrun
      exact ih (h := h.setChunk cp none) hrun

theorem shrinks_of_ok (depth : Nat) :
    (∀ h a h', areaDestroy depth h a = .ok h' → Shrinks h h' ∧ h'.areas a = none) ∧
    ∀ h rp ap h', destroyNodes depth h rp ap = .ok h' → Shrinks h h' := by
  induction depth with
  | zero =>
      refine ⟨fun h a h' hrun => ?_, fun h rp ap h' hrun => ?_⟩
      · rw [areaDestroy] at hrun
        nomatch hrun
      · cases ap with
        | none =>
            rw [destroyNodes_none] at hrun
            injection hrun with hrun
            exact hrun ▸ .refl h
        | some ap =>
            rw [destroyNodes] at hrun
            nomatch hrun
  | succ depth ih =>
      constructor
      · intro h a h' hrun
        rw [areaDestroy] at hrun
        obtain ⟨node, -, hrun⟩ := exists_of_bind_eq_ok hrun
        obtain ⟨h₁, hnodes, hrun⟩ := exists_of_bind_eq_ok hrun
        obtain ⟨node', -, hrun⟩ := exists_of_bind_eq_ok hrun
        obtain ⟨h₂, hchunks, hrun⟩ := exists_of_bind_eq_ok hrun
        obtain ⟨h₃, hremove, hrun⟩ := exists_of_bind_eq_ok hrun
        have h02 : Shrinks h h₂ := by
          intro b hb
          rw [areas_freeChunks hchunks] at hb
          exact ih.2 _ _ _ _ hnodes b hb
        have h23 : Shrinks h₂ h₃ := by
          rcases hparent : node'.parent with _ | parent
          · rw [hparent] at hremove
            injection hremove with hremove
            exact hremove ▸ .refl h₂
          · rw [hparent] at hremove
            exact shrinks_slistRemove hremove
        injection hrun with hrun
        subst hrun
        exact ⟨(h02.trans h23).trans (shrinks_setArea_none h₃ a), areas_setArea_self _⟩
      · intro h rp ap h' hrun
        cases ap with
        | none =>
            rw [destroyNodes_none] at hrun
            injection hrun with hrun
            exact hrun ▸ .refl h
        | some ap =>
            rw [destroyNodes] at hrun
            obtain ⟨node, -, hrun⟩ := exists_of_bind_eq_ok hrun
            obtain ⟨h₁, hfirst, hrun⟩ := exists_of_bind_eq_ok hrun
            exact (ih.1 _ _ _ hfirst).1.trans (ih.2 _ _ _ _ hrun)

/-! ## Runs -/

/-- The calls.  A call that needs a block comes with its address and with the bytes it has,
and one that goes down the tree with how far it may go. -/
inductive Op where
  | node (rp new : Nat)
  | malloc (ap new : Nat) (size : UInt64) (junk : Nat → UInt8)
  | calloc (ap new : Nat) (nmemb size : UInt64)
  | resize (ap : Nat) (ptr : Option Nat) (new : Nat) (kind : Resize) (size : UInt64)
      (junk : Nat → UInt8)
  | free (ap : Nat) (ptr : Option Nat)
  | relink (op np ptr : Nat)
  | destroy (a depth : Nat)

def Op.call (h : Heap) : Op → Except Fault Heap
  | .node rp new => h.areaNode rp new
  | .malloc ap new size junk => h.malloc ap new size junk
  | .calloc ap new nmemb size => h.calloc ap new nmemb size
  | .resize ap ptr new kind size junk => h.resize ap ptr new kind size junk
  | .free ap ptr => h.free ap ptr
  | .relink op np ptr => h.areaRelink op np ptr
  | .destroy a depth => Heap.areaDestroy depth h a

def Op.run (h : Heap) (o : Op) : Except Fault (Heap × Unit) :=
  (o.call h).map fun h => (h, ())

/-- The call names live areas, and for a chunk the area that has it.  A new block is not
where another one is, but a chunk that moves may stay. -/
def Op.Allowed (h : Heap) : Op → Prop
  | .node rp new => (h.areas rp).isSome ∧ h.areas new = none
  | .malloc ap new _ _ | .calloc ap new _ _ => (h.areas ap).isSome ∧ h.chunks new = none
  | .resize ap none new _ _ _ => (h.areas ap).isSome ∧ h.chunks new = none
  | .resize ap (some cp) new _ _ _ => cp ∈ h.chunksOf ap ∧ (new = cp ∨ h.chunks new = none)
  | .free ap none => (h.areas ap).isSome
  | .free ap (some cp) => cp ∈ h.chunksOf ap
  | .relink op np ptr => ptr ∈ h.chunksOf op ∧ (h.areas np).isSome
  | .destroy a _ => (h.areas a).isSome

/-- A call keeps areas and chunks in order.  It fails only when a block would be longer than
`size_t` says, or when it may not go down far enough. -/
theorem Op.call_owned {o : Op} (ho : Owned h) (hok : o.Allowed h) :
    (∃ h', o.call h = .ok h' ∧ Owned h') ∨ o.call h = .error .outside ∨
      o.call h = .error .depth := by
  have hyields : Yields .outside Owned (o.call h) → (∃ h', o.call h = .ok h' ∧ Owned h') ∨
      o.call h = .error .outside ∨ o.call h = .error .depth := by
    intro hy
    cases hcall : o.call h with
    | ok h' => exact Or.inl ⟨h', rfl, hy.of_eq_ok hcall⟩
    | error e =>
        rw [hcall] at hy
        exact Or.inr (Or.inl (congrArg Except.error hy))
  cases o with
  | node rp new => exact hyields (ho.areaNode hok.1 hok.2)
  | malloc ap new size junk => exact hyields (ho.malloc hok.1 hok.2 size junk)
  | calloc ap new nmemb size => exact hyields (ho.calloc hok.1 hok.2 nmemb size)
  | resize ap ptr new kind size junk =>
      cases ptr with
      | none => exact hyields (ho.resizeNull hok.1 hok.2 kind size junk)
      | some cp =>
          rcases mem_chunksOf_iff.mp hok.1 with ⟨node, ha, hin⟩
          exact hyields (ho.resize ha hin hok.2 kind size junk)
  | free ap ptr =>
      cases ptr with
      | none => exact hyields ho
      | some cp =>
          rcases mem_chunksOf_iff.mp hok with ⟨node, ha, hin⟩
          exact hyields (ho.free ha hin)
  | relink op np ptr =>
      rcases mem_chunksOf_iff.mp hok.1 with ⟨node, ha, hin⟩
      exact hyields (ho.areaRelink ha hin hok.2)
  | destroy a depth =>
      rcases ho.areaDestroy hok with ⟨h', -, ho', d, hrun⟩
      rcases areaDestroy_depth (Nat.le_max_left depth d) h a with herr | heq
      · exact Or.inr (Or.inr herr)
      · exact Or.inl ⟨h', heq.symm.trans (hrun _ (Nat.le_max_right depth d)), ho'⟩

theorem owned_of_reaches {root : Nat} (hr : Reaches Op.run Op.Allowed (areaRoot root) h) :
    Owned h := by
  refine hr.invariant (owned_areaRoot root) fun h h' o _ ho hok hrun => ?_
  rcases Op.call_owned ho hok with ⟨h₁, hcall, ho₁⟩ | herr | herr
  · rw [Op.run, hcall] at hrun
    cases hrun
    exact ho₁
  · rw [Op.run, herr] at hrun
    cases hrun
  · rw [Op.run, herr] at hrun
    cases hrun

/-- Whatever calls have been made, a chunk is in the list of one area and there once, an
area knows what its chunks have recorded, and an area that is destroyed takes its subtree
with it and nothing else. -/
theorem area_ownership {root : Nat} (hr : Reaches Op.run Op.Allowed (areaRoot root) h) :
    (∀ cp, (h.chunks cp).isSome → ∃! a, cp ∈ h.chunksOf a) ∧
    (∀ a node, h.areas a = some node →
      node.list.Nodup ∧ (∀ cp ∈ node.list, (h.chunks cp).isSome) ∧
        node.allocated = sizes h.chunks node.list) ∧
    ∀ a, (h.areas a).isSome → ∃ h', Destroyed h a h' ∧
      ∃ depth, ∀ depth' ≥ depth, Heap.areaDestroy depth' h a = .ok h' := by
  have ho := owned_of_reaches hr
  refine ⟨fun cp hcp => ?_, fun a node ha => ⟨ho.filed.nodup a node ha, fun cp hcp => ?_,
    ho.filed.allocated a node ha⟩, fun a ha => ?_⟩
  · rcases ho.filed.owner cp hcp (by simp) with ⟨a, node, ha, hin⟩
    refine ⟨a, mem_chunksOf_iff.mpr ⟨node, ha, hin⟩, fun b hb => ?_⟩
    rcases mem_chunksOf_iff.mp hb with ⟨bnode, hba, hin'⟩
    exact ho.filed.unique b a bnode node hba ha cp hin' hin
  · exact (ho.filed.live a node ha cp hcp).1
  · rcases ho.areaDestroy ha with ⟨h', hdestroyed, -, hrun⟩
    exact ⟨h', hdestroyed, hrun⟩

theorem area_ownership_relinked :
    ∃ h₁ h₂ h₃, (areaRoot 0).areaNode 0 1 = .ok h₁ ∧ h₁.malloc 1 7 5 (fun _ => 0) = .ok h₂ ∧
      h₂.areaRelink 1 0 7 = .ok h₃ ∧ (∃! a, 7 ∈ h₃.chunksOf a) ∧ ∃ h', Destroyed h₃ 1 h' := by
  refine ⟨_, _, _, rfl, rfl, rfl, ?_⟩
  have hroot : Reaches Op.run Op.Allowed (areaRoot 0) (areaRoot 0) := .start
  have hnode := Reaches.step (Op.node 0 1) hroot ⟨rfl, rfl⟩ rfl
  have hmalloc := Reaches.step (Op.malloc 1 7 5 fun _ => 0) hnode ⟨rfl, rfl⟩ rfl
  have hr := area_ownership (Reaches.step (Op.relink 1 0 7) hmalloc ⟨by decide, rfl⟩ rfl)
  rcases hr.2.2 1 rfl with ⟨h', hdestroyed, -⟩
  exact ⟨hr.1 7 rfl, h', hdestroyed⟩

end Area
end IrC6
