import IrC6.Area.Destroy

/-!
# The areas below one

Calls that name areas below one area, and do not destroy that one, leave all the other areas
and their chunks as they are.  Whatever such calls make is below it too.
-/

namespace IrC6
namespace Area

open Heap Forest

variable {h h' h'' : Heap} {a b c top : Nat}

/-! ## Up the tree -/

/-- An area in the list of another has it as its parent. -/
theorem Owned.parent_of_mem (ho : Owned h) {p : Option Nat} {nodes : List Nat}
    (hb : h.links b = some (p, nodes)) (hc : c ∈ nodes) :
    ∃ nodes', h.links c = some (some b, nodes') := by
  rcases ho.tree with ⟨F, hF, -, hlive⟩
  have hbF : b ∈ F.labels := by
    refine hlive b ?_
    rw [← Option.isSome_map, ← Heap.links, hb]
    rfl
  rcases hF.node hbF with ⟨p', nodes', hb', hkids⟩
  rw [hb] at hb'
  cases hb'
  exact (hkids c hc).2

/-- The way from an area to one below it goes through the parent. -/
theorem Owned.below_up (ho : Owned h) (hb : Below h.links a b) (hne : b ≠ a) :
    ∃ q nodes, h.links b = some (some q, nodes) ∧ Below h.links a q := by
  cases hb with
  | refl => exact absurd rfl hne
  | @child b' c p nodes hb' hlinks hc =>
      rcases ho.parent_of_mem hlinks hc with ⟨nodes', hlinks'⟩
      exact ⟨b', nodes', hlinks', hb'⟩

/-- Areas of one parent have nothing below them in common. -/
theorem Owned.below_disjoint (ho : Owned h) {root : Nat} {nodes nodes' rootNodes : List Nat}
    (hroot : h.links root = some (none, rootNodes))
    (ha : h.links a = some (some root, nodes)) (hc : h.links c = some (some root, nodes'))
    (hne : a ≠ c) : Below h.links a b → ¬Below h.links c b := by
  -- the root is below none of its areas
  have htop : ∀ {x xs}, h.links x = some (some root, xs) → ¬Below h.links x root := by
    intro x xs hx hbelow
    have hxr : root ≠ x := by
      rintro rfl
      rw [hroot] at hx
      cases hx
    rcases ho.below_up hbelow hxr with ⟨q, ns, hlinks, -⟩
    rw [hroot] at hlinks
    cases hlinks
  intro hab hcb
  induction hab with
  | refl =>
      rcases ho.below_up hcb hne with ⟨q, ns, hlinks, hq⟩
      rw [ha] at hlinks
      cases hlinks
      exact htop hc hq
  | @child b' d p ns hab' hlinks hd ih =>
      rcases ho.parent_of_mem hlinks hd with ⟨ds, hdlinks⟩
      by_cases hdc : d = c
      · subst hdc
        rw [hc] at hdlinks
        cases hdlinks
        exact htop ha hab'
      · rcases ho.below_up hcb hdc with ⟨q, ns', hlinks', hq⟩
        rw [hdlinks] at hlinks'
        cases hlinks'
        exact ih hq

theorem isSome_links : (h.links a).isSome ↔ (h.areas a).isSome := by
  rw [Heap.links, Option.isSome_map]

theorem links_congr (ha : h'.areas a = h.areas a) : h'.links a = h.links a := by
  rw [Heap.links, Heap.links, ha]

theorem chunksOf_congr (ha : h'.areas a = h.areas a) : h'.chunksOf a = h.chunksOf a := by
  rw [Heap.chunksOf, Heap.chunksOf, ha]

theorem Owned.isSome_below (ho : Owned h) (ha : (h.areas a).isSome) (hb : Below h.links a b) :
    (h.areas b).isSome := by
  cases hb with
  | refl => exact ha
  | child _ hlinks hc =>
      rcases ho.parent_of_mem hlinks hc with ⟨nodes', hlinks'⟩
      rw [← isSome_links, hlinks']
      rfl

/-! ## Calls below an area -/

/-- What calls below `top` leave: the other areas and their chunks as they were, `top` where
it was, and nothing that is new anywhere else. -/
structure Inside (h : Heap) (top : Nat) (h' : Heap) : Prop where
  owned : Owned h'
  areas : ∀ b, (h.areas b).isSome → ¬Below h.links top b → h'.areas b = h.areas b
  chunks : ∀ cp, (h.chunks cp).isSome → (∀ b, Below h.links top b → cp ∉ h.chunksOf b) →
    h'.chunks cp = h.chunks cp
  parent : ∀ p nodes, h.links top = some (p, nodes) → ∃ nodes', h'.links top = some (p, nodes')
  live : ∀ b, (h'.areas b).isSome → Below h'.links top b ∨
    (h.areas b).isSome ∧ ¬Below h.links top b

theorem Inside.refl (ho : Owned h) (top : Nat) : Inside h top h where
  owned := ho
  areas := fun _ _ _ => rfl
  chunks := fun _ _ _ => rfl
  parent := fun _ nodes hlinks => ⟨nodes, hlinks⟩
  live := fun b hb => (em (Below h.links top b)).imp_right fun hnot => ⟨hb, hnot⟩

/-- What was outside stays outside. -/
theorem Inside.outside (hi : Inside h top h') (ho : Owned h) (hb : (h.areas b).isSome)
    (hnot : ¬Below h.links top b) : ¬Below h'.links top b := by
  intro hbelow
  induction hbelow with
  | refl => exact hnot .refl
  | @child b' d p nodes _ hlinks hd ih =>
      rcases hi.owned.parent_of_mem hlinks hd with ⟨ds, hdlinks⟩
      rw [links_congr (hi.areas d hb hnot)] at hdlinks
      -- the parent of an area outside is outside
      rcases ho.tree with ⟨F, hF, hn, hlive⟩
      rcases exists_has (hlive d hb) with ⟨kids, hhas⟩
      rcases hF.has hhas hn with ⟨p', hdlinks', -, ⟨rfl, -⟩ | ⟨q, p'', ns, rfl, hqF, -, hq, hdq⟩⟩
      · rw [hdlinks] at hdlinks'
        cases hdlinks'
      · rw [hdlinks] at hdlinks'
        cases hdlinks'
        exact ih (isSome_links.mp (by rw [hq]; rfl)) fun hb' => hnot (hb'.child hq hdq)

/-- The way to an area outside stays as it was. -/
theorem Inside.below_outside (hi : Inside h top h') (hcb : Below h.links c b)
    (hnot : ¬Below h.links top b) : Below h'.links c b := by
  induction hcb with
  | refl => exact .refl
  | @child b' d p ns _ hlinks hd ih =>
      have hb' : ¬Below h.links top b' := fun hb' => hnot (hb'.child hlinks hd)
      have hsome : (h.areas b').isSome := isSome_links.mp (by rw [hlinks]; rfl)
      exact (ih hb').child ((links_congr (hi.areas b' hsome hb')).trans hlinks) hd

/-- A chunk of an area outside is not in the list of an area below. -/
theorem Inside.not_mem (hi : Inside h top h') (ho : Owned h) {cp : Nat}
    (hcp : (h.chunks cp).isSome) (hnot : ∀ b, Below h.links top b → cp ∉ h.chunksOf b) :
    ∀ b, Below h'.links top b → cp ∉ h'.chunksOf b := by
  intro b hb hin
  rcases ho.filed.owner cp hcp (by simp) with ⟨a, node, ha, hina⟩
  have hsome : (h.areas a).isSome := by rw [ha]; rfl
  have haout : ¬Below h.links top a := fun hbelow =>
    hnot a hbelow (mem_chunksOf_iff.mpr ⟨node, ha, hina⟩)
  have ha' : h'.areas a = some node := (hi.areas a hsome haout).trans ha
  rcases mem_chunksOf_iff.mp hin with ⟨bnode, hb', hinb⟩
  obtain rfl := hi.owned.filed.unique a b node bnode ha' hb' cp hina hinb
  exact hi.outside ho hsome haout hb

theorem Inside.trans (hi : Inside h top h') (hi' : Inside h' top h'') (ho : Owned h) :
    Inside h top h'' where
  owned := hi'.owned
  areas := fun b hb hnot => by
    have hsame := hi.areas b hb hnot
    exact (hi'.areas b (by rwa [hsame]) (hi.outside ho hb hnot)).trans hsame
  chunks := fun cp hcp hnot => by
    have hsame := hi.chunks cp hcp hnot
    exact (hi'.chunks cp (by rwa [hsame]) (hi.not_mem ho hcp hnot)).trans hsame
  parent := fun p nodes hlinks => by
    rcases hi.parent p nodes hlinks with ⟨nodes', hlinks'⟩
    exact hi'.parent p nodes' hlinks'
  live := fun b hb => by
    rcases hi'.live b hb with hbelow | ⟨hb', hnot⟩
    · exact Or.inl hbelow
    · rcases hi.live b hb' with hbelow | hout
      · exact absurd hbelow hnot
      · exact Or.inr hout

/-! ## Calls on chunks -/

/-- What a call on chunks leaves: the tree, all but some areas, and all but some chunks, which
stay in their lists. -/
structure Touches (h : Heap) (as cps : List Nat) (h' : Heap) : Prop where
  links : h'.links = h.links
  areas : ∀ b, b ∉ as → h'.areas b = h.areas b
  chunks : ∀ q, q ∉ cps → h'.chunks q = h.chunks q
  lists : ∀ b q, q ∉ cps → q ∈ h.chunksOf b → q ∈ h'.chunksOf b

theorem Touches.trans {as bs cps dps : List Nat} (ht : Touches h as cps h')
    (ht' : Touches h' bs dps h'') : Touches h (as ++ bs) (cps ++ dps) h'' where
  links := ht'.links.trans ht.links
  areas := fun b hb => by
    rw [List.mem_append, not_or] at hb
    exact (ht'.areas b hb.2).trans (ht.areas b hb.1)
  chunks := fun q hq => by
    rw [List.mem_append, not_or] at hq
    exact (ht'.chunks q hq.2).trans (ht.chunks q hq.1)
  lists := fun b q hq hin => by
    rw [List.mem_append, not_or] at hq
    exact ht'.lists b q hq.2 (ht.lists b q hq.1 hin)

theorem Touches.mono {as bs cps dps : List Nat} (ht : Touches h as cps h') (has : as ⊆ bs)
    (hcps : cps ⊆ dps) : Touches h bs dps h' where
  links := ht.links
  areas := fun b hb => ht.areas b fun hin => hb (has hin)
  chunks := fun q hq => ht.chunks q fun hin => hq (hcps hin)
  lists := fun b q hq => ht.lists b q fun hin => hq (hcps hin)

theorem touches_refl (h : Heap) : Touches h [] [] h :=
  ⟨rfl, fun _ _ => rfl, fun _ _ => rfl, fun _ _ _ hin => hin⟩

theorem touches_setChunk (h : Heap) (cp : Nat) (x : Option Chunk) :
    Touches h [] [cp] (h.setChunk cp x) :=
  ⟨rfl, fun _ _ => rfl, fun _ hq => chunks_setChunk_of_ne (List.ne_of_not_mem_cons hq) x,
    fun _ _ _ hin => hin⟩

theorem area_eq_ok {ap : Nat} {node : Node} (ha : h.area ap = .ok node) :
    h.areas ap = some node := by
  unfold Heap.area at ha
  cases hap : h.areas ap with
  | none =>
      rw [hap] at ha
      cases ha
  | some node' =>
      rw [hap] at ha
      exact congrArg some (Except.ok.inj ha)

theorem touches_setArea {ap : Nat} {node node' : Node} {cps : List Nat}
    (ha : h.areas ap = some node) (hparent : node'.parent = node.parent)
    (hnodes : node'.nodes = node.nodes) (hlist : ∀ q, q ∉ cps → q ∈ node.list → q ∈ node'.list) :
    Touches h [ap] cps (h.setArea ap (some node')) where
  links := links_setArea ha hparent hnodes
  areas := fun _ hb => areas_setArea_of_ne (List.ne_of_not_mem_cons hb) _
  chunks := fun _ _ => rfl
  lists := fun b q hq hin => by
    by_cases hb : b = ap
    · subst hb
      rcases mem_chunksOf_iff.mp hin with ⟨bnode, hbnode, hin⟩
      rw [ha] at hbnode
      cases hbnode
      exact mem_chunksOf_iff.mpr ⟨node', areas_setArea_self _, hlist q hq hin⟩
    · rwa [chunksOf_congr (areas_setArea_of_ne hb _)]

theorem touches_addChunk {ap cp : Nat} {x : Chunk} (hrun : h.addChunk ap cp x = .ok h') :
    Touches h [ap] [cp] h' := by
  obtain ⟨node, hnode, hrun⟩ := exists_of_bind_eq_ok hrun
  cases hrun
  have hset : Touches (h.setChunk cp (some x)) [ap] [] ((h.setChunk cp (some x)).setArea ap
      (some { node with list := cp :: node.list, allocated := node.allocated + x.size })) :=
    touches_setArea (area_eq_ok hnode) rfl rfl fun _ _ => List.mem_cons_of_mem cp
  exact (touches_setChunk h cp (some x)).trans hset

theorem mem_chunksOf_addChunk {ap cp : Nat} {x : Chunk} (hrun : h.addChunk ap cp x = .ok h') :
    cp ∈ h'.chunksOf ap := by
  obtain ⟨node, -, hrun⟩ := exists_of_bind_eq_ok hrun
  cases hrun
  exact mem_chunksOf_iff.mpr ⟨_, areas_setArea_self _, List.mem_cons_self⟩

theorem touches_delChunk {ap cp : Nat} (hrun : h.delChunk ap cp = .ok h') :
    Touches h [ap] [cp] h' := by
  obtain ⟨node, hnode, hrun⟩ := exists_of_bind_eq_ok hrun
  obtain ⟨x, -, hrun⟩ := exists_of_bind_eq_ok hrun
  split at hrun
  · cases hrun
    exact touches_setArea (area_eq_ok hnode) rfl rfl fun q hq hin =>
      (List.mem_erase_of_ne (List.ne_of_not_mem_cons hq)).mpr hin
  · cases hrun

theorem touches_new {ap new : Nat} {r : Except Fault Chunk}
    (hrun : (do let x ← r; h.addChunk ap new x) = .ok h') : Touches h [ap] [new] h' := by
  obtain ⟨x, -, hrun⟩ := exists_of_bind_eq_ok hrun
  exact touches_addChunk hrun

theorem touches_resizeNull {ap new : Nat} {kind : Resize} {size : UInt64} {junk : Nat → UInt8}
    (hrun : h.resizeNull ap new kind size junk = .ok h') : Touches h [ap] [new] h' := by
  cases kind with
  | realloc => exact touches_new hrun
  | realloc0 => exact touches_new hrun
  | expand => exact touches_new hrun
  | expand0 => exact touches_new hrun

theorem touches_resize {ap cp new : Nat} {kind : Resize} {size : UInt64} {junk : Nat → UInt8}
    (hrun : h.resize ap (some cp) new kind size junk = .ok h') : Touches h [ap] [cp, new] h' := by
  obtain ⟨old, -, hrun⟩ := exists_of_bind_eq_ok hrun
  obtain ⟨ret, -, hrun⟩ := exists_of_bind_eq_ok hrun
  cases ret with
  | none =>
      cases hrun
      exact (touches_refl h).mono (List.nil_subset _) (List.nil_subset _)
  | some x =>
      obtain ⟨h₁, hdel, hrun⟩ := exists_of_bind_eq_ok hrun
      have hall := ((touches_delChunk hdel).trans (touches_setChunk h₁ cp none)).trans
        (touches_addChunk hrun)
      exact hall.mono (by simp) (by simp)

theorem touches_free {ap cp : Nat} (hrun : h.free ap (some cp) = .ok h') :
    Touches h [ap] [cp] h' := by
  obtain ⟨h₁, hdel, hrun⟩ := exists_of_bind_eq_ok hrun
  cases hrun
  exact ((touches_delChunk hdel).trans (touches_setChunk h₁ cp none)).mono (by simp) (by simp)

theorem touches_areaRelink {op np ptr : Nat} (hrun : h.areaRelink op np ptr = .ok h') :
    Touches h [op, np] [ptr] h' := by
  obtain ⟨h₁, hdel, hrun⟩ := exists_of_bind_eq_ok hrun
  obtain ⟨x, -, hrun⟩ := exists_of_bind_eq_ok hrun
  exact ((touches_delChunk hdel).trans (touches_addChunk hrun)).mono (by simp) (by simp)

/-- A call on chunks of areas below `top`. -/
theorem Touches.inside {as cps : List Nat} (ht : Touches h as cps h') (ho' : Owned h')
    (has : ∀ a ∈ as, Below h.links top a)
    (hcps : ∀ cp ∈ cps, h.chunks cp = none ∨ ∃ a ∈ as, cp ∈ h.chunksOf a) :
    Inside h top h' where
  owned := ho'
  areas := fun b _ hnot => ht.areas b fun hin => hnot (has b hin)
  chunks := fun cp hcp hnot => by
    refine ht.chunks cp fun hin => ?_
    rcases hcps cp hin with hnone | ⟨a, ha, hina⟩
    · rw [hnone] at hcp
      cases hcp
    · exact hnot a (has a ha) hina
  parent := fun p nodes hlinks => ⟨nodes, by rw [ht.links, hlinks]⟩
  live := fun b hb => by
    rw [ht.links]
    refine (em (Below h.links top b)).imp_right fun hnot => ⟨?_, hnot⟩
    rwa [← isSome_links, ← ht.links, isSome_links]

/-! ## Calls on areas -/

theorem links_areaRoot (root : Nat) : (areaRoot root).links root = some (none, []) := by
  simp only [Heap.links, Heap.areaRoot, Function.update_self]
  rfl

theorem areas_areaRoot_of_ne {root : Nat} (hb : b ≠ root) : (areaRoot root).areas b = none := by
  simp only [Heap.areaRoot, Function.update_of_ne hb]

theorem exists_areaNode {rp : Nat} (hr : (h.areas rp).isSome) (new : Nat) :
    ∃ h', h.areaNode rp new = .ok h' := by
  obtain ⟨node, hnode⟩ := Option.isSome_iff_exists.mp hr
  exact ⟨_, by rw [Heap.areaNode, area_eq hnode]; rfl⟩

theorem links_areaNode {rp new : Nat} (hrun : h.areaNode rp new = .ok h') :
    h'.links new = some (some rp, []) := by
  obtain ⟨node, -, hrun⟩ := exists_of_bind_eq_ok hrun
  cases hrun
  rw [Heap.links, areas_setArea_self]
  rfl

/-- A new area is put into the list of its parent, and nothing else is changed. -/
theorem areaNode_grows {rp new : Nat} (hnew : h.areas new = none)
    (hrun : h.areaNode rp new = .ok h') :
    (∀ a, a ≠ rp → a ≠ new → h'.areas a = h.areas a) ∧ h'.chunks = h.chunks ∧
    ∀ a p ns, h.links a = some (p, ns) → h'.chunksOf a = h.chunksOf a ∧
      ∃ ns', h'.links a = some (p, ns') ∧ ns ⊆ ns' ∧ (a = rp → ns' = new :: ns) := by
  obtain ⟨node, hnode, hrun⟩ := exists_of_bind_eq_ok hrun
  have hnode := area_eq_ok hnode
  have hh' := (Except.ok.inj hrun).symm
  refine ⟨fun a har han => ?_, by rw [hh']; rfl, fun a p ns ha => ?_⟩
  · rw [hh', areas_setArea_of_ne han, areas_setArea_of_ne har]
  · have han : a ≠ new := by
      rintro rfl
      rw [Heap.links, hnew] at ha
      cases ha
    by_cases har : a = rp
    · subst har
      rw [Heap.links, hnode] at ha
      cases ha
      have ha' : h'.areas a = some { node with nodes := new :: node.nodes } := by
        rw [hh', areas_setArea_of_ne han, areas_setArea_self]
      refine ⟨?_, new :: node.nodes, ?_, List.subset_cons_self _ _, fun _ => rfl⟩
      · rw [Heap.chunksOf, Heap.chunksOf, ha', hnode]
        rfl
      · rw [Heap.links, ha']
        rfl
    · have hsame : h'.areas a = h.areas a := by
        rw [hh', areas_setArea_of_ne han, areas_setArea_of_ne har]
      exact ⟨chunksOf_congr hsame, ns, (links_congr hsame).trans ha, List.Subset.refl _,
        fun har' => absurd har' har⟩

/-- A new area below `top`. -/
theorem Owned.inside_areaNode (ho : Owned h) {rp new : Nat} (hr : (h.areas rp).isSome)
    (hnew : h.areas new = none) (hrp : Below h.links top rp)
    (hrun : h.areaNode rp new = .ok h') : Inside h top h' := by
  have ho' : Owned h' := (ho.areaNode hr hnew).of_eq_ok hrun
  obtain ⟨hsame, hchunks, hgrow⟩ := areaNode_grows hnew hrun
  have hmono : ∀ b, Below h.links top b → Below h'.links top b := by
    intro b hb
    induction hb with
    | refl => exact .refl
    | @child b' d p ns _ hlinks hd ih =>
        obtain ⟨-, ns', hlinks', hsub, -⟩ := hgrow b' p ns hlinks
        exact ih.child hlinks' (hsub hd)
  refine ⟨ho', fun b hb hnot => ?_, fun cp _ _ => congrFun hchunks cp, fun p nodes hlinks => ?_,
    fun b hb => ?_⟩
  · refine hsame b (fun hbr => hnot (hbr ▸ hrp)) ?_
    rintro rfl
    rw [hnew] at hb
    cases hb
  · obtain ⟨-, ns', hlinks', -, -⟩ := hgrow top p nodes hlinks
    exact ⟨ns', hlinks'⟩
  · by_cases hbnew : b = new
    · subst hbnew
      rcases Option.isSome_iff_exists.mp (isSome_links.mpr hr) with ⟨⟨p, ns⟩, hlinks⟩
      obtain ⟨-, ns', hlinks', -, hns'⟩ := hgrow rp p ns hlinks
      refine Or.inl ((hmono rp hrp).child hlinks' ?_)
      rw [hns' rfl]
      exact List.mem_cons_self
    · have hb' : (h.areas b).isSome := by
        by_cases hbr : b = rp
        · exact hbr ▸ hr
        · rwa [hsame b hbr hbnew] at hb
      exact (em (Below h.links top b)).imp (hmono b) fun hnot => ⟨hb', hnot⟩

/-- An area that is not destroyed keeps its place and its chunks. -/
theorem Destroyed.spares (hd : Destroyed h a h') {p : Option Nat} {ns : List Nat}
    (hnot : ¬Below h.links a b) (hb : h.links b = some (p, ns)) :
    h'.chunksOf b = h.chunksOf b ∧
      ∃ ns', h'.links b = some (p, ns') ∧ ∀ d ∈ ns, d ≠ a → d ∈ ns' := by
  by_cases hpar : ∀ node, h.areas a = some node → node.parent ≠ some b
  · have hsame := hd.others b hnot hpar
    exact ⟨chunksOf_congr hsame, ns, (links_congr hsame).trans hb, fun d hdns _ => hdns⟩
  · rw [not_forall] at hpar
    obtain ⟨node, hpar⟩ := hpar
    rw [Classical.not_imp, not_not] at hpar
    rcases hd.parent node b hpar.1 hpar.2 with ⟨-, bnode, hbnode, -, hbnode', -⟩
    rw [Heap.links, hbnode] at hb
    cases hb
    refine ⟨?_, bnode.nodes.erase a, ?_, fun d hdns hda => (List.mem_erase_of_ne hda).mpr hdns⟩
    · rw [Heap.chunksOf, Heap.chunksOf, hbnode, hbnode']
      rfl
    · rw [Heap.links, hbnode']
      rfl

theorem Destroyed.shrinks (hd : Destroyed h a h') (hb : (h'.areas b).isSome) :
    (h.areas b).isSome := by
  by_cases hba : Below h.links a b
  · exact (hd.areas b hba).1
  · by_cases hpar : ∀ node, h.areas a = some node → node.parent ≠ some b
    · rwa [hd.others b hba hpar] at hb
    · rw [not_forall] at hpar
      obtain ⟨node, hpar⟩ := hpar
      rw [Classical.not_imp, not_not] at hpar
      rcases hd.parent node b hpar.1 hpar.2 with ⟨-, bnode, hbnode, -⟩
      rw [hbnode]
      rfl

theorem Destroyed.below_spared (hd : Destroyed h a h') (hcb : Below h.links c b)
    (hnot : ¬Below h.links a b) : Below h'.links c b := by
  induction hcb with
  | refl => exact .refl
  | @child b' d p ns _ hlinks hdns ih =>
      have hb'a : ¬Below h.links a b' := fun hb' => hnot (hb'.child hlinks hdns)
      obtain ⟨-, ns', hns', hkept⟩ := hd.spares hb'a hlinks
      exact (ih hb'a).child hns' (hkept d hdns fun hda => hnot (hda ▸ .refl))

/-- Two areas are not below each other. -/
theorem Owned.below_antisymm (ho : Owned h) (ha : (h.areas a).isSome) (hab : Below h.links a b)
    (hba : Below h.links b a) : a = b := by
  by_contra hne
  rcases ho.below_up hba hne with ⟨q, nodes, hlinks, hq⟩
  rcases exists_of_links hlinks with ⟨node, hnode, hparent, -⟩
  rcases ho.areaDestroy ha with ⟨h', hd, -⟩
  exact (hd.parent node q hnode hparent).1 (hab.trans hq)

/-- An area below `top` is destroyed. -/
theorem Owned.inside_destroyed (ho : Owned h) (ha : Below h.links top a) (hne : a ≠ top)
    (hd : Destroyed h a h') (ho' : Owned h') : Inside h top h' := by
  rcases ho.below_up ha hne with ⟨q, nodes, hlinks, hq⟩
  rcases exists_of_links hlinks with ⟨node, hnode, hparent, -⟩
  have hlive : (h.areas a).isSome := (hd.areas a .refl).1
  have htopa : ¬Below h.links a top := fun htop => hne (ho.below_antisymm hlive htop ha)
  refine ⟨ho', fun b _ hnot => ?_, fun cp _ hnot => ?_, fun p ns htop => ?_, fun b hb => ?_⟩
  · refine hd.others b (fun hb => hnot (ha.trans hb)) fun node' hnode' hpar => ?_
    rw [hnode] at hnode'
    cases hnode'
    rw [hparent] at hpar
    exact hnot (Option.some.inj hpar ▸ hq)
  · exact hd.kept cp fun b hb => hnot b (ha.trans hb)
  · obtain ⟨-, ns', hns', -⟩ := hd.spares htopa htop
    exact ⟨ns', hns'⟩
  · have hba : ¬Below h.links a b := by
      intro hba
      rw [(hd.areas b hba).2] at hb
      cases hb
    have hb' := hd.shrinks hb
    exact (em (Below h.links top b)).imp (fun hbelow => hd.below_spared hbelow hba) fun hnot =>
      ⟨hb', hnot⟩

/-- With the depth it has, the recursion comes to its end or not. -/
theorem Owned.areaDestroy_or (ho : Owned h) (ha : (h.areas a).isSome) (depth : Nat) :
    (∃ h', Heap.areaDestroy depth h a = .ok h' ∧ Destroyed h a h' ∧ Owned h') ∨
      Heap.areaDestroy depth h a = .error .depth := by
  rcases ho.areaDestroy ha with ⟨h', hd, ho', d, hrun⟩
  rcases areaDestroy_depth (Nat.le_max_left depth d) h a with herr | heq
  · exact Or.inr herr
  · exact Or.inl ⟨h', heq.symm.trans (hrun _ (Nat.le_max_right depth d)), hd, ho'⟩

theorem Owned.areaDestroy_ends (ho : Owned h) (ha : (h.areas a).isSome) :
    Ends .depth fun depth => Heap.areaDestroy depth h a := by
  rcases ho.areaDestroy ha with ⟨h', -, -, d, hrun⟩
  refine ⟨d, fun depth hdepth => ?_⟩
  show Heap.areaDestroy depth h a ≠ .error .depth
  rw [hrun depth hdepth]
  exact ok_ne_error

/-! ## Areas that are spared -/

/-- The areas below one are as they were, and so are their chunks. -/
structure Spared (h : Heap) (a : Nat) (h' : Heap) : Prop where
  areas : ∀ b, Below h.links a b → h'.areas b = h.areas b
  chunks : ∀ b cp, Below h.links a b → cp ∈ h.chunksOf b → h'.chunks cp = h.chunks cp

theorem Spared.below (hs : Spared h a h') : Below h'.links a b ↔ Below h.links a b := by
  constructor
  · intro hb
    induction hb with
    | refl => exact .refl
    | child _ hlinks hd ih => exact ih.child ((links_congr (hs.areas _ ih)).symm.trans hlinks) hd
  · intro hb
    induction hb with
    | refl => exact .refl
    | child hb hlinks hd ih => exact ih.child ((links_congr (hs.areas _ hb)).trans hlinks) hd

theorem Spared.trans (hs : Spared h a h') (hs' : Spared h' a h'') : Spared h a h'' where
  areas := fun b hb => (hs'.areas b (hs.below.mpr hb)).trans (hs.areas b hb)
  chunks := fun b cp hb hcp => by
    have hcp' : cp ∈ h'.chunksOf b := by rwa [chunksOf_congr (hs.areas b hb)]
    exact (hs'.chunks b cp (hs.below.mpr hb) hcp').trans (hs.chunks b cp hb hcp)

/-- A chunk of an area is live and in the list of no other area. -/
theorem Owned.chunk_of_mem (ho : Owned h) {cp : Nat} (hcp : cp ∈ h.chunksOf b) :
    (h.chunks cp).isSome ∧ ∀ d, cp ∈ h.chunksOf d → d = b := by
  rcases mem_chunksOf_iff.mp hcp with ⟨node, hb, hin⟩
  refine ⟨(ho.filed.live b node hb cp hin).1, fun d hd => ?_⟩
  rcases mem_chunksOf_iff.mp hd with ⟨dnode, hdnode, hin'⟩
  exact ho.filed.unique d b dnode node hdnode hb cp hin' hin

/-- Calls below `top` spare an area that has nothing below in common with it. -/
theorem Inside.spared (hi : Inside h top h') (ho : Owned h) (ha : (h.areas a).isSome)
    (hdis : ∀ b, Below h.links a b → ¬Below h.links top b) : Spared h a h' where
  areas := fun b hb => hi.areas b (ho.isSome_below ha hb) (hdis b hb)
  chunks := fun b cp hb hcp => by
    obtain ⟨hlive, honly⟩ := ho.chunk_of_mem hcp
    exact hi.chunks cp hlive fun d hd hin => hdis b hb (honly d hin ▸ hd)

theorem Destroyed.spared (hd : Destroyed h c h') (ho : Owned h)
    (hdis : ∀ b, Below h.links a b → ¬Below h.links c b ∧
      ∀ node, h.areas c = some node → node.parent ≠ some b) : Spared h a h' where
  areas := fun b hb => hd.others b (hdis b hb).1 (hdis b hb).2
  chunks := fun b cp hb hcp => by
    obtain ⟨-, honly⟩ := ho.chunk_of_mem hcp
    exact hd.kept cp fun d hdbelow hin => (hdis b hb).1 (honly d hin ▸ hdbelow)

/-! ## Any call -/

/-- The areas that a call names. -/
def Op.areas : Op → List Nat
  | .node rp _ => [rp]
  | .malloc ap _ _ _ | .calloc ap _ _ _ | .resize ap _ _ _ _ _ | .free ap _ => [ap]
  | .relink op np _ => [op, np]
  | .destroy a _ => [a]

/-- The area that a call destroys. -/
def Op.destroys : Op → Option Nat
  | .destroy a _ => some a
  | _ => none

/-- The chunk that a call is given. -/
def Op.chunk : Op → Option Nat
  | .resize _ ptr _ _ _ _ | .free _ ptr => ptr
  | .relink _ _ ptr => some ptr
  | _ => none

/-- The call stays below `top`, which it does not destroy. -/
structure Op.Below (h : Heap) (top : Nat) (o : Op) : Prop where
  areas : ∀ a ∈ o.areas, Forest.Below h.links top a
  keeps : o.destroys ≠ some top

theorem Op.owned {o : Op} (ho : Owned h) (hok : o.Allowed h) (hrun : o.call h = .ok h') :
    Owned h' := by
  rcases Op.call_owned ho hok with ⟨h₁, hcall, ho₁⟩ | herr | herr
  · rw [hrun] at hcall
    cases hcall
    exact ho₁
  · rw [hrun] at herr
    cases herr
  · rw [hrun] at herr
    cases herr

/-- Every call touches some areas and chunks, makes an area or destroys one. -/
theorem Op.effect {o : Op} (ho : Owned h) (hok : o.Allowed h) (hrun : o.call h = .ok h') :
    (∃ cps, Touches h o.areas cps h' ∧ o.destroys = none ∧ ∀ cp ∈ cps,
      h.chunks cp = none ∨ o.chunk = some cp ∧ ∃ a ∈ o.areas, cp ∈ h.chunksOf a) ∨
    (∃ rp new, o = .node rp new ∧ (h.areas rp).isSome ∧ h.areas new = none ∧
      h.areaNode rp new = .ok h') ∨
    ∃ a, o.areas = [a] ∧ o.destroys = some a ∧ Destroyed h a h' := by
  cases o with
  | node rp new => exact Or.inr (Or.inl ⟨rp, new, rfl, hok.1, hok.2, hrun⟩)
  | malloc ap new size junk =>
      exact Or.inl ⟨[new], touches_new hrun, rfl, fun cp hcp =>
        Or.inl (List.mem_singleton.mp hcp ▸ hok.2)⟩
  | calloc ap new nmemb size =>
      exact Or.inl ⟨[new], touches_new hrun, rfl, fun cp hcp =>
        Or.inl (List.mem_singleton.mp hcp ▸ hok.2)⟩
  | resize ap ptr new kind size junk =>
      cases ptr with
      | none =>
          exact Or.inl ⟨[new], touches_resizeNull hrun, rfl, fun cp hcp =>
            Or.inl (List.mem_singleton.mp hcp ▸ hok.2)⟩
      | some p =>
          refine Or.inl ⟨[p, new], touches_resize hrun, rfl, fun cp hcp => ?_⟩
          rcases List.mem_cons.mp hcp with rfl | hcp
          · exact Or.inr ⟨rfl, ap, List.mem_cons_self, hok.1⟩
          · obtain rfl := List.mem_singleton.mp hcp
            rcases hok.2 with rfl | hnone
            · exact Or.inr ⟨rfl, ap, List.mem_cons_self, hok.1⟩
            · exact Or.inl hnone
  | free ap ptr =>
      cases ptr with
      | none =>
          cases hrun
          exact Or.inl ⟨[], (touches_refl h).mono (List.nil_subset _) (List.Subset.refl _), rfl,
            fun cp hcp => absurd hcp List.not_mem_nil⟩
      | some p =>
          refine Or.inl ⟨[p], touches_free hrun, rfl, fun cp hcp => ?_⟩
          obtain rfl := List.mem_singleton.mp hcp
          exact Or.inr ⟨rfl, ap, List.mem_cons_self, hok⟩
  | relink op np ptr =>
      refine Or.inl ⟨[ptr], touches_areaRelink hrun, rfl, fun cp hcp => ?_⟩
      obtain rfl := List.mem_singleton.mp hcp
      exact Or.inr ⟨rfl, op, List.mem_cons_self, hok.1⟩
  | destroy a depth =>
      refine Or.inr (Or.inr ⟨a, rfl, rfl, ?_⟩)
      rcases ho.areaDestroy_or hok depth with ⟨h₁, hcall, hd, -⟩ | herr
      · rw [Op.call, hcall] at hrun
        cases hrun
        exact hd
      · rw [Op.call, herr] at hrun
        cases hrun

theorem Op.inside {o : Op} (ho : Owned h) (hok : o.Allowed h) (hb : o.Below h top)
    (hrun : o.call h = .ok h') : Inside h top h' := by
  have ho' := Op.owned ho hok hrun
  rcases Op.effect ho hok hrun with ⟨cps, ht, -, hcps⟩ | ⟨rp, new, rfl, hr, hnew, hrun⟩ |
    ⟨a, hareas, hdes, hd⟩
  · exact ht.inside ho' hb.areas fun cp hcp => (hcps cp hcp).imp_right And.right
  · exact ho.inside_areaNode hr hnew (hb.areas rp List.mem_cons_self) hrun
  · have ha : a ∈ o.areas := by
      rw [hareas]
      exact List.mem_cons_self
    exact ho.inside_destroyed (hb.areas a ha) (fun hat => hb.keeps (hat ▸ hdes)) hd ho'

/-- An area that is not destroyed stays where it is, and keeps the chunks that the call is not
given. -/
theorem Op.spares {o : Op} (ho : Owned h) (hok : o.Allowed h) (hrun : o.call h = .ok h')
    {p : Option Nat} {ns : List Nat} (ha : h.links a = some (p, ns))
    (hnot : ∀ d, o.destroys = some d → ¬Forest.Below h.links d a) :
    (∃ ns', h'.links a = some (p, ns')) ∧
      ∀ cp ∈ h.chunksOf a, o.chunk ≠ some cp → cp ∈ h'.chunksOf a := by
  rcases Op.effect ho hok hrun with ⟨cps, ht, -, hcps⟩ | ⟨rp, new, rfl, hr, hnew, hrun⟩ |
    ⟨d, -, hdes, hd⟩
  · refine ⟨⟨ns, (congrFun ht.links a).trans ha⟩, fun cp hcp hchunk => ?_⟩
    refine ht.lists a cp (fun hin => ?_) hcp
    rcases hcps cp hin with hnone | ⟨hsome, -⟩
    · rcases mem_chunksOf_iff.mp hcp with ⟨node, hnode, hmem⟩
      exact ho.filed.not_mem hnone a node hnode hmem
    · exact hchunk hsome
  · obtain ⟨-, -, hgrow⟩ := areaNode_grows hnew hrun
    obtain ⟨hchunks, ns', hns', -, -⟩ := hgrow a p ns ha
    exact ⟨⟨ns', hns'⟩, fun cp hcp _ => hchunks ▸ hcp⟩
  · obtain ⟨hchunks, ns', hns', -⟩ := hd.spares (hnot d hdes) ha
    exact ⟨⟨ns', hns'⟩, fun cp hcp _ => hchunks ▸ hcp⟩

end Area
end IrC6
