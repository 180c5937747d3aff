import IrC6.Base.Faults
import IrC6.Base.Forest
import IrC6.Area.Heap

/-!
# Who owns a chunk

The areas that have not been freed make a tree, and each chunk is in the list of one of them
and there once.  An operation on chunks leaves the tree as it is.  It takes a chunk out of a
list or puts one in, and between the two the chunk is loose.
-/

namespace IrC6
namespace Area

/-- The sizes that chunks have recorded, added up as `size_t` is. -/
def sizes (chunks : Nat → Option Chunk) : List Nat → UInt64
  | [] => 0
  | cp :: cps => (chunks cp).elim 0 Chunk.size + sizes chunks cps

theorem sizes_congr {chunks chunks' : Nat → Option Chunk} {list : List Nat}
    (h : ∀ cp ∈ list, chunks' cp = chunks cp) : sizes chunks' list = sizes chunks list := by
  induction list with
  | nil => rfl
  | cons cp cps ih =>
      rw [sizes, sizes, h cp List.mem_cons_self,
        ih fun q hq => h q (List.mem_cons_of_mem _ hq)]

theorem sizes_erase (chunks : Nat → Option Chunk) {list : List Nat} {cp : Nat} (h : cp ∈ list) :
    sizes chunks list = sizes chunks (list.erase cp) + (chunks cp).elim 0 Chunk.size := by
  induction list with
  | nil => exact absurd h List.not_mem_nil
  | cons q qs ih =>
      by_cases hq : q = cp
      · subst hq
        rw [List.erase_cons_head, sizes, UInt64.add_comm]
      · rcases List.mem_cons.mp h with rfl | hqs
        · exact absurd rfl hq
        · rw [List.erase_cons_tail (by simpa using hq), sizes, sizes, ih hqs, UInt64.add_assoc]

namespace Heap

/-- The parent of an area and the list of its areas. -/
def links (h : Heap) (a : Nat) : Option (Option Nat × List Nat) :=
  (h.areas a).map fun node => (node.parent, node.nodes)

end Heap

/-- Every chunk is in the list of an area, and only there and only once.  One may be loose,
and that one is in no list. -/
structure Filed (h : Heap) (loose : Option Nat) : Prop where
  nodup : ∀ a node, h.areas a = some node → node.list.Nodup
  live : ∀ a node, h.areas a = some node → ∀ cp ∈ node.list,
    (h.chunks cp).isSome ∧ loose ≠ some cp
  allocated : ∀ a node, h.areas a = some node → node.allocated = sizes h.chunks node.list
  owner : ∀ cp, (h.chunks cp).isSome → loose ≠ some cp →
    ∃ a node, h.areas a = some node ∧ cp ∈ node.list
  unique : ∀ a b node node', h.areas a = some node → h.areas b = some node' →
    ∀ cp ∈ node.list, cp ∈ node'.list → a = b

/-- The areas are linked like a tree. -/
def Rooted (h : Heap) : Prop :=
  ∃ F : Forest Nat, F.Linked h.links none ∧ F.labels.Nodup ∧ ∀ a, (h.areas a).isSome → a ∈ F.labels

structure Owned (h : Heap) : Prop where
  tree : Rooted h
  filed : Filed h none

/-! ## Chunks -/

section Chunks

variable {h : Heap} {ap cp : Nat} {node : Node} {c : Chunk}

theorem area_eq (ha : h.areas ap = some node) : h.area ap = .ok node := by
  rw [Heap.area, ha]

theorem chunk_eq (hc : h.chunks cp = some c) : h.chunk cp = .ok c := by
  rw [Heap.chunk, hc]

theorem areas_setArea_self (x : Option Node) : (h.setArea ap x).areas ap = x := by
  simp only [Heap.setArea, Function.update_self]

theorem areas_setArea_of_ne {b : Nat} (hb : b ≠ ap) (x : Option Node) :
    (h.setArea ap x).areas b = h.areas b := by
  simp only [Heap.setArea, Function.update_of_ne hb]

theorem chunks_setChunk_self (x : Option Chunk) : (h.setChunk cp x).chunks cp = x := by
  simp only [Heap.setChunk, Function.update_self]

theorem chunks_setChunk_of_ne {q : Nat} (hq : q ≠ cp) (x : Option Chunk) :
    (h.setChunk cp x).chunks q = h.chunks q := by
  simp only [Heap.setChunk, Function.update_of_ne hq]

theorem areas_setArea_cases {b : Nat} {nb : Node} {x : Option Node}
    (hb : (h.setArea ap x).areas b = some nb) :
    (b = ap ∧ x = some nb) ∨ (b ≠ ap ∧ h.areas b = some nb) := by
  by_cases hba : b = ap
  · subst hba
    exact Or.inl ⟨rfl, (areas_setArea_self x).symm.trans hb⟩
  · exact Or.inr ⟨hba, (areas_setArea_of_ne hba x).symm.trans hb⟩

theorem isSome_setChunk {q : Nat} (hq : (h.chunks q).isSome) (c : Chunk) :
    ((h.setChunk cp (some c)).chunks q).isSome := by
  by_cases hqc : q = cp
  · subst hqc
    rw [chunks_setChunk_self]
    rfl
  · rwa [chunks_setChunk_of_ne hqc]

theorem sizes_setChunk {list : List Nat} (hcp : cp ∉ list) (x : Option Chunk) :
    sizes (h.setChunk cp x).chunks list = sizes h.chunks list := by
  refine sizes_congr fun q hq => chunks_setChunk_of_ne ?_ x
  intro hqc
  exact hcp (hqc ▸ hq)

/-- A chunk that stays in the list of the area has an owner as before. -/
theorem owner_setArea {q : Nat} {node' : Node} (ha : h.areas ap = some node)
    (hkeep : q ∈ node.list → q ∈ node'.list)
    (hq : ∃ b nb, h.areas b = some nb ∧ q ∈ nb.list) :
    ∃ b nb, (h.setArea ap (some node')).areas b = some nb ∧ q ∈ nb.list := by
  rcases hq with ⟨b, nb, hb, hin⟩
  by_cases hba : b = ap
  · subst hba
    cases ha.symm.trans hb
    exact ⟨b, node', areas_setArea_self _, hkeep hin⟩
  · exact ⟨b, nb, (areas_setArea_of_ne hba _).trans hb, hin⟩

theorem links_setArea {node' : Node} (ha : h.areas ap = some node)
    (hparent : node'.parent = node.parent) (hnodes : node'.nodes = node.nodes) :
    (h.setArea ap (some node')).links = h.links := by
  funext b
  by_cases hb : b = ap
  · subst hb
    rw [Heap.links, Heap.links, areas_setArea_self, ha, Option.map_some, Option.map_some,
      hparent, hnodes]
  · rw [Heap.links, Heap.links, areas_setArea_of_ne hb]

/-- What an operation on chunks does to the tree. -/
theorem Rooted.congr {h' : Heap} (ht : Rooted h) (hlinks : h'.links = h.links) : Rooted h' := by
  rcases ht with ⟨F, hF, hn, hlive⟩
  refine ⟨F, hlinks ▸ hF, hn, fun a ha => hlive a ?_⟩
  have hsome : (h'.links a).isSome := by rwa [Heap.links, Option.isSome_map]
  rwa [hlinks, Heap.links, Option.isSome_map] at hsome

theorem delChunk_eq (ha : h.areas ap = some node) (hc : h.chunks cp = some c)
    (hmem : cp ∈ node.list) :
    h.delChunk ap cp = .ok (h.setArea ap
      (some { node with list := node.list.erase cp, allocated := node.allocated - c.size })) := by
  rw [Heap.delChunk, area_eq ha, chunk_eq hc]
  exact if_pos hmem

theorem addChunk_eq (ha : h.areas ap = some node) (c : Chunk) :
    h.addChunk ap cp c = .ok ((h.setChunk cp (some c)).setArea ap
      (some { node with list := cp :: node.list, allocated := node.allocated + c.size })) := by
  rw [Heap.addChunk, area_eq ha]
  rfl

theorem Filed.del (hf : Filed h none) (ha : h.areas ap = some node) (hc : h.chunks cp = some c)
    (hmem : cp ∈ node.list) :
    Filed (h.setArea ap
      (some { node with list := node.list.erase cp, allocated := node.allocated - c.size }))
      (some cp) := by
  have hnodup := hf.nodup ap node ha
  -- each area has a list of before, without the chunk
  have hold : ∀ b nb, (h.setArea ap (some { node with
      list := node.list.erase cp, allocated := node.allocated - c.size })).areas b = some nb →
      ∃ nb', h.areas b = some nb' ∧ nb.list.Sublist nb'.list ∧ cp ∉ nb.list := by
    intro b nb hb
    rcases areas_setArea_cases hb with ⟨rfl, hnb⟩ | ⟨hne, hb⟩
    · cases hnb
      exact ⟨node, ha, List.erase_sublist, hnodup.not_mem_erase⟩
    · exact ⟨nb, hb, List.Sublist.refl _, fun hin => hne (hf.unique b ap nb node hb ha cp hin hmem)⟩
  constructor
  · intro b nb hb
    rcases hold b nb hb with ⟨nb', hb', hsub, -⟩
    exact (hf.nodup b nb' hb').sublist hsub
  · intro b nb hb q hq
    rcases hold b nb hb with ⟨nb', hb', hsub, hnot⟩
    refine ⟨(hf.live b nb' hb' q (hsub.subset hq)).1, fun hcp => hnot ?_⟩
    cases hcp
    exact hq
  · intro b nb hb
    rcases areas_setArea_cases hb with ⟨rfl, hnb⟩ | ⟨-, hb⟩
    · cases hnb
      show node.allocated - c.size = sizes h.chunks (node.list.erase cp)
      rw [hf.allocated b node ha, sizes_erase h.chunks hmem, hc]
      exact UInt64.add_sub_cancel _ _
    · exact hf.allocated b nb hb
  · intro q hq hloose
    have hqc : q ≠ cp := fun hqc => hloose (congrArg some hqc.symm)
    exact owner_setArea ha (fun hin => (List.mem_erase_of_ne hqc).mpr hin)
      (hf.owner q hq (by simp))
  · intro a b na nb hna hnb q hqa hqb
    rcases hold a na hna with ⟨na', hna', hsuba, -⟩
    rcases hold b nb hnb with ⟨nb', hnb', hsubb, -⟩
    exact hf.unique a b na' nb' hna' hnb' q (hsuba.subset hqa) (hsubb.subset hqb)

/-- A new chunk, or the loose one, goes into the list of an area. -/
theorem Filed.add {loose : Option Nat} (hf : Filed h loose) (ha : h.areas ap = some node)
    (hnot : ∀ b nb, h.areas b = some nb → cp ∉ nb.list) (hloose : loose = none ∨ loose = some cp)
    (c : Chunk) :
    Filed ((h.setChunk cp (some c)).setArea ap
      (some { node with list := cp :: node.list, allocated := node.allocated + c.size })) none := by
  constructor
  · intro b nb hb
    rcases areas_setArea_cases hb with ⟨rfl, hnb⟩ | ⟨-, hb⟩
    · cases hnb
      exact List.nodup_cons.mpr ⟨hnot b node ha, hf.nodup b node ha⟩
    · exact hf.nodup b nb hb
  · intro b nb hb q hq
    refine ⟨?_, by simp⟩
    rcases areas_setArea_cases hb with ⟨rfl, hnb⟩ | ⟨-, hb⟩
    · cases hnb
      rcases List.mem_cons.mp hq with rfl | hq
      · show ((h.setChunk q (some c)).chunks q).isSome
        rw [chunks_setChunk_self]
        rfl
      · exact isSome_setChunk (hf.live b node ha q hq).1 c
    · exact isSome_setChunk (hf.live b nb hb q hq).1 c
  · intro b nb hb
    rcases areas_setArea_cases hb with ⟨rfl, hnb⟩ | ⟨-, hb⟩
    · cases hnb
      show node.allocated + c.size = sizes (h.setChunk cp (some c)).chunks (cp :: node.list)
      rw [sizes, sizes_setChunk (hnot b node ha), hf.allocated b node ha, chunks_setChunk_self]
      exact UInt64.add_comm _ _
    · exact (hf.allocated b nb hb).trans (sizes_setChunk (hnot b nb hb) _).symm
  · intro q hq _
    by_cases hqc : q = cp
    · subst hqc
      exact ⟨ap, _, areas_setArea_self _, List.mem_cons_self⟩
    · have hq' : (h.chunks q).isSome := by
        rwa [← chunks_setChunk_of_ne hqc (some c)]
      have hlq : loose ≠ some q := by
        rcases hloose with rfl | rfl
        · simp
        · exact fun hcq => hqc (Option.some.inj hcq).symm
      exact owner_setArea (h := h.setChunk cp (some c)) ha (List.mem_cons_of_mem _)
        (hf.owner q hq' hlq)
  · intro a b na nb hna hnb q hqa hqb
    rcases areas_setArea_cases hna with ⟨rfl, hna'⟩ | ⟨-, hna'⟩ <;>
      rcases areas_setArea_cases hnb with ⟨rfl, hnb'⟩ | ⟨-, hnb'⟩
    · rfl
    · cases hna'
      rcases List.mem_cons.mp hqa with rfl | hqa
      · exact absurd hqb (hnot b nb hnb')
      · exact hf.unique a b node nb ha hnb' q hqa hqb
    · cases hnb'
      rcases List.mem_cons.mp hqb with rfl | hqb
      · exact absurd hqa (hnot a na hna')
      · exact hf.unique a b na node hna' ha q hqa hqb
    · exact hf.unique a b na nb hna' hnb' q hqa hqb

theorem Filed.drop (hf : Filed h (some cp)) : Filed (h.setChunk cp none) none := by
  have hsame : ∀ a node, h.areas a = some node → ∀ q ∈ node.list,
      (h.setChunk cp none).chunks q = h.chunks q := by
    intro a node ha q hq
    refine chunks_setChunk_of_ne ?_ none
    rintro rfl
    exact (hf.live a node ha q hq).2 rfl
  constructor
  · exact hf.nodup
  · intro a node ha q hq
    refine ⟨?_, by simp⟩
    rw [hsame a node ha q hq]
    exact (hf.live a node ha q hq).1
  · intro a node ha
    rw [sizes_congr (hsame a node ha)]
    exact hf.allocated a node ha
  · intro q hq _
    have hqc : q ≠ cp := by
      rintro rfl
      rw [chunks_setChunk_self] at hq
      exact absurd hq (by simp)
    refine hf.owner q ?_ fun hc => hqc (Option.some.inj hc).symm
    rwa [chunks_setChunk_of_ne hqc] at hq
  · exact hf.unique

theorem Filed.not_mem {loose : Option Nat} (hf : Filed h loose) (hnew : h.chunks cp = none)
    (b : Nat) (nb : Node) (hb : h.areas b = some nb) : cp ∉ nb.list := by
  intro hin
  have hsome := (hf.live b nb hb cp hin).1
  rw [hnew] at hsome
  exact absurd hsome (by simp)

theorem Filed.not_mem_loose (hf : Filed h (some cp)) (b : Nat) (nb : Node)
    (hb : h.areas b = some nb) : cp ∉ nb.list :=
  fun hin => (hf.live b nb hb cp hin).2 rfl

theorem Filed.setNodes {loose : Option Nat} (hf : Filed h loose) (ha : h.areas ap = some node)
    (nodes : List Nat) : Filed (h.setArea ap (some { node with nodes := nodes })) loose := by
  have hold : ∀ b nb, (h.setArea ap (some { node with nodes := nodes })).areas b = some nb →
      ∃ nb', h.areas b = some nb' ∧ nb.list = nb'.list ∧ nb.allocated = nb'.allocated := by
    intro b nb hb
    rcases areas_setArea_cases hb with ⟨rfl, hnb⟩ | ⟨-, hb⟩
    · cases hnb
      exact ⟨node, ha, rfl, rfl⟩
    · exact ⟨nb, hb, rfl, rfl⟩
  constructor
  · intro b nb hb
    rcases hold b nb hb with ⟨nb', hb', hlist, -⟩
    rw [hlist]
    exact hf.nodup b nb' hb'
  · intro b nb hb
    rcases hold b nb hb with ⟨nb', hb', hlist, -⟩
    rw [hlist]
    exact hf.live b nb' hb'
  · intro b nb hb
    rcases hold b nb hb with ⟨nb', hb', hlist, hallocated⟩
    rw [hlist, hallocated]
    exact hf.allocated b nb' hb'
  · intro q hq hloose
    exact owner_setArea ha id (hf.owner q hq hloose)
  · intro a b na nb hna hnb
    rcases hold a na hna with ⟨na', hna', hlista, -⟩
    rcases hold b nb hnb with ⟨nb', hnb', hlistb, -⟩
    rw [hlista, hlistb]
    exact hf.unique a b na' nb' hna' hnb'

theorem Filed.newArea {loose : Option Nat} (hf : Filed h loose) (hnew : h.areas ap = none)
    (parent : Option Nat) :
    Filed (h.setArea ap (some { parent := parent, nodes := [], allocated := 0, list := [] }))
      loose := by
  constructor
  · intro b nb hb
    rcases areas_setArea_cases hb with ⟨rfl, hnb⟩ | ⟨-, hb⟩
    · cases hnb
      exact List.nodup_nil
    · exact hf.nodup b nb hb
  · intro b nb hb q hq
    rcases areas_setArea_cases hb with ⟨rfl, hnb⟩ | ⟨-, hb⟩
    · cases hnb
      exact absurd hq List.not_mem_nil
    · exact hf.live b nb hb q hq
  · intro b nb hb
    rcases areas_setArea_cases hb with ⟨rfl, hnb⟩ | ⟨-, hb⟩
    · cases hnb
      rfl
    · exact hf.allocated b nb hb
  · intro q hq hloose
    rcases hf.owner q hq hloose with ⟨b, nb, hb, hin⟩
    have hba : b ≠ ap := by
      rintro rfl
      rw [hnew] at hb
      cases hb
    exact ⟨b, nb, (areas_setArea_of_ne hba _).trans hb, hin⟩
  · intro a b na nb hna hnb q hqa hqb
    rcases areas_setArea_cases hna with ⟨-, hna'⟩ | ⟨-, hna'⟩
    · cases hna'
      exact absurd hqa List.not_mem_nil
    · rcases areas_setArea_cases hnb with ⟨-, hnb'⟩ | ⟨-, hnb'⟩
      · cases hnb'
        exact absurd hqb List.not_mem_nil
      · exact hf.unique a b na nb hna' hnb' q hqa hqb

theorem Owned.del (ho : Owned h) (ha : h.areas ap = some node) (hmem : cp ∈ node.list) :
    ∃ h' c node', h.delChunk ap cp = .ok h' ∧ h.chunks cp = some c ∧ h'.chunks = h.chunks ∧
      h'.areas ap = some node' ∧ (∀ b, (h'.areas b).isSome ↔ (h.areas b).isSome) ∧
      Rooted h' ∧ Filed h' (some cp) := by
  rcases Option.isSome_iff_exists.mp (ho.filed.live ap node ha cp hmem).1 with ⟨c, hc⟩
  refine ⟨_, c, _, delChunk_eq ha hc hmem, hc, rfl, areas_setArea_self _, fun b => ?_,
    ho.tree.congr (links_setArea ha rfl rfl), ho.filed.del ha hc hmem⟩
  by_cases hb : b = ap
  · subst hb
    rw [areas_setArea_self, ha]
    exact Iff.rfl
  · rw [areas_setArea_of_ne hb]

theorem owned_add {loose : Option Nat} (ht : Rooted h) (hf : Filed h loose)
    (ha : (h.areas ap).isSome) (hnot : ∀ b nb, h.areas b = some nb → cp ∉ nb.list)
    (hloose : loose = none ∨ loose = some cp) (c : Chunk) :
    ∃ h', h.addChunk ap cp c = .ok h' ∧ Owned h' := by
  rcases Option.isSome_iff_exists.mp ha with ⟨node, ha⟩
  exact ⟨_, addChunk_eq ha c, ht.congr (links_setArea (h := h.setChunk cp (some c)) ha rfl rfl),
    hf.add ha hnot hloose c⟩

end Chunks

/-! ## Operations on chunks

Each is taken to be called with a live area, and with a chunk of it. -/

section Operations

variable {h : Heap} {ap cp new : Nat} {node : Node}

theorem room_yields (bytes : UInt64) : Yields .outside (fun _ => True) (room bytes) := by
  unfold room
  split
  · rfl
  · trivial

theorem realRealloc_yields (junk : Nat → UInt8) (size : UInt64) (old : Chunk) :
    Yields .outside (fun _ => True) (realRealloc junk size old) :=
  (room_yields _).map fun _ _ => trivial

theorem clear_yields (osize size : UInt64) (c : Chunk) :
    Yields .outside (fun _ => True) (clear osize size c) := by
  unfold clear
  split
  · trivial
  · rfl

theorem resize_run_yields (kind : Resize) (junk : Nat → UInt8) (size : UInt64) (old : Chunk) :
    Yields .outside (fun _ => True) (kind.run junk size old) := by
  have hreal := realRealloc_yields junk size old
  have hclear : Yields .outside (fun _ => True) (do
      let ret ← realRealloc junk size old
      if old.size < size then (clear old.size size ret).map some else .ok (some ret)) := by
    refine hreal.bind fun ret _ => ?_
    split
    · exact (clear_yields _ _ _).map fun _ _ => trivial
    · trivial
  cases kind with
  | realloc =>
      show Yields _ _ (aRealloc junk size old)
      unfold aRealloc
      split
      · exact hreal.map fun _ _ => trivial
      · trivial
  | realloc0 =>
      show Yields _ _ (aRealloc0 junk size old)
      unfold aRealloc0
      split
      · trivial
      · exact hclear
  | expand =>
      show Yields _ _ (aExpand junk size old)
      unfold aExpand
      split
      · exact hreal.map fun _ _ => trivial
      · trivial
  | expand0 =>
      show Yields _ _ (aExpand0 junk size old)
      unfold aExpand0
      by_cases hlt : old.size < size
      · rw [if_pos hlt]
        exact hclear
      · rw [if_neg hlt]
        trivial

theorem Owned.addNew (ho : Owned h) (ha : (h.areas ap).isSome) (hnew : h.chunks new = none)
    (c : Chunk) : Yields .outside Owned (h.addChunk ap new c) := by
  rcases owned_add ho.tree ho.filed ha (ho.filed.not_mem hnew) (Or.inl rfl) c with ⟨h', hrun, ho'⟩
  rw [hrun]
  exact ho'

theorem Owned.malloc (ho : Owned h) (ha : (h.areas ap).isSome) (hnew : h.chunks new = none)
    (size : UInt64) (junk : Nat → UInt8) : Yields .outside Owned (h.malloc ap new size junk) :=
  (Yields.map (room_yields _) fun _ _ => trivial).bind fun c (_ : True) => ho.addNew ha hnew c

theorem Owned.calloc (ho : Owned h) (ha : (h.areas ap).isSome) (hnew : h.chunks new = none)
    (nmemb size : UInt64) : Yields .outside Owned (h.calloc ap new nmemb size) :=
  (Yields.map (room_yields _) fun _ _ => trivial).bind fun c (_ : True) => ho.addNew ha hnew c

theorem Owned.resizeNull (ho : Owned h) (ha : (h.areas ap).isSome) (hnew : h.chunks new = none)
    (kind : Resize) (size : UInt64) (junk : Nat → UInt8) :
    Yields .outside Owned (h.resizeNull ap new kind size junk) := by
  cases kind with
  | realloc | expand => exact ho.malloc ha hnew size junk
  | realloc0 | expand0 => exact ho.calloc ha hnew 1 size

/-- A chunk that moves may come back where it was. -/
theorem Owned.resize (ho : Owned h) (ha : h.areas ap = some node) (hmem : cp ∈ node.list)
    (hnew : new = cp ∨ h.chunks new = none) (kind : Resize) (size : UInt64) (junk : Nat → UInt8) :
    Yields .outside Owned (h.resize ap (some cp) new kind size junk) := by
  rcases ho.del ha hmem with ⟨h₁, old, node₁, hdel, hc, hchunks, ha₁, -, htree, hfiled⟩
  rw [Heap.resize, chunk_eq hc]
  refine (resize_run_yields kind junk size old).bind fun ret _ => ?_
  cases ret with
  | none => exact ho
  | some c =>
      have hnew' : (h₁.setChunk cp none).chunks new = none := by
        by_cases hnc : new = cp
        · rw [hnc, chunks_setChunk_self]
        · rw [chunks_setChunk_of_ne hnc, hchunks]
          exact hnew.resolve_left hnc
      show Yields _ _ (h.delChunk ap cp >>= fun h => (h.setChunk cp none).addChunk ap new c)
      rw [hdel]
      exact Owned.addNew (h := h₁.setChunk cp none) ⟨htree, hfiled.drop⟩
        (Option.isSome_of_eq_some ha₁) hnew' c

theorem Owned.free (ho : Owned h) (ha : h.areas ap = some node) (hmem : cp ∈ node.list) :
    Yields .outside Owned (h.free ap (some cp)) := by
  rcases ho.del ha hmem with ⟨h₁, old, node₁, hdel, -, -, -, -, htree, hfiled⟩
  rw [Heap.free, hdel]
  exact ⟨htree, hfiled.drop⟩

theorem Owned.areaRelink {np : Nat} (ho : Owned h) (ha : h.areas ap = some node)
    (hmem : cp ∈ node.list) (hnp : (h.areas np).isSome) :
    Yields .outside Owned (h.areaRelink ap np cp) := by
  rcases ho.del ha hmem with ⟨h₁, c, node₁, hdel, hc, hchunks, -, hlive, htree, hfiled⟩
  rcases owned_add htree hfiled ((hlive np).mpr hnp) hfiled.not_mem_loose (Or.inr rfl) c with
    ⟨h₂, hadd, ho₂⟩
  have hc₁ : h₁.chunks cp = some c := by rw [hchunks, hc]
  show Yields _ _ (h.delChunk ap cp >>= fun h => h.chunk cp >>= fun c => h.addChunk np cp c)
  rw [hdel]
  show Yields _ _ (h₁.chunk cp >>= fun c => h₁.addChunk np cp c)
  rw [chunk_eq hc₁]
  show Yields _ _ (h₁.addChunk np cp c)
  rw [hadd]
  exact ho₂

/-! ## New areas -/

theorem owned_areaRoot (root : Nat) : Owned (Heap.areaRoot root) := by
  have hempty : Filed { areas := fun _ => none, chunks := fun _ => none } none := by
    constructor <;> simp
  refine ⟨⟨.cons root .nil .nil, ⟨?_, trivial, trivial⟩, List.nodup_singleton root, ?_⟩,
    hempty.newArea rfl none⟩
  · simp only [Heap.links, Heap.areaRoot, Function.update_self]
    rfl
  · intro a ha
    by_cases har : a = root
    · exact har ▸ List.mem_cons_self
    · simp only [Heap.areaRoot, Function.update_of_ne har] at ha
      cases ha

theorem Owned.areaNode {rp : Nat} (ho : Owned h) (hr : (h.areas rp).isSome)
    (hnew : h.areas new = none) : Yields .outside Owned (h.areaNode rp new) := by
  rcases Option.isSome_iff_exists.mp hr with ⟨node, hrp⟩
  rcases ho.tree with ⟨F, hF, hn, hlive⟩
  have hne : new ≠ rp := by
    rintro rfl
    rw [hrp] at hnew
    cases hnew
  have hnotF : new ∉ F.labels := by
    intro hin
    have hsome := hF.isSome hin
    rw [Heap.links, hnew] at hsome
    exact absurd hsome (by simp)
  have hinF : rp ∈ F.labels := hlive rp hr
  rw [Heap.areaNode, area_eq hrp]
  have hnew₁ : (h.setArea rp (some { node with nodes := new :: node.nodes })).areas new = none := by
    rw [areas_setArea_of_ne hne, hnew]
  refine ⟨⟨F.adopt rp new, hF.adopt hn hnotF ?_ ?_ ?_, ?_, ?_⟩,
    (ho.filed.setNodes hrp _).newArea hnew₁ (some rp)⟩
  · rw [Heap.links, areas_setArea_self]
    rfl
  · intro p nodes hlinks
    rw [Heap.links, hrp] at hlinks
    cases hlinks
    rw [Heap.links, areas_setArea_of_ne hne.symm, areas_setArea_self]
    rfl
  · intro c hc hcr
    have hcn : c ≠ new := fun hcn => hnotF (hcn ▸ hc)
    rw [Heap.links, areas_setArea_of_ne hcn, areas_setArea_of_ne hcr, Heap.links]
  · exact (Forest.perm_adopt new hn hinF).nodup_iff.mpr (List.nodup_cons.mpr ⟨hnotF, hn⟩)
  · intro a ha
    rw [(Forest.perm_adopt new hn hinF).mem_iff]
    by_cases han : a = new
    · exact han ▸ List.mem_cons_self
    · refine List.mem_cons_of_mem _ ?_
      by_cases har : a = rp
      · exact har ▸ hinF
      · rw [areas_setArea_of_ne han, areas_setArea_of_ne har] at ha
        exact hlive a ha

end Operations

end Area
end IrC6
