import Mathlib.Data.Set.Defs
import IrC6.Base.Runs
import IrC6.Lifecycle.Connections

/-!
# Runs of the program

The connections are accepted, woken and closed in any order.  What is done for one of them
leaves the others alone, and when the last one is closed the areas are what they were at the
start.
-/

namespace IrC6
namespace Lifecycle

open Area Heap

variable {home : Node} {p p' p'' : Program} {c d : Conn} {h' : Heap}

theorem map_erase_of_nodup {α β : Type} [DecidableEq α] [DecidableEq β] {f : α → β} {l : List α}
    {a : α} (hn : (l.map f).Nodup) (ha : a ∈ l) : (l.erase a).map f = (l.map f).erase (f a) := by
  induction l with
  | nil => exact absurd ha List.not_mem_nil
  | cons b l ih =>
      rw [List.map_cons, List.nodup_cons] at hn
      by_cases hba : b = a
      · subst hba
        rw [List.erase_cons_head, List.map_cons, List.erase_cons_head]
      · have hal : a ∈ l := (List.mem_cons.mp ha).resolve_left (Ne.symm hba)
        have hfba : f b ≠ f a := fun hf => hn.1 (hf ▸ List.mem_map_of_mem hal)
        rw [List.erase_cons_tail (by simpa using hba), List.map_cons, ih hn.2 hal, List.map_cons,
          List.erase_cons_tail (by simpa using hfba)]

def Program.areas (p : Program) : List Nat := p.connectionList.map Conn.area

/-- The root area is `home` with the areas of the connections in front, in order.  Everything
else is below one of its areas, and each `connection_t` in the area of its connection. -/
structure Sound (home : Node) (p : Program) : Prop where
  owned : Owned p.heap
  orphan : home.parent = none
  root : p.heap.areas p.root = some { home with nodes := p.areas ++ home.nodes }
  all : ∀ b, (p.heap.areas b).isSome → Forest.Below p.heap.links p.root b
  ptrs : ∀ c ∈ p.connectionList, c.ptr ∈ p.heap.chunksOf c.area

namespace Sound

theorem root_isSome (hs : Sound home p) : (p.heap.areas p.root).isSome := by
  rw [hs.root]
  rfl

theorem links (hs : Sound home p) :
    p.heap.links p.root = some (none, p.areas ++ home.nodes) := by
  rw [Heap.links, hs.root, ← hs.orphan]
  rfl

/-- The areas below the root are different ones. -/
theorem nodup (hs : Sound home p) : (p.areas ++ home.nodes).Nodup := by
  rcases hs.owned.tree with ⟨F, hF, hn, hlive⟩
  exact hF.nodup hn (hlive p.root hs.root_isSome) hs.links

theorem nodup_areas (hs : Sound home p) : p.areas.Nodup :=
  hs.nodup.sublist (List.sublist_append_left _ _)

theorem child (hs : Sound home p) {x : Nat} (hx : x ∈ p.areas ++ home.nodes) :
    ∃ ns, p.heap.links x = some (some p.root, ns) :=
  hs.owned.parent_of_mem hs.links hx

theorem isSome (hs : Sound home p) {x : Nat} (hx : x ∈ p.areas ++ home.nodes) :
    (p.heap.areas x).isSome := by
  obtain ⟨ns, hlinks⟩ := hs.child hx
  exact isSome_links.mp (by rw [hlinks]; rfl)

theorem area_mem (hc : c ∈ p.connectionList) : c.area ∈ p.areas ++ home.nodes :=
  List.mem_append_left _ (List.mem_map_of_mem hc)

theorem area_notMem_home (hs : Sound home p) (hc : c ∈ p.connectionList) :
    c.area ∉ home.nodes :=
  fun hin => List.disjoint_of_nodup_append hs.nodup (List.mem_map_of_mem hc) hin

theorem root_not_below (hs : Sound home p) {x : Nat} (hx : x ∈ p.areas ++ home.nodes) :
    ¬Forest.Below p.heap.links x p.root := by
  intro hbelow
  obtain ⟨ns, hlinks⟩ := hs.child hx
  have hne : p.root ≠ x := by
    intro hrx
    rw [← hrx, hs.links] at hlinks
    cases hlinks
  obtain ⟨q, ns', hlinks', -⟩ := hs.owned.below_up hbelow hne
  rw [hs.links] at hlinks'
  cases hlinks'

/-- Different areas below the root have nothing below in common. -/
theorem disjoint (hs : Sound home p) {x y b : Nat} (hx : x ∈ p.areas ++ home.nodes)
    (hy : y ∈ p.areas ++ home.nodes) (hxy : x ≠ y) (hb : Forest.Below p.heap.links x b) :
    ¬Forest.Below p.heap.links y b := by
  obtain ⟨ns, hlinks⟩ := hs.child hx
  obtain ⟨ns', hlinks'⟩ := hs.child hy
  exact hs.owned.below_disjoint hs.links hlinks hlinks' hxy hb

theorem mem_chunksOf_root (hs : Sound home p) {cp : Nat} (hcp : cp ∈ home.list) :
    cp ∈ p.heap.chunksOf p.root :=
  mem_chunksOf_iff.mpr ⟨_, hs.root, hcp⟩

theorem eq_of_ptr (hs : Sound home p) (hc : c ∈ p.connectionList) (hd : d ∈ p.connectionList)
    (hptr : d.ptr = c.ptr) : d = c := by
  -- one chunk lies in one area, and one area is that of one connection
  have hdmem := hs.ptrs d hd
  rw [hptr] at hdmem
  have harea := (hs.owned.chunk_of_mem (hs.ptrs c hc)).2 d.area hdmem
  exact List.inj_on_of_nodup_map hs.nodup_areas hd hc harea

/-- A connection is found by its pointer. -/
theorem find (hs : Sound home p) (hc : c ∈ p.connectionList) :
    p.connectionList.find? (·.ptr = c.ptr) = some c := by
  cases hfind : p.connectionList.find? (·.ptr = c.ptr) with
  | none => exact absurd (decide_eq_true rfl) (List.find?_eq_none.mp hfind c hc)
  | some d =>
      have hptr : d.ptr = c.ptr := by simpa using List.find?_some hfind
      exact congrArg some (hs.eq_of_ptr hc (List.mem_of_find?_eq_some hfind) hptr)

end Sound

/-! ## What is kept -/

/-- The program is in order, some areas are as they were, and so are the chunks of the root. -/
structure Keeps (home : Node) (keep : Set Nat) (p p' : Program) : Prop where
  sound : Sound home p'
  root : p'.root = p.root
  spared : ∀ y ∈ keep, Spared p.heap y p'.heap
  chunks : ∀ cp ∈ home.list, p'.heap.chunks cp = p.heap.chunks cp

/-- The areas below the root but one. -/
def Program.others (p : Program) (home : Node) (x : Nat) : Set Nat :=
  { y | y ∈ p.areas ++ home.nodes ∧ y ≠ x }

theorem Keeps.trans {keep : Set Nat} (hk : Keeps home keep p p') (hk' : Keeps home keep p' p'') :
    Keeps home keep p p'' where
  sound := hk'.sound
  root := hk'.root.trans hk.root
  spared := fun y hy => (hk.spared y hy).trans (hk'.spared y hy)
  chunks := fun cp hcp => (hk'.chunks cp hcp).trans (hk.chunks cp hcp)

theorem Keeps.mono {keep keep' : Set Nat} (hk : Keeps home keep p p')
    (hsub : ∀ y ∈ keep', y ∈ keep) : Keeps home keep' p p' :=
  ⟨hk.sound, hk.root, fun y hy => hk.spared y (hsub y hy), hk.chunks⟩

/-- Calls of one connection. -/
theorem Sound.inside (hs : Sound home p) {x : Nat} (hx : x ∈ p.areas ++ home.nodes)
    (hi : Inside p.heap x h')
    (hptr : ∀ c ∈ p.connectionList, c.area = x → c.ptr ∈ h'.chunksOf x) {list : List Conn}
    (hareas : list.map Conn.area = p.areas)
    (hlist : ∀ c ∈ list, ∃ d ∈ p.connectionList, c.ptr = d.ptr ∧ c.area = d.area) :
    Keeps home (p.others home x) p { p with heap := h', connectionList := list } := by
  have hroot := hi.areas p.root hs.root_isSome (hs.root_not_below hx)
  have hsound : Sound home { p with heap := h', connectionList := list } := by
    refine ⟨hi.owned, hs.orphan, ?_, fun b hb => ?_, fun c hc => ?_⟩
    · rw [Program.areas, hareas]
      exact hroot.trans hs.root
    · rcases hi.live b hb with hbelow | ⟨hb', hnot⟩
      · exact (Forest.Below.refl.child ((links_congr hroot).trans hs.links) hx).trans hbelow
      · exact hi.below_outside (hs.all b hb') hnot
    · obtain ⟨d, hd, hcptr, hcarea⟩ := hlist c hc
      rw [hcptr, hcarea]
      by_cases hdx : d.area = x
      · rw [hdx]
        exact hptr d hd hdx
      · have hd' : d.area ∈ p.areas ++ home.nodes := Sound.area_mem hd
        show d.ptr ∈ h'.chunksOf d.area
        rw [chunksOf_congr (hi.areas d.area (hs.isSome hd') (hs.disjoint hd' hx hdx .refl))]
        exact hs.ptrs d hd
  refine ⟨hsound, rfl, fun y hy => ?_, fun cp hcp => ?_⟩
  · exact hi.spared hs.owned (hs.isSome hy.1) fun b hb => hs.disjoint hy.1 hx hy.2 hb
  · obtain ⟨hlive, honly⟩ := hs.owned.chunk_of_mem (hs.mem_chunksOf_root hcp)
    exact hi.chunks cp hlive fun b hb hin => hs.root_not_below hx (honly b hin ▸ hb)

/-- The area of a connection is destroyed, and the connection taken from the list. -/
theorem Sound.destroyed (hs : Sound home p) (hc : c ∈ p.connectionList)
    (hd : Destroyed p.heap c.area h') (ho' : Owned h') :
    Keeps home (p.others home c.area) p
      { p with heap := h', connectionList := p.connectionList.erase c } := by
  have hca : c.area ∈ p.areas ++ home.nodes := Sound.area_mem hc
  obtain ⟨ns, hlinks⟩ := hs.child hca
  obtain ⟨node, hnode, hparent, -⟩ := exists_of_links hlinks
  obtain ⟨-, rnode, hrnode, -, hrnode', -⟩ := hd.parent node p.root hnode hparent
  rw [hs.root] at hrnode
  cases hrnode
  have herase : (p.areas ++ home.nodes).erase c.area =
      (p.connectionList.erase c).map Conn.area ++ home.nodes := by
    rw [map_erase_of_nodup hs.nodup_areas hc]
    exact List.erase_append_left _ (List.mem_map_of_mem hc)
  have hsound : Sound home { p with heap := h', connectionList := p.connectionList.erase c } := by
    refine ⟨ho', hs.orphan, ?_, fun b hb => ?_, fun d hdmem => ?_⟩
    · rw [Program.areas, ← herase]
      exact hrnode'
    · refine hd.below_spared (hs.all b (hd.shrinks hb)) fun hba => ?_
      rw [(hd.areas b hba).2] at hb
      cases hb
    · have hdlist := List.mem_of_mem_erase hdmem
      have hda : d.area ∈ p.areas ++ home.nodes := Sound.area_mem hdlist
      have hne : d.area ≠ c.area := by
        intro heq
        obtain rfl := List.inj_on_of_nodup_map hs.nodup_areas hdlist hc heq
        exact (hs.nodup_areas.of_map Conn.area).not_mem_erase hdmem
      obtain ⟨ks, hks⟩ := hs.child hda
      show d.ptr ∈ h'.chunksOf d.area
      rw [(hd.spares (hs.disjoint hda hca hne .refl) hks).1]
      exact hs.ptrs d hdlist
  refine ⟨hsound, rfl, fun y hy => hd.spared hs.owned fun b hb => ⟨?_, ?_⟩, fun cp hcp => ?_⟩
  · exact hs.disjoint hy.1 hca hy.2 hb
  · intro node' hnode' hpar
    rw [hnode] at hnode'
    cases hnode'
    rw [hparent] at hpar
    cases hpar
    exact hs.root_not_below hy.1 hb
  · obtain ⟨-, honly⟩ := hs.owned.chunk_of_mem (hs.mem_chunksOf_root hcp)
    exact hd.kept cp fun b hb hin => hs.root_not_below hca (honly b hin ▸ hb)

/-! ## The functions of `main.c` -/

theorem Sound.held (hs : Sound home p) (hc : c ∈ p.connectionList) :
    Held c.area c.area (some c.ptr) p.heap := by
  obtain ⟨ns, hlinks⟩ := hs.child (Sound.area_mem hc)
  refine ⟨hs.owned, ⟨_, ns, hlinks⟩, fun cp hcp => ?_, Or.inl rfl⟩
  cases hcp
  exact hs.ptrs c hc

/-- Calls of one connection that leave its `connection_t` alone. -/
theorem Sound.calls (hs : Sound home p) (hc : c ∈ p.connectionList) {spare : Nat}
    (hh : Held c.area spare (some c.ptr) h') (hi : Inside p.heap c.area h') :
    Keeps home (p.others home c.area) p { p with heap := h' } := by
  refine hs.inside (Sound.area_mem hc) hi (fun d hd hdc => ?_) rfl fun d hd => ⟨d, hd, rfl, rfl⟩
  obtain rfl := List.inj_on_of_nodup_map hs.nodup_areas hd hc hdc
  exact hh.chunk d.ptr rfl

theorem Sound.closeConnection_eq (hs : Sound home p) (hc : c ∈ p.connectionList) (depth : Nat)
    (frees : List Op) : Lifecycle.closeConnection depth p c.ptr frees = (do
      let h ← Lifecycle.runCalls p.heap frees
      let h ← Heap.areaDestroy depth h c.area
      return ({ p with heap := h, connectionList := p.connectionList.erase c }, c.jmp)) := by
  have hlive := (hs.owned.chunk_of_mem (hs.ptrs c hc)).1
  obtain ⟨x, hx⟩ := Option.isSome_iff_exists.mp hlive
  rw [Lifecycle.closeConnection, hs.find hc]
  simp only [chunk_eq hx]
  rfl

theorem Sound.closeConnection (hs : Sound home p) (hc : c ∈ p.connectionList) {frees : List Op}
    (hok : CallsOk c.area c.area (some c.ptr) p.heap frees) (depth : Nat) :
    (∃ p', Lifecycle.closeConnection depth p c.ptr frees = .ok (p', c.jmp) ∧
      p'.connectionList = p.connectionList.erase c ∧ p'.heap.chunks c.ptr = none ∧
      Keeps home (p.others home c.area) p p') ∨
    Lacking (Lifecycle.closeConnection depth p c.ptr frees) := by
  rw [hs.closeConnection_eq hc]
  rcases (hs.held hc).runCalls hok with ⟨h₁, hrun, hh₁, hi₁⟩ | hlacking
  · have hk₁ := hs.calls hc hh₁ hi₁
    have harea : (h₁.areas c.area).isSome := hk₁.sound.isSome (Sound.area_mem hc)
    rw [hrun]
    rcases hk₁.sound.owned.areaDestroy_or harea depth with ⟨h₂, hdes, hd, ho₂⟩ | herr
    · have hk₂ := hk₁.sound.destroyed hc hd ho₂
      refine Or.inl ⟨{ p with heap := h₂, connectionList := p.connectionList.erase c }, ?_, rfl,
        (hd.chunks c.area c.ptr .refl (hk₁.sound.ptrs c hc)).2, hk₁.trans hk₂⟩
      show (Heap.areaDestroy depth h₁ c.area >>= _) = _
      rw [hdes]
      rfl
    · refine Or.inr (Or.inr ?_)
      show (Heap.areaDestroy depth h₁ c.area >>= _) = _
      rw [herr]
      rfl
  · exact Or.inr (hlacking.bind _)

theorem Sound.closeConnection_ends (hs : Sound home p) (hc : c ∈ p.connectionList)
    {frees : List Op} (hok : CallsOk c.area c.area (some c.ptr) p.heap frees) :
    Ends .depth fun depth => Lifecycle.closeConnection depth p c.ptr frees := by
  simp only [hs.closeConnection_eq hc]
  refine .after hok.ends fun h₁ hrun => ?_
  rcases (hs.held hc).runCalls hok with ⟨h, hrun', hh, hi⟩ | hlacking
  · rw [hrun] at hrun'
    cases hrun'
    have hsound := (hs.calls hc hh hi).sound
    exact (hsound.owned.areaDestroy_ends (hsound.isSome (Sound.area_mem hc))).bind
      fun _ => ok_ne_error
  · rw [hrun] at hlacking
    rcases hlacking with herr | herr <;> cases herr

/-- The blocks are free ones, and the calls those of the new connection. -/
structure AcceptOk (sizeofConn : UInt64) (p : Program) (area ptr : Nat) (setup frees : List Op) :
    Prop where
  noArea : p.heap.areas area = none
  noChunk : p.heap.chunks ptr = none
  own : ∀ h, (do let h ← p.heap.areaNode p.root area; h.calloc area ptr 1 sizeofConn) = .ok h →
    CallsOk area area (some ptr) h setup ∧
      ∀ h', runCalls h setup = .ok h' → CallsOk area area (some ptr) h' frees

section New

variable (hs : Sound home p) {area ptr : Nat} (harea : p.heap.areas area = none)
  (hptr : p.heap.chunks ptr = none) {h₁ h₂ : Heap} {size : UInt64}
  (hnode : p.heap.areaNode p.root area = .ok h₁) (hrun : h₁.calloc area ptr 1 size = .ok h₂)

include hs harea in
theorem Sound.root_ne_new : p.root ≠ area :=
  ne_of_apply_ne p.heap.areas (by rw [harea]; exact Option.isSome_iff_ne_none.mp hs.root_isSome)

include hptr hs in
/-- A chunk of an area is not the new one. -/
theorem Sound.chunk_ne_new {b cp : Nat} (hcp : cp ∈ p.heap.chunksOf b) : cp ≠ ptr :=
  ne_of_apply_ne p.heap.chunks
    (by rw [hptr]; exact Option.isSome_iff_ne_none.mp (hs.owned.chunk_of_mem hcp).1)

include hs harea hptr hnode hrun

theorem Sound.chunks_new {b cp : Nat} (hcp : cp ∈ p.heap.chunksOf b) :
    h₂.chunks cp = p.heap.chunks cp := by
  obtain ⟨-, hchunks, -⟩ := areaNode_grows harea hnode
  have hne := hs.chunk_ne_new hptr hcp
  exact ((touches_new hrun).chunks cp fun hin => hne (List.mem_singleton.mp hin)).trans
    (congrFun hchunks cp)

theorem Sound.sound_new : Sound home { p with
    heap := h₂, connectionList := ⟨ptr, area, false⟩ :: p.connectionList } := by
  have hra := hs.root_ne_new harea
  have ho₁ : Owned h₁ := (hs.owned.areaNode hs.root_isSome harea).of_eq_ok hnode
  have hi₁ := hs.owned.inside_areaNode hs.root_isSome harea .refl hnode
  obtain ⟨-, hchunks, hgrow⟩ := areaNode_grows harea hnode
  have hroot₁ : h₁.areas p.root =
      some { home with nodes := area :: (p.areas ++ home.nodes) } := by
    obtain ⟨node, hn, hnode⟩ := exists_of_bind_eq_ok hnode
    have hn := area_eq_ok hn
    rw [hs.root] at hn
    cases hn
    cases hnode
    rw [areas_setArea_of_ne hra, areas_setArea_self]
  have harea₁ : (h₁.areas area).isSome := isSome_links.mp (by rw [links_areaNode hnode]; rfl)
  have hptr₁ : h₁.chunks ptr = none := (congrFun hchunks ptr).trans hptr
  have ht : Touches h₁ [area] [ptr] h₂ := touches_new hrun
  have hroot₂ := (ht.areas p.root fun hin => hra (List.mem_singleton.mp hin)).trans hroot₁
  refine ⟨(ho₁.calloc harea₁ hptr₁ 1 size).of_eq_ok hrun, hs.orphan, hroot₂, fun b hb => ?_,
    fun c hc => ?_⟩
  · have hb₁ : (h₁.areas b).isSome := by
      rwa [← isSome_links, ← ht.links, isSome_links]
    show Forest.Below h₂.links p.root b
    rw [ht.links]
    rcases hi₁.live b hb₁ with hbelow | ⟨hb₀, hnot⟩
    · exact hbelow
    · exact absurd (hs.all b hb₀) hnot
  · rcases List.mem_cons.mp hc with rfl | hc
    · obtain ⟨x, -, hadd⟩ := exists_of_bind_eq_ok hrun
      exact mem_chunksOf_addChunk hadd
    · have hcp := hs.ptrs c hc
      obtain ⟨ns, hlinks⟩ := hs.child (Sound.area_mem hc)
      refine ht.lists c.area c.ptr (fun hin => ?_) ?_
      · exact hs.chunk_ne_new hptr hcp (List.mem_singleton.mp hin)
      · rw [(hgrow c.area _ ns hlinks).1]
        exact hcp

/-- The new connection leaves all that was there. -/
theorem Sound.newArea : Keeps home (p.others home area) p { p with
    heap := h₂, connectionList := ⟨ptr, area, false⟩ :: p.connectionList } := by
  obtain ⟨hsame, -, -⟩ := areaNode_grows harea hnode
  have ht : Touches h₁ [area] [ptr] h₂ := touches_new hrun
  refine ⟨hs.sound_new harea hptr hnode hrun, rfl, fun y hy => ⟨fun b hb => ?_, fun b cp _ hcp =>
    hs.chunks_new harea hptr hnode hrun hcp⟩, fun cp hcp => ?_⟩
  · have hlive := hs.owned.isSome_below (hs.isSome hy.1) hb
    have hba : b ≠ area :=
      ne_of_apply_ne p.heap.areas (by rw [harea]; exact Option.isSome_iff_ne_none.mp hlive)
    have hbr : b ≠ p.root := fun hbr => hs.root_not_below hy.1 (hbr ▸ hb)
    exact (ht.areas b fun hin => hba (List.mem_singleton.mp hin)).trans (hsame b hbr hba)
  · exact hs.chunks_new harea hptr hnode hrun (hs.mem_chunksOf_root hcp)

end New

/-- Only the room for the `connection_t` may be missing. -/
theorem Sound.calloc_yields (hs : Sound home p) {area ptr : Nat} (harea : p.heap.areas area = none)
    (hptr : p.heap.chunks ptr = none) {h₁ : Heap} (hnode : p.heap.areaNode p.root area = .ok h₁)
    (size : UInt64) : Yields .outside Owned (h₁.calloc area ptr 1 size) := by
  obtain ⟨-, hchunks, -⟩ := areaNode_grows harea hnode
  have harea₁ : (h₁.areas area).isSome := isSome_links.mp (by rw [links_areaNode hnode]; rfl)
  have ho₁ : Owned h₁ := (hs.owned.areaNode hs.root_isSome harea).of_eq_ok hnode
  exact ho₁.calloc harea₁ ((congrFun hchunks ptr).trans hptr) 1 size

theorem Sound.newConnection (hs : Sound home p) {sizeofConn : UInt64} {area ptr : Nat}
    {setup frees : List Op} (hok : AcceptOk sizeofConn p area ptr setup frees) :
    (∃ p', Lifecycle.newConnection sizeofConn p area ptr setup = .ok p' ∧
      p'.connectionList = ⟨ptr, area, false⟩ :: p.connectionList ∧
      Keeps home (p.others home area) p p' ∧
      CallsOk area area (some ptr) p'.heap frees) ∨
    Lacking (Lifecycle.newConnection sizeofConn p area ptr setup) := by
  obtain ⟨h₁, hnode⟩ := exists_areaNode hs.root_isSome area
  rw [Lifecycle.newConnection, hnode]
  show _ ∨ Lacking (h₁.calloc area ptr 1 sizeofConn >>= _)
  cases hcalloc : h₁.calloc area ptr 1 sizeofConn with
  | error e =>
      have hy := hs.calloc_yields hok.noArea hok.noChunk hnode sizeofConn
      rw [hcalloc] at hy
      exact Or.inr (Or.inl (congrArg Except.error hy))
  | ok h₂ =>
      have hk := hs.newArea hok.noArea hok.noChunk hnode hcalloc
      obtain ⟨hsetup, hfrees⟩ := hok.own h₂ (by rw [hnode]; exact hcalloc)
      have hmem : (⟨ptr, area, false⟩ : Conn) ∈ ⟨ptr, area, false⟩ :: p.connectionList :=
        List.mem_cons_self
      rcases (hk.sound.held hmem).runCalls hsetup with ⟨h₃, hrun, hh₃, hi₃⟩ | hlacking
      · have hk₃ := hk.sound.calls hmem hh₃ hi₃
        refine Or.inl ⟨_, ?_, rfl, hk.trans (hk₃.mono fun y hy => ⟨?_, hy.2⟩), hfrees h₃ hrun⟩
        · show (h₁.calloc area ptr 1 sizeofConn >>= _) = _
          rw [hcalloc]
          show (Lifecycle.runCalls h₂ setup >>= _) = _
          rw [hrun]
          rfl
        · exact List.mem_cons_of_mem area hy.1
      · exact Or.inr (hlacking.bind _)

theorem Sound.newConnection_ne_depth (hs : Sound home p) {sizeofConn : UInt64} {area ptr : Nat}
    {setup frees : List Op} (hok : AcceptOk sizeofConn p area ptr setup frees) :
    Lifecycle.newConnection sizeofConn p area ptr setup ≠ .error .depth := by
  obtain ⟨h₁, hnode⟩ := exists_areaNode hs.root_isSome area
  have hy := hs.calloc_yields hok.noArea hok.noChunk hnode sizeofConn
  have hcalloc : h₁.calloc area ptr 1 sizeofConn ≠ .error .depth :=
    hy.ne_error (by decide)
  rw [Lifecycle.newConnection, hnode]
  refine bind_ne_error (x := h₁.calloc area ptr 1 sizeofConn) hcalloc fun h₂ hrun => ?_
  have hsetup := (hok.own h₂ (by rw [hnode]; exact hrun)).1
  exact bind_ne_error hsetup.ends fun _ _ => ok_ne_error

/-- The connection is there, the temporary area is a new one, and the calls are those of the
connection. -/
structure WakeOk (p : Program) (c : Conn) (atmp : Nat) (body : List Op)
    (close : Option (List Op)) : Prop where
  mem : c ∈ p.connectionList
  noArea : p.heap.areas atmp = none
  own : ∀ h, p.heap.areaNode c.area atmp = .ok h → CallsOk c.area atmp (some c.ptr) h body ∧
    ∀ h', runCalls h body = .ok h' → ∀ frees, close = some frees →
      CallsOk c.area c.area (some c.ptr) h' frees

/-- What the callback has done when it comes to its end. -/
theorem Sound.body (hs : Sound home p) {atmp : Nat} {body : List Op} {close : Option (List Op)}
    (hok : WakeOk p c atmp body close) :
    ∃ h₁, p.heap.areaNode c.area atmp = .ok h₁ ∧
      ((∃ h₂, runCalls h₁ body = .ok h₂ ∧ Held c.area atmp (some c.ptr) h₂ ∧
        Inside p.heap c.area h₂ ∧ ∃ ns, h₂.links atmp = some (some c.area, ns)) ∨
      Lacking (runCalls h₁ body)) := by
  have hlive := hs.isSome (Sound.area_mem hok.mem)
  obtain ⟨ns, hlinks⟩ := hs.child (Sound.area_mem hok.mem)
  obtain ⟨h₁, hrun₁⟩ := exists_areaNode hlive atmp
  have hi₁ := hs.owned.inside_areaNode hlive hok.noArea .refl hrun₁
  obtain ⟨-, -, hgrow⟩ := areaNode_grows hok.noArea hrun₁
  obtain ⟨hchunks, ns', hlinks', -, -⟩ := hgrow c.area _ ns hlinks
  have hh₁ : Held c.area atmp (some c.ptr) h₁ := by
    refine ⟨hi₁.owned, ⟨_, ns', hlinks'⟩, fun cp hcp => ?_, Or.inr ⟨[], links_areaNode hrun₁⟩⟩
    cases hcp
    rw [hchunks]
    exact hs.ptrs c hok.mem
  refine ⟨h₁, hrun₁, ?_⟩
  rcases hh₁.runCalls (hok.own h₁ hrun₁).1 with ⟨h₂, hrun₂, hh₂, hi₂⟩ | hlacking
  · have hne : atmp ≠ c.area := by
      rintro rfl
      rw [hok.noArea] at hlive
      cases hlive
    exact Or.inl ⟨h₂, hrun₂, hh₂, hi₁.trans hi₂ hs.owned, hh₂.spare.resolve_left hne⟩
  · exact Or.inr hlacking

@[simp]
theorem area_setJmp (ptr : Nat) (d : Conn) : (setJmp ptr d).area = d.area := by
  unfold setJmp
  split <;> rfl

@[simp]
theorem ptr_setJmp (ptr : Nat) (d : Conn) : (setJmp ptr d).ptr = d.ptr := by
  unfold setJmp
  split <;> rfl

theorem setJmp_self (c : Conn) : setJmp c.ptr c = { c with jmp := true } := if_pos rfl

theorem map_area_setJmp (ptr : Nat) (list : List Conn) :
    (list.map (setJmp ptr)).map Conn.area = list.map Conn.area := by
  rw [List.map_map]
  exact List.map_congr_left fun d _ => area_setJmp ptr d

theorem Sound.erase_setJmp (hs : Sound home p) (hc : c ∈ p.connectionList) :
    (p.connectionList.map (setJmp c.ptr)).erase (setJmp c.ptr c) = p.connectionList.erase c := by
  have hn : (p.connectionList.map (setJmp c.ptr)).Nodup := by
    refine List.Nodup.of_map Conn.area ?_
    rw [map_area_setJmp]
    exact hs.nodup_areas
  rw [← map_erase_of_nodup hn hc]
  calc (p.connectionList.erase c).map (setJmp c.ptr)
      = (p.connectionList.erase c).map id := by
        refine List.map_congr_left fun d hd => if_neg fun hptr => ?_
        obtain rfl := hs.eq_of_ptr hc (List.mem_of_mem_erase hd) hptr
        exact (hs.nodup_areas.of_map Conn.area).not_mem_erase hd
    _ = p.connectionList.erase c := List.map_id _

/-- The program when a callback of the connection at `ptr` comes to its end. -/
def Program.jumped (p : Program) (ptr : Nat) (h : Heap) : Program :=
  { p with heap := h, connectionList := p.connectionList.map (setJmp ptr) }

@[simp]
theorem areas_jumped (p : Program) (ptr : Nat) (h : Heap) : (p.jumped ptr h).areas = p.areas :=
  map_area_setJmp ptr p.connectionList

theorem others_jumped (p : Program) (home : Node) (ptr : Nat) (h : Heap) (x : Nat) :
    (p.jumped ptr h).others home x = p.others home x := by
  rw [Program.others, areas_jumped, Program.others]

theorem mem_jumped (hc : c ∈ p.connectionList) (h : Heap) :
    { c with jmp := true } ∈ (p.jumped c.ptr h).connectionList :=
  setJmp_self c ▸ List.mem_map_of_mem hc

theorem Sound.jumped (hs : Sound home p) (hc : c ∈ p.connectionList) {spare : Nat}
    (hh : Held c.area spare (some c.ptr) h') (hi : Inside p.heap c.area h') :
    Keeps home (p.others home c.area) p (p.jumped c.ptr h') := by
  refine hs.inside (Sound.area_mem hc) hi (fun d hd hdc => ?_)
    (map_area_setJmp c.ptr p.connectionList) fun d hd => ?_
  · obtain rfl := List.inj_on_of_nodup_map hs.nodup_areas hd hc hdc
    exact hh.chunk d.ptr rfl
  · obtain ⟨e, he, rfl⟩ := List.mem_map.mp hd
    exact ⟨e, he, ptr_setJmp _ _, area_setJmp _ _⟩

/-- A callback that comes to its end destroys the area it was given. -/
theorem Sound.finish_none (hs : Sound home p) (hc : c ∈ p.connectionList) {atmp : Nat}
    {ns : List Nat} (hh : Held c.area atmp (some c.ptr) p.heap)
    (hspare : p.heap.links atmp = some (some c.area, ns)) (depth : Nat) :
    (∃ h, finish depth p c.ptr atmp none = .ok { p with heap := h } ∧ Destroyed p.heap atmp h ∧
      Keeps home (p.others home c.area) p { p with heap := h }) ∨
    Lacking (finish depth p c.ptr atmp none) := by
  have hlive : (p.heap.areas atmp).isSome := isSome_links.mp (by rw [hspare]; rfl)
  rw [finish]
  rcases hs.owned.areaDestroy_or hlive depth with ⟨h, hdes, hd, ho⟩ | herr
  · obtain ⟨hh', hi⟩ := hh.destroyed hspare hd ho
    refine Or.inl ⟨h, ?_, hd, hs.calls hc hh' hi⟩
    show (Heap.areaDestroy depth p.heap atmp >>= _) = _
    rw [hdes]
    rfl
  · refine Or.inr (Or.inr ?_)
    show (Heap.areaDestroy depth p.heap atmp >>= _) = _
    rw [herr]
    rfl

/-- One that closes its connection is left by `longjmp`. -/
theorem Sound.finish_some (hs : Sound home p) (hc : c ∈ p.connectionList) (hjmp : c.jmp = true)
    {frees : List Op} (hok : CallsOk c.area c.area (some c.ptr) p.heap frees)
    (depth atmp : Nat) :
    (∃ p', finish depth p c.ptr atmp (some frees) = .ok p' ∧
      p'.connectionList = p.connectionList.erase c ∧ Keeps home (p.others home c.area) p p') ∨
    Lacking (finish depth p c.ptr atmp (some frees)) := by
  rw [finish]
  rcases hs.closeConnection hc hok depth with ⟨p', hclose, hlist, -, hk⟩ | hlacking
  · refine Or.inl ⟨p', ?_, hlist, hk⟩
    rw [hclose, hjmp]
    rfl
  · exact Or.inr (hlacking.bind _)

/-- What is left of a callback that came to its end, or closed the connection. -/
def Ended (p : Program) (c : Conn) (atmp : Nat) (body : List Op) (p' : Program) :
    Option (List Op) → Prop
  | none => p'.connectionList = p.connectionList.map (setJmp c.ptr) ∧ ∃ h,
      (do let h ← p.heap.areaNode c.area atmp; runCalls h body) = .ok h ∧ Destroyed h atmp p'.heap
  | some _ => p'.connectionList = p.connectionList.erase c

theorem Sound.callback_eq (hs : Sound home p) (hc : c ∈ p.connectionList) {atmp : Nat}
    (hnode : p.heap.areaNode c.area atmp = .ok h') (depth : Nat) (body : List Op)
    (close : Option (List Op)) :
    Lifecycle.callback depth p c.ptr atmp body close = (do
      let h ← runCalls h' body
      finish depth (p.jumped c.ptr h) c.ptr atmp close) := by
  rw [Lifecycle.callback, hs.find hc]
  show (p.heap.areaNode c.area atmp >>= _) = _
  rw [hnode]
  rfl

theorem Sound.callback (hs : Sound home p) {atmp : Nat} {body : List Op}
    {close : Option (List Op)} (hok : WakeOk p c atmp body close) (depth : Nat) :
    (∃ p', Lifecycle.callback depth p c.ptr atmp body close = .ok p' ∧
      Ended p c atmp body p' close ∧ Keeps home (p.others home c.area) p p') ∨
    Lacking (Lifecycle.callback depth p c.ptr atmp body close) := by
  obtain ⟨h₁, hnode, hbody⟩ := hs.body hok
  rw [hs.callback_eq hok.mem hnode]
  rcases hbody with ⟨h₂, hrun, hh, hi, ns, hspare⟩ | hlacking
  case inr => exact Or.inr (hlacking.bind _)
  rw [hrun]
  show (∃ p', finish depth (p.jumped c.ptr h₂) c.ptr atmp close = .ok p' ∧ _) ∨
    Lacking (finish depth (p.jumped c.ptr h₂) c.ptr atmp close)
  have hk := hs.jumped hok.mem hh hi
  have hmem := mem_jumped hok.mem h₂
  cases close with
  | none =>
      rcases hk.sound.finish_none hmem hh hspare depth with ⟨h₃, hfin, hd, hk₃⟩ | hlacking
      · rw [others_jumped] at hk₃
        refine Or.inl ⟨_, hfin, ⟨rfl, h₂, ?_, hd⟩, hk.trans hk₃⟩
        rw [hnode]
        exact hrun
      · exact Or.inr hlacking
  | some frees =>
      have hfrees := (hok.own h₁ hnode).2 h₂ hrun frees rfl
      rcases hk.sound.finish_some hmem rfl hfrees depth atmp with ⟨p', hfin, hlist, hk'⟩ | hlacking
      · rw [others_jumped] at hk'
        refine Or.inl ⟨p', hfin, ?_, hk.trans hk'⟩
        rw [Ended, hlist, ← setJmp_self]
        exact hs.erase_setJmp hok.mem
      · exact Or.inr hlacking

theorem chunk_ne_depth (h : Heap) (cp : Nat) : h.chunk cp ≠ .error .depth := by
  unfold Heap.chunk
  split
  · exact ok_ne_error
  · exact fun herr => absurd (Except.error.inj herr) (by decide)

/-- What is done behind `irC6_close_connection`, where it returns. -/
theorem used_ne_depth (ptr : Nat) (r : Program × Bool) :
    (if r.2 then return r.1 else do
      let _ ← r.1.heap.chunk ptr
      return r.1 : Except Fault Program) ≠ .error .depth := by
  split
  · exact ok_ne_error
  · exact bind_ne_error (chunk_ne_depth _ _) fun _ _ => ok_ne_error

theorem Sound.callback_ends (hs : Sound home p) {atmp : Nat} {body : List Op}
    {close : Option (List Op)} (hok : WakeOk p c atmp body close) :
    Ends .depth fun depth => Lifecycle.callback depth p c.ptr atmp body close := by
  obtain ⟨h₁, hnode, hbody⟩ := hs.body hok
  obtain ⟨hcalls, hcloses⟩ := hok.own h₁ hnode
  simp only [hs.callback_eq hok.mem hnode]
  refine .after hcalls.ends fun h₂ hrun => ?_
  rcases hbody with ⟨h, hrun', hh, hi, ns, hspare⟩ | hlacking
  case inr =>
    rw [hrun] at hlacking
    rcases hlacking with herr | herr <;> cases herr
  rw [hrun] at hrun'
  cases hrun'
  have hk := hs.jumped hok.mem hh hi
  cases close with
  | none =>
      have hlive : (h₂.areas atmp).isSome := isSome_links.mp (by rw [hspare]; rfl)
      exact (hh.owned.areaDestroy_ends hlive).bind fun _ => ok_ne_error
  | some frees =>
      have hclose := hk.sound.closeConnection_ends (mem_jumped hok.mem h₂)
        (hcloses h₂ hrun frees rfl)
      exact hclose.bind (used_ne_depth c.ptr)

/-- Without an address of its own the connection is closed, and then used. -/
theorem Sound.addConnection (hs : Sound home p) {sizeofConn : UInt64} {area ptr : Nat}
    {setup frees : List Op} (hok : AcceptOk sizeofConn p area ptr setup frees) (depth : Nat) :
    ((∃ p', Lifecycle.addConnection sizeofConn depth p area ptr setup frees true = .ok p' ∧
        p'.connectionList = ⟨ptr, area, false⟩ :: p.connectionList ∧
        Keeps home (p.others home area) p p') ∨
      Lacking (Lifecycle.addConnection sizeofConn depth p area ptr setup frees true)) ∧
    (Lifecycle.addConnection sizeofConn depth p area ptr setup frees false = .error .dangling ∨
      Lacking (Lifecycle.addConnection sizeofConn depth p area ptr setup frees false)) := by
  unfold Lifecycle.addConnection
  rcases hs.newConnection hok with ⟨p₁, hnew, hlist, hk, hfrees⟩ | hlacking
  · rw [hnew]
    refine ⟨Or.inl ⟨p₁, rfl, hlist, hk⟩, ?_⟩
    have hmem : (⟨ptr, area, false⟩ : Conn) ∈ p₁.connectionList := by
      rw [hlist]
      exact List.mem_cons_self
    show (Lifecycle.closeConnection depth p₁ ptr frees >>= _) = _ ∨
      Lacking (Lifecycle.closeConnection depth p₁ ptr frees >>= _)
    rcases hk.sound.closeConnection hmem hfrees depth with ⟨p₂, hclose, -, hgone, -⟩ | hlacking
    · refine Or.inl ?_
      rw [hclose]
      show (p₂.heap.chunk ptr >>= _) = _
      rw [Heap.chunk, hgone]
      rfl
    · exact Or.inr (hlacking.bind _)
  · exact ⟨Or.inr (hlacking.bind _), Or.inr (hlacking.bind _)⟩

theorem Sound.addConnection_ends (hs : Sound home p) {sizeofConn : UInt64} {area ptr : Nat}
    {setup frees : List Op} (hok : AcceptOk sizeofConn p area ptr setup frees) (getMyIp : Bool) :
    Ends .depth fun depth =>
      Lifecycle.addConnection sizeofConn depth p area ptr setup frees getMyIp := by
  refine .after (hs.newConnection_ne_depth hok) fun p₁ hnew => ?_
  cases getMyIp with
  | true => exact .const ok_ne_error
  | false =>
      rcases hs.newConnection hok with ⟨p₂, hnew', hlist, hk, hfrees⟩ | hlacking
      · rw [hnew] at hnew'
        cases hnew'
        have hmem : (⟨ptr, area, false⟩ : Conn) ∈ p₁.connectionList := by
          rw [hlist]
          exact List.mem_cons_self
        exact (hk.sound.closeConnection_ends hmem hfrees).bind (used_ne_depth ptr)
      · rw [hnew] at hlacking
        rcases hlacking with herr | herr <;> cases herr

theorem Sound.held_root (hs : Sound home p) : Held p.root p.root none p.heap :=
  ⟨hs.owned, ⟨_, _, hs.links⟩, fun _ hcp => absurd hcp.symm (Option.some_ne_none _), Or.inl rfl⟩

theorem Sound.exitProgram (hs : Sound home p) {frees : List Op}
    (hok : CallsOk p.root p.root none p.heap frees) (depth : Nat) :
    (∃ h, Lifecycle.exitProgram depth p frees = .ok h ∧ (∀ b, h.areas b = none) ∧
      ∀ cp, h.chunks cp = none) ∨
    Lacking (Lifecycle.exitProgram depth p frees) := by
  rw [Lifecycle.exitProgram]
  rcases hs.held_root.runCalls hok with ⟨h₁, hrun, hh₁, hi₁⟩ | hlacking
  case inr => exact Or.inr (hlacking.bind _)
  obtain ⟨q, ns, hlinks⟩ := hh₁.place
  have hroot : (h₁.areas p.root).isSome := isSome_links.mp (by rw [hlinks]; rfl)
  rw [hrun]
  rcases hh₁.owned.areaDestroy_or hroot depth with ⟨h₂, hdes, hd, ho₂⟩ | herr
  · have hareas : ∀ b, h₂.areas b = none := by
      intro b
      by_contra hb
      have hb := Option.isSome_iff_ne_none.mpr hb
      rcases hi₁.live b (hd.shrinks hb) with hbelow | ⟨hb₀, hnot⟩
      · rw [(hd.areas b hbelow).2] at hb
        cases hb
      · exact hnot (hs.all b hb₀)
    refine Or.inl ⟨h₂, hdes, hareas, fun cp => ?_⟩
    by_contra hcp
    obtain ⟨a, node, ha, -⟩ := ho₂.filed.owner cp (Option.isSome_iff_ne_none.mpr hcp) (by simp)
    rw [hareas a] at ha
    cases ha
  · exact Or.inr (Or.inr herr)

theorem Sound.exitProgram_ends (hs : Sound home p) {frees : List Op}
    (hok : CallsOk p.root p.root none p.heap frees) :
    Ends .depth fun depth => Lifecycle.exitProgram depth p frees := by
  refine .after hok.ends fun h₁ hrun => ?_
  rcases hs.held_root.runCalls hok with ⟨h, hrun', hh, -⟩ | hlacking
  · rw [hrun] at hrun'
    cases hrun'
    obtain ⟨q, ns, hlinks⟩ := hh.place
    exact hh.owned.areaDestroy_ends (isSome_links.mp (by rw [hlinks]; rfl))
  · rw [hrun] at hlacking
    rcases hlacking with herr | herr <;> cases herr

theorem Program.areas_nil (hlist : p.connectionList = []) : p.areas ++ home.nodes = home.nodes := by
  rw [Program.areas, hlist]
  rfl

/-- Without connections each area is the root area or lies below one of `main`. -/
theorem Sound.below_home (hs : Sound home p) (hlist : p.connectionList = []) {b : Nat}
    (hb : (p.heap.areas b).isSome) :
    b = p.root ∨ ∃ y ∈ home.nodes, Forest.Below p.heap.links y b := by
  rcases (hs.all b hb).head with hb | ⟨q, ns, y, hlinks, hy, hbelow⟩
  · exact Or.inl hb
  · rw [hs.links, Program.areas_nil hlist] at hlinks
    cases hlinks
    exact Or.inr ⟨y, hy, hbelow⟩

/-- A program whose connections have all been closed has the areas it had without any. -/
theorem Keeps.restored {p₀ : Program} (hs₀ : Sound home p₀) (hlist₀ : p₀.connectionList = [])
    (hk : Keeps home { y | y ∈ home.nodes } p₀ p) (hlist : p.connectionList = []) :
    p.heap = p₀.heap := by
  have hroot : p.heap.areas p₀.root = p₀.heap.areas p₀.root := by
    have hrp := hk.sound.root
    rw [hk.root, Program.areas_nil hlist] at hrp
    rw [hrp, hs₀.root, Program.areas_nil hlist₀]
  have hfirst : ∀ b, (p₀.heap.areas b).isSome →
      b = p₀.root ∨ ∃ y ∈ home.nodes, Forest.Below p₀.heap.links y b :=
    fun _ hb => hs₀.below_home hlist₀ hb
  have hlast : ∀ b, (p.heap.areas b).isSome →
      b = p₀.root ∨ ∃ y ∈ home.nodes, Forest.Below p₀.heap.links y b := by
    intro b hb
    rcases hk.sound.below_home hlist hb with hb | ⟨y, hy, hbelow⟩
    · exact Or.inl (hb.trans hk.root)
    · exact Or.inr ⟨y, hy, (hk.spared y hy).below.mp hbelow⟩
  have hsame : ∀ b, (b = p₀.root ∨ ∃ y ∈ home.nodes, Forest.Below p₀.heap.links y b) →
      p.heap.areas b = p₀.heap.areas b := by
    rintro b (rfl | ⟨y, hy, hbelow⟩)
    · exact hroot
    · exact (hk.spared y hy).areas b hbelow
  have hareas : p.heap.areas = p₀.heap.areas := by
    funext b
    by_cases hb : (p.heap.areas b).isSome
    · exact hsame b (hlast b hb)
    · by_cases hb₀ : (p₀.heap.areas b).isSome
      · exact hsame b (hfirst b hb₀)
      · rw [Option.not_isSome_iff_eq_none.mp hb, Option.not_isSome_iff_eq_none.mp hb₀]
  have hchunks : ∀ a node cp, p₀.heap.areas a = some node → cp ∈ node.list →
      p.heap.chunks cp = p₀.heap.chunks cp := by
    intro a node cp ha hcp
    rcases hfirst a (by rw [ha]; rfl) with rfl | ⟨y, hy, hbelow⟩
    · rw [hs₀.root] at ha
      cases ha
      exact hk.chunks cp hcp
    · exact (hk.spared y hy).chunks a cp hbelow (mem_chunksOf_iff.mpr ⟨node, ha, hcp⟩)
  refine Heap.ext hareas (funext fun cp => ?_)
  by_cases hcp : (p.heap.chunks cp).isSome
  · obtain ⟨a, node, ha, hin⟩ := hk.sound.owned.filed.owner cp hcp (by simp)
    rw [hareas] at ha
    exact hchunks a node cp ha hin
  · by_cases hcp₀ : (p₀.heap.chunks cp).isSome
    · obtain ⟨a, node, ha, hin⟩ := hs₀.owned.filed.owner cp hcp₀ (by simp)
      exact hchunks a node cp ha hin
    · rw [Option.not_isSome_iff_eq_none.mp hcp, Option.not_isSome_iff_eq_none.mp hcp₀]

/-! ## Events -/

def Event.Allowed (sizeofConn : UInt64) (p : Program) : Event → Prop
  | .accept area ptr setup frees _ => AcceptOk sizeofConn p area ptr setup frees
  | .wake ptr atmp body close => ∃ c, c.ptr = ptr ∧ WakeOk p c atmp body close

/-- What an event did. -/
def Event.Done (home : Node) (p p' : Program) : Event → Prop
  | .accept area ptr _ _ getMyIp => getMyIp = true ∧
      p'.connectionList = ⟨ptr, area, false⟩ :: p.connectionList ∧
      Keeps home (p.others home area) p p'
  | .wake ptr atmp body close => ∃ c ∈ p.connectionList, c.ptr = ptr ∧
      Ended p c atmp body p' close ∧ Keeps home (p.others home c.area) p p'

/-- The connection could not be given the address it has. -/
def Event.refused : Event → Bool
  | .accept _ _ _ _ getMyIp => !getMyIp
  | .wake _ _ _ _ => false

theorem Sound.event (hs : Sound home p) {sizeofConn : UInt64} {e : Event}
    (hok : e.Allowed sizeofConn p) (depth : Nat) :
    (∃ p', e.run sizeofConn depth p = .ok (p', ()) ∧ e.Done home p p') ∨
      Lacking (e.run sizeofConn depth p) ∨
      e.refused = true ∧ e.run sizeofConn depth p = .error .dangling := by
  cases e with
  | accept area ptr setup frees getMyIp =>
      obtain ⟨hyes, hno⟩ := hs.addConnection hok depth
      rw [Event.run]
      cases getMyIp with
      | true =>
          rcases hyes with ⟨p', hrun, hlist, hk⟩ | hlacking
          · exact Or.inl ⟨p', by rw [hrun]; rfl, rfl, hlist, hk⟩
          · exact Or.inr (Or.inl (hlacking.map _))
      | false =>
          rcases hno with hrun | hlacking
          · exact Or.inr (Or.inr ⟨rfl, by rw [hrun]; rfl⟩)
          · exact Or.inr (Or.inl (hlacking.map _))
  | wake ptr atmp body close =>
      obtain ⟨c, rfl, hok⟩ := hok
      rw [Event.run]
      rcases hs.callback hok depth with ⟨p', hrun, hended, hk⟩ | hlacking
      · exact Or.inl ⟨p', by rw [hrun]; rfl, c, hok.mem, rfl, hended, hk⟩
      · exact Or.inr (Or.inl (hlacking.map _))

theorem map_ne_depth {α β : Type} {x : Except Fault α} (hx : x ≠ .error .depth) (f : α → β) :
    x.map f ≠ .error .depth := by
  cases x with
  | error e => exact fun herr => hx (congrArg Except.error (Except.error.inj herr))
  | ok a => exact ok_ne_error

theorem Sound.event_ends (hs : Sound home p) {sizeofConn : UInt64} {e : Event}
    (hok : e.Allowed sizeofConn p) : Ends .depth fun depth => e.run sizeofConn depth p := by
  cases e with
  | accept area ptr setup frees getMyIp =>
      obtain ⟨d, hd⟩ := hs.addConnection_ends hok getMyIp
      exact ⟨d, fun depth hdepth => map_ne_depth (hd depth hdepth) _⟩
  | wake ptr atmp body close =>
      obtain ⟨c, rfl, hok⟩ := hok
      obtain ⟨d, hd⟩ := hs.callback_ends hok
      exact ⟨d, fun depth hdepth => map_ne_depth (hd depth hdepth) _⟩

/-- The areas that are not those of connections are spared by every event. -/
theorem Event.Done.keeps (hs : Sound home p) {sizeofConn : UInt64} {e : Event}
    (hok : e.Allowed sizeofConn p) (hd : e.Done home p p') :
    Keeps home { y | y ∈ home.nodes } p p' := by
  cases e with
  | accept area ptr setup frees getMyIp =>
      refine hd.2.2.mono fun y hy => ⟨List.mem_append_right _ hy, ?_⟩
      rintro rfl
      have hlive := hs.isSome (List.mem_append_right _ hy)
      rw [hok.noArea] at hlive
      cases hlive
  | wake ptr atmp body close =>
      obtain ⟨c, hc, -, -, hk⟩ := hd
      refine hk.mono fun y hy => ⟨List.mem_append_right _ hy, ?_⟩
      rintro rfl
      exact hs.area_notMem_home hc hy

/-! ## Runs -/

/-- `main` has come to the loop of libevent. -/
structure Started (root evRoot : Nat) (setup : List Op) (p₀ : Program) : Prop where
  ne : evRoot ≠ root
  own : ∀ h, (areaRoot root).areaNode root evRoot = .ok h → CallsOk root evRoot none h setup
  run : startMain root evRoot setup = .ok p₀

theorem Started.sound {root evRoot : Nat} {setup : List Op} {p₀ : Program}
    (hst : Started root evRoot setup p₀) :
    p₀.root = root ∧ p₀.connectionList = [] ∧
      ∃ home, p₀.heap.areas root = some home ∧ Sound home p₀ := by
  have ho := owned_areaRoot root
  have hlinks := links_areaRoot root
  have hroot : ((areaRoot root).areas root).isSome := isSome_links.mp (by rw [hlinks]; rfl)
  obtain ⟨h₁, hnode⟩ := exists_areaNode hroot evRoot
  have hi₁ := ho.inside_areaNode hroot (areas_areaRoot_of_ne hst.ne) .refl hnode
  obtain ⟨ns, hlinks₁⟩ := hi₁.parent none [] hlinks
  have hh₁ : Held root evRoot none h₁ := ⟨hi₁.owned, ⟨none, ns, hlinks₁⟩,
    fun _ hcp => absurd hcp.symm (Option.some_ne_none _), Or.inr ⟨[], links_areaNode hnode⟩⟩
  have hrun := hst.run
  rw [startMain, hnode] at hrun
  rcases hh₁.runCalls (hst.own h₁ hnode) with ⟨h₂, hcalls, hh₂, hi₂⟩ | hlacking
  · replace hrun : (runCalls h₁ setup >>= fun h => (Except.ok ⟨h, root, []⟩ : Except Fault Program))
        = .ok p₀ := hrun
    rw [hcalls] at hrun
    cases hrun
    have hi := hi₁.trans hi₂ ho
    obtain ⟨ns₂, hlinks₂⟩ := hi.parent none [] hlinks
    obtain ⟨home, hhome, hparent, -⟩ := exists_of_links hlinks₂
    refine ⟨rfl, rfl, home, hhome, hi.owned, hparent, hhome, fun b hb => ?_,
      fun c hc => absurd hc List.not_mem_nil⟩
    rcases hi.live b hb with hbelow | ⟨hb₀, hnot⟩
    · exact hbelow
    · by_cases hbr : b = root
      · exact absurd (hbr ▸ .refl) hnot
      · rw [areas_areaRoot_of_ne hbr] at hb₀
        cases hb₀
  · have herr := hlacking.bind fun h => (Except.ok ⟨h, root, []⟩ : Except Fault Program)
    rcases herr with herr | herr <;> exact absurd (herr.symm.trans hrun) (by simp)

variable {sizeofConn : UInt64} {depth root evRoot : Nat} {setup : List Op} {p₀ : Program}

/-- Whatever connections have come and gone, the program is in order and the areas of `main`
are spared. -/
theorem Started.reaches (hst : Started root evRoot setup p₀)
    (hr : Reaches (Event.run sizeofConn depth) (Event.Allowed sizeofConn) p₀ p) :
    ∃ home, p₀.heap.areas root = some home ∧ Sound home p₀ ∧
      Keeps home { y | y ∈ home.nodes } p₀ p := by
  obtain ⟨-, -, home, hhome, hs₀⟩ := hst.sound
  refine ⟨home, hhome, hs₀, ?_⟩
  have hstart : Keeps home { y | y ∈ home.nodes } p₀ p₀ :=
    ⟨hs₀, rfl, fun y _ => ⟨fun _ _ => rfl, fun _ _ _ _ => rfl⟩, fun _ _ => rfl⟩
  refine hr.invariant hstart fun q q' e _ hk hok hrun => ?_
  rcases hk.sound.event hok depth with ⟨q₁, hrun₁, hdone⟩ | hlacking | ⟨-, herr⟩
  · rw [hrun₁] at hrun
    cases hrun
    exact hk.trans (hdone.keeps hk.sound hok)
  · rcases hlacking with herr | herr
    · rw [herr] at hrun
      cases hrun
    · rw [herr] at hrun
      cases hrun
  · rw [herr] at hrun
    cases hrun

/-- In every run, the areas of the connections are the first ones below the root, in the order
of the list, with each `connection_t` in its own.  An event leaves all the others below the
root as they are, a callback that comes to its end takes what it made for the time with it,
and the only event that faults is that of a connection without an address, which is used after
it has been closed. -/
theorem connections_isolated (hst : Started root evRoot setup p₀)
    (hr : Reaches (Event.run sizeofConn depth) (Event.Allowed sizeofConn) p₀ p) :
    ∃ home, p₀.heap.areas root = some home ∧ Sound home p ∧
      ∀ e : Event, e.Allowed sizeofConn p →
        (∀ depth', (∃ p', e.run sizeofConn depth' p = .ok (p', ()) ∧ e.Done home p p') ∨
          Lacking (e.run sizeofConn depth' p) ∨
          e.refused = true ∧ e.run sizeofConn depth' p = .error .dangling) ∧
        Ends .depth fun depth' => e.run sizeofConn depth' p := by
  obtain ⟨home, hhome, -, hk⟩ := hst.reaches hr
  exact ⟨home, hhome, hk.sound, fun e hok => ⟨hk.sound.event hok, hk.sound.event_ends hok⟩⟩

/-- One connection, whose module has allocated a chunk. -/
theorem reaches_oneConnection {p₀ p : Program} (h₀ : startMain 0 1 [] = .ok p₀)
    (h₁ : addConnection 8 9 p₀ 2 10 [.calloc 2 11 1 8] [.free 2 (some 11)] true = .ok p) :
    Started 0 1 [] p₀ ∧ Reaches (Event.run 8 9) (Event.Allowed 8) p₀ p := by
  refine ⟨⟨by decide, fun _ _ => trivial, h₀⟩, ?_⟩
  cases h₀
  refine .step (.accept 2 10 [.calloc 2 11 1 8] [.free 2 (some 11)] true) .start
    ⟨rfl, rfl, fun h hh => ?_⟩ (by rw [Event.run, h₁]; rfl)
  cases hh
  refine ⟨callsOk_singleton ⟨rfl, rfl⟩ (fun a ha => ?_) rfl (by simp [Op.chunk]) ok_ne_error,
    fun h' hh' => ?_⟩
  · obtain rfl := List.mem_singleton.mp ha
    exact .refl
  · cases hh'
    refine callsOk_singleton (show 11 ∈ [11, 10] by decide) (fun a ha => ?_) rfl
      (by simp [Op.chunk]) ok_ne_error
    obtain rfl := List.mem_singleton.mp ha
    exact .refl

/-- Of two connections the first one is woken, and allocates in its temporary area. -/
theorem connections_isolated_twoConnections :
    ∃ p₀ p₁ p p', startMain 0 1 [] = .ok p₀ ∧
      addConnection 8 9 p₀ 2 10 [.calloc 2 11 1 8] [.free 2 (some 11)] true = .ok p₁ ∧
      addConnection 8 9 p₁ 4 20 [] [] true = .ok p ∧
      callback 9 p 10 3 [.malloc 3 12 5 fun _ => 0] none = .ok p' ∧
      Event.Done ⟨none, [1], 0, []⟩ p p' (.wake 10 3 [.malloc 3 12 5 fun _ => 0] none) ∧
      (p.heap.areas 4).isSome ∧ p'.heap.areas 4 = p.heap.areas 4 := by
  refine ⟨_, _, _, _, rfl, rfl, rfl, rfl, ?_, rfl, rfl⟩
  obtain ⟨hst, hr₁⟩ := reaches_oneConnection rfl rfl
  have hr := Reaches.step (Event.accept 4 20 [] [] true) hr₁
    ⟨rfl, rfl, fun _ _ => ⟨trivial, fun _ _ => trivial⟩⟩ rfl
  obtain ⟨home, hhome, -, hevent⟩ := connections_isolated hst hr
  cases hhome
  have hwake := hevent (.wake 10 3 [.malloc 3 12 5 fun _ => 0] none) (by
    refine ⟨⟨10, 2, false⟩, rfl, List.mem_cons_of_mem _ List.mem_cons_self, rfl, fun h hh =>
      ⟨?_, fun h' _ frees hnone => absurd hnone.symm (Option.some_ne_none _)⟩⟩
    cases hh
    refine callsOk_singleton ⟨rfl, rfl⟩ (fun a ha => ?_) rfl (by simp [Op.chunk])
      ok_ne_error
    obtain rfl := List.mem_singleton.mp ha
    exact .child .refl rfl (show 3 ∈ [3] by decide))
  rcases hwake.1 9 with ⟨p', hrun, hdone⟩ | (herr | herr) | ⟨-, herr⟩
  · cases hrun
    exact hdone
  · cases herr
  · cases herr
  · cases herr

/-- When the last connection has been closed the areas and the chunks are what they were before
the first, and the end of the program leaves none. -/
theorem connections_restored (hst : Started root evRoot setup p₀)
    (hr : Reaches (Event.run sizeofConn depth) (Event.Allowed sizeofConn) p₀ p) :
    (p.connectionList = [] → p.heap = p₀.heap) ∧
    ∀ frees, CallsOk p.root p.root none p.heap frees →
      (∀ depth', (∃ h, exitProgram depth' p frees = .ok h ∧ (∀ b, h.areas b = none) ∧
        ∀ cp, h.chunks cp = none) ∨ Lacking (exitProgram depth' p frees)) ∧
      Ends .depth fun depth' => exitProgram depth' p frees := by
  obtain ⟨home, -, hs₀, hk⟩ := hst.reaches hr
  refine ⟨fun hlist => ?_, fun frees hok =>
    ⟨hk.sound.exitProgram hok, hk.sound.exitProgram_ends hok⟩⟩
  obtain ⟨-, hlist₀, -⟩ := hst.sound
  exact hk.restored hs₀ hlist₀ hlist

theorem connections_restored_oneConnection :
    ∃ p₀ p p', startMain 0 1 [] = .ok p₀ ∧
      addConnection 8 9 p₀ 2 10 [.calloc 2 11 1 8] [.free 2 (some 11)] true = .ok p ∧
      callback 9 p 10 3 [] (some [.free 2 (some 11)]) = .ok p' ∧ p'.heap = p₀.heap := by
  refine ⟨_, _, _, rfl, rfl, rfl, ?_⟩
  obtain ⟨hst, hr⟩ := reaches_oneConnection rfl rfl
  have hclosed := Reaches.step (.wake 10 3 [] (some [.free 2 (some 11)])) hr (by
    refine ⟨⟨10, 2, false⟩, rfl, List.mem_cons_self, rfl, fun h hh =>
      ⟨trivial, fun h' hh' frees hfrees => ?_⟩⟩
    cases hh
    cases hh'
    cases hfrees
    refine callsOk_singleton (show 11 ∈ [11, 10] by decide) (fun a ha => ?_) rfl
      (by simp [Op.chunk]) ok_ne_error
    obtain rfl := List.mem_singleton.mp ha
    exact .refl) rfl
  exact (connections_restored hst hclosed).1 rfl

end Lifecycle
end IrC6
