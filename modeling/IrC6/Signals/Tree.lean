import IrC6.Signals.Instance

/-!
# The tree of instances

The parents of the instances are one view of a tree and the lists of nodes are another.
`TreeOk` says that they agree and that the recursive functions, which go by the lists, reach
the whole of a subtree.

`sig_instance_node` leaves the list of the parent as it is, so that the views agree as long
as no instance is made with a parent, and no longer.
-/

namespace IrC6
namespace Signals

variable {σ φ β : Type}

namespace Heap

/-- The instance and what has been made below it. -/
inductive Descends (h : Heap σ φ β) (p : Nat) : Nat → Prop where
  | refl : Descends h p p
  | child {b c : Nat} {ci : Siginst σ} : Descends h p b → h.inst c = .ok ci → ci.parent = some b →
      Descends h p c

/-- The nodes of an instance are its live children. -/
def Listed (h : Heap σ φ β) : Prop :=
  ∀ p si, h.inst p = .ok si →
    si.nodes.Nodup ∧ ∀ c, c ∈ si.nodes ↔ ∃ ci, h.inst c = .ok ci ∧ ci.parent = some p

/-- `sig_instance_destroy` comes to its end, with the subtree gone and the instance in no
list. -/
def Destroys (h : Heap σ φ β) (p : Nat) : Prop :=
  ∃ h', (∃ depth, ∀ depth' ≥ depth, sigInstanceDestroy depth' h p = .ok h') ∧
    (∀ c, Descends h p c → ¬Live h' c) ∧ ∀ q qi, h'.inst q = .ok qi → p ∉ qi.nodes

/-- The flags of a signal are changed in the whole subtree. -/
def FlagsReach (h : Heap σ φ β) (f : UInt32 → UInt32) (p : Nat) (sig : σ) : Prop :=
  ∃ h' ret, (∃ depth, ∀ depth' ≥ depth, changeFlags f depth' h p sig = .ok (h', ret)) ∧
    ∀ c ci sp s, Descends h p c → h.inst c = .ok ci → ci.htable sig = some sp →
      h.signal sp = .ok s → h'.signal sp = .ok { s with flags := f s.flags }

structure TreeOk (h : Heap σ φ β) : Prop where
  listed : h.Listed
  destroys : ∀ p si, h.inst p = .ok si → si.emitting = 0 → h.Destroys p
  setFlags : ∀ flags p sig, h.Live p → h.FlagsReach (· ||| flags) p sig
  unsetFlags : ∀ flags p sig, h.Live p → h.FlagsReach (· &&& ~~~flags) p sig

end Heap

open Heap

/-! ## Runs -/

inductive Op (σ β : Type) where
  | new (area si anode : Nat)
  | node (area parent : Option Nat) (si anode : Nat)
  | destroy (p : Nat)
  | register (p : Nat) (sig : σ) (mfunc : Marshal β) (sp : Nat)
  | setFlags (p : Nat) (sig : σ) (flags : UInt32)
  | unsetFlags (p : Nat) (sig : σ) (flags : UInt32)

namespace Op

variable [DecidableEq σ]

/-- A call that comes to its end. -/
def Runs (h h' : Heap σ φ β) : Op σ β → Prop
  | new area si anode => h.sigInstanceNew area si anode = .ok h'
  | node area parent si anode => h.sigInstanceNode area parent si anode = .ok h'
  | destroy p => ∃ depth, sigInstanceDestroy depth h p = .ok h'
  | register p sig mfunc sp => h.sigRegister p sig mfunc sp = .ok h'
  | setFlags p sig flags => ∃ depth ret, sigSetFlags flags depth h p sig = .ok (h', ret)
  | unsetFlags p sig flags => ∃ depth ret, sigUnsetFlags flags depth h p sig = .ok (h', ret)

/-- The call names live areas and live instances that are not emitting, and the addresses
of what it makes have not been used. -/
def Allowed (h : Heap σ φ β) : Op σ β → Prop
  | new area si anode =>
      (h.areas.areas area).isSome ∧ h.insts si = none ∧ h.FreshArea anode
  | node area parent si anode =>
      (∀ a, area = some a → (h.areas.areas a).isSome) ∧ (∀ p, parent = some p → h.Live p) ∧
        (area = none → parent ≠ none) ∧ h.insts si = none ∧ h.FreshArea anode
  | destroy p => ∃ si, h.inst p = .ok si ∧ si.emitting = 0
  | register p _ _ sp => h.Live p ∧ h.sigs sp = none
  | setFlags p _ _ | unsetFlags p _ _ => h.Live p

def AllAllowed (h : Heap σ φ β) : List (Op σ β) → Prop
  | [] => True
  | o :: ops => o.Allowed h ∧ ∀ h', o.Runs h h' → AllAllowed h' ops

/-- The tree is well formed in every state of a run. -/
def AllTreeOk (h : Heap σ φ β) : List (Op σ β) → Prop
  | [] => h.TreeOk
  | o :: ops => h.TreeOk ∧ ∀ h', o.Runs h h' → AllTreeOk h' ops

/-- The call makes an instance with a parent. -/
def Adopts : Op σ β → Prop
  | node _ parent _ _ => parent ≠ none
  | _ => False

end Op

/-! ## Instances without parents -/

namespace Heap

/-- No instance has a parent or a node. -/
structure Rootless (h : Heap σ φ β) : Prop where
  owned : Area.Owned h.areas
  alone : ∀ p si, h.insts p = some si → si.nodes = [] ∧ si.parent = none ∧ si.emitting = 0
  stored : ∀ p si sig sp, h.insts p = some si → si.htable sig = some sp →
    ∃ s, h.sigs sp = some s ∧ s.area = si.area

variable {h h' : Heap σ φ β} {p c : Nat} {si : Siginst σ}

theorem Rootless.descends (hr : h.Rootless) (hd : Descends h p c) : c = p := by
  induction hd with
  | refl => rfl
  | child _ hc hparent _ =>
      rw [(hr.alone _ _ (inst_eq_ok.mp hc).1).2.1] at hparent
      nomatch hparent

theorem Rootless.listed (hr : h.Rootless) : h.Listed := by
  intro p si hp
  rw [(hr.alone p si (inst_eq_ok.mp hp).1).1]
  refine ⟨List.nodup_nil, fun c => ⟨nofun, ?_⟩⟩
  rintro ⟨ci, hc, hparent⟩
  rw [(hr.alone c ci (inst_eq_ok.mp hc).1).2.1] at hparent
  nomatch hparent

theorem destroyNodes_none (depth : Nat) (h : Heap σ φ β) (cur : Nat) :
    destroyNodes depth h cur none = .ok h := by
  cases depth <;> rw [destroyNodes]

/-- Without a parent and without nodes it is the area that is destroyed. -/
theorem Rootless.destroy_eq (hr : h.Rootless) (hp : h.inst p = .ok si) (depth : Nat) :
    sigInstanceDestroy (depth + 1) h p =
      (ofArea (Area.Heap.areaDestroy depth h.areas si.area)).map fun areas =>
        { h with areas := areas } := by
  rcases hr.alone p si (inst_eq_ok.mp hp).1 with ⟨hnodes, hparent, hemitting⟩
  rw [sigInstanceDestroy]
  simp only [hp, bind, Except.bind, hemitting, hnodes, hparent, List.head?_nil, ne_eq,
    not_true_eq_false, if_false, destroyNodes_none]
  cases Area.Heap.areaDestroy depth h.areas si.area <;> rfl

theorem Rootless.destroys (hr : h.Rootless) (hp : h.inst p = .ok si) :
    ∃ areas, (∃ depth, ∀ depth' ≥ depth, sigInstanceDestroy depth' h p =
        .ok { h with areas := areas }) ∧
      Area.Destroyed h.areas si.area areas ∧ Area.Owned areas := by
  rcases hr.owned.areaDestroy (inst_eq_ok.mp hp).2 with ⟨areas, hdestroyed, howned, d, hrun⟩
  refine ⟨areas, ⟨d + 1, fun depth hdepth => ?_⟩, hdestroyed, howned⟩
  rcases Nat.exists_eq_add_of_le' hdepth with ⟨n, rfl⟩
  show sigInstanceDestroy (n + d + 1) h p = _
  rw [hr.destroy_eq hp (n + d), hrun (n + d) (Nat.le_add_left _ _)]
  rfl

/-- A call that comes to its end with less depth does the same. -/
theorem Rootless.destroy_unique (hr : h.Rootless) (hp : h.inst p = .ok si) {depth : Nat}
    (hrun : sigInstanceDestroy depth h p = .ok h') :
    ∃ areas, h' = { h with areas := areas } ∧ Area.Owned areas := by
  rcases depth with _ | depth
  · rw [sigInstanceDestroy] at hrun
    nomatch hrun
  · rw [hr.destroy_eq hp] at hrun
    rcases hr.owned.areaDestroy (inst_eq_ok.mp hp).2 with ⟨areas, -, howned, d, hdeep⟩
    rcases Area.areaDestroy_depth (Nat.le_max_left depth d) h.areas si.area with herr | heq
    · rw [herr] at hrun
      nomatch hrun
    · rw [← heq, hdeep _ (Nat.le_max_right depth d)] at hrun
      injection hrun with hrun
      exact ⟨areas, hrun.symm, howned⟩

theorem changeNodes_nil (f : UInt32 → UInt32) (depth : Nat) (h : Heap σ φ β) (sig : σ) :
    changeNodes f depth h [] sig = .ok (h, true) := by
  cases depth <;> rw [changeNodes]

/-- Without nodes it is the signal of the instance itself whose flags are changed. -/
theorem Rootless.changeFlags_eq (hr : h.Rootless) (hp : h.inst p = .ok si)
    (f : UInt32 → UInt32) (sig : σ) :
    ∃ r : Heap σ φ β × Bool, (∀ depth, changeFlags f (depth + 1) h p sig = .ok r) ∧
      ((si.htable sig = none ∧ r = (h, false)) ∨
        ∃ sp s, si.htable sig = some sp ∧ h.signal sp = .ok s ∧
          r = (h.setSignal sp { s with flags := f s.flags }, true)) := by
  rcases inst_eq_ok.mp hp with ⟨hinst, hlive⟩
  have hnodes := (hr.alone p si hinst).1
  rcases hsp : si.htable sig with _ | sp
  · refine ⟨_, fun depth => ?_, Or.inl ⟨rfl, rfl⟩⟩
    rw [changeFlags]
    simp only [hp, bind, Except.bind, hnodes, changeNodes_nil, if_true, hsp]
  · rcases hr.stored p si sig sp hinst hsp with ⟨s, hs, harea⟩
    have hsignal : h.signal sp = .ok s := signal_eq_ok.mpr ⟨hs, harea ▸ hlive⟩
    refine ⟨_, fun depth => ?_, Or.inr ⟨sp, s, rfl, hsignal, rfl⟩⟩
    rw [changeFlags]
    simp only [hp, bind, Except.bind, hnodes, changeNodes_nil, if_true, hsp, hsignal]

theorem Rootless.flagsReach (hr : h.Rootless) (hp : h.Live p) (f : UInt32 → UInt32) (sig : σ) :
    h.FlagsReach f p sig := by
  rcases hp with ⟨si, hp⟩
  rcases hr.changeFlags_eq hp f sig with ⟨r, hrun, hcases⟩
  refine ⟨r.1, r.2, ⟨1, fun depth hdepth => ?_⟩, fun c ci sp s hd hc hsp hs => ?_⟩
  · rcases Nat.exists_eq_add_of_le' hdepth with ⟨n, rfl⟩
    exact hrun n
  · rw [hr.descends hd, hp] at hc
    injection hc with hc
    subst hc
    rcases hcases with ⟨hnone, -⟩ | ⟨sp', s', hsp', hs', rfl⟩
    · rw [hnone] at hsp
      nomatch hsp
    · rw [hsp] at hsp'
      injection hsp' with hsp'
      subst hsp'
      rw [hs] at hs'
      injection hs' with hs'
      subst hs'
      exact signal_eq_ok.mpr ⟨Function.update_self _ _ _, (signal_eq_ok.mp hs).2⟩

theorem Rootless.treeOk (hr : h.Rootless) : h.TreeOk where
  listed := hr.listed
  destroys := by
    intro p si hp _
    rcases hr.destroys hp with ⟨areas, hrun, hdestroyed, -⟩
    refine ⟨_, hrun, fun c hd => ?_, fun q qi hq => ?_⟩
    · rintro ⟨ci, hc⟩
      rw [hr.descends hd] at hc
      rcases inst_eq_ok.mp hc with ⟨hci, hlive⟩
      have heq : ci = si := Option.some.inj (hci.symm.trans (inst_eq_ok.mp hp).1)
      have hgone : areas.areas si.area = none := (hdestroyed.areas si.area .refl).2
      rw [heq, hgone] at hlive
      nomatch hlive
    · rw [(hr.alone q qi (inst_eq_ok.mp hq).1).1]
      nofun
  setFlags := fun flags p sig hp => hr.flagsReach hp _ sig
  unsetFlags := fun flags p sig hp => hr.flagsReach hp _ sig

/-! ## One call -/

theorem rootless_empty {areas : Area.Heap} (ho : Area.Owned areas) :
    (empty areas : Heap σ φ β).Rootless :=
  ⟨ho, nofun, nofun⟩

theorem Rootless.setAreas (hr : h.Rootless) {areas : Area.Heap} (ho : Area.Owned areas) :
    Rootless { h with areas := areas } :=
  ⟨ho, hr.alone, hr.stored⟩

theorem Rootless.setSignal (hr : h.Rootless) {sp : Nat} {s s' : Signal φ β}
    (hs : h.sigs sp = some s) (harea : s'.area = s.area) : (h.setSignal sp s').Rootless := by
  refine ⟨hr.owned, hr.alone, fun p si sig sp' hsi hsp' => ?_⟩
  rcases hr.stored p si sig sp' hsi hsp' with ⟨t, ht, hta⟩
  by_cases heq : sp' = sp
  · subst heq
    rw [hs] at ht
    injection ht with ht
    exact ⟨s', Function.update_self _ _ _, by rw [harea, ht, hta]⟩
  · exact ⟨t, (Function.update_of_ne heq _ _).trans ht, hta⟩

/-- A new instance without a parent. -/
theorem Rootless.make (hr : h.Rootless) (p area : Nat) :
    (h.setInst p (blank area none)).Rootless := by
  refine ⟨hr.owned, fun q si hq => ?_, fun q si sig sp hq hsp => ?_⟩
  · rcases setInst_cases hq with ⟨-, rfl⟩ | ⟨-, hq⟩
    · exact ⟨rfl, rfl, rfl⟩
    · exact hr.alone q si hq
  · rcases setInst_cases hq with ⟨-, rfl⟩ | ⟨-, hq⟩
    · nomatch hsp
    · exact hr.stored q si sig sp hq hsp

/-- The signals that are stored stay beside one at a new address. -/
theorem Rootless.stored_new (hr : h.Rootless) {sp sp' : Nat} (hsp : h.sigs sp = none)
    {sig : σ} (hp : h.insts p = some si) (hsp' : si.htable sig = some sp') (s : Signal φ β) :
    ∃ t, (h.setSignal sp s).sigs sp' = some t ∧ t.area = si.area := by
  rcases hr.stored p si sig sp' hp hsp' with ⟨t, ht, harea⟩
  have hne : sp' ≠ sp := by
    rintro rfl
    rw [hsp] at ht
    nomatch ht
  exact ⟨t, (Function.update_of_ne hne _ _).trans ht, harea⟩

theorem Rootless.register [DecidableEq σ] (hr : h.Rootless) (hp : h.Live p) (sig : σ)
    (mfunc : Marshal β) {sp : Nat} (hsp : h.sigs sp = none) :
    ∃ h', h.sigRegister p sig mfunc sp = .ok h' ∧ h'.Rootless := by
  rcases hp with ⟨si, hp⟩
  have hinst := (inst_eq_ok.mp hp).1
  unfold Heap.sigRegister
  simp only [hp, bind, Except.bind]
  rcases hsig : si.htable sig with _ | sp'
  · refine ⟨_, rfl, hr.owned, fun q qi hq => ?_, fun q qi sig' sp' hq hsp' => ?_⟩
    · rcases setInst_cases hq with ⟨rfl, rfl⟩ | ⟨-, hq⟩
      · exact hr.alone _ si hinst
      · exact hr.alone q qi hq
    · rcases setInst_cases hq with ⟨rfl, rfl⟩ | ⟨-, hq⟩
      · change Function.update si.htable sig (some sp) sig' = some sp' at hsp'
        by_cases heq : sig' = sig
        · subst heq
          rw [Function.update_self] at hsp'
          injection hsp' with hsp'
          subst hsp'
          exact ⟨_, Function.update_self _ _ _, rfl⟩
        · rw [Function.update_of_ne heq] at hsp'
          exact hr.stored_new hsp hinst hsp' _
      · exact hr.stored_new hsp hq hsp' _
  · exact ⟨h, rfl, hr⟩

theorem exists_areaNode {areas : Area.Heap} {area anode : Nat} (ho : Area.Owned areas)
    (ha : (areas.areas area).isSome) (hf : areas.areas anode = none) :
    ∃ areas', ofArea (areas.areaNode area anode) = .ok areas' ∧ Area.Owned areas' ∧
      ∀ a, a = anode ∨ (areas.areas a).isSome → (areas'.areas a).isSome := by
  rcases Option.isSome_iff_exists.mp ha with ⟨node, hnode⟩
  have hrun : areas.areaNode area anode = .ok ((areas.setArea area
      (some { node with nodes := anode :: node.nodes })).setArea anode
        (some { parent := some area, nodes := [], allocated := 0, list := [] })) := by
    rw [Area.Heap.areaNode, Area.area_eq hnode]
    rfl
  refine ⟨_, congrArg ofArea hrun, (ho.areaNode ha hf).of_eq_ok hrun, fun a hsome => ?_⟩
  by_cases han : a = anode
  · rw [han, Area.areas_setArea_self]
    rfl
  · replace hsome := hsome.resolve_left han
    rw [Area.areas_setArea_of_ne han]
    by_cases haa : a = area
    · rw [haa, Area.areas_setArea_self]
      rfl
    · rwa [Area.areas_setArea_of_ne haa]

theorem flags_step (hr : h.Rootless) {p : Nat} (hp : h.Live p) (f : UInt32 → UInt32)
    (sig : σ) :
    (∃ h' depth ret, changeFlags f depth h p sig = .ok (h', ret)) ∧
      ∀ h', (∃ depth ret, changeFlags f depth h p sig = .ok (h', ret)) → h'.Rootless := by
  rcases hp with ⟨si, hp⟩
  rcases hr.changeFlags_eq hp f sig with ⟨r, hrun, hcases⟩
  refine ⟨⟨r.1, 1, r.2, hrun 0⟩, ?_⟩
  rintro h' ⟨_ | depth, ret, hrun'⟩
  · rw [changeFlags] at hrun'
    nomatch hrun'
  · rw [hrun depth] at hrun'
    injection hrun' with hrun'
    rcases hcases with ⟨-, rfl⟩ | ⟨sp, s, -, hs, rfl⟩
    · injection hrun' with hrun'
      exact hrun' ▸ hr
    · injection hrun' with hrun'
      exact hrun' ▸ hr.setSignal (signal_eq_ok.mp hs).1 rfl

end Heap

namespace Op

variable {h h' : Heap σ φ β} {o : Op σ β}

/-- The area that `sig_instance_node` takes, and what it makes there. -/
theorem sigInstanceNode_eq (hr : h.Rootless) {area parent : Option Nat} {si anode : Nat}
    (hok : (node area parent si anode : Op σ β).Allowed h) :
    ∃ areas, h.sigInstanceNode area parent si anode =
        .ok (Heap.setInst { h with areas := areas } si (blank anode parent)) ∧
      Area.Owned areas ∧
        ∀ a, a = anode ∨ (h.areas.areas a).isSome → (areas.areas a).isSome := by
  rcases hok with ⟨harea, hparent, hsome, -, hfresh, -⟩
  unfold Heap.sigInstanceNode
  rcases area with _ | area
  · rcases parent with _ | p
    · exact absurd rfl (hsome rfl)
    · rcases hparent p rfl with ⟨pi, hpi⟩
      rcases exists_areaNode hr.owned (inst_eq_ok.mp hpi).2 hfresh with ⟨areas, hrun, ho, hkeeps⟩
      refine ⟨areas, ?_, ho, hkeeps⟩
      simp only [hpi, Except.map, bind, Except.bind, hrun]
  · rcases exists_areaNode hr.owned (harea area rfl) hfresh with ⟨areas, hrun, ho, hkeeps⟩
    refine ⟨areas, ?_, ho, hkeeps⟩
    simp only [bind, Except.bind, hrun]

variable [DecidableEq σ]

/-- A call that makes no instance with a parent leaves none with one. -/
theorem rootless_step (hr : h.Rootless) (hok : o.Allowed h) (hroot : ¬o.Adopts) :
    (∃ h', o.Runs h h') ∧ ∀ h', o.Runs h h' → h'.Rootless := by
  have honly : ∀ {r : Except Fault (Heap σ φ β)} {h₁ : Heap σ φ β}, r = .ok h₁ → h₁.Rootless →
      (∃ h', r = .ok h') ∧ ∀ h', r = .ok h' → h'.Rootless := by
    intro r h₁ hrun hr₁
    refine ⟨⟨h₁, hrun⟩, fun h' hrun' => ?_⟩
    rw [hrun] at hrun'
    injection hrun' with heq
    exact heq ▸ hr₁
  cases o with
  | new area si anode =>
      rcases exists_areaNode hr.owned hok.1 hok.2.2.1 with ⟨areas, hrun, ho, -⟩
      have hnew : h.sigInstanceNew area si anode =
          .ok (Heap.setInst { h with areas := areas } si (blank anode none)) := by
        simp only [Heap.sigInstanceNew, bind, Except.bind, hrun]
      exact honly hnew ((hr.setAreas ho).make si anode)
  | node area parent si anode =>
      have hnone : parent = none := not_not.mp hroot
      rcases sigInstanceNode_eq hr hok with ⟨areas, hrun, ho, -⟩
      subst hnone
      exact honly hrun ((hr.setAreas ho).make si anode)
  | destroy p =>
      rcases hok with ⟨si, hp, -⟩
      rcases hr.destroys hp with ⟨areas, ⟨depth, hrun⟩, -, -⟩
      refine ⟨⟨_, depth, hrun depth (Nat.le_refl _)⟩, ?_⟩
      rintro h' ⟨depth', hrun'⟩
      rcases hr.destroy_unique hp hrun' with ⟨areas', rfl, ho⟩
      exact hr.setAreas ho
  | register p sig mfunc sp =>
      rcases hr.register hok.1 sig mfunc hok.2 with ⟨h₁, hrun, hr₁⟩
      exact honly hrun hr₁
  | setFlags p sig flags | unsetFlags p sig flags => exact flags_step hr hok _ sig

/-- The list of the parent does not have a new instance. -/
theorem not_treeOk_adopts (hr : h.Rootless) (hok : o.Allowed h) (hroot : o.Adopts) :
    ∃ h', o.Runs h h' ∧ ¬h'.TreeOk := by
  cases o with
  | node area parent si anode =>
      rcases Option.ne_none_iff_exists'.mp hroot with ⟨p, rfl⟩
      rcases sigInstanceNode_eq hr hok with ⟨areas, hrun, ho, hkeeps⟩
      rcases hok with ⟨-, hparent, -, hnew, -⟩
      rcases hparent p rfl with ⟨pi, hpi⟩
      rcases inst_eq_ok.mp hpi with ⟨hpinst, hplive⟩
      refine ⟨_, hrun, fun htree => ?_⟩
      have hne : p ≠ si := by
        rintro rfl
        rw [hnew] at hpinst
        nomatch hpinst
      have hp : (Heap.setInst { h with areas := areas } si (blank anode (some p))).inst p =
          .ok pi :=
        inst_eq_ok.mpr ⟨(Function.update_of_ne hne _ _).trans hpinst, hkeeps _ (Or.inr hplive)⟩
      have hmem := ((htree.listed p pi hp).2 si).mpr
        ⟨_, inst_eq_ok.mpr ⟨Function.update_self _ _ _, hkeeps _ (Or.inl rfl)⟩, rfl⟩
      rw [(hr.alone p pi hpinst).1] at hmem
      nomatch hmem
  | new | destroy | register | setFlags | unsetFlags => exact hroot.elim

theorem allTreeOk_iff (hr : h.Rootless) (ops : List (Op σ β)) (hops : AllAllowed h ops) :
    AllTreeOk h ops ↔ ∀ o ∈ ops, ¬o.Adopts := by
  induction ops generalizing h with
  | nil => exact ⟨fun _ => nofun, fun _ => hr.treeOk⟩
  | cons o ops ih =>
      rw [List.forall_mem_cons]
      constructor
      · rintro ⟨-, hrest⟩
        by_cases hroot : o.Adopts
        · rcases not_treeOk_adopts hr hops.1 hroot with ⟨h', hrun, hnot⟩
          refine absurd ?_ hnot
          have htree := hrest h' hrun
          cases ops with
          | nil => exact htree
          | cons => exact htree.1
        · rcases rootless_step hr hops.1 hroot with ⟨⟨h', hrun⟩, hkeeps⟩
          exact ⟨hroot, (ih (hkeeps h' hrun) (hops.2 h' hrun)).mp (hrest h' hrun)⟩
      · rintro ⟨hroot, hrest⟩
        refine ⟨hr.treeOk, fun h' hrun => ?_⟩
        have hr' := (rootless_step hr hops.1 hroot).2 h' hrun
        exact (ih hr' (hops.2 h' hrun)).mpr hrest

/-- The tree is well formed throughout a run that starts with areas alone, if and only if
the run makes no instance with a parent. -/
theorem tree_iff {areas : Area.Heap} (ho : Area.Owned areas) (ops : List (Op σ β))
    (hops : AllAllowed (empty areas : Heap σ φ β) ops) :
    AllTreeOk (empty areas : Heap σ φ β) ops ↔ ∀ o ∈ ops, ¬o.Adopts :=
  allTreeOk_iff (rootless_empty ho) ops hops

/-- Of two instances the first gets a signal, whose flags are set, and is destroyed. -/
theorem tree_iff_destroy :
    AllTreeOk (empty (Area.Heap.areaRoot 0) : Heap Unit Unit Unit)
      [new 0 1 2, new 0 3 4, register 1 () ⟨[]⟩ 7, setFlags 1 () 1, destroy 1] := by
  have hops : AllAllowed (empty (Area.Heap.areaRoot 0) : Heap Unit Unit Unit)
      [new 0 1 2, new 0 3 4, register 1 () ⟨[]⟩ 7, setFlags 1 () 1, destroy 1] := by
    refine ⟨⟨by decide, rfl, by decide, nofun, nofun⟩, ?_⟩
    rintro _ hfirst
    injection hfirst with hfirst
    subst hfirst
    refine ⟨⟨by decide, rfl, by decide, ?_, nofun⟩, ?_⟩
    · rintro p si hp
      rcases setInst_cases hp with ⟨-, rfl⟩ | ⟨-, hp⟩
      · decide
      · nomatch hp
    rintro _ hsecond
    injection hsecond with hsecond
    subst hsecond
    refine ⟨⟨⟨_, rfl⟩, rfl⟩, ?_⟩
    rintro _ hregister
    change Except.ok _ = _ at hregister
    injection hregister with hregister
    subst hregister
    refine ⟨⟨_, rfl⟩, ?_⟩
    rintro _ ⟨_ | _ | depth, ret, hflags⟩
    · nomatch hflags
    all_goals
      change Except.ok _ = _ at hflags
      injection hflags with hflags
      injection hflags with hflags
      subst hflags
      exact ⟨⟨_, rfl, rfl⟩, fun _ _ => trivial⟩
  refine (tree_iff (Area.owned_areaRoot 0) _ hops).mpr ?_
  simp [Adopts]

/-- The parent does not list its child, and the child cannot be destroyed. -/
theorem adopted_not_treeOk :
    AllAllowed (empty (Area.Heap.areaRoot 0) : Heap Unit Unit Unit)
        [new 0 1 2, node none (some 1) 3 4] ∧
      ¬AllTreeOk (empty (Area.Heap.areaRoot 0) : Heap Unit Unit Unit)
        [new 0 1 2, node none (some 1) 3 4] ∧
      (do let h ← (empty (Area.Heap.areaRoot 0) : Heap Unit Unit Unit).sigInstanceNew 0 1 2
          let h ← h.sigInstanceNode none (some 1) 3 4
          let si ← h.inst 1
          .ok (si.nodes, (sigInstanceDestroy 5 h 3).map fun _ => ())) =
        Except.ok ([], Except.error Fault.null) := by
  have hops : AllAllowed (empty (Area.Heap.areaRoot 0) : Heap Unit Unit Unit)
      [new 0 1 2, node none (some 1) 3 4] := by
    refine ⟨⟨by decide, rfl, by decide, nofun, nofun⟩, ?_⟩
    rintro h' hrun
    injection hrun with hrun
    subst hrun
    refine ⟨⟨nofun, ?_, nofun, rfl, by decide, ?_, nofun⟩, fun _ _ => trivial⟩
    · rintro p hp
      injection hp with hp
      exact hp ▸ ⟨blank 2 none, rfl⟩
    · rintro p si hp
      rcases setInst_cases hp with ⟨-, rfl⟩ | ⟨-, hp⟩
      · decide
      · nomatch hp
  refine ⟨hops, fun htree => ?_, by rfl⟩
  have hroot := (allTreeOk_iff (rootless_empty (Area.owned_areaRoot 0)) _ hops).mp htree
  exact hroot (node none (some 1) 3 4) (List.mem_cons_of_mem _ (List.mem_singleton_self _)) nofun

end Op

end Signals
end IrC6
