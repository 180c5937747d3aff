import IrC6.Base.Text
import IrC6.Hash.Single
import IrC6.Signals.Emit

/-!
# The signals of an instance by their names

The table of an instance is opened with `DUPDATA` alone.  The key of a signal is its name
with the byte that ends it, and the argument is the `struct signals`.  A name is sought
before it is added, and what the search finds may belong to another name with the same
first hash.

`Names` is what the table is for: the names that are registered, each with its own
`struct signals`.  A call is right when the table says of its name what `Names` says.
-/

namespace IrC6
namespace Signals

open Hash (Table hashNew fnvHash)

variable {μ φ : Type}

/-- `struct signals`, with its number and its marshal. -/
structure Registered (μ φ : Type) where
  id : UInt32
  marshal : μ
  sig : Sig φ

/-- The table of an instance, and its area with the structures that the table points to. -/
structure Registry (μ φ : Type) where
  htable : Table Nat
  area : Nat → Option (Registered μ φ)

/-- The cells for a `struct signals`, a tree node and a list node. -/
structure Cells where
  sig : Nat
  tnew : Nat
  lnew : Nat

/-- `sig` with its `strlen(sig) + 1` bytes. -/
def cstring (sig : List UInt8) : List UInt8 := sig ++ [0]

namespace Registry

/-- The table and the area of `sig_instance_new`. -/
def new : Registry μ φ := { htable := Hash.hashtableNew false false false 0, area := fun _ => none }

def findSignal (si : Registry μ φ) (sig : List UInt8) :
    Except Hash.Fault (Registry μ φ × Option Nat) := do
  let (t, hi, ret) ← si.htable.hashtableFind (hashNew (cstring sig) 0)
  .ok ({ si with htable := t }, if ret = .ok then some hi.arg else none)

/-- `add_signal`, with the number that it puts into the structure. -/
def addSignal (si : Registry μ φ) (sig : List UInt8) (c : Cells) :
    Registry μ φ × Option UInt32 :=
  let r := si.htable.hashtableAdd (hashNew (cstring sig) c.sig) c.tnew c.lnew
  ({ si with htable := r.1 }, if r.2.2 = .ok then some r.2.1.hash else none)

def store (si : Registry μ φ) (p : Nat) (s : Registered μ φ) : Registry μ φ :=
  { si with area := Function.update si.area p (some s) }

/-- `sig_register`, which gives the number of the signal, or 0. -/
def sigRegister (si : Registry μ φ) (sig : List UInt8) (mfunc : μ) (c : Cells) :
    Except Hash.Fault (Registry μ φ × UInt32) := do
  let (si, found) ← si.findSignal sig
  match found with
  | some _ => .ok (si, 0)
  | none =>
      match si.addSignal sig c with
      | (si, none) => .ok (si, 0)
      | (si, some id) =>
          .ok (si.store c.sig { id := id, marshal := mfunc, sig := { flags := 0, handlers := [] } },
            id)

def sigUnregister (si : Registry μ φ) (sig : List UInt8) :
    Except Hash.Fault (Registry μ φ × Bool) := do
  let (t, _, ret) ← si.htable.hashtableDel (hashNew (cstring sig) 0)
  .ok ({ si with htable := t }, ret = .ok)

/-- `_sig_connect`, where `os` is what the ancestors have for the name. -/
def sigConnect (si : Registry μ φ) (sig : List UInt8) (os : Option (Registered μ φ)) (c : Cells)
    (priority : Priority) (count : UInt32) (cb : φ) : Except Hash.Fault (Registry μ φ × Bool) := do
  let (si, found) ← si.findSignal sig
  match found with
  | some p =>
      .ok ({ si with area := Function.update si.area p ((si.area p).map fun s =>
        { s with sig := connectSignal s.sig priority count cb }) }, true)
  | none =>
      match os with
      | none => .ok (si, false)
      | some os =>
          match si.addSignal sig c with
          | (si, none) => .ok (si, false)
          | (si, some id) =>
              let s : Sig φ := { flags := os.sig.flags, handlers := [] }
              .ok (si.store c.sig
                { id := id, marshal := os.marshal, sig := connectSignal s priority count cb }, true)

/-- An instance as an emission of one signal sees it. -/
def toInstance (si : Registry μ φ) : Instance (List UInt8) φ where
  signals sig :=
    match si.findSignal sig with
    | .ok (si, some p) => (si.area p).map Registered.sig
    | _ => none
  emitting := 0
  quit := false

end Registry

/-! ## Calls -/

/-- A call, with the cells that it is given.  `lookup` stands for the other operations on a
name. -/
inductive Call (μ φ : Type) where
  | register (sig : List UInt8) (mfunc : μ) (c : Cells)
  | unregister (sig : List UInt8)
  | connect (sig : List UInt8) (os : Option (Registered μ φ)) (c : Cells) (priority : Priority)
      (count : UInt32) (cb : φ)
  | lookup (sig : List UInt8)

/-- The keys that are registered, each with its `struct signals`. -/
abbrev Names := List UInt8 → Option Nat

namespace Call

def sig : Call μ φ → List UInt8
  | register sig .. | unregister sig | connect sig .. | lookup sig => sig

def run (si : Registry μ φ) : Call μ φ → Except Hash.Fault (Registry μ φ)
  | register sig mfunc c => (si.sigRegister sig mfunc c).map Prod.fst
  | unregister sig => (si.sigUnregister sig).map Prod.fst
  | connect sig os c priority count cb => (si.sigConnect sig os c priority count cb).map Prod.fst
  | lookup sig => (si.findSignal sig).map Prod.fst

/-- What a call is for. -/
def apply (R : Names) : Call μ φ → Names
  | register sig _ c =>
      if R (cstring sig) = none then Function.update R (cstring sig) (some c.sig) else R
  | unregister sig => Function.update R (cstring sig) none
  | connect sig os c .. =>
      if R (cstring sig) = none ∧ os.isSome then Function.update R (cstring sig) (some c.sig) else R
  | lookup _ => R

theorem apply_of_ne {R : Names} {c : Call μ φ} {k : List UInt8} (hk : k ≠ cstring c.sig) :
    c.apply R k = R k := by
  cases c with
  | register | connect =>
      rw [apply]
      split
      · exact Function.update_of_ne hk _ _
      · rfl
  | unregister => exact Function.update_of_ne hk _ _
  | lookup => rfl

/-- The cells given to a call are not in use. -/
def Allowed (si : Registry μ φ) : Call μ φ → Prop
  | register _ _ c | connect _ _ c .. => si.htable.Fresh c.tnew c.lnew
  | _ => True

def AllAllowed (si : Registry μ φ) : List (Call μ φ) → Prop
  | [] => True
  | c :: cs => c.Allowed si ∧ ∀ si', c.run si = .ok si' → AllAllowed si' cs

/-- The signal of the name is the registered one, a name that is not registered can be
registered, and an emission runs no handler of it. -/
def Right (si : Registry μ φ) (R : Names) (c : Call μ φ) : Prop :=
  si.findSignal c.sig = .ok (si, R (cstring c.sig)) ∧
    (∀ sig mfunc cells, c = register sig mfunc cells → R (cstring sig) = none →
      ∃ si' id, si.sigRegister sig mfunc cells = .ok (si', id) ∧ id ≠ 0) ∧
    (R (cstring c.sig) = none → ∀ parents : List (Instance (List UInt8) φ),
      (∀ tmp ∈ parents, tmp.signals c.sig = none) →
        (sigEmit (si.toInstance :: parents) c.sig).2 = [])

def AllRight (si : Registry μ φ) (R : Names) : List (Call μ φ) → Prop
  | [] => True
  | c :: cs => c.Right si R ∧ ∃ si', c.run si = .ok si' ∧ AllRight si' (c.apply R) cs

/-- No other name that is registered has the hash of the call's name, and a name to be
registered has not the hash 0. -/
def Clear (R : Names) (c : Call μ φ) : Prop :=
  Table.Apart R (cstring c.sig) ∧
    ∀ sig mfunc cells, c = register sig mfunc cells → R (cstring sig) = none →
      fnvHash (cstring sig) ≠ 0

def AllClear (R : Names) : List (Call μ φ) → Prop
  | [] => True
  | c :: cs => c.Clear R ∧ AllClear (c.apply R) cs

end Call

/-! ## What the operations do -/

namespace Registry

/-- The table has the names that are registered. -/
structure Holds (si : Registry μ φ) (R : Names) : Prop where
  single : si.htable.Single
  represents : si.htable.Represents R

variable {si : Registry μ φ} {R : Names}

theorem cstring_ne_nil (sig : List UInt8) : cstring sig ≠ [] := by simp [cstring]

/-- A search gives the signal of some name with the hash. -/
theorem Holds.findSignal (h : si.Holds R) (sig : List UInt8) :
    (∃ l ∈ si.htable.nodes, fnvHash l.data = fnvHash (cstring sig) ∧
      si.findSignal sig = .ok (si, some l.arg)) ∨
    ((∀ l ∈ si.htable.nodes, fnvHash l.data ≠ fnvHash (cstring sig)) ∧
      si.findSignal sig = .ok (si, none)) := by
  unfold Registry.findSignal
  rcases h.single.hashtableFind (cstring sig) 0 with ⟨l, hl, hfirst, hi, hfind, harg⟩ |
    ⟨hnone, hi, hfind⟩
  · refine Or.inl ⟨l, hl, hfirst, ?_⟩
    rw [hfind, ← harg]
    rfl
  · refine Or.inr ⟨hnone, ?_⟩
    rw [hfind]
    rfl

/-- The search is right if and only if no other name that is registered has the hash. -/
theorem Holds.findSignal_iff (h : si.Holds R) (sig : List UInt8) :
    si.findSignal sig = .ok (si, R (cstring sig)) ↔ Table.Apart R (cstring sig) := by
  rcases h.findSignal sig with ⟨l, hl, hfirst, hfind⟩ | ⟨hnone, hfind⟩
  · rw [h.single.apart_iff h.represents hl hfirst, hfind]
    simp [eq_comm]
  · rcases h.represents.apart_of_none hnone with ⟨hR, hapart⟩
    rw [hfind, hR]
    exact ⟨fun _ => hapart, fun _ => rfl⟩

theorem Holds.addSignal (h : si.Holds R) (sig : List UInt8) (c : Cells)
    (hf : si.htable.Fresh c.tnew c.lnew)
    (hnone : ∀ l ∈ si.htable.nodes, fnvHash l.data ≠ fnvHash (cstring sig)) :
    ∃ si', si.addSignal sig c = (si', some (fnvHash (cstring sig))) ∧
      si'.Holds (Function.update R (cstring sig) (some c.sig)) := by
  have hk := cstring_ne_nil sig
  rcases h.single.hashtableAdd hk c.sig hf hnone with ⟨hsingle, hperm, hret⟩
  have hrepresents := h.represents.cons (h.represents.apart_of_none hnone).1 hperm
  refine ⟨{ si with htable := _ }, ?_, hsingle, hrepresents⟩
  unfold Registry.addSignal
  dsimp only
  rw [if_pos hret, Table.hashtableAdd_hash si.htable hk c.sig c.tnew c.lnew]

theorem Holds.store (h : si.Holds R) (p : Nat) (s : Registered μ φ) : (si.store p s).Holds R :=
  ⟨h.single, h.represents⟩

/-- A name that is apart is registered, under its hash, when it was not. -/
theorem Holds.sigRegister (h : si.Holds R) (sig : List UInt8)
    (hapart : Table.Apart R (cstring sig)) (mfunc : μ) {c : Cells}
    (hf : si.htable.Fresh c.tnew c.lnew) :
    ∃ si', si.sigRegister sig mfunc c =
        .ok (si', if R (cstring sig) = none then fnvHash (cstring sig) else 0) ∧
      si'.Holds ((Call.register (φ := φ) sig mfunc c).apply R) := by
  have hfound := (h.findSignal_iff sig).mpr hapart
  unfold Registry.sigRegister
  rw [hfound]
  rcases hR : R (cstring sig) with _ | p
  · rw [Call.apply, if_pos hR]
    rcases h.findSignal sig with ⟨l, -, -, hfind⟩ | ⟨hnone, -⟩
    · rw [hfound, hR] at hfind
      nomatch hfind
    · rcases h.addSignal sig c hf hnone with ⟨si', hadd, hholds⟩
      simp only [bind, Except.bind, hadd]
      exact ⟨_, rfl, hholds.store _ _⟩
  · refine ⟨si, rfl, ?_⟩
    rw [Call.apply, if_neg (by rw [hR]; nofun)]
    exact h

theorem Holds.sigUnregister (h : si.Holds R) (sig : List UInt8)
    (hapart : Table.Apart R (cstring sig)) :
    ∃ si' b, si.sigUnregister sig = .ok (si', b) ∧
      si'.Holds (Function.update R (cstring sig) none) := by
  unfold Registry.sigUnregister
  rcases h.single.hashtableDel (cstring_ne_nil sig) 0 with ⟨l, hl, hfirst, t, hi, hdel, ht, hperm⟩ |
    ⟨hnone, hi, hdel⟩
  · have hdata : l.data = cstring sig := by
      refine hapart l.data ?_ hfirst
      rw [(h.represents l.data l.arg).mp (Table.mem_entries.mpr ⟨l, hl, rfl, rfl⟩)]
      nofun
    rw [hdel]
    refine ⟨_, _, rfl, ht, ?_⟩
    exact h.represents.erase h.single.exact.keys_nodup (hdata ▸ hperm)
  · rw [hdel]
    refine ⟨_, _, rfl, h.single, ?_⟩
    rw [← (h.represents.apart_of_none hnone).1, Function.update_eq_self]
    exact h.represents

theorem Holds.sigConnect (h : si.Holds R) (sig : List UInt8)
    (hapart : Table.Apart R (cstring sig)) (os : Option (Registered μ φ)) {c : Cells}
    (hf : si.htable.Fresh c.tnew c.lnew) (priority : Priority) (count : UInt32) (cb : φ) :
    ∃ si' b, si.sigConnect sig os c priority count cb = .ok (si', b) ∧
      si'.Holds ((Call.connect sig os c priority count cb).apply R) := by
  have hfound := (h.findSignal_iff sig).mpr hapart
  unfold Registry.sigConnect
  rw [hfound]
  rcases hR : R (cstring sig) with _ | p
  · rcases os with _ | os
    · rw [Call.apply, if_neg (by simp)]
      exact ⟨si, false, rfl, h⟩
    · rw [Call.apply, if_pos ⟨hR, rfl⟩]
      rcases h.findSignal sig with ⟨l, -, -, hfind⟩ | ⟨hnone, -⟩
      · rw [hfound, hR] at hfind
        nomatch hfind
      · rcases h.addSignal sig c hf hnone with ⟨si', hadd, hholds⟩
        simp only [bind, Except.bind, hadd]
        exact ⟨_, _, rfl, hholds.store _ _⟩
  · rw [Call.apply, if_neg (by simp [hR])]
    exact ⟨_, _, rfl, h.single, h.represents⟩

end Registry

/-! ## Emissions -/

/-- An emission of a signal that no instance has runs no handler. -/
theorem sigEmit_none {σ : Type} [DecidableEq σ] (chain : List (Instance σ φ)) (sig : σ)
    (h : ∀ si ∈ chain, si.signals sig = none) : (sigEmit chain sig).2 = [] := by
  have hup : ∀ (parents : List (Instance σ φ)) (si : Instance σ φ),
      (∀ tmp ∈ parents, tmp.signals sig = none) → (emitUp sig si parents).2.2 = [] := by
    intro parents
    induction parents with
    | nil => exact fun _ _ => rfl
    | cons tmp rest ih =>
        intro si hrest
        rw [emitUp, hrest tmp List.mem_cons_self]
        exact ih tmp fun x hx => hrest x (List.mem_cons_of_mem _ hx)
  cases chain with
  | nil => rfl
  | cons si parents =>
      rw [sigEmit, h si List.mem_cons_self]
      exact hup parents si fun x hx => h x (List.mem_cons_of_mem _ hx)

/-! ## Runs -/

namespace Call

open Registry

variable {si : Registry μ φ} {R : Names}

theorem right_iff (h : si.Holds R) {c : Call μ φ} (hc : c.Allowed si) :
    c.Right si R ↔ c.Clear R := by
  constructor
  · rintro ⟨hfind, hregister, -⟩
    have hapart := (h.findSignal_iff c.sig).mp hfind
    refine ⟨hapart, ?_⟩
    rintro sig mfunc cells rfl hR hzero
    rcases hregister sig mfunc cells rfl hR with ⟨si', id, hrun, hid⟩
    rcases h.sigRegister sig hapart mfunc hc with ⟨si'', hrun', -⟩
    rw [hrun, if_pos hR, hzero] at hrun'
    injection hrun' with hrun'
    injection hrun' with _ hid'
    exact hid hid'
  · rintro ⟨hapart, hzero⟩
    have hfind := (h.findSignal_iff c.sig).mpr hapart
    refine ⟨hfind, ?_, fun hR parents hparents => ?_⟩
    · rintro sig mfunc cells rfl hR
      rcases h.sigRegister sig hapart mfunc hc with ⟨si', hrun, -⟩
      rw [if_pos hR] at hrun
      exact ⟨si', _, hrun, hzero sig mfunc cells rfl hR⟩
    · refine sigEmit_none _ _ fun tmp htmp => ?_
      rcases List.mem_cons.mp htmp with rfl | htmp
      · unfold toInstance
        dsimp only
        rw [hfind, hR]
      · exact hparents tmp htmp

/-- A call on a name that is apart does what it is for. -/
theorem run_holds (h : si.Holds R) {c : Call μ φ} (hc : c.Allowed si)
    (hapart : Table.Apart R (cstring c.sig)) :
    ∃ si', c.run si = .ok si' ∧ si'.Holds (c.apply R) := by
  cases c with
  | register sig mfunc c =>
      rcases h.sigRegister sig hapart mfunc hc with ⟨si', hrun, hholds⟩
      exact ⟨si', by rw [run, hrun]; rfl, hholds⟩
  | unregister sig =>
      rcases h.sigUnregister sig hapart with ⟨si', b, hrun, hholds⟩
      exact ⟨si', by rw [run, hrun]; rfl, hholds⟩
  | connect sig os c priority count cb =>
      rcases h.sigConnect sig hapart os hc priority count cb with ⟨si', b, hrun, hholds⟩
      exact ⟨si', by rw [run, hrun]; rfl, hholds⟩
  | lookup sig =>
      exact ⟨si, by rw [run, (h.findSignal_iff sig).mpr hapart]; rfl, h⟩

theorem allRight_iff (h : si.Holds R) (cs : List (Call μ φ)) (hcs : AllAllowed si cs) :
    AllRight si R cs ↔ AllClear R cs := by
  induction cs generalizing si R with
  | nil => exact Iff.rfl
  | cons c cs ih =>
      have hright := right_iff h hcs.1
      constructor
      · rintro ⟨hc, si', hrun, hrest⟩
        have hclear := hright.mp hc
        rcases run_holds h hcs.1 hclear.1 with ⟨si'', hrun', hholds⟩
        rw [hrun] at hrun'
        injection hrun' with heq
        subst heq
        exact ⟨hclear, (ih hholds (hcs.2 si' hrun)).mp hrest⟩
      · rintro ⟨hclear, hrest⟩
        rcases run_holds h hcs.1 hclear.1 with ⟨si', hrun, hholds⟩
        exact ⟨hright.mpr hclear, si', hrun, (ih hholds (hcs.2 si' hrun)).mpr hrest⟩

end Call

theorem new_holds : (Registry.new : Registry μ φ).Holds fun _ => none :=
  ⟨Hash.hashtableNew_single false, fun k a => by
    simp [Registry.new, Table.entries, Hash.pairs, Table.nodes, Hash.hashtableNew]⟩

/-- Every call of a run is right if and only if no call is on a name whose hash another
registered name has, and none registers a name with the hash 0. -/
theorem exact_names_iff (cs : List (Call μ φ)) (hcs : Call.AllAllowed Registry.new cs) :
    Call.AllRight Registry.new (fun _ => none) cs ↔ Call.AllClear (fun _ => none) cs :=
  Call.allRight_iff new_holds cs hcs

/-- A signal that is registered, and another name. -/
def registerLookup (sig other : List UInt8) : List (Call Unit Unit) :=
  [.register sig () ⟨1, 0, 0⟩, .lookup other]

theorem registerLookup_allowed (sig other : List UInt8) :
    Call.AllAllowed Registry.new (registerLookup sig other) :=
  ⟨⟨List.not_mem_nil, List.not_mem_nil⟩, fun _ _ => ⟨trivial, fun _ _ => trivial⟩⟩

theorem exact_names_iff_connect :
    Call.AllRight Registry.new (fun _ => none) (registerLookup (ascii "connect") (ascii "quists")) ↔
      Call.AllClear (fun _ => none) (registerLookup (ascii "connect") (ascii "quists")) :=
  exact_names_iff _ (registerLookup_allowed _ _)

/-- Another name with the hash of `creamwove` is found, cannot be registered, and runs the
handler of `creamwove`. -/
theorem creamwove_not_exact :
    ¬Call.AllRight Registry.new (fun _ => none)
        (registerLookup (ascii "creamwove") (ascii "quists")) ∧
      ∃ si si' : Registry Unit Unit, ∃ id,
        Registry.new.sigRegister (ascii "creamwove") () ⟨1, 0, 0⟩ = .ok (si, id) ∧ id ≠ 0 ∧
        si.sigConnect (ascii "creamwove") none ⟨2, 1, 1⟩ .first forever () = .ok (si', true) ∧
        si'.findSignal (ascii "quists") = .ok (si', some 1) ∧
        si'.sigRegister (ascii "quists") () ⟨2, 1, 1⟩ = .ok (si', 0) ∧
        (sigEmit [si'.toInstance] (ascii "quists")).2 = [()] := by
  refine ⟨?_, _, _, _, rfl, by decide, rfl, rfl, rfl, rfl⟩
  intro h
  rcases (Call.allRight_iff new_holds _ (registerLookup_allowed _ _)).mp h with
    ⟨-, ⟨hapart, -⟩, -⟩
  exact absurd (hapart (cstring (ascii "creamwove")) nofun (by decide +kernel)) (by decide)

/-! ## The names of irC6 -/

/-- No call on names whose hashes are different and not 0 is on a name that another one is
taken for. -/
theorem allClear_of_nodup {names : List (List UInt8)}
    (hnames : (0 :: names.map fun sig => fnvHash (cstring sig)).Nodup) {R : Names}
    (hR : ∀ k, R k ≠ none → ∃ sig ∈ names, k = cstring sig) (cs : List (Call μ φ))
    (hcs : ∀ c ∈ cs, c.sig ∈ names) : Call.AllClear R cs := by
  rcases List.nodup_cons.mp hnames with ⟨hzero, hnodup⟩
  induction cs generalizing R with
  | nil => trivial
  | cons c cs ih =>
      have hsig := hcs c List.mem_cons_self
      refine ⟨⟨fun k hk hfirst => ?_, ?_⟩, ih (fun k hk => ?_) fun x hx =>
        hcs x (List.mem_cons_of_mem _ hx)⟩
      · rcases hR k hk with ⟨sig, hmem, rfl⟩
        rw [List.inj_on_of_nodup_map hnodup hmem hsig hfirst]
      · rintro sig mfunc cells rfl -
        exact fun heq => hzero (List.mem_map.mpr ⟨sig, hsig, heq⟩)
      · by_cases hkey : k = cstring c.sig
        · exact ⟨c.sig, hsig, hkey⟩
        · exact hR k fun hnone => hk (by rw [Call.apply_of_ne hkey, hnone])

/-- The names that `irc_init` registers. -/
def ircEvents : List (List UInt8) :=
  [ascii "gui fatal", ascii "gui warning", ascii "gui quit", ascii "gui welcome",
    ascii "gui invalid user", ascii "gui invalid pass", ascii "gui nick already connected",
    ascii "gui login done", ascii "gui banners", ascii "gui bottons", ascii "gui message",
    ascii "gui packet error", ascii "gui got users", ascii "gui user online",
    ascii "gui user offline", ascii "gui user change status", ascii "gui user info",
    ascii "gui room list", ascii "gui room info", ascii "gui room user list",
    ascii "gui room message", ascii "gui room user enter", ascii "gui room user leave",
    ascii "gui room can leave", ascii "gui room notexist", ascii "gui room is full",
    ascii "gui room already exist", ascii "gui found users", ascii "gui select nick",
    ascii "gui dump data"]

/-- The names that `c6_init` registers. -/
def c6Events : List (List UInt8) :=
  [ascii "connect", ascii "send login", ascii "send username", ascii "send pong",
    ascii "send message", ascii "send offline message", ascii "send users req",
    ascii "send users del", ascii "send status", ascii "get styles", ascii "set style",
    ascii "send userinfo req", ascii "send roomlist req", ascii "send roominfo req",
    ascii "send room enter", ascii "send room leave", ascii "send room message",
    ascii "send room create", ascii "get search values", ascii "reset search value",
    ascii "set search value", ascii "get set search values", ascii "send search by email",
    ascii "send search users"]

theorem events_nodup :
    (0 :: (c6Events ++ ircEvents).map fun sig => fnvHash (cstring sig)).Nodup := by
  decide +kernel

/-- On the names of irC6 the table is a map from names. -/
theorem events_right (cs : List (Call μ φ)) (hcs : Call.AllAllowed Registry.new cs)
    (hsig : ∀ c ∈ cs, c.sig ∈ c6Events ++ ircEvents) :
    Call.AllRight Registry.new (fun _ => none) cs :=
  (Call.allRight_iff new_holds cs hcs).mpr
    (allClear_of_nodup events_nodup (fun _ h => absurd rfl h) cs hsig)

theorem events_right_connect :
    Call.AllRight Registry.new (fun _ => none)
      (registerLookup (ascii "connect") (ascii "gui fatal")) := by
  refine events_right _ (registerLookup_allowed _ _) fun c hc => ?_
  rcases List.mem_pair.mp hc with rfl | rfl
  · exact List.mem_append_left _ List.mem_cons_self
  · exact List.mem_append_right _ List.mem_cons_self

end Signals
end IrC6
