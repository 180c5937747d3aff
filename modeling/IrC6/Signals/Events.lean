import IrC6.Signals.Registry

/-!
# The events of the two modules

`c6_init` and `irc_init` register the names of a table with `ev_root`, and connect the function
of each row to its name for ever.  A connection has an instance below `ev_root`, in which
`CONNECT` connects a function to some of these names once.

The names of the rows are written in one module and the names that are emitted in the other.
An emission runs the function of the row with its name, and no function for a name that is in
no row.
-/

namespace IrC6
namespace Signals

open Hash (Table HashCollision fnvHash)

variable {μ φ : Type}

namespace Registry

def findSignalId (si : Registry μ φ) (id : UInt32) : Option Nat :=
  let r := si.htable.hashtableFindId id
  if r.1 = 1 then r.2.head?.map HashCollision.arg else none

/-- `_sig_connect_id`, on an instance without ancestors. -/
def sigConnectId (si : Registry μ φ) (id : UInt32) (priority : Priority) (count : UInt32)
    (cb : φ) : Registry μ φ × Bool :=
  match si.findSignalId id with
  | none => (si, false)
  | some p =>
      ({ si with area := Function.update si.area p ((si.area p).map fun s =>
        { s with sig := connectSignal s.sig priority count cb }) }, true)

end Registry

/-- A row of `c6_ev` or of `irc_ev`. -/
structure Event (μ φ : Type) where
  name : List UInt8
  cb : Option φ
  marshal : μ
deriving DecidableEq

namespace Event

def hash (e : Event μ φ) : UInt32 := fnvHash (cstring e.name)

/-- The `struct signals` of a row. -/
def registered (e : Event μ φ) : Registered μ φ where
  id := e.hash
  marshal := e.marshal
  sig := { flags := 0, handlers := e.cb.toList.map fun cb => ⟨.first, forever, cb⟩ }

end Event

/-- What ends `c6_init` or `irc_init` before its end. -/
inductive InitHalt where
  | fault (f : Hash.Fault)
  | fatal (text : List UInt8)
deriving DecidableEq, Repr

namespace Registry

/-- The turn of the loop for one row. -/
def initEvent (si : Registry μ φ) (e : Event μ φ) (c : Cells) : Except InitHalt (Registry μ φ) :=
  match si.sigRegister e.name e.marshal c with
  | .error f => .error (.fault f)
  | .ok (si, id) =>
      if id = 0 then .error (.fatal (ascii "error in sig_register"))
      else match e.cb with
        | none => .ok si
        | some cb =>
            match si.sigConnectId id .first forever cb with
            | (si, true) => .ok si
            | (_, false) => .error (.fatal (ascii "error in sig_connect"))

def initEvents (si : Registry μ φ) : List (Event μ φ × Cells) → Except InitHalt (Registry μ φ)
  | [] => .ok si
  | (e, c) :: rows =>
      match si.initEvent e c with
      | .error halt => .error halt
      | .ok si => initEvents si rows

/-- The cells given to each row are not in use. -/
def AllFresh (si : Registry μ φ) : List (Event μ φ × Cells) → Prop
  | [] => True
  | (e, c) :: rows => si.htable.Fresh c.tnew c.lnew ∧ si.area c.sig = none ∧
      ∀ si', si.initEvent e c = .ok si' → AllFresh si' rows

section Decide

variable {si si' : Registry μ φ} {e : Event μ φ} {c : Cells} {rows : List (Event μ φ × Cells)}

theorem allFresh_cons_ok (h : si.initEvent e c = .ok si') :
    si.AllFresh ((e, c) :: rows) ↔
      si.htable.Fresh c.tnew c.lnew ∧ si.area c.sig = none ∧ si'.AllFresh rows := by
  rw [AllFresh, h]
  simp

theorem allFresh_cons_error {halt : InitHalt} (h : si.initEvent e c = .error halt) :
    si.AllFresh ((e, c) :: rows) ↔ si.htable.Fresh c.tnew c.lnew ∧ si.area c.sig = none := by
  rw [AllFresh, h]
  simp

end Decide

instance (si : Registry μ φ) (c : Cells) : Decidable (si.htable.Fresh c.tnew c.lnew) :=
  inferInstanceAs (Decidable (_ ∧ _))

instance decidableAllFresh (si : Registry μ φ) :
    (rows : List (Event μ φ × Cells)) → Decidable (si.AllFresh rows)
  | [] => .isTrue trivial
  | (e, c) :: rows =>
      match h : si.initEvent e c with
      | .ok si' =>
          have := decidableAllFresh si' rows
          decidable_of_iff' _ (allFresh_cons_ok h)
      | .error _ => decidable_of_iff' _ (allFresh_cons_error h)

/-- The instance has the rows, each with its function and with no other name's hash. -/
structure Serves (si : Registry μ φ) (rows : List (Event μ φ)) : Prop where
  hashes : (0 :: rows.map Event.hash).Nodup
  holds : ∃ R, si.Holds R ∧ (∀ k, R k ≠ none → ∃ e ∈ rows, k = cstring e.name) ∧
    ∀ e ∈ rows, ∃ p, R (cstring e.name) = some p ∧ si.area p = some e.registered
  lasting : ∀ p s, si.area p = some s → ∀ x ∈ s.sig.handlers, x.count = forever

variable {si si' : Registry μ φ} {R : Names}

/-! ## Registering -/

/-- The number of a registered name finds its signal. -/
theorem Holds.findSignalId (h : si.Holds R) {sig : List UInt8} {p : Nat}
    (hR : R (cstring sig) = some p) : si.findSignalId (fnvHash (cstring sig)) = some p := by
  obtain ⟨l, hl, hdata, harg⟩ := Table.mem_entries.mp ((h.represents _ _).mpr hR)
  obtain ⟨n, hn, hln⟩ := Table.mem_nodes.mp hl
  obtain ⟨x, hlist, helms⟩ := h.single.node hn
  have hfirst : n.firstHash = fnvHash (cstring sig) := by
    rw [← hdata, (h.single.bucket hn).first l hln]
  have hfind : si.htable.rbFind n.firstHash = some n :=
    Table.rbFind_sorted (t := si.htable) h.single.exact.sorted hn
  rw [hlist, List.mem_singleton] at hln
  subst hln
  rw [← hfirst]
  unfold Registry.findSignalId Table.hashtableFindId
  simp only [hfind, helms, hlist, ← harg]
  rfl

theorem sigRegister_area {sig : List UInt8} {mfunc : μ} {c : Cells} {id : UInt32} (hid : id ≠ 0)
    (h : si.sigRegister sig mfunc c = .ok (si', id)) :
    si'.area = Function.update si.area c.sig
      (some { id := id, marshal := mfunc, sig := { flags := 0, handlers := [] } }) := by
  unfold Registry.sigRegister Registry.findSignal at h
  cases hfind : si.htable.hashtableFind (Hash.hashNew (cstring sig) 0) with
  | error f =>
      rw [hfind] at h
      cases h
  | ok r =>
      rw [hfind] at h
      simp only [bind, Except.bind] at h
      split at h
      · cases h
        exact absurd rfl hid
      · unfold addSignal at h
        dsimp only at h
        split at h
        · cases h
          exact absurd rfl hid
        · rename_i heq
          cases h
          obtain ⟨rfl, -⟩ := Prod.mk.inj heq
          rfl

theorem new_serves : (Registry.new : Registry μ φ).Serves [] where
  hashes := List.nodup_singleton 0
  holds := ⟨fun _ => none, new_holds, fun _ h => absurd rfl h, nofun⟩
  lasting := nofun

/-- The name of a new row goes to a cell of its own, and the rows that were there stay. -/
theorem serves_cons {rows : List (Event μ φ)} {e : Event μ φ} {p : Nat}
    (hnodup : (0 :: (e :: rows).map Event.hash).Nodup)
    (honly : ∀ k, R k ≠ none → ∃ e ∈ rows, k = cstring e.name)
    (hrows : ∀ e ∈ rows, ∃ p, R (cstring e.name) = some p ∧ si.area p = some e.registered)
    (hlasting : ∀ p s, si.area p = some s → ∀ x ∈ s.sig.handlers, x.count = forever)
    (hnone : R (cstring e.name) = none) (hfree : si.area p = none)
    (hholds : si'.Holds (Function.update R (cstring e.name) (some p)))
    (harea : si'.area = Function.update si.area p (some e.registered)) :
    si'.Serves (e :: rows) := by
  refine ⟨hnodup, ⟨_, hholds, fun k hk => ?_,
    List.forall_mem_cons.mpr ⟨⟨p, Function.update_self _ _ _, ?_⟩, fun e' he' => ?_⟩⟩,
    fun q s hq x hx => ?_⟩
  · by_cases hkey : k = cstring e.name
    · exact ⟨e, List.mem_cons_self, hkey⟩
    · rw [Function.update_of_ne hkey] at hk
      obtain ⟨e', he', rfl⟩ := honly k hk
      exact ⟨e', List.mem_cons_of_mem _ he', rfl⟩
  · rw [harea, Function.update_self]
  · obtain ⟨q, hq, hreg⟩ := hrows e' he'
    have hname : cstring e'.name ≠ cstring e.name := fun heq => by
      rw [heq, hnone] at hq
      cases hq
    have hcell : q ≠ p := fun heq => by
      rw [heq, hfree] at hreg
      cases hreg
    refine ⟨q, by rw [Function.update_of_ne hname, hq], ?_⟩
    rw [harea, Function.update_of_ne hcell, hreg]
  · rw [harea] at hq
    by_cases hcell : q = p
    · rw [hcell, Function.update_self] at hq
      obtain rfl := Option.some.inj hq
      obtain ⟨cb, -, rfl⟩ := List.mem_map.mp hx
      rfl
    · rw [Function.update_of_ne hcell] at hq
      exact hlasting q s hq x hx

/-- A row is registered and connected, and those that were there stay. -/
theorem Serves.initEvent {rows : List (Event μ φ)} (h : si.Serves rows) {e : Event μ φ}
    (hnodup : (0 :: (e :: rows).map Event.hash).Nodup) {c : Cells}
    (hf : si.htable.Fresh c.tnew c.lnew) (hfree : si.area c.sig = none) :
    ∃ si', si.initEvent e c = .ok si' ∧ si'.Serves (e :: rows) := by
  obtain ⟨R, hholds, honly, hrows⟩ := h.holds
  obtain ⟨hzero, hnodup'⟩ := List.nodup_cons.mp hnodup
  have hne : e.hash ≠ 0 := fun heq => hzero (by rw [← heq]; exact List.mem_cons_self)
  -- No name that is registered has the hash of the new one.
  have hother : ∀ k, R k ≠ none → fnvHash k ≠ e.hash := by
    intro k hk heq
    obtain ⟨e', he', rfl⟩ := honly k hk
    exact (List.nodup_cons.mp hnodup').1 (List.mem_map.mpr ⟨e', he', heq⟩)
  have hnone : R (cstring e.name) = none := by
    by_contra hk
    exact hother _ hk rfl
  have hapart : Table.Apart R (cstring e.name) := fun k hk heq => absurd heq (hother k hk)
  obtain ⟨si₁, hregister, hholds₁⟩ := hholds.sigRegister e.name hapart e.marshal hf
  rw [if_pos hnone] at hregister
  rw [Call.apply, if_pos hnone] at hholds₁
  have harea := sigRegister_area hne hregister
  unfold Registry.initEvent
  rw [hregister]
  dsimp only
  rw [if_neg (show ¬ fnvHash (cstring e.name) = 0 from hne)]
  cases hcb : e.cb with
  | none =>
      refine ⟨si₁, rfl, serves_cons hnodup honly hrows h.lasting hnone hfree hholds₁ ?_⟩
      rw [harea, Event.registered, hcb]
      rfl
  | some cb =>
      have hfind : si₁.findSignalId (fnvHash (cstring e.name)) = some c.sig :=
        hholds₁.findSignalId (Function.update_self _ _ _)
      unfold sigConnectId
      rw [hfind]
      refine ⟨_, rfl, serves_cons hnodup honly hrows h.lasting hnone hfree
        ⟨hholds₁.single, hholds₁.represents⟩ ?_⟩
      dsimp only
      rw [harea, Function.update_self, Function.update_idem, Event.registered, hcb]
      rfl

theorem Serves.initEvents {rows : List (Event μ φ)} (h : si.Serves rows)
    (new : List (Event μ φ × Cells))
    (hnodup : (0 :: ((new.map Prod.fst).reverse ++ rows).map Event.hash).Nodup)
    (hnew : si.AllFresh new) :
    ∃ si', si.initEvents new = .ok si' ∧ si'.Serves ((new.map Prod.fst).reverse ++ rows) := by
  induction new generalizing si rows with
  | nil => exact ⟨si, rfl, h⟩
  | cons row new ih =>
      obtain ⟨e, c⟩ := row
      obtain ⟨hf, hfree, hrest⟩ := hnew
      rw [List.map_cons, List.reverse_cons, List.append_assoc, List.singleton_append] at hnodup ⊢
      have hnodup₁ : (0 :: (e :: rows).map Event.hash).Nodup := by
        refine hnodup.sublist (List.Sublist.cons_cons 0 (List.Sublist.map _ ?_))
        exact List.sublist_append_right _ _
      obtain ⟨si₁, hinit, hserves⟩ := h.initEvent hnodup₁ hf hfree
      obtain ⟨si₂, hinits, hserves₂⟩ := ih hserves hnodup (hrest si₁ hinit)
      refine ⟨si₂, ?_, hserves₂⟩
      rw [Registry.initEvents, hinit]
      exact hinits

/-! ## Emitting -/

/-- The signal of a row is the one that it was registered with. -/
theorem Serves.signals {rows : List (Event μ φ)} (h : si.Serves rows) {e : Event μ φ}
    (he : e ∈ rows) : si.toInstance.signals e.name = some e.registered.sig := by
  obtain ⟨R, hholds, honly, hrows⟩ := h.holds
  obtain ⟨p, hp, hreg⟩ := hrows e he
  have hapart : Table.Apart R (cstring e.name) := by
    intro k hk heq
    obtain ⟨e', he', rfl⟩ := honly k hk
    rw [List.inj_on_of_nodup_map (List.nodup_cons.mp h.hashes).2 he' he heq]
  unfold toInstance
  dsimp only
  rw [(hholds.findSignal_iff e.name).mpr hapart, hp]
  dsimp only
  rw [hreg]
  rfl

theorem Holds.toInstance_none (h : si.Holds R) {name : List UInt8}
    (hother : ∀ k, R k ≠ none → fnvHash k ≠ fnvHash (cstring name)) :
    si.toInstance.signals name = none := by
  have hnone : R (cstring name) = none := by
    by_contra hk
    exact hother _ hk rfl
  unfold toInstance
  dsimp only
  rw [(h.findSignal_iff name).mpr fun k hk heq => absurd heq (hother k hk), hnone]

/-- A name whose hash is no row's has no signal. -/
theorem Serves.signals_none {rows : List (Event μ φ)} (h : si.Serves rows) {name : List UInt8}
    (hname : ∀ e ∈ rows, e.hash ≠ fnvHash (cstring name)) : si.toInstance.signals name = none := by
  obtain ⟨R, hholds, honly, -⟩ := h.holds
  refine hholds.toInstance_none fun k hk heq => ?_
  obtain ⟨e, he, rfl⟩ := honly k hk
  exact hname e he heq

/-- `ev_root` as the emissions leave it, which run the handlers of a signal. -/
inductive Rooted (root : Registry μ φ) : Registry μ φ → Prop where
  | init : Rooted root root
  | emitted {si : Registry μ φ} (p : Nat) (stop : Bool) : Rooted root si →
      Rooted root { si with area := Function.update si.area p ((si.area p).map fun s =>
        { s with sig := { s.sig with handlers := (runHandlers stop s.sig.handlers).2 } }) }

/-- The instance of a connection, as `CONNECT` on some names and the emissions leave it. -/
inductive Connected (names : List (List UInt8)) : Registry μ φ → Prop where
  | new : Connected names Registry.new
  | connect {si si' : Registry μ φ} {sig : List UInt8} {os : Option (Registered μ φ)} {c : Cells}
      {cb : φ} {ok : Bool} : Connected names si → sig ∈ names → si.htable.Fresh c.tnew c.lnew →
      si.sigConnect sig os c .first 1 cb = .ok (si', ok) → Connected names si'
  | emitted {si : Registry μ φ} (area : Nat → Option (Registered μ φ)) :
      Connected names si → Connected names { si with area := area }

theorem runHandlers_forever (stop : Bool) {hs : List (Handler φ)}
    (h : ∀ x ∈ hs, x.count = forever) : (runHandlers stop hs).2 = hs := by
  induction hs with
  | nil => rfl
  | cons x hs ih =>
      obtain ⟨hx, hrest⟩ := List.forall_mem_cons.mp h
      have hran : x.ran = some x := by rw [Handler.ran, if_pos hx]
      rw [runHandlers, hran]
      cases stop with
      | true => rfl
      | false =>
          rw [if_neg Bool.false_ne_true, ih hrest]
          rfl

/-- The functions of the rows stay connected. -/
theorem Rooted.serves {root : Registry μ φ} (h : Rooted root si) {rows : List (Event μ φ)}
    (hs : root.Serves rows) : si.Serves rows := by
  suffices heq : si = root from heq ▸ hs
  induction h with
  | init => rfl
  | @emitted si p stop _ ih =>
      subst ih
      have harea : ((si.area p).map fun s => { s with
          sig := { s.sig with handlers := (runHandlers stop s.sig.handlers).2 } }) = si.area p := by
        cases hp : si.area p with
        | none => rfl
        | some s => rw [Option.map_some, runHandlers_forever stop (hs.lasting p s hp)]
      rw [harea, Function.update_eq_self]

/-- The instance of a connection has no names but those that `CONNECT` is used on. -/
theorem Connected.holds {names : List (List UInt8)} (h : Connected names si)
    (hnames : (names.map fun sig => fnvHash (cstring sig)).Nodup) :
    ∃ R, si.Holds R ∧ ∀ k, R k ≠ none → ∃ sig ∈ names, k = cstring sig := by
  induction h with
  | new => exact ⟨fun _ => none, new_holds, fun _ h => absurd rfl h⟩
  | @connect si si' sig os c cb ok _ hsig hf hconnect ih =>
      obtain ⟨R, hholds, honly⟩ := ih
      have hapart : Table.Apart R (cstring sig) := by
        intro k hk heq
        obtain ⟨sig', hsig', rfl⟩ := honly k hk
        rw [List.inj_on_of_nodup_map hnames hsig' hsig heq]
      obtain ⟨si₁, ok₁, hrun, hholds₁⟩ := hholds.sigConnect sig hapart os hf .first 1 cb
      rw [hconnect] at hrun
      obtain ⟨rfl, -⟩ := Prod.mk.inj (Except.ok.inj hrun)
      refine ⟨_, hholds₁, fun k hk => ?_⟩
      by_cases hkey : k = cstring sig
      · exact ⟨sig, hsig, hkey⟩
      · exact honly k fun hnone => hk (by rw [Call.apply_of_ne hkey, hnone])
  | emitted area _ ih =>
      obtain ⟨R, hholds, honly⟩ := ih
      exact ⟨R, ⟨hholds.single, hholds.represents⟩, honly⟩

theorem Connected.signals_none {names : List (List UInt8)} (h : Connected names si)
    {name : List UInt8}
    (hnames : ((name :: names).map fun sig => fnvHash (cstring sig)).Nodup) :
    si.toInstance.signals name = none := by
  rw [List.map_cons, List.nodup_cons] at hnames
  obtain ⟨R, hholds, honly⟩ := h.holds hnames.2
  have hother : ∀ k, R k ≠ none → fnvHash k ≠ fnvHash (cstring name) := by
    intro k hk heq
    obtain ⟨sig, hsig, rfl⟩ := honly k hk
    exact hnames.1 (List.mem_map.mpr ⟨sig, hsig, heq⟩)
  exact hholds.toInstance_none hother

/-- An emission runs the function of the row with its name. -/
theorem Serves.emit {rows : List (Event μ φ)} (hroot : si.Serves rows) {e : Event μ φ}
    (he : e ∈ rows) {node : Instance (List UInt8) φ} (hnode : node.signals e.name = none) :
    (sigEmit [node, si.toInstance] e.name).2 = e.cb.toList := by
  have hunlocked : e.registered.sig.locked = false := by
    show decide ((0 : UInt32) &&& lock ≠ 0) = false
    decide
  have hrun : ∀ stop, (runHandlers stop e.registered.sig.handlers).1 = e.cb.toList := by
    intro stop
    unfold Event.registered
    cases e.cb with
    | none => rfl
    | some cb => cases stop <;> rfl
  simp only [sigEmit, hnode, emitUp, hroot.signals he, hunlocked, Bool.false_eq_true, if_false,
    sigEmitReal, hrun, List.append_nil]

end Registry

end Signals
end IrC6
