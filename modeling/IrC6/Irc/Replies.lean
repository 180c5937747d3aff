import Mathlib.Data.List.Perm.Subperm
import IrC6.Irc.Room
import IrC6.Signals.Emit

/-!
# Replies to information requests

A request for a user's or a room's information connects the function that is to
render the reply, once, and sends a packet.  Each request puts its handler in front
of the others, and the reply of the server runs all of them.

So a reply finds its own function alone only when no other request of its kind waits
for one.
-/

namespace IrC6
namespace Irc

open Signals

/-- The signals that are used, of those in `irc_ev` and `c6_ev`. -/
inductive Ev where
  | guiUserInfo
  | guiRoomInfo
  | sendUserinfoReq
  | sendRoominfoReq
deriving DecidableEq, Repr

/-- `irc_out_whois`, `irc_out_user_info`, `irc_out_roominfo` and `irc_out_roomtopic`,
and `c6_req_userinfo` and `c6_req_roominfo`. -/
inductive Callback where
  | whois
  | userInfo
  | roominfo
  | roomtopic
  | reqUserinfo
  | reqRoominfo
deriving DecidableEq, Repr

/-- A row of `irc_ev` or of `c6_ev`. -/
def register (root : Instance Ev Callback) (row : Ev × Option Callback) :
    Instance Ev Callback :=
  let root := (sigRegister root row.1).1
  match row.2 with
  | none => root
  | some cb => (sigConnect [root] row.1 .first forever cb).1.headD root

/-- `ev_root` behind `irc_init` and `c6_init`. -/
def evRoot : Instance Ev Callback :=
  [(Ev.guiUserInfo, none), (.guiRoomInfo, none),
    (.sendUserinfoReq, some Callback.reqUserinfo),
    (.sendRoominfoReq, some .reqRoominfo)].foldl register sigInstanceNew

/-- A request that has been sent: the function that it connected, and the nick or room
that it asks for. -/
structure Request where
  callback : Callback
  target : List UInt8
deriving DecidableEq, Repr

/-- `c->siginst` with its ancestors, and for each kind of reply the requests that wait
for one, in the order in which they were sent. -/
structure Session where
  siginst : List (Instance Ev Callback)
  waiting : Ev → List Request

/-- `irC6_new_connection`. -/
def newConnection : Session :=
  { siginst := [sigInstanceNew, evRoot], waiting := fun _ => [] }

namespace Session

/-- `CONNECT` of a function to a reply, and `EMIT` of the request.  The request is sent
by the function that the emission calls. -/
def request (s : Session) (reply : Ev) (cb : Callback) (send : Ev) (target : List UInt8) :
    Session :=
  let emitted := sigEmit (sigConnect s.siginst reply .first 1 cb).1 send
  { siginst := emitted.1
    waiting := Function.update s.waiting reply
      (s.waiting reply ++ emitted.2.map fun _ => { callback := cb, target := target }) }

/-- One turn of the loop of `c_whois`. -/
def whois (s : Session) (nick : List UInt8) : Session :=
  s.request .guiUserInfo .whois .sendUserinfoReq nick

/-- One turn of the loop of `c_userinfo`. -/
def userinfo (s : Session) (arg : List UInt8) : Session :=
  if isRemChan arg then s.request .guiRoomInfo .roominfo .sendRoominfoReq (ircRoomDecode arg)
  else s.request .guiUserInfo .userInfo .sendUserinfoReq arg

/-- The functions that are connected to a signal. -/
def connected (s : Session) (e : Ev) : List Callback :=
  match s.siginst with
  | [] => []
  | si :: _ => match si.signals e with
    | none => []
    | some sig => sig.handlers.map Handler.func

/-- A reply: the functions that render it, and the request that it answers. -/
def reply (s : Session) (e : Ev) : Session × List Callback :=
  let emitted := sigEmit s.siginst e
  ({ siginst := emitted.1, waiting := Function.update s.waiting e (s.waiting e).tail }, emitted.2)

end Session

/-- What happens on a connection.  Entering a room comes with the result of
`chanlist_add`. -/
inductive Step where
  | cWhois (argv : List (List UInt8))
  | cUserinfo (argv : List (List UInt8))
  | roomUlist (room : List UInt8) (added : Int)
  | reply (e : Ev)
deriving DecidableEq, Repr

namespace Step

/-- `c_whois`, `c_userinfo`, `irc_out_room_ulist`, and the emission in `cmd_user_info`
or `cmd_roominfo`: the session, and the functions that have rendered a reply. -/
def run (s : Session) : Step → Session × List Callback
  | cWhois argv => (argv.foldl Session.whois s, [])
  | cUserinfo argv => (argv.foldl Session.userinfo s, [])
  | roomUlist room added =>
      (if added = 1 then s.request .guiRoomInfo .roomtopic .sendRoominfoReq room else s, [])
  | reply e => s.reply e

/-- A reply answers the oldest request of its kind. -/
def Answers (s : Session) : Step → Prop
  | reply e => (e = .guiUserInfo ∨ e = .guiRoomInfo) ∧ s.waiting e ≠ []
  | _ => True

/-- A reply is rendered by the function that its request connected and no other, and the
functions of the requests that wait stay connected. -/
def Paired (s : Session) (step : Step) : Prop :=
  (∀ e, step = reply e → (step.run s).2 = ((s.waiting e).take 1).map Request.callback) ∧
    ∀ e, (((step.run s).1.waiting e).map Request.callback).Subperm ((step.run s).1.connected e)

/-- A reply comes when one request of its kind waits. -/
def Alone (s : Session) : Step → Prop
  | reply e => (s.waiting e).length = 1
  | _ => True

/-- A property of each step of a run. -/
def Always (p : Session → Step → Prop) : Session → List Step → Prop
  | _, [] => True
  | s, step :: steps => p s step ∧ Always p (step.run s).1 steps

end Step

/-! ## Emitting on a connection -/

/-- A signal whose handlers are those of the requests that wait, the latest first. -/
def served (rs : List Request) : Sig Callback :=
  { flags := 0, handlers := (rs.map fun r => oneShot r.callback).reverse }

/-- A signal that was never connected serves no request. -/
def Serves (rs : List Request) : Option (Sig Callback) → Prop
  | none => rs = []
  | some sig => sig = served rs

theorem locked_zero (hs : List (Handler Callback)) :
    Sig.locked { flags := 0, handlers := hs } = false := by
  simp [Sig.locked]

/-- An instance that does not quit is the same after an emission. -/
theorem quit_self {si : Instance Ev Callback} (hquit : si.quit = false) :
    { si with quit := if si.emitting = 0 then false else si.quit } = si := by
  cases si
  simp_all

/-- An emission leaves `ev_root` as it is. -/
theorem emitUp_evRoot {e : Ev} {hs : List (Handler Callback)} {calls : List Callback}
    (hroot : evRoot.signals e = some { flags := 0, handlers := hs })
    (hrun : runHandlers false hs = (calls, hs)) {si : Instance Ev Callback}
    (hquit : si.quit = false) : emitUp e si [evRoot] = (si, [evRoot], calls) := by
  have hset : evRoot.set e { flags := 0, handlers := hs } = evRoot := by
    rw [Instance.set, ← hroot, Function.update_eq_self]
  rw [emitUp, hroot]
  simp only [locked_zero, Bool.false_eq_true, if_false, sigEmitReal, quit_self hquit]
  rw [hquit, Bool.or_false, hrun]
  simp only [hset, emitUp, List.append_nil]

/-! ## Sessions -/

def Ev.IsReply (e : Ev) : Prop := e = .guiUserInfo ∨ e = .guiRoomInfo

theorem evRoot_reply {e : Ev} (he : e.IsReply) :
    evRoot.signals e = some { flags := 0, handlers := [] } := by
  rcases he with rfl | rfl <;> rfl

theorem evRoot_userinfo : evRoot.signals .sendUserinfoReq =
    some { flags := 0, handlers := [⟨.first, forever, .reqUserinfo⟩] } := rfl

theorem evRoot_roominfo : evRoot.signals .sendRoominfoReq =
    some { flags := 0, handlers := [⟨.first, forever, .reqRoominfo⟩] } := rfl

/-- The instance of a connection has handlers for replies only, one for each request
that waits. -/
def Matched (s : Session) : Prop :=
  ∃ si, s.siginst = [si, evRoot] ∧ si.quit = false ∧
    (∀ e : Ev, ¬ e.IsReply → si.signals e = none) ∧
    ∀ e, Serves (s.waiting e) (si.signals e)

theorem matched_newConnection : Matched newConnection :=
  ⟨sigInstanceNew, rfl, rfl, fun _ _ => rfl, fun _ => rfl⟩

namespace Matched

variable {s : Session}

/-- Connecting puts the new handler in front. -/
theorem sigConnect {si : Instance Ev Callback} {e : Ev} (he : e.IsReply) {rs : List Request}
    (hserves : Serves rs (si.signals e)) (r : Request) :
    Signals.sigConnect [si, evRoot] e .first 1 r.callback =
      ([si.set e (served (rs ++ [r])), evRoot], true) := by
  have hserved : connectSignal (served rs) .first 1 r.callback = served (rs ++ [r]) := by
    simp [connectSignal, insertWithPriority, served, oneShot]
  rw [Signals.sigConnect]
  cases hsig : si.signals e with
  | none =>
      rw [hsig] at hserves
      have hnil : rs = [] := hserves
      subst hnil
      simp only [List.findSome?_cons, evRoot_reply he]
      rw [← hserved]
      rfl
  | some sig =>
      rw [hsig] at hserves
      have hsig : sig = served rs := hserves
      simp only [hsig, hserved]

/-- A request connects its function and is sent. -/
theorem request_eq {si : Instance Ev Callback} (hquit : si.quit = false)
    (hreplies : ∀ e : Ev, ¬ e.IsReply → si.signals e = none) {e send : Ev} (he : e.IsReply)
    (hsend : ¬ send.IsReply) {req : Callback}
    (hroot : evRoot.signals send = some { flags := 0, handlers := [⟨.first, forever, req⟩] })
    {waiting : Ev → List Request} (hserves : Serves (waiting e) (si.signals e))
    (cb : Callback) (target : List UInt8) :
    Session.request ⟨[si, evRoot], waiting⟩ e cb send target =
      ⟨[si.set e (served (waiting e ++ [⟨cb, target⟩])), evRoot],
        Function.update waiting e (waiting e ++ [⟨cb, target⟩])⟩ := by
  have hnone : (si.set e (served (waiting e ++ [⟨cb, target⟩]))).signals send = none := by
    have hne : send ≠ e := fun heq => hsend (heq ▸ he)
    simp only [Instance.set, Function.update_of_ne hne]
    exact hreplies send hsend
  have hrun : runHandlers false [⟨.first, forever, req⟩] =
      ([req], [(⟨.first, forever, req⟩ : Handler Callback)]) := rfl
  have hup := emitUp_evRoot hroot hrun
    (show (si.set e (served (waiting e ++ [⟨cb, target⟩]))).quit = false from hquit)
  rw [Session.request]
  simp only [sigConnect he hserves ⟨cb, target⟩, sigEmit, hnone, hup]
  rfl

theorem request (h : Matched s) {e send : Ev} (he : e.IsReply) (hsend : ¬ send.IsReply)
    {req : Callback}
    (hroot : evRoot.signals send = some { flags := 0, handlers := [⟨.first, forever, req⟩] })
    (cb : Callback) (target : List UInt8) : Matched (s.request e cb send target) := by
  obtain ⟨si, hchain, hquit, hreplies, hserves⟩ := h
  obtain ⟨siginst, waiting⟩ := s
  subst hchain
  rw [request_eq hquit hreplies he hsend hroot (hserves e) cb target]
  refine ⟨_, rfl, hquit, fun e' he' => ?_, fun e' => ?_⟩
  · have hne : e' ≠ e := fun heq => he' (heq ▸ he)
    simp only [Instance.set, Function.update_of_ne hne]
    exact hreplies e' he'
  · by_cases hee : e' = e
    · subst hee
      simp only [Instance.set, Function.update_self]
      rfl
    · simp only [Instance.set, Function.update_of_ne hee]
      exact hserves e'

theorem whois (h : Matched s) (nick : List UInt8) : Matched (s.whois nick) :=
  h.request (Or.inl rfl) (by simp [Ev.IsReply]) evRoot_userinfo _ _

theorem userinfo (h : Matched s) (arg : List UInt8) : Matched (s.userinfo arg) := by
  rw [Session.userinfo]
  split
  · exact h.request (Or.inr rfl) (by simp [Ev.IsReply]) evRoot_roominfo _ _
  · exact h.request (Or.inl rfl) (by simp [Ev.IsReply]) evRoot_userinfo _ _

theorem foldl {f : Session → List UInt8 → Session} (hf : ∀ s x, Matched s → Matched (f s x))
    (h : Matched s) (xs : List (List UInt8)) : Matched (xs.foldl f s) := by
  induction xs generalizing s with
  | nil => exact h
  | cons x xs ih => exact ih (hf s x h)

/-- A reply runs the functions of all requests of its kind that wait, and disconnects
them. -/
theorem reply_eq {si : Instance Ev Callback} (hquit : si.quit = false) {e : Ev}
    (he : e.IsReply) {waiting : Ev → List Request} (hserves : Serves (waiting e) (si.signals e)) :
    ∃ si' : Instance Ev Callback, si'.quit = false ∧ Serves [] (si'.signals e) ∧
      (∀ e', e' ≠ e → si'.signals e' = si.signals e') ∧
      Session.reply ⟨[si, evRoot], waiting⟩ e =
        (⟨[si', evRoot], Function.update waiting e (waiting e).tail⟩,
          ((waiting e).map Request.callback).reverse) := by
  have hup : ∀ si : Instance Ev Callback, si.quit = false →
      emitUp e si [evRoot] = (si, [evRoot], []) :=
    fun si hquit => emitUp_evRoot (evRoot_reply he) rfl hquit
  cases hsig : si.signals e with
  | none =>
      rw [hsig] at hserves
      have hnil : waiting e = [] := hserves
      refine ⟨si, hquit, by rw [hsig]; rfl, fun _ _ => rfl, ?_⟩
      rw [Session.reply]
      simp only [sigEmit, hsig, hup si hquit, hnil]
      rfl
  | some sig =>
      rw [hsig] at hserves
      have hsig' : sig = served (waiting e) := hserves
      subst hsig'
      have hrun : runHandlers false (served (waiting e)).handlers =
          (((waiting e).map Request.callback).reverse, []) := by
        have honce := runHandlers_oneShot ((waiting e).map Request.callback).reverse
        rw [List.map_reverse, List.map_map] at honce
        exact honce
      refine ⟨si.set e (served []), hquit, ?_, fun e' he' => ?_, ?_⟩
      · simp only [Instance.set, Function.update_self]
        rfl
      · simp only [Instance.set, Function.update_of_ne he']
      · rw [Session.reply]
        have hlocked : (served (waiting e)).locked = false := locked_zero _
        have hempty : ({ served (waiting e) with handlers := [] } : Sig Callback) = served [] := rfl
        simp only [sigEmit, hsig, hlocked, Bool.false_eq_true, if_false, sigEmitReal,
          quit_self hquit]
        rw [hquit, Bool.or_false, hrun]
        simp only [hempty, hup (si.set e (served [])) hquit, List.append_nil]

/-- The functions of the requests that wait are connected. -/
theorem subperm_connected (h : Matched s) (e : Ev) :
    ((s.waiting e).map Request.callback).Subperm (s.connected e) := by
  obtain ⟨si, hchain, -, -, hserves⟩ := h
  have hserves := hserves e
  rw [Session.connected, hchain]
  simp only
  cases hsig : si.signals e with
  | none =>
      rw [hsig] at hserves
      rw [show s.waiting e = [] from hserves]
      exact List.nil_subperm
  | some sig =>
      rw [hsig] at hserves
      rw [show sig = served (s.waiting e) from hserves]
      simp only [served, List.map_reverse, List.map_map]
      exact (List.reverse_perm _).symm.subperm

/-- A step that is not a reply keeps the two together. -/
theorem run_request (h : Matched s) {step : Step} (hstep : ∀ e, step ≠ .reply e) :
    Matched (step.run s).1 := by
  cases step with
  | cWhois argv => exact h.foldl (fun _ x hs => hs.whois x) argv
  | cUserinfo argv => exact h.foldl (fun _ x hs => hs.userinfo x) argv
  | roomUlist room added =>
      rw [Step.run]
      split
      · exact h.request (Or.inr rfl) (by simp [Ev.IsReply]) evRoot_roominfo _ _
      · exact h
  | reply e => exact absurd rfl (hstep e)

theorem run_reply (h : Matched s) {e : Ev} (he : e.IsReply) :
    (Step.run s (.reply e)).2 = ((s.waiting e).map Request.callback).reverse ∧
      (Step.run s (.reply e)).1.waiting = Function.update s.waiting e (s.waiting e).tail ∧
      ((s.waiting e).length ≤ 1 → Matched (Step.run s (.reply e)).1) := by
  obtain ⟨si, hchain, hquit, hreplies, hserves⟩ := h
  obtain ⟨siginst, waiting⟩ := s
  subst hchain
  obtain ⟨si', hquit', hempty, hother, hreply⟩ := reply_eq hquit he (hserves e)
  have hrun : Step.run ⟨[si, evRoot], waiting⟩ (.reply e) =
    (⟨[si', evRoot], Function.update waiting e (waiting e).tail⟩,
      ((waiting e).map Request.callback).reverse) := hreply
  rw [hrun]
  refine ⟨rfl, rfl, fun hlen => ⟨si', rfl, hquit', fun e' he' => ?_, fun e' => ?_⟩⟩
  · rw [hother e' (fun heq => he' (heq ▸ he))]
    exact hreplies e' he'
  · by_cases hee : e' = e
    · subst hee
      have hshort : (waiting e').length ≤ 1 := hlen
      have htail : (waiting e').tail = [] := by
        rw [← List.length_eq_zero_iff, List.length_tail]
        omega
      simp only [Function.update_self, htail]
      exact hempty
    · simp only [Function.update_of_ne hee, hother e' hee]
      exact hserves e'

end Matched

/-! ## Runs -/

/-- A reply is rendered as it should be exactly when it finds one request. -/
theorem paired_iff_of_matched {s : Session} (h : Matched s) {step : Step}
    (hans : step.Answers s) :
    (step.Paired s ↔ step.Alone s) ∧ (step.Alone s → Matched (step.run s).1) := by
  by_cases hstep : ∃ e, step = .reply e
  · obtain ⟨e, rfl⟩ := hstep
    obtain ⟨he, hne⟩ := hans
    obtain ⟨hcalls, -, hmatched⟩ := h.run_reply he
    have hkeeps : Step.Alone s (.reply e) → Matched (Step.run s (.reply e)).1 :=
      fun halone => hmatched (Nat.le_of_eq halone)
    refine ⟨⟨fun hpaired => ?_, fun halone => ⟨fun e' heq => ?_, fun e' => ?_⟩⟩, hkeeps⟩
    · have hrendered := congrArg List.length (hpaired.1 e rfl)
      rw [hcalls] at hrendered
      have hpos := List.length_pos_of_ne_nil hne
      simp only [List.length_reverse, List.length_map, List.length_take] at hrendered
      show (s.waiting e).length = 1
      omega
    · cases heq
      obtain ⟨r, hr⟩ := List.length_eq_one_iff.mp halone
      rw [hcalls, hr]
      rfl
    · exact (hkeeps halone).subperm_connected e'
  · have hrequest : ∀ e, step ≠ .reply e := fun e heq => hstep ⟨e, heq⟩
    have hmatched := h.run_request hrequest
    refine ⟨⟨fun _ => ?_, fun _ => ⟨fun e heq => absurd heq (hrequest e), fun e => ?_⟩⟩,
      fun _ => hmatched⟩
    · cases step with
      | reply e => exact absurd rfl (hrequest e)
      | _ => trivial
    · exact hmatched.subperm_connected e

theorem always_paired_iff {s : Session} (h : Matched s) (steps : List Step)
    (hans : Step.Always Step.Answers s steps) :
    Step.Always Step.Paired s steps ↔ Step.Always Step.Alone s steps := by
  induction steps generalizing s with
  | nil => exact Iff.rfl
  | cons step steps ih =>
      obtain ⟨hiff, hmatched⟩ := paired_iff_of_matched h hans.1
      constructor
      · intro hp
        have halone := hiff.mp hp.1
        exact ⟨halone, (ih (hmatched halone) hans.2).mp hp.2⟩
      · intro ha
        exact ⟨hiff.mpr ha.1, (ih (hmatched ha.1) hans.2).mpr ha.2⟩

/-- On a new connection every reply is rendered once and by the function of its own
request, and the functions of the other requests stay connected, if and only if each
reply comes when one request of its kind waits. -/
theorem replies_paired_iff (steps : List Step)
    (hans : Step.Always Step.Answers newConnection steps) :
    Step.Always Step.Paired newConnection steps ↔ Step.Always Step.Alone newConnection steps :=
  always_paired_iff matched_newConnection steps hans

theorem replies_paired_whois :
    Step.Always Step.Paired newConnection [.cWhois [[97]], .reply .guiUserInfo] ↔
      Step.Always Step.Alone newConnection [.cWhois [[97]], .reply .guiUserInfo] :=
  replies_paired_iff _ ⟨trivial, ⟨Or.inl rfl, List.cons_ne_nil _ _⟩, trivial⟩

/-- Of two nicks in one `WHOIS` the first reply is rendered for both. -/
theorem replies_unpaired_twoNicks :
    ¬ ∀ steps, Step.Always Step.Answers newConnection steps →
      Step.Always Step.Paired newConnection steps := by
  intro h
  have hpaired := h [.cWhois [[97], [98]], .reply .guiUserInfo]
    ⟨trivial, ⟨Or.inl rfl, List.cons_ne_nil _ _⟩, trivial⟩
  have hrendered := hpaired.2.1.1 .guiUserInfo rfl
  exact absurd hrendered (by decide)

end Irc
end IrC6
