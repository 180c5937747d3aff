import Mathlib.Logic.Function.Basic
import IrC6.C6.Server.Decode
import IrC6.Irc.Status

/-!
# Away messages

A user with a message that stays, `away`, answers each message that is shown to it with this
one.  Two users write to each other through a server that hands each message on once, in any
order.  Nothing in a message tells whether a user has typed it, so an away message that comes
to a user who has one is answered as well.  There are as many of them as messages that were
answered.
-/

namespace IrC6

namespace C6

open Buffer

/-- `colors_str`. -/
def colorsStr : List (List UInt8) :=
  [[], [31], [], [2], [2, 3, 48, 55], [31], [3, 48, 57], [2, 3, 48, 52], [31, 3, 44, 48, 57],
    [3, 44, 48, 57], [2, 3, 52, 44, 48, 57], [2, 3, 48, 52], [31, 3, 48, 52]]

/-- The arguments of `gui message`. -/
structure GuiMessage where
  from_ : List UInt8
  to_ : List UInt8
  msg : List UInt8
  style : List UInt8
deriving DecidableEq, Repr

/-- `cmd_message`.  The text is followed by the NUL that `buf_realloc` has put there. -/
def cmdMessage (host : Endian) (buf : List UInt8) : Except Stop GuiMessage :=
  match c6Unpack host .message buf with
  | .ok (_, [.str from_, .str to_, .buf tmpmsg]) =>
      if tmpmsg.length ≤ sizeShort then .error .error
      else .ok { from_ := from_, to_ := to_, msg := (tmpmsg.drop sizeShort).takeWhile (· ≠ 0),
                 style := colorsStr.getD (ntohs (tmpmsg.getD 0 0) (tmpmsg.getD 1 0)) [] }
  | .ok _ => .error .badArg
  | .error e => .error e

end C6

namespace Irc

/-! ## One user -/

/-- What `irc_out_message` does. -/
inductive Heard where
  | privmsg (from_ to_ style text : List UInt8)
  | emit (req : C6.Request)
deriving DecidableEq, Repr

/-- The user does not want to hear from a nick. -/
def State.ignores (st : State) (nick : List UInt8) : Bool :=
  (nicklistGetstruct st.nicks nick).any (·.blackList)

def ircOutMessage (st : State) (m : C6.GuiMessage) : List Heard :=
  if st.ignores m.from_ then []
  else
    ((strsep (fun b => b = 10 || b = 13) m.msg).filter (· ≠ [])).map
      (.privmsg m.from_ m.to_ m.style) ++
    match st.away with
    | some away => [.emit (.sendMsg m.from_ away)]
    | none => []

/-- A message between two users.  Whether it is an away message is known only here. -/
structure Message where
  from_ : List UInt8
  to_ : List UInt8
  style : UInt16
  text : List UInt8
  auto : Bool

/-- The payload of SRV_MESSAGE. -/
def Message.payload (m : Message) : List UInt8 :=
  UInt8.ofNat m.from_.length :: m.from_ ++ UInt8.ofNat m.to_.length :: m.to_ ++
    Endian.big.bytes Buffer.sizeShort (m.text.length + Buffer.sizeShort) ++
    Endian.big.bytes Buffer.sizeShort m.style.toNat ++ m.text

/-- A connection with `C6(c)->style`. -/
structure Party where
  st : State
  style : UInt16

namespace Party

/-- What `c6_send_msg` says. -/
def message (p : Party) (to_ text : List UInt8) (auto : Bool) : Message :=
  { from_ := p.st.nick.text, to_ := to_, style := p.style, text := text, auto := auto }

/-- The message that `send message` sends. -/
def sends (p : Party) : Heard → Option Message
  | .emit (.sendMsg to_ text) => some (p.message to_ text true)
  | _ => none

/-- The messages that are sent when one is received. -/
def received (host : Endian) (p : Party) (m : Message) : List Message :=
  match C6.cmdMessage host m.payload with
  | .ok g => (ircOutMessage p.st g).filterMap p.sends
  | .error _ => []

/-- The message is shown to a user who has an away message and listens to its sender. -/
def answers (host : Endian) (p : Party) (m : Message) : Bool :=
  match C6.cmdMessage host m.payload with
  | .ok g => !p.st.ignores g.from_ && p.st.away.isSome
  | .error _ => false

/-- The lines for the client send nothing. -/
theorem filterMap_sends (p : Party) (st : State) (g : C6.GuiMessage) :
    (ircOutMessage st g).filterMap p.sends =
      if st.ignores g.from_ then []
      else (st.away.map fun away => p.message g.from_ away true).toList := by
  have hlines : ∀ texts : List (List UInt8),
      (texts.map (Heard.privmsg g.from_ g.to_ g.style)).filterMap p.sends = [] := by
    intro texts
    rw [List.filterMap_map]
    exact List.filterMap_eq_nil_iff.mpr fun _ _ => rfl
  unfold ircOutMessage
  by_cases hignores : st.ignores g.from_ = true
  · rw [if_pos hignores, if_pos hignores]
    rfl
  · rw [if_neg hignores, if_neg hignores, List.filterMap_append, hlines]
    cases st.away <;> rfl

/-- A user answers with one message, or not at all. -/
theorem length_received (host : Endian) (p : Party) (m : Message) :
    (p.received host m).length = (p.answers host m).toNat := by
  unfold received answers
  cases C6.cmdMessage host m.payload with
  | error e => rfl
  | ok g =>
      simp only [filterMap_sends]
      cases p.st.ignores g.from_ with
      | true => rfl
      | false => cases p.st.away <;> rfl

theorem auto_of_sends {p : Party} {s : Heard} {m : Message} (h : p.sends s = some m) :
    m.auto = true := by
  unfold sends at h
  split at h
  · injection h with h
    subst h
    rfl
  · cases h

theorem auto_received {host : Endian} {p : Party} {m a : Message} (h : a ∈ p.received host m) :
    a.auto = true := by
  unfold received at h
  split at h
  · rcases List.mem_filterMap.mp h with ⟨s, -, hs⟩
    exact auto_of_sends hs
  · cases h

end Party

/-! ## Two users -/

inductive Side where
  | one
  | two
deriving DecidableEq, Repr

/-- Two connections, the messages that the server has not handed on, and how many messages
have been typed and how many sent by `irc_out_message`. -/
structure World where
  party : Side → Party
  flight : List Message
  typed : Nat
  autos : Nat

namespace World

/-- A user types a message, anything else changes a connection, or the server hands a message
on. -/
inductive Event where
  | typed (s : Side) (to_ text : List UInt8)
  | change (s : Side) (p : Party)
  | deliver (i : Nat)

def start (one two : Party) : World where
  party := fun
    | .one => one
    | .two => two
  flight := []
  typed := 0
  autos := 0

/-- Whom a nick belongs to. -/
def recipient (w : World) (nick : List UInt8) : Option Side :=
  if (w.party .one).st.nick.text = nick then some .one
  else if (w.party .two).st.nick.text = nick then some .two
  else none

/-- What a message that is handed on makes its recipient send. -/
def replies (host : Endian) (w : World) (m : Message) : List Message :=
  match w.recipient m.to_ with
  | none => []
  | some s => (w.party s).received host m

def step (host : Endian) (w : World) : Event → World
  | .typed s to_ text =>
      { w with flight := w.flight ++ [(w.party s).message to_ text false], typed := w.typed + 1 }
  | .change s p => { w with party := Function.update w.party s p }
  | .deliver i =>
      match w.flight[i]? with
      | none => w
      | some m =>
          { w with flight := w.flight.eraseIdx i ++ w.replies host m,
                   autos := w.autos + (w.replies host m).length }

def run (host : Endian) (w : World) (es : List Event) : World := es.foldl (step host) w

/-- A message that is handed on is answered. -/
def answered (host : Endian) (w : World) (m : Message) : Bool :=
  match w.recipient m.to_ with
  | none => false
  | some s => (w.party s).answers host m

/-- An away message is handed on and answered. -/
def feeds (host : Endian) (w : World) : Event → Bool
  | .deliver i =>
      match w.flight[i]? with
      | none => false
      | some m => m.auto && w.answered host m
  | _ => false

/-- How often this happens in a run. -/
def fed (host : Endian) : World → List Event → Nat
  | _, [] => 0
  | w, e :: es => (w.feeds host e).toNat + fed host (w.step host e) es

/-- The messages on their way that were typed. -/
def typedInFlight (w : World) : Nat := w.flight.countP fun m => !m.auto

theorem length_replies (host : Endian) (w : World) (m : Message) :
    (w.replies host m).length = (w.answered host m).toNat := by
  unfold replies answered
  cases w.recipient m.to_ with
  | none => rfl
  | some s => exact (w.party s).length_received host m

theorem countP_replies (host : Endian) (w : World) (m : Message) :
    (w.replies host m).countP (fun m => !m.auto) = 0 := by
  rw [List.countP_eq_zero]
  intro a ha
  unfold replies at ha
  split at ha
  · cases ha
  · simp [Party.auto_received ha]

theorem countP_eraseIdx {ms : List Message} {i : Nat} (hi : i < ms.length) :
    (ms.eraseIdx i).countP (fun m => !m.auto) + (!ms[i].auto).toNat =
      ms.countP fun m => !m.auto := by
  have hperm := (List.getElem_cons_eraseIdx_perm hi).countP_eq fun m => !m.auto
  rw [List.countP_cons] at hperm
  cases hauto : ms[i].auto <;> simpa [hauto] using hperm

/-- A typed message that is answered is not on its way any more. -/
theorem step_autos (host : Endian) (w : World) (e : Event) :
    (w.step host e).autos + (w.step host e).typedInFlight + w.typed ≤
      (w.step host e).typed + w.autos + w.typedInFlight + (w.feeds host e).toNat := by
  cases e with
  | typed s to_ text =>
      have hone : [(w.party s).message to_ text false].countP (fun m => !m.auto) = 1 := rfl
      simp only [step, typedInFlight, List.countP_append, hone]
      omega
  | change s p =>
      simp only [step, typedInFlight]
      omega
  | deliver i =>
      cases hm : w.flight[i]? with
      | none =>
          simp only [step, hm]
          omega
      | some m =>
          rcases List.getElem?_eq_some_iff.mp hm with ⟨hi, rfl⟩
          have hcount := countP_eraseIdx hi
          simp only [step, hm, typedInFlight, feeds, List.countP_append, countP_replies,
            length_replies]
          have hle := (w.answered host w.flight[i]).toNat_le
          cases hauto : w.flight[i].auto with
          | true =>
              rw [Bool.true_and]
              omega
          | false =>
              have hone : (!w.flight[i].auto).toNat = 1 := by rw [hauto]; rfl
              omega

theorem run_autos (host : Endian) (w : World) (es : List Event) :
    (w.run host es).autos + (w.run host es).typedInFlight + w.typed ≤
      (w.run host es).typed + w.autos + w.typedInFlight + w.fed host es := by
  induction es generalizing w with
  | nil =>
      show w.autos + w.typedInFlight + w.typed ≤ w.typed + w.autos + w.typedInFlight + 0
      omega
  | cons e es ih =>
      have hstep := w.step_autos host e
      have hrest := ih (w.step host e)
      show ((w.step host e).run host es).autos + ((w.step host e).run host es).typedInFlight +
        w.typed ≤ ((w.step host e).run host es).typed + w.autos + w.typedInFlight +
          ((w.feeds host e).toNat + (w.step host e).fed host es)
      omega

/-- Two users send no more away messages than they type messages and answer away messages. -/
theorem autos_le (host : Endian) (one two : Party) (es : List Event) :
    ((start one two).run host es).autos ≤
      ((start one two).run host es).typed + (start one two).fed host es := by
  have hrun := (start one two).run_autos host es
  have hstart : (start one two).autos = 0 ∧ (start one two).typed = 0 ∧
      (start one two).typedInFlight = 0 := ⟨rfl, rfl, rfl⟩
  omega

/-- A user who is away. -/
def awayParty (nick away : List UInt8) : Party where
  st := { nick := strlcpy nick, user := strlcpy [], pass := strlcpy [], chans := ∅, nicks := ∅,
          status := statusOnline ||| statusBusy, connFlags := 0, isOnSearchusr := false,
          skipColors := false, away := some away, cmdList := [], ip := [] }
  style := 0

theorem received_awayParty {nick away : List UInt8} {m : Message} {g : C6.GuiMessage}
    (hcmd : C6.cmdMessage .little m.payload = .ok g) :
    (awayParty nick away).received .little m =
      [(awayParty nick away).message g.from_ away true] := by
  rw [Party.received, hcmd]
  exact (awayParty nick away).filterMap_sends _ g

/-- The two users of the run below, `a` and `b`. -/
def ann : Party := awayParty [97] [120]
def bob : Party := awayParty [98] [121]

theorem cmdMessage_ann :
    C6.cmdMessage .little (ann.message [98] [104] false).payload =
      .ok ⟨[97], [98], [104], []⟩ := by
  have hpayload : (ann.message [98] [104] false).payload = [1, 97, 1, 98, 0, 3, 0, 0, 104] := by
    decide
  have hunpack : C6.c6Unpack .little .message [1, 97, 1, 98, 0, 3, 0, 0, 104] =
      .ok (9, [.str [97], .str [98], .buf [0, 0, 104]]) := by
    rw [C6.c6Unpack_eq]
    decide
  rw [hpayload, C6.cmdMessage, hunpack]
  decide

theorem cmdMessage_bob :
    C6.cmdMessage .little (bob.message [97] [121] true).payload =
      .ok ⟨[98], [97], [121], []⟩ := by
  have hpayload : (bob.message [97] [121] true).payload = [1, 98, 1, 97, 0, 3, 0, 0, 121] := by
    decide
  have hunpack : C6.c6Unpack .little .message [1, 98, 1, 97, 0, 3, 0, 0, 121] =
      .ok (9, [.str [98], .str [97], .buf [0, 0, 121]]) := by
    rw [C6.c6Unpack_eq]
    decide
  rw [hpayload, C6.cmdMessage, hunpack]
  decide

/-- Two users are away, one of them types a message, and each of them answers. -/
theorem autos_gt_typed :
    ¬ ∀ (host : Endian) (one two : Party) (es : List Event),
      ((start one two).run host es).autos ≤ ((start one two).run host es).typed := by
  intro h
  have hle := h .little ann bob [.typed .one [98] [104], .deliver 0, .deliver 0]
  have hhello : bob.received .little (ann.message [98] [104] false) =
      [bob.message [97] [121] true] := received_awayParty cmdMessage_ann
  have haway : ann.received .little (bob.message [97] [121] true) =
      [ann.message [98] [120] true] := received_awayParty cmdMessage_bob
  have hfirst : ((start ann bob).run .little [.typed .one [98] [104], .deliver 0]) =
      { party := (start ann bob).party, flight := [bob.message [97] [121] true], typed := 1,
        autos := 1 } := by
    show World.mk _ ([] ++ bob.received .little (ann.message [98] [104] false)) 1
      (0 + (bob.received .little (ann.message [98] [104] false)).length) = _
    rw [hhello]
    rfl
  have hrun : (start ann bob).run .little [.typed .one [98] [104], .deliver 0, .deliver 0] =
      step .little { party := (start ann bob).party, flight := [bob.message [97] [121] true],
                     typed := 1, autos := 1 } (.deliver 0) := by
    rw [← hfirst]
    rfl
  have hautos : 1 + (ann.received .little (bob.message [97] [121] true)).length ≤ 1 := by
    rw [hrun] at hle
    exact hle
  rw [haway] at hautos
  exact absurd hautos (by decide)

end World
end Irc
end IrC6
