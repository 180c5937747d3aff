import Mathlib.Data.Finset.Insert
import IrC6.Base.Text
import IrC6.C6.Client.Layouts
import IrC6.Irc.Replies

/-!
# What goes to the IRC client

A handler writes lines to the client, connects functions to the replies of the server and
asks for packets.  A line is the row of `reply` that it is printed with, and the arguments
for it.  `View` is what a client makes of the lines: for every channel who is in it, and
with which modes.
-/

namespace IrC6
namespace Irc

/-- `SERV`, `CONSOLE` and `SEARCHUSR`. -/
def serv : List UInt8 := ascii "irC6"
def console : List UInt8 := ascii "&irC6"
def searchUsr : List UInt8 := ascii "&RicercaUtenti"

/-- The rows of `reply` that say nothing about who is on a channel. -/
inductive Row where
  | srvMode
  | chanModeIs
  | endBanList
  | endExcepList
  | endInvList
  | cantChange
  | creationTime
  | unkCmd
  | errParam
  | unkMode
  | cquit
  | pong
  | unAway
  | nowAway
  | whoReply
  | endWhoReply
  | noSuchChannel
  | channelIsFull
deriving DecidableEq, Repr

/-- The rows of `reply` that are used, and `IRC_NOTICE` and its like. -/
inductive Line where
  | join (nick user host chan : List UInt8)
  | part (nick user host chan : List UInt8)
  | chanMode (nick user host chan mode arg : List UInt8)
  | topic (srv me chan text : List UInt8)
  | namReply (srv me kind chan pre nick : List UInt8)
  | endNamReply (srv me chan : List UInt8)
  | notOnChannel (srv me chan : List UInt8)
  | notice (srv target text : List UInt8)
  | other (row : Row) (args : List (List UInt8))
deriving DecidableEq, Repr

/-- The signals of `c6_ev` that send nothing. -/
inductive Silent where
  | connect
  | setStyle (style : UInt32)
  | setSearch (field value : List UInt8)
  | resetSearch
deriving DecidableEq, Repr

/-- What a handler does, in the order in which it does it.  The packet of `send status` is
made from `c->status`, and comes with it. -/
inductive Out where
  | line (l : Line)
  | connect (e : Ev) (cb : Callback)
  | emit (req : C6.Request)
  | sendStatus (status : UInt8)
  | silent (e : Silent)
deriving DecidableEq, Repr

/-- `IRC_NOTICE`, `IRC_ERRMSG` and `IRC_CONSOLE`, with the text formatted. -/
def ircNotice (nick text : List UInt8) : Out := .line (.notice serv nick text)
def ircErrmsg (nick text : List UInt8) : Out := ircNotice nick (ascii "**ERRORE** " ++ text)
def ircConsole (text : List UInt8) : Out := .line (.notice serv console text)

/-- What ends a handler before its end: `FATAL` and `EFATAL`, a pointer that is read before
it is set, an argument that is not there, and the end of the connection or of irC6. -/
inductive Halt where
  | fatal (text : List UInt8)
  | uninitialised
  | noArg
  | closed
  | exited
deriving DecidableEq, Repr

/-- What a handler leaves, with all that it has done until then. -/
abbrev Wrote (σ : Type) := Except (Halt × List Out) (σ × List Out)

namespace Wrote

variable {σ τ : Type}

def outs (r : Wrote σ) : List Out :=
  match r with
  | .ok r => r.2
  | .error e => e.2

/-- One part of a handler behind another. -/
def andThen (r : Wrote σ) (f : σ → Wrote τ) : Wrote τ :=
  match r with
  | .error e => .error e
  | .ok (s, outs) =>
      match f s with
      | .ok (t, outs') => .ok (t, outs ++ outs')
      | .error (e, outs') => .error (e, outs ++ outs')

end Wrote

/-- A loop whose turns write one after the other. -/
def each {σ β : Type} (turn : σ → β → Wrote σ) (s : σ) : List β → Wrote σ
  | [] => .ok (s, [])
  | b :: bs => (turn s b).andThen fun s => each turn s bs

theorem each_cons_error {σ β : Type} {turn : σ → β → Wrote σ} {s : σ} {b : β}
    {e : Halt × List Out} (h : turn s b = .error e) (bs : List β) :
    each turn s (b :: bs) = .error e := by
  rw [each, h]
  rfl

theorem each_cons_ok {σ β : Type} {turn : σ → β → Wrote σ} {s : σ} {b : β}
    {r rs : σ × List Out} {bs : List β} (h : turn s b = .ok r) (hs : each turn r.1 bs = .ok rs) :
    each turn s (b :: bs) = .ok (rs.1, r.2 ++ rs.2) := by
  rw [each, h]
  simp only [Wrote.andThen, hs]

theorem each_cons_halts {σ β : Type} {turn : σ → β → Wrote σ} {s : σ} {b : β}
    {r : σ × List Out} {e : Halt × List Out} {bs : List β} (h : turn s b = .ok r)
    (hs : each turn r.1 bs = .error e) :
    each turn s (b :: bs) = .error (e.1, r.2 ++ e.2) := by
  rw [each, h]
  simp only [Wrote.andThen, hs]

/-! ## The client's view -/

/-- The modes of a nick on a channel, when it is there. -/
abbrev View := List UInt8 → List UInt8 → Option (Finset UInt8)

namespace View

def empty : View := fun _ _ => none

def set (v : View) (chan nick : List UInt8) (modes : Option (Finset UInt8)) : View :=
  Function.update v chan (Function.update (v chan) nick modes)

/-- The mode that a prefix of a name stands for. -/
def prefixModes : List UInt8 → Finset UInt8
  | [64] => {111}
  | [37] => {104}
  | [43] => {118}
  | _ => ∅

/-- A mode is `+` or `-` and a letter. -/
def change (mode : List UInt8) (modes : Finset UInt8) : Finset UInt8 :=
  match mode with
  | [43, m] => insert m modes
  | [45, m] => modes.erase m
  | _ => modes

/-- What a line says about a nick. -/
def see (v : View) : Out → View
  | .line (.join nick _ _ chan) => v.set chan nick (some ((v chan nick).getD ∅))
  | .line (.namReply _ _ _ chan pre nick) =>
      v.set chan nick (some ((v chan nick).getD ∅ ∪ prefixModes pre))
  | .line (.part nick _ _ chan) => v.set chan nick none
  | .line (.chanMode _ _ _ chan mode nick) =>
      v.set chan nick ((v chan nick).map (change mode))
  | _ => v

/-- A line as the client of the nick `me` takes it, who sees nothing of a channel that it
is not on. -/
def seeAs (me : List UInt8) (v : View) : Out → View
  | .line (.part nick user host chan) =>
      if nick = me then Function.update v chan fun _ => none
      else v.see (.line (.part nick user host chan))
  | o => v.see o

def replay (v : View) (outs : List Out) : View := outs.foldl see v

def replayAs (me : List UInt8) (v : View) (outs : List Out) : View := outs.foldl (seeAs me) v

theorem replay_cons (v : View) (o : Out) (outs : List Out) :
    v.replay (o :: outs) = (v.see o).replay outs := rfl

theorem replay_append (v : View) (outs outs' : List Out) :
    v.replay (outs ++ outs') = (v.replay outs).replay outs' :=
  List.foldl_append

theorem replayAs_nil (me : List UInt8) (v : View) : v.replayAs me [] = v := rfl

theorem replayAs_cons (me : List UInt8) (v : View) (o : Out) (outs : List Out) :
    v.replayAs me (o :: outs) = (v.seeAs me o).replayAs me outs := rfl

theorem replayAs_append (me : List UInt8) (v : View) (outs outs' : List Out) :
    v.replayAs me (outs ++ outs') = (v.replayAs me outs).replayAs me outs' :=
  List.foldl_append

theorem set_apply (v : View) (chan nick : List UInt8) (modes : Option (Finset UInt8))
    (chan' nick' : List UInt8) :
    v.set chan nick modes chan' nick' =
      if chan' = chan ∧ nick' = nick then modes else v chan' nick' := by
  by_cases hchan : chan' = chan
  · subst hchan
    by_cases hnick : nick' = nick
    · subst hnick
      simp [set]
    · simp [set, hnick]
  · simp [set, hchan]

/-! ## One nick on one channel -/

/-- What an output says about one nick on one channel. -/
def seeOne (chan nick : List UInt8) (modes : Option (Finset UInt8)) : Out → Option (Finset UInt8)
  | .line (.join nick' _ _ chan') =>
      if chan = chan' ∧ nick = nick' then some (modes.getD ∅) else modes
  | .line (.namReply _ _ _ chan' pre nick') =>
      if chan = chan' ∧ nick = nick' then some (modes.getD ∅ ∪ prefixModes pre) else modes
  | .line (.part nick' _ _ chan') => if chan = chan' ∧ nick = nick' then none else modes
  | .line (.chanMode _ _ _ chan' mode nick') =>
      if chan = chan' ∧ nick = nick' then modes.map (change mode) else modes
  | _ => modes

theorem see_apply (v : View) (o : Out) (chan nick : List UInt8) :
    v.see o chan nick = seeOne chan nick (v chan nick) o := by
  have hset : ∀ (chan' nick' : List UInt8) (f : Option (Finset UInt8) → Option (Finset UInt8)),
      v.set chan' nick' (f (v chan' nick')) chan nick =
        if chan = chan' ∧ nick = nick' then f (v chan nick) else v chan nick := by
    intro chan' nick' f
    rw [set_apply]
    by_cases h : chan = chan' ∧ nick = nick'
    · rw [if_pos h, if_pos h, h.1, h.2]
    · rw [if_neg h, if_neg h]
  unfold see seeOne
  split
  · exact hset _ _ fun modes => some (modes.getD ∅)
  · exact hset _ _ fun modes => some (modes.getD ∅ ∪ prefixModes _)
  · exact hset _ _ fun _ => none
  · exact hset _ _ (Option.map (change _))
  · rfl

/-- Each nick on each channel is a replay of its own. -/
theorem replay_apply (v : View) (outs : List Out) (chan nick : List UInt8) :
    v.replay outs chan nick = outs.foldl (seeOne chan nick) (v chan nick) := by
  induction outs generalizing v with
  | nil => rfl
  | cons o outs ih => rw [replay_cons, ih, see_apply, List.foldl_cons]

/-- An output that says nothing about other nicks. -/
def About (nick : List UInt8) : Out → Prop
  | .line (.join nick' _ _ _) | .line (.namReply _ _ _ _ _ nick') | .line (.part nick' _ _ _)
  | .line (.chanMode _ _ _ _ _ nick') => nick' = nick
  | _ => True

theorem foldl_about {nick : List UInt8} {outs : List Out} (h : ∀ o ∈ outs, About nick o)
    {n : List UInt8} (hn : n ≠ nick) (chan : List UInt8) (modes : Option (Finset UInt8)) :
    outs.foldl (seeOne chan n) modes = modes := by
  have hone : ∀ o, About nick o → seeOne chan n modes o = modes := by
    intro o ho
    unfold About at ho
    unfold seeOne
    split at ho <;> simp_all
  induction outs with
  | nil => rfl
  | cons o outs ih =>
      rw [List.foldl_cons, hone o (h o List.mem_cons_self)]
      exact ih fun o ho => h o (List.mem_cons_of_mem _ ho)

/-! ## Who is there -/

def Has (v : View) (chan nick : List UInt8) : Prop := (v chan nick).isSome

theorem has_set (v : View) (chan nick : List UInt8) (modes : Option (Finset UInt8))
    (chan' n : List UInt8) :
    (v.set chan nick modes).Has chan' n ↔
      if chan' = chan ∧ n = nick then modes.isSome = true else v.Has chan' n := by
  rw [Has, set_apply]
  by_cases h : chan' = chan ∧ n = nick
  · rw [if_pos h, if_pos h]
  · rw [if_neg h, if_neg h]
    rfl

theorem has_seeAs_join (me : List UInt8) (v : View) (nick user host chan chan' n : List UInt8) :
    (v.seeAs me (.line (.join nick user host chan))).Has chan' n ↔
      (chan' = chan ∧ n = nick) ∨ v.Has chan' n := by
  show (v.set _ _ _).Has _ _ ↔ _
  rw [has_set]
  by_cases h : chan' = chan ∧ n = nick <;> simp [h]

theorem has_seeAs_namReply (me : List UInt8) (v : View)
    (srv me' kind chan pre nick chan' n : List UInt8) :
    (v.seeAs me (.line (.namReply srv me' kind chan pre nick))).Has chan' n ↔
      (chan' = chan ∧ n = nick) ∨ v.Has chan' n := by
  show (v.set _ _ _).Has _ _ ↔ _
  rw [has_set]
  by_cases h : chan' = chan ∧ n = nick <;> simp [h]

theorem has_seeAs_part {me nick : List UInt8} (hnick : nick ≠ me) (v : View)
    (user host chan chan' n : List UInt8) :
    (v.seeAs me (.line (.part nick user host chan))).Has chan' n ↔
      ¬(chan' = chan ∧ n = nick) ∧ v.Has chan' n := by
  rw [seeAs, if_neg hnick, see, has_set]
  by_cases h : chan' = chan ∧ n = nick <;> simp [h]

theorem has_seeAs_part_self (me : List UInt8) (v : View) (user host chan chan' n : List UInt8) :
    (v.seeAs me (.line (.part me user host chan))).Has chan' n ↔ chan' ≠ chan ∧ v.Has chan' n := by
  rw [seeAs, if_pos rfl, Has]
  by_cases h : chan' = chan
  · subst h
    simp
  · simp [h, Has]

end View

end Irc
end IrC6
