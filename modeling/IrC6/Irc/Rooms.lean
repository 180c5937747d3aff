import IrC6.Irc.Lines
import IrC6.Lists

/-!
# The rooms of a connection

`output.c` answers the events of a room.  It keeps the rooms in `c->chans`, each with the
nicks of the others in it, and tells the client who enters and leaves the channel of the
room.  The two go separate ways, and `Mirrors` says that they agree.
-/

namespace IrC6
namespace Irc

section Handlers

variable (refuses : Refusal)

/-- The loop over `usersv` in `irc_out_room_ulist`. -/
def addUsers (nick croom : List UInt8) (cl : Chan) : List (List UInt8) → Chan × List Out
  | [] => (cl, [])
  | user :: users =>
      let added := chanlistAddnick refuses cl user
      let r := addUsers nick croom added.1 users
      (r.1, [.line (.namReply serv nick (ascii "@") croom [] user)] ++
        (if added.2 ≤ 0 then
          [ircErrmsg nick (ascii "impossibile aggiungere " ++ user ++ ascii " alla lista")]
        else []) ++ r.2)

def ircOutRoomUlist (c : Conn) (room : List UInt8) (usersv : List (List UInt8)) : Wrote Conn :=
  let croom := ircRoomEncode room
  let added := chanlistAdd refuses c.chans room croom
  if added.2 = 1 then
    let opened := [.line (.join c.nick c.nick serv croom), .line (.topic serv c.nick croom room),
      .line (.namReply serv c.nick (ascii "@") croom [] c.nick)]
    match chanlistGetstruct added.1 room with
    | none => .error (.fatal (ascii "chanlist error"), opened)
    | some cl =>
        let r := addUsers refuses c.nick croom cl usersv
        .ok ({ c with chans := added.1.insert room (chanlistDelnick r.1 c.nick).1 },
          opened ++ r.2 ++
          [.line (.endNamReply serv c.nick croom), .connect .guiRoomInfo .roomtopic,
            .emit (.reqRoominfo room)])
  else if added.2 = 0 then
    .ok (c, [ircErrmsg c.nick (ascii "siete gia' in " ++ croom ++ ascii " ")])
  else .ok (c, [ircErrmsg c.nick (ascii "impossibile aggiungere " ++ room ++ ascii " alla lista")])

def ircOutRoomUenter (c : Conn) (room user : List UInt8) : Wrote Conn :=
  match chanlistGetstruct c.chans room with
  | none => .ok (c, [ircErrmsg c.nick (ascii "un utente e' entrato in una stanza inesistente")])
  | some cl =>
      let added := chanlistAddnick refuses cl user
      .ok ({ c with chans := c.chans.insert room added.1 },
        if added.2 ≤ 0 then
          [ircErrmsg c.nick (ascii "impossibile aggiungere " ++ user ++ ascii " alla lista")]
        else [.line (.join user user serv (ircRoomEncode room))])

def ircOutRoomUleave (c : Conn) (room user : List UInt8) : Wrote Conn :=
  match chanlistGetstruct c.chans room with
  | none => .ok (c, [ircErrmsg c.nick (ascii "un utente e' uscito da una stanza inesistente")])
  | some cl =>
      let removed := chanlistDelnick cl user
      .ok ({ c with chans := c.chans.insert room removed.1 },
        if removed.2 then [.line (.part user user serv (ircRoomEncode room))]
        else [ircErrmsg c.nick (ascii "impossibile togliere " ++ user ++ ascii " dalla lista")])

def ircOutRoomCanleave (c : Conn) (room : List UInt8) : Wrote Conn :=
  let croom := ircRoomEncode room
  let removed := chanlistDel c.chans room
  .ok ({ c with chans := removed.1 },
    if removed.2 then [.line (.part c.nick c.nick serv croom)]
    else [.line (.notOnChannel serv c.nick croom)])

def ircOutRoomNotexist (c : Conn) (room : List UInt8) : Wrote Conn :=
  .ok (c, [.line (.other .noSuchChannel [serv, c.nick, ircRoomEncode room])])

def ircOutRoomFull (c : Conn) (room : List UInt8) : Wrote Conn :=
  .ok (c, [.line (.other .channelIsFull [serv, c.nick, ircRoomEncode room])])

end Handlers

/-! ## Runs -/

/-- What the server says about a room. -/
inductive RoomEvent where
  | ulist (room : List UInt8) (usersv : List (List UInt8))
  | uenter (room user : List UInt8)
  | uleave (room user : List UInt8)
  | canleave (room : List UInt8)
deriving DecidableEq, Repr

namespace RoomEvent

def run (refuses : Refusal) (c : Conn) : RoomEvent → Wrote Conn
  | ulist room usersv => ircOutRoomUlist refuses c room usersv
  | uenter room user => ircOutRoomUenter refuses c room user
  | uleave room user => ircOutRoomUleave c room user
  | canleave room => ircOutRoomCanleave c room

/-- The events one after the other, with all that the client is sent. -/
def runAll (refuses : Refusal) (c : Conn) (es : List RoomEvent) : Wrote Conn :=
  each (run refuses) c es

def room : RoomEvent → List UInt8
  | ulist room _ | uenter room _ | uleave room _ | canleave room => room

/-- Who enters or leaves. -/
def user : RoomEvent → Option (List UInt8)
  | uenter _ user | uleave _ user => some user
  | _ => none

/-- The room has a name, and who enters or leaves is not the user. -/
def Allowed (nick : List UInt8) (e : RoomEvent) : Prop := e.room ≠ [] ∧ e.user ≠ some nick

instance (nick : List UInt8) (e : RoomEvent) : Decidable (e.Allowed nick) :=
  inferInstanceAs (Decidable (e.room ≠ [] ∧ e.user ≠ some nick))

end RoomEvent

/-- The client sees the channel of every room with its nicks and the user's own, and
nobody on any other channel. -/
def Mirrors (c : Conn) (v : View) : Prop :=
  ∀ chan n, v.Has chan n ↔ ∃ room cl, chanlistGetstruct c.chans room = some cl ∧
    chan = ircRoomEncode room ∧ (n = c.nick ∨ cl.has n)

/-! ## One event -/

theorem has_addUsers (nick croom : List UInt8) (users : List (List UInt8)) (cl : Chan)
    (n : List UInt8) :
    (addUsers exact nick croom cl users).1.has n ↔ n ∈ users ∨ cl.has n := by
  induction users generalizing cl with
  | nil => simp [addUsers]
  | cons user users ih =>
      rw [addUsers, ih, has_chanlistAddnick, List.mem_cons]
      tauto

/-- The names of the loop, and its errors, as the client takes them. -/
theorem replay_addUsers (nick croom : List UInt8) (users : List (List UInt8)) (cl : Chan)
    (v : View) (chan n : List UInt8) :
    (v.replayAs nick (addUsers exact nick croom cl users).2).Has chan n ↔
      (chan = croom ∧ n ∈ users) ∨ v.Has chan n := by
  induction users generalizing cl v with
  | nil => simp [addUsers, View.replayAs_nil]
  | cons user users ih =>
      have herr : ∀ v : View, v.replayAs nick
          (if (chanlistAddnick exact cl user).2 ≤ 0 then
            [ircErrmsg nick (ascii "impossibile aggiungere " ++ user ++ ascii " alla lista")]
          else []) = v := by
        intro v
        by_cases hret : (chanlistAddnick exact cl user).2 ≤ 0
        · rw [if_pos hret]
          rfl
        · rw [if_neg hret]
          rfl
      rw [addUsers]
      simp only [View.replayAs_append, herr, ih, View.replayAs_cons, View.replayAs_nil,
        View.has_seeAs_namReply, List.mem_cons]
      tauto

variable {c : Conn} {v : View}

theorem chanlistGetstruct_insert (list : Dict Chan) (room room' : List UInt8) (cl cl' : Chan) :
    chanlistGetstruct (list.insert room cl) room' = some cl' ↔
      (room' = room ∧ cl = cl') ∨ (room' ≠ room ∧ chanlistGetstruct list room' = some cl') := by
  by_cases hroom : room' = room
  · subst hroom
    simp [chanlistGetstruct]
  · simp [chanlistGetstruct, AList.lookup_insert_ne hroom, hroom]

/-- The nicks of one room change, with the members of its channel. -/
theorem Mirrors.insert (h : Mirrors c v) {room : List UInt8} {cl : Chan} {v' : View}
    (hsame : ∀ chan n, chan ≠ ircRoomEncode room → (v'.Has chan n ↔ v.Has chan n))
    (hroom : ∀ n, v'.Has (ircRoomEncode room) n ↔ n = c.nick ∨ cl.has n) :
    Mirrors { c with chans := c.chans.insert room cl } v' := by
  intro chan n
  by_cases hchan : chan = ircRoomEncode room
  · subst hchan
    rw [hroom]
    constructor
    · exact fun hn => ⟨room, cl, (chanlistGetstruct_insert _ _ _ _ _).mpr (Or.inl ⟨rfl, rfl⟩),
        rfl, hn⟩
    · rintro ⟨room', cl', hget, heq, hn⟩
      have hroom' : room = room' := ircRoomEncode_inj.mp heq
      rcases (chanlistGetstruct_insert _ _ _ _ _).mp hget with ⟨-, rfl⟩ | ⟨hne, -⟩
      · exact hn
      · exact absurd hroom'.symm hne
  · rw [hsame chan n hchan, h chan n]
    refine exists_congr fun room' => exists_congr fun cl' => ?_
    rw [chanlistGetstruct_insert]
    constructor
    · rintro ⟨hget, rfl, hn⟩
      exact ⟨Or.inr ⟨fun hr => hchan (hr ▸ rfl), hget⟩, rfl, hn⟩
    · rintro ⟨⟨rfl, -⟩ | ⟨-, hget⟩, rfl, hn⟩
      · exact absurd rfl hchan
      · exact ⟨hget, rfl, hn⟩

/-- The members of the channel of a room that the connection has, or not. -/
theorem Mirrors.members (h : Mirrors c v) (room n : List UInt8) :
    v.Has (ircRoomEncode room) n ↔
      ∃ cl, chanlistGetstruct c.chans room = some cl ∧ (n = c.nick ∨ cl.has n) := by
  rw [h]
  constructor
  · rintro ⟨room', cl, hget, heq, hn⟩
    rw [ircRoomEncode_inj.mp heq]
    exact ⟨cl, hget, hn⟩
  · rintro ⟨cl, hget, hn⟩
    exact ⟨room, cl, hget, rfl, hn⟩

/-- An event keeps the client's view in step with the rooms. -/
def Keeps (c : Conn) (v : View) (r : Wrote Conn) : Prop :=
  ∃ c' outs, r = .ok (c', outs) ∧ c'.nick = c.nick ∧ Mirrors c' (v.replayAs c.nick outs)

theorem replay_entered (nick croom topic : List UInt8) (v : View) (chan n : List UInt8) :
    (v.replayAs nick [.line (.join nick nick serv croom), .line (.topic serv nick croom topic),
      .line (.namReply serv nick (ascii "@") croom [] nick)]).Has chan n ↔
      (chan = croom ∧ n = nick) ∨ v.Has chan n := by
  have htopic : ∀ w : View, w.seeAs nick (.line (.topic serv nick croom topic)) = w := fun _ => rfl
  simp only [View.replayAs_cons, View.replayAs_nil, htopic, View.has_seeAs_namReply,
    View.has_seeAs_join]
  tauto

theorem keeps_ulist (h : Mirrors c v) {room : List UInt8} (hroom : room ≠ [])
    (usersv : List (List UInt8)) : Keeps c v (ircOutRoomUlist exact c room usersv) := by
  rw [ircOutRoomUlist, chanlistAdd_exact c.chans hroom]
  by_cases hmem : room ∈ c.chans
  · rw [if_pos hmem]
    exact ⟨c, _, rfl, rfl, h⟩
  · rw [if_neg hmem]
    simp only [if_true, chanlistGetstruct, AList.lookup_insert]
    refine ⟨_, _, rfl, rfl, ?_⟩
    rw [AList.insert_insert]
    have hnone : chanlistGetstruct c.chans room = none := AList.lookup_eq_none.mpr hmem
    have hempty : ∀ n, ¬v.Has (ircRoomEncode room) n := by
      intro n hn
      rcases (h.members room n).mp hn with ⟨cl, hget, -⟩
      rw [hnone] at hget
      exact absurd hget (by simp)
    have hnew : ∀ n, ¬Chan.has { name := room, cname := ircRoomEncode room, nicks := ∅ } n :=
      fun n => AList.notMem_empty _
    have hend : ∀ w : View, w.replayAs c.nick
        [.line (.endNamReply serv c.nick (ircRoomEncode room)), .connect .guiRoomInfo .roomtopic,
          .emit (.reqRoominfo room)] = w := fun _ => rfl
    apply h.insert
    · intro chan n hchan
      rw [View.replayAs_append, View.replayAs_append, hend, replay_addUsers, replay_entered]
      simp only [hchan, false_and, false_or]
    · -- The own nick is taken out of the stored ones and stays on the channel.
      intro n
      rw [View.replayAs_append, View.replayAs_append, hend, replay_addUsers, replay_entered,
        has_chanlistDelnick, has_addUsers]
      simp only [hempty n, hnew n, or_false, true_and]
      by_cases hn : n = c.nick <;> simp [hn]

theorem keeps_uenter (h : Mirrors c v) {room user : List UInt8} :
    Keeps c v (ircOutRoomUenter exact c room user) := by
  rw [ircOutRoomUenter]
  cases hget : chanlistGetstruct c.chans room with
  | none => exact ⟨c, _, rfl, rfl, h⟩
  | some cl =>
      refine ⟨_, _, rfl, rfl, ?_⟩
      have hmembers : ∀ n, v.Has (ircRoomEncode room) n ↔ n = c.nick ∨ cl.has n := by
        intro n
        rw [h.members, hget]
        simp
      apply h.insert
      · intro chan n hchan
        by_cases hret : (chanlistAddnick exact cl user).2 ≤ 0
        · rw [if_pos hret]
          rfl
        · rw [if_neg hret, View.replayAs_cons, View.replayAs_nil, View.has_seeAs_join]
          simp only [hchan, false_and, false_or]
      · intro n
        rw [has_chanlistAddnick]
        by_cases hmem : nickKey user ∈ cl.nicks
        · have hret : (chanlistAddnick exact cl user).2 ≤ 0 := by
            rw [chanlistAddnick_exact, if_pos hmem]
          rw [if_pos hret]
          refine (hmembers n).trans ⟨fun hn => hn.imp_right Or.inr, ?_⟩
          rintro (hn | rfl | hn)
          · exact Or.inl hn
          · exact Or.inr hmem
          · exact Or.inr hn
        · have hret : ¬(chanlistAddnick exact cl user).2 ≤ 0 := by
            rw [chanlistAddnick_exact, if_neg hmem]
            omega
          rw [if_neg hret, View.replayAs_cons, View.replayAs_nil, View.has_seeAs_join, hmembers]
          simp only [true_and]
          tauto

theorem keeps_uleave (h : Mirrors c v) {room user : List UInt8} (huser : user ≠ c.nick) :
    Keeps c v (ircOutRoomUleave c room user) := by
  rw [ircOutRoomUleave]
  cases hget : chanlistGetstruct c.chans room with
  | none => exact ⟨c, _, rfl, rfl, h⟩
  | some cl =>
      refine ⟨_, _, rfl, rfl, ?_⟩
      have hmembers : ∀ n, v.Has (ircRoomEncode room) n ↔ n = c.nick ∨ cl.has n := by
        intro n
        rw [h.members, hget]
        simp
      apply h.insert
      · intro chan n hchan
        by_cases hret : (chanlistDelnick cl user).2 = true
        · rw [if_pos hret, View.replayAs_cons, View.replayAs_nil, View.has_seeAs_part huser]
          simp only [hchan, false_and, not_false_eq_true, true_and]
        · rw [if_neg hret]
          rfl
      · intro n
        rw [has_chanlistDelnick]
        by_cases hmem : nickKey user ∈ cl.nicks
        · have hret : (chanlistDelnick cl user).2 = true := by
            rw [chanlistDelnick_eq, if_pos hmem]
          rw [if_pos hret, View.replayAs_cons, View.replayAs_nil, View.has_seeAs_part huser,
            hmembers]
          by_cases hn : n = user
          · subst hn
            simp [huser]
          · simp [hn]
        · have hret : ¬(chanlistDelnick cl user).2 = true := by
            rw [chanlistDelnick_eq, if_neg hmem]
            simp
          rw [if_neg hret]
          refine (hmembers n).trans ⟨fun hn => hn.imp_right fun hcl => ⟨?_, hcl⟩, ?_⟩
          · rintro rfl
            exact hmem hcl
          · exact fun hn => hn.imp_right And.right

theorem keeps_canleave (h : Mirrors c v) (room : List UInt8) :
    Keeps c v (ircOutRoomCanleave c room) := by
  rw [ircOutRoomCanleave, chanlistDel_eq]
  by_cases hmem : room ∈ c.chans
  · rw [if_pos hmem]
    refine ⟨_, _, rfl, rfl, fun chan n => ?_⟩
    rw [if_pos rfl, View.replayAs_cons, View.replayAs_nil, View.has_seeAs_part_self, h]
    constructor
    · rintro ⟨hchan, room', cl, hget, rfl, hn⟩
      have hne : room' ≠ room := fun hr => hchan (hr ▸ rfl)
      exact ⟨room', cl, (AList.lookup_erase_ne hne).trans hget, rfl, hn⟩
    · rintro ⟨room', cl, hget, rfl, hn⟩
      have hne : room' ≠ room := by
        rintro rfl
        rw [chanlistGetstruct, AList.lookup_erase] at hget
        exact absurd hget (by simp)
      refine ⟨fun hr => hne (ircRoomEncode_inj.mp hr), room', cl, ?_, rfl, hn⟩
      exact (AList.lookup_erase_ne hne).symm.trans hget
  · rw [if_neg hmem]
    exact ⟨_, _, rfl, rfl, h⟩

theorem keeps_event (h : Mirrors c v) {e : RoomEvent} (he : e.Allowed c.nick) :
    Keeps c v (e.run exact c) := by
  cases e with
  | ulist room usersv => exact keeps_ulist h he.1 usersv
  | uenter room user => exact keeps_uenter h
  | uleave room user => exact keeps_uleave h fun hu => he.2 (congrArg some hu)
  | canleave room => exact keeps_canleave h room

/-! ## All events -/

theorem keeps_events (es : List RoomEvent) (h : Mirrors c v)
    (hall : ∀ e ∈ es, e.Allowed c.nick) : Keeps c v (RoomEvent.runAll exact c es) := by
  induction es generalizing c v with
  | nil => exact ⟨c, [], rfl, rfl, h⟩
  | cons e es ih =>
      rcases keeps_event h (hall e List.mem_cons_self) with ⟨c', outs, hrun, hnick, h'⟩
      have hall' : ∀ e ∈ es, e.Allowed c'.nick := by
        intro e he
        rw [hnick]
        exact hall e (List.mem_cons_of_mem _ he)
      rcases ih h' hall' with ⟨c'', outs', hruns, hnick', h''⟩
      refine ⟨c'', outs ++ outs', ?_, hnick'.trans hnick, ?_⟩
      · exact each_cons_ok hrun hruns
      · rw [View.replayAs_append, ← hnick]
        exact hnick ▸ h''

theorem mirrors_connNew (nick : List UInt8) : Mirrors (connNew nick) View.empty := by
  intro chan n
  constructor
  · exact fun hn => absurd hn (by simp [View.Has, View.empty])
  · rintro ⟨room, cl, hget, -⟩
    exact absurd hget (by simp [chanlistGetstruct, connNew])

/-- After any events the lines sent show the rooms of the connection: the channel of each
room with its nicks and the user's own, and nobody anywhere else. -/
theorem rooms_mirrored (nick : List UInt8) (es : List RoomEvent)
    (hall : ∀ e ∈ es, e.Allowed nick) :
    ∃ c outs, RoomEvent.runAll exact (connNew nick) es = .ok (c, outs) ∧ c.nick = nick ∧
      Mirrors c (View.empty.replayAs nick outs) :=
  keeps_events es (mirrors_connNew nick) hall

/-- A room with two users, one of whom leaves, is entered again and then left. -/
theorem rooms_mirrored_reentered :
    ∃ c outs, RoomEvent.runAll exact (connNew [109])
        [.ulist [97] [[98], [109], [99]], .uleave [97] [98], .ulist [97] [[98]], .canleave [97]] =
          .ok (c, outs) ∧ c.nick = [109] ∧ Mirrors c (View.empty.replayAs [109] outs) :=
  rooms_mirrored [109] _ (by decide)

end Irc
end IrC6
