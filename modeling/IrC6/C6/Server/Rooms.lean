import IrC6.Base.Runs
import IrC6.C6.Client.Layouts
import IrC6.C6.Server.Decode

/-!
# Room replies

The server does not name the room in every reply to a request to enter or leave one.
`room_leave_enter` keeps the rooms in a queue, `proom`, and four handlers take the
oldest room off it.  Two of them need it; the other two have the name in their packet
and take the room off before they look at the packet.

The queue is right as long as the server answers each request once and in order.
-/

namespace IrC6
namespace C6

open Buffer

/-- What the handlers of room replies do for the other side. -/
inductive RoomEmit where
  /-- `EMIT "gui warning"` and `EMIT "gui dump data"`, with the name of the check. -/
  | invalid (func : String) (buf : List UInt8)
  | roomUserList (room : List UInt8) (users : List (List UInt8))
  | roomIsFull (room : List UInt8)
  | roomCanLeave (room : List UInt8)
  | roomNotExist (room : List UInt8)
  /-- An unpacker has left the block, and nothing is known about the rest of the call. -/
  | outside
deriving DecidableEq, Repr

/-- `_get_last_room`. -/
def getLastRoom (c : Client) : Option (List UInt8) × Client :=
  match c.proom with
  | [] => (none, c)
  | room :: proom => (some room, { c with proom := proom })

/-- The string that a format beginning with `%b$%s` has stored first. -/
def firstStr (vs : List Out) : List UInt8 :=
  match vs with
  | .str bs :: _ => bs
  | _ => []

/-- `_CER` around an unpacking. -/
def checked {α : Type} (func : String) (buf : List UInt8) (r : Except Stop α)
    (k : α → List RoomEmit) : List RoomEmit :=
  match r with
  | .ok a => k a
  | .error .error => [.invalid func buf]
  | .error _ => [.outside]

section Handlers

variable (host : Endian) (c : Client) (buf : List UInt8)

def cmdRoomuserlist : Client × List RoomEmit :=
  ((getLastRoom c).2,
    checked "ROOMUSERLIST" buf (c6Unpack host .roomuserlist buf) fun r =>
      checked "ROOMUSERLIST_NICK" buf
        (unpackEach host .roomuserlistNick buf (lastNum r.2) r.1) fun u =>
          [.roomUserList (firstStr r.2) (u.2.map firstStr)])

def cmdRoomcanleave : Client × List RoomEmit :=
  match getLastRoom c with
  | (some room, c) => (c, [.roomCanLeave room])
  | (none, c) => (c, [])

def cmdRoomnotexist : Client × List RoomEmit :=
  match getLastRoom c with
  | (some room, c) => (c, [.roomNotExist room])
  | (none, c) => (c, [])

def cmdRoomisfull : Client × List RoomEmit :=
  ((getLastRoom c).2,
    checked "ROOM_ISFULL" buf (c6Unpack host .roomIsfull buf) fun r =>
      [.roomIsFull (firstStr r.2)])

end Handlers

/-! ## Requests and replies -/

/-- The two requests that name a room and wait for an answer. -/
inductive RoomCmd where
  | enter
  | leave
deriving DecidableEq, Repr

/-- The replies that answer them. -/
inductive RoomReply where
  | userlist
  | isfull
  | notexist
  | canleave
deriving DecidableEq, Repr

/-- `c6_room_enter` and `c6_room_leave`. -/
def RoomCmd.send (cmd : RoomCmd) (host : Endian) (c : Client) (nick room : List UInt8) :
    Except Stop Sent :=
  match cmd with
  | enter => c6RoomEnter host c nick room
  | leave => c6RoomLeave host c nick room

/-- The handler of `cmd_table` for a reply. -/
def RoomReply.handle (reply : RoomReply) (host : Endian) (c : Client) (buf : List UInt8) :
    Client × List RoomEmit :=
  match reply with
  | userlist => cmdRoomuserlist host c buf
  | isfull => cmdRoomisfull host c buf
  | notexist => cmdRoomnotexist c
  | canleave => cmdRoomcanleave c

/-- A request that the server has not answered. -/
structure RoomRequest where
  cmd : RoomCmd
  room : List UInt8
deriving DecidableEq, Repr

/-- The client, and the requests on their way through the server, the oldest first. -/
structure RoomChannel where
  client : Client
  unanswered : List RoomRequest

/-- What happens to a channel: the user asks, or the server answers its oldest request. -/
inductive RoomStep where
  | request (cmd : RoomCmd) (nick room : List UInt8)
  | reply (reply : RoomReply) (buf : List UInt8)

namespace RoomStep

/-- One step, with what the client emits. -/
def run (host : Endian) (s : RoomChannel) : RoomStep → Except Stop (RoomChannel × List RoomEmit)
  | request cmd nick room =>
      (cmd.send host s.client nick room).map fun sent =>
        ({ client := sent.client, unanswered := s.unanswered ++ [⟨cmd, room⟩] }, [])
  | reply r buf =>
      let handled := r.handle host s.client buf
      .ok ({ client := handled.1, unanswered := s.unanswered.tail }, handled.2)

/-- The server answers requests only. -/
def Enabled (s : RoomChannel) : RoomStep → Prop
  | request _ _ _ => True
  | reply _ _ => s.unanswered ≠ []

end RoomStep

/-- The queue holds the rooms of the unanswered requests in their order. -/
def RoomChannel.Queued (s : RoomChannel) : Prop :=
  s.client.proom = s.unanswered.map RoomRequest.room

theorem getLastRoom_queued {s : RoomChannel} (h : s.Queued) :
    (getLastRoom s.client).1 = (s.unanswered.head?).map RoomRequest.room ∧
      (getLastRoom s.client).2.proom = (s.unanswered.tail).map RoomRequest.room := by
  unfold RoomChannel.Queued at h
  cases hreq : s.unanswered with
  | nil =>
      rw [hreq] at h
      simp [getLastRoom, show s.client.proom = [] from h]
  | cons req rest =>
      rw [hreq] at h
      simp [getLastRoom, show s.client.proom = req.room :: rest.map RoomRequest.room from h]

/-- Every reply takes exactly one room off the queue, whatever is in its packet. -/
theorem RoomReply.handle_client (reply : RoomReply) (host : Endian) (c : Client)
    (buf : List UInt8) : (reply.handle host c buf).1 = (getLastRoom c).2 := by
  cases reply with
  | userlist => rfl
  | isfull => rfl
  | notexist =>
      show (cmdRoomnotexist c).1 = _
      unfold cmdRoomnotexist
      split <;> rename_i heq <;> rw [heq]
  | canleave =>
      show (cmdRoomcanleave c).1 = _
      unfold cmdRoomcanleave
      split <;> rename_i heq <;> rw [heq]

/-- A request is sent, and its room goes to the end of the queue. -/
theorem RoomCmd.send_proom (cmd : RoomCmd) (host : Endian) (c : Client) (nick room : List UInt8) :
    ∃ sent, cmd.send host c nick room = .ok sent ∧ sent.client.proom = c.proom ++ [room] := by
  let x : Context := { nick := nick, status := 0, userinfoElms := 0 }
  cases cmd with
  | enter => exact ⟨_, Request.send_eq host x c (.roomEnter room), rfl⟩
  | leave => exact ⟨_, Request.send_eq host x c (.roomLeave room), rfl⟩

theorem RoomStep.run_queued {host : Endian} {s s' : RoomChannel} {step : RoomStep}
    {emits : List RoomEmit} (hs : s.Queued) (h : step.run host s = .ok (s', emits)) :
    s'.Queued := by
  cases step with
  | request cmd nick room =>
      obtain ⟨sent, hsend, hproom⟩ := cmd.send_proom host s.client nick room
      rw [run, hsend] at h
      cases h
      show sent.client.proom = (s.unanswered ++ [_]).map RoomRequest.room
      rw [hproom, show s.client.proom = _ from hs, List.map_append]
      rfl
  | reply reply buf =>
      cases h
      show (reply.handle host s.client buf).1.proom = _
      rw [reply.handle_client]
      exact (getLastRoom_queued hs).2

/-- A step that the server may take is a step of the client: no handler gives up, and a
request can always be sent. -/
theorem RoomStep.run_ok (host : Endian) (s : RoomChannel) (step : RoomStep) :
    ∃ r, step.run host s = .ok r := by
  cases step with
  | request cmd nick room =>
      obtain ⟨sent, hsend, -⟩ := cmd.send_proom host s.client nick room
      exact ⟨_, by rw [run, hsend]; rfl⟩
  | reply reply buf => exact ⟨_, rfl⟩

/-- The replies that do not name their room are emitted with the oldest one of the queue. -/
theorem RoomChannel.Queued.emits {s : RoomChannel} (hs : s.Queued) {req : RoomRequest}
    {rest : List RoomRequest} (hreq : s.unanswered = req :: rest) :
    (cmdRoomcanleave s.client).2 = [.roomCanLeave req.room] ∧
      (cmdRoomnotexist s.client).2 = [.roomNotExist req.room] := by
  have hroom := (getLastRoom_queued hs).1
  rw [hreq, List.head?_cons, Option.map_some] at hroom
  constructor
  · unfold cmdRoomcanleave
    split <;> rename_i heq <;> rw [heq] at hroom <;> cases hroom
    rfl
  · unfold cmdRoomnotexist
    split <;> rename_i heq <;> rw [heq] at hroom <;> cases hroom
    rfl

theorem RoomChannel.queued_of_reaches {host : Endian} {c : Client} (hc : c.proom = [])
    {s : RoomChannel} (h : Reaches (fun s step => RoomStep.run host s step) RoomStep.Enabled
      { client := c, unanswered := [] } s) : s.Queued := by
  have hstart : RoomChannel.Queued { client := c, unanswered := [] } := hc
  exact h.invariant hstart fun s s' step emits hs _ hrun => RoomStep.run_queued hs hrun

/-- In every interleaving of requests with replies in order, each request with one reply,
`proom` holds the rooms of the unanswered requests in order, every next step can be taken,
and a reply that does not name its room is emitted with the room that it answers for. -/
theorem proom_unanswered (host : Endian) {c : Client} (hc : c.proom = []) {s : RoomChannel}
    (h : Reaches (fun s step => RoomStep.run host s step) RoomStep.Enabled
      { client := c, unanswered := [] } s) :
    s.client.proom = s.unanswered.map RoomRequest.room ∧
    (∀ step : RoomStep, ∃ r, step.run host s = .ok r) ∧
    ∀ req rest buf, s.unanswered = req :: rest →
      (∃ s', (RoomStep.reply .canleave buf).run host s = .ok (s', [.roomCanLeave req.room])) ∧
      (∃ s', (RoomStep.reply .notexist buf).run host s = .ok (s', [.roomNotExist req.room])) := by
  have hqueued := RoomChannel.queued_of_reaches hc h
  refine ⟨hqueued, RoomStep.run_ok host s, fun req rest buf hreq => ?_⟩
  obtain ⟨hcan, hnot⟩ := hqueued.emits hreq
  exact ⟨⟨_, congrArg (fun e => Except.ok (_, e)) hcan⟩,
    ⟨_, congrArg (fun e => Except.ok (_, e)) hnot⟩⟩

/-- A user enters one room and leaves another before the server answers. -/
theorem proom_unanswered_two : ∃ s : RoomChannel,
    s.unanswered = [⟨.enter, [65]⟩, ⟨.leave, [66]⟩] ∧ s.client.proom = [[65], [66]] := by
  obtain ⟨sent₁, hsend₁, -⟩ := RoomCmd.send_proom .enter .little connectionNew [110] [65]
  obtain ⟨sent₂, hsend₂, -⟩ := RoomCmd.send_proom .leave .little sent₁.client [110] [66]
  let s₁ : RoomChannel := { client := sent₁.client, unanswered := [⟨.enter, [65]⟩] }
  let s₂ : RoomChannel :=
    { client := sent₂.client, unanswered := [⟨.enter, [65]⟩, ⟨.leave, [66]⟩] }
  have hstep₁ : (RoomStep.request .enter [110] [65]).run .little
      { client := connectionNew, unanswered := [] } = .ok (s₁, []) := by
    rw [RoomStep.run, hsend₁]
    rfl
  have hstep₂ : (RoomStep.request .leave [110] [66]).run .little s₁ = .ok (s₂, []) := by
    rw [RoomStep.run, hsend₂]
    rfl
  have hreach : Reaches (fun s step => RoomStep.run .little s step) RoomStep.Enabled
      { client := connectionNew, unanswered := [] } s₂ :=
    (Reaches.start.step (.request .enter [110] [65]) trivial hstep₁).step
      (.request .leave [110] [66]) trivial hstep₂
  exact ⟨s₂, rfl, (proom_unanswered .little rfl hreach).1⟩

end C6
end IrC6
