import IrC6.C6.Client.Lengths
import IrC6.Irc.Comandi

/-!
# How long the words of a line may be

A line of the user makes some packets, one after the other, or none.  They are formed right
as long as the names and texts in the line are not too long for the fields that they go
into, and `LineFits` says for each command how long that is.
-/

namespace IrC6
namespace Irc

open C6 (Context Client Formed namesSize namesSize_cons)

/-- The packet that an output makes, with what its builder reads. -/
def Out.request (x : Context) : Out → Option (Context × C6.Request)
  | .emit req => some (x, req)
  | .sendStatus status => some ({ x with status := status }, .sendStatus)
  | _ => none

/-- What the signals that send nothing change. -/
def Silent.apply (u : Userinfo) (c : Client) : Silent → Client
  | .connect => c
  | .setStyle style => if style ≤ 12 then { c with style := style.toUInt16 } else c
  | .setSearch field value =>
      match u.getid field with
      | none => c
      | some id =>
          match u.getval id value with
          | none => c
          | some val => { c with searchId := Function.update c.searchId id val }
  | .resetSearch => { c with searchId := fun _ => 0xff }

def Out.settle (u : Userinfo) (c : Client) : Out → Client
  | .silent e => e.apply u c
  | _ => c

/-- The outputs of a handler make packets that are formed right, each from the client as
those before it have left it. -/
def AllFormed (host : Endian) (u : Userinfo) (x : Context) : Client → List Out → Prop
  | _, [] => True
  | c, o :: outs =>
      match o.request x with
      | some (x', req) => ∃ s, req.send host x' c = .ok s ∧ Formed host x' c req s ∧
          AllFormed host u x s.client outs
      | none => AllFormed host u x (o.settle u c) outs

/-- The request of an output is not too long. -/
def Out.Fits (nick : List UInt8) : Out → Prop
  | .emit req => req.Fits nick
  | _ => True

def Fit (nick : List UInt8) (outs : List Out) : Prop := ∀ o ∈ outs, o.Fits nick

theorem fits_sendStatus (nick : List UInt8) : C6.Request.sendStatus.Fits nick := by
  refine ⟨fun name hname => absurd hname List.not_mem_nil, ?_⟩
  show 7 ≤ 65535
  decide

theorem allFormed_iff (host : Endian) (u : Userinfo) (x : Context) (c : Client)
    (outs : List Out) : AllFormed host u x c outs ↔ Fit x.nick outs := by
  induction outs generalizing c with
  | nil => simp [AllFormed, Fit]
  | cons o outs ih =>
      rw [Fit, List.forall_mem_cons]
      have hsend : ∀ x' req, x'.nick = x.nick →
          ((∃ s, req.send host x' c = .ok s ∧ Formed host x' c req s ∧
            AllFormed host u x s.client outs) ↔ req.Fits x.nick ∧ Fit x.nick outs) := by
        intro x' req hnick
        have hs := C6.Request.send_eq host x' c req
        constructor
        · rintro ⟨s, hs', hformed, hrest⟩
          exact ⟨hnick ▸ (C6.formed_iff host x' c req hs').mp hformed, (ih s.client).mp hrest⟩
        · rintro ⟨hfits, hrest⟩
          exact ⟨_, hs, (C6.formed_iff host x' c req hs).mpr (hnick ▸ hfits), (ih _).mpr hrest⟩
      cases o with
      | emit req => exact hsend x req rfl
      | sendStatus status =>
          refine (hsend { x with status := status } .sendStatus rfl).trans ?_
          exact and_congr_left fun _ => iff_true_intro (fits_sendStatus x.nick)
      | line l => exact (ih c).trans (and_iff_right trivial).symm
      | connect e cb => exact (ih c).trans (and_iff_right trivial).symm
      | silent e => exact (ih _).trans (and_iff_right trivial).symm

/-! ## The conditions -/

def NamesFit (names : List (List UInt8)) : Prop := ∀ name ∈ names, name.length ≤ 255

/-- The users of one packet. -/
def UsersFit (names : List (List UInt8)) : Prop :=
  NamesFit names ∧ 8 + namesSize names ≤ 65535

/-- A nick or a room with a text for it, in a packet with so many other bytes. -/
def TextFits (other : Nat) (nick to_ msg : List UInt8) : Prop :=
  to_.length ≤ 255 ∧ other + nick.length + to_.length + msg.length ≤ 65535

/-- `mail` on the console, and `MAIL`. -/
def MailFits (nick str : List UInt8) : List (List UInt8) → Prop
  | to_ :: word :: _ => ∀ msg, strstr str word = some msg → TextFits 12 nick to_ (skipColon msg)
  | _ => True

/-- The topic of `crea_stanza`. -/
def topicOf (str droom : List UInt8) : List (List UInt8) → Option (List UInt8)
  | [] => some droom
  | word :: _ => strstr str word

def NewroomFits (str : List UInt8) : List (List UInt8) → Prop
  | room :: kind :: rest => Console.roomKind kind ≠ none →
      ∀ topic, topicOf str (ircRoomDecode room) rest = some topic →
        (ircRoomDecode room).length ≤ 255 ∧ topic.length ≤ 255
  | _ => True

def ConsoleFits (nick str : List UInt8) (argv : List (List UInt8)) : Console.Command → Prop
  | .agg | .canc | .lnAgg => UsersFit argv
  | .profilo => ∀ arg ∈ argv, (if isRemChan arg then ircRoomDecode arg else arg).length ≤ 255
  | .creaStanza => NewroomFits str argv
  | .mail => MailFits nick str argv
  | _ => True

def SearchFits (argv : List (List UInt8)) : Searchusr.Command → Prop
  | .email => NamesFit argv
  | .agg => UsersFit argv
  | _ => True

/-- A text to one of the local channels. -/
def LocalFits (nick str chan word : List UInt8) (argv : List (List UInt8)) : Prop :=
  (chan = console → ∀ command, lookupWord Console.table (skipColon word) = some command →
    ConsoleFits nick str argv command) ∧
  (chan = searchUsr → ∀ command, lookupWord Searchusr.table (skipColon word) = some command →
    SearchFits argv command)

def PrivmsgFits (nick str : List UInt8) : List (List UInt8) → Prop
  | to_ :: word :: rest =>
      if isLocChan (skipColon to_) then LocalFits nick str (skipColon to_) word rest
      else ∀ msg, strstr str word = some msg →
        if isRemChan (skipColon to_) then
          TextFits 12 nick (ircRoomDecode (skipColon to_)) (skipColon msg)
        else TextFits 14 nick to_ (skipColon msg)
  | _ => True

/-- A channel of `JOIN` or `PART`, when it is the one of a room. -/
def RoomFits (p : List UInt8) : Prop := isRemChan p → (ircRoomDecode p).length ≤ 255

def RoomsFit : List (List UInt8) → Prop
  | arg :: _ => ∀ p ∈ Comandi.chanTokens arg, RoomFits p
  | [] => True

def CommandFits (nick str : List UInt8) (argv : List (List UInt8)) : Comandi.Command → Prop
  | .privmsg => PrivmsgFits nick str argv
  | .ison => UsersFit (match argv with | [] => [] | arg :: rest => skipColon arg :: rest)
  | .join | .part => RoomsFit argv
  | .whois => NamesFit argv
  | .mail => MailFits nick str argv
  | _ => True

/-- The words of a line are not too long for its command. -/
def LineFits (nick str : List UInt8) : Prop :=
  match argsSep str with
  | [] => True
  | cmd :: argv =>
      ∀ command, lookupWord Comandi.table cmd = some command → CommandFits nick str argv command

/-! The conditions can be evaluated. -/

section Decide

variable (nick str : List UInt8)

instance (names : List (List UInt8)) : Decidable (NamesFit names) :=
  inferInstanceAs (Decidable (∀ name ∈ names, name.length ≤ 255))

instance (names : List (List UInt8)) : Decidable (UsersFit names) :=
  inferInstanceAs (Decidable (_ ∧ _))

instance (other : Nat) (to_ msg : List UInt8) : Decidable (TextFits other nick to_ msg) :=
  inferInstanceAs (Decidable (_ ∧ _))

instance : ∀ argv, Decidable (MailFits nick str argv)
  | [] => isTrue trivial
  | [_] => isTrue trivial
  | to_ :: word :: _ =>
      inferInstanceAs (Decidable (∀ msg ∈ strstr str word, TextFits 12 nick to_ (skipColon msg)))

instance : ∀ argv, Decidable (NewroomFits str argv)
  | [] => isTrue trivial
  | [_] => isTrue trivial
  | room :: kind :: rest =>
      inferInstanceAs (Decidable (Console.roomKind kind ≠ none →
        ∀ topic ∈ topicOf str (ircRoomDecode room) rest,
          (ircRoomDecode room).length ≤ 255 ∧ topic.length ≤ 255))

instance (argv : List (List UInt8)) : ∀ command, Decidable (ConsoleFits nick str argv command)
  | .agg | .canc | .lnAgg => inferInstanceAs (Decidable (UsersFit argv))
  | .profilo => inferInstanceAs (Decidable (∀ arg ∈ argv, _ ≤ 255))
  | .creaStanza => inferInstanceAs (Decidable (NewroomFits str argv))
  | .mail => inferInstanceAs (Decidable (MailFits nick str argv))
  | .aiuto | .lnCanc | .stato | .stile | .stanzaCod | .stanzaDecod | .cerca => isTrue trivial

instance (argv : List (List UInt8)) : ∀ command, Decidable (SearchFits argv command)
  | .email => inferInstanceAs (Decidable (NamesFit argv))
  | .agg => inferInstanceAs (Decidable (UsersFit argv))
  | .aiuto | .lista | .mostra | .rifai | .cerca => isTrue trivial

instance (chan word : List UInt8) (argv : List (List UInt8)) :
    Decidable (LocalFits nick str chan word argv) :=
  inferInstanceAs (Decidable
    ((chan = console → ∀ command ∈ lookupWord Console.table (skipColon word),
      ConsoleFits nick str argv command) ∧
    (chan = searchUsr → ∀ command ∈ lookupWord Searchusr.table (skipColon word),
      SearchFits argv command)))

instance : ∀ argv, Decidable (PrivmsgFits nick str argv)
  | [] => isTrue trivial
  | [_] => isTrue trivial
  | to_ :: word :: rest =>
      inferInstanceAs (Decidable (if isLocChan (skipColon to_) then
          LocalFits nick str (skipColon to_) word rest
        else ∀ msg ∈ strstr str word, if isRemChan (skipColon to_) then
            TextFits 12 nick (ircRoomDecode (skipColon to_)) (skipColon msg)
          else TextFits 14 nick to_ (skipColon msg)))

instance (p : List UInt8) : Decidable (RoomFits p) :=
  inferInstanceAs (Decidable (_ → _))

instance : ∀ argv, Decidable (RoomsFit argv)
  | arg :: _ => inferInstanceAs (Decidable (∀ p ∈ Comandi.chanTokens arg, RoomFits p))
  | [] => isTrue trivial

instance (argv : List (List UInt8)) : ∀ command, Decidable (CommandFits nick str argv command)
  | .privmsg => inferInstanceAs (Decidable (PrivmsgFits nick str argv))
  | .ison => inferInstanceAs (Decidable (UsersFit _))
  | .join | .part => inferInstanceAs (Decidable (RoomsFit argv))
  | .whois => inferInstanceAs (Decidable (NamesFit argv))
  | .mail => inferInstanceAs (Decidable (MailFits nick str argv))
  | .pass | .nick | .user | .ping | .mode | .quit | .squit | .who | .away | .list => isTrue trivial

instance : Decidable (LineFits nick str) := by
  unfold LineFits
  cases argsSep str with
  | nil => exact isTrue trivial
  | cons cmd argv =>
      exact inferInstanceAs (Decidable (∀ command ∈ lookupWord Comandi.table cmd,
        CommandFits nick str argv command))

end Decide

/-! ## One request -/

theorem namesFit_nil : NamesFit [] := fun _ h => absurd h List.not_mem_nil

section Requests

variable {nick : List UInt8} {req : C6.Request}

theorem fits_one {name : List UInt8} (hnames : req.names nick = [name]) (hfixed : req.fixed = 6)
    (htext : req.text = []) : req.Fits nick ↔ name.length ≤ 255 := by
  have hsize : namesSize [name] = name.length + 1 := namesSize_cons name []
  rw [C6.Request.Fits, C6.Request.Short, hnames, hfixed, htext, hsize, List.forall_mem_singleton,
    List.length_nil]
  omega

/-- A request with the user's nick, another name and a text. -/
theorem fits_text (hnick : nick.length < 32) {to_ : List UInt8}
    (hnames : req.names nick = [nick, to_]) :
    req.Fits nick ↔ TextFits (req.fixed + 2) nick to_ req.text := by
  have hsize : namesSize [nick, to_] = nick.length + 1 + (to_.length + 1) := by
    rw [namesSize_cons, namesSize_cons]
    rfl
  rw [C6.Request.Fits, C6.Request.Short, hnames, hsize, List.forall_mem_cons,
    List.forall_mem_singleton, TextFits]
  omega

theorem fits_room (hnick : nick.length < 32) {room : List UInt8}
    (hnames : req.names nick = [nick, room]) (hfixed : req.fixed = 6) (htext : req.text = []) :
    req.Fits nick ↔ room.length ≤ 255 := by
  rw [fits_text hnick hnames, hfixed, htext, TextFits, List.length_nil]
  omega

theorem fits_createRoom (hnick : nick.length < 32) (room : List UInt8) (pub : Bool)
    (topic : List UInt8) :
    (C6.Request.createRoom room pub topic).Fits nick ↔ room.length ≤ 255 ∧ topic.length ≤ 255 := by
  have hsize : namesSize [nick, room, topic] =
      nick.length + 1 + (room.length + 1 + (topic.length + 1)) := by
    rw [namesSize_cons, namesSize_cons, namesSize_cons]
    rfl
  have hnames : (C6.Request.createRoom room pub topic).names nick = [nick, room, topic] := rfl
  have hfixed : (C6.Request.createRoom room pub topic).fixed = 9 := rfl
  have htext : (C6.Request.createRoom room pub topic).text = [] := rfl
  rw [C6.Request.Fits, C6.Request.Short, hnames, hfixed, htext, hsize, List.forall_mem_cons,
    List.forall_mem_cons, List.forall_mem_singleton, List.length_nil]
  omega

theorem fits_searchNicks (nick : List UInt8) : C6.Request.searchNicks.Fits nick := by
  refine ⟨fun name hname => absurd hname List.not_mem_nil, ?_⟩
  show 8 ≤ 65535
  decide

theorem fits_reqRoomlist (hnick : nick.length < 32) : C6.Request.reqRoomlist.Fits nick :=
  (fits_one rfl rfl rfl).mpr (by omega)

end Requests

end Irc
end IrC6
