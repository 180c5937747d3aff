import IrC6.Connection
import IrC6.Irc.Lines
import IrC6.Lists

/-!
# The nicks on the console

The nicks of the console are on the channel `&irC6`.  A mode shows the status of each: `v`
for one that is offline, `h` for a busy one and `o` for the others, and none at all for one
that is ignored.  The commands of `console.c` and the events of `output.c` send the changes
of a mode from what they know of the status before and after.

The changes that an event sends do not always lead from the one to the other.  `Meets`
says when they do.
-/

namespace IrC6
namespace Irc

/-! ## The bits of a status -/

def isOnline (status : UInt8) : Bool := status &&& statusOnline ≠ 0

/-- `STATUS_BUSY | STATUS_NETFRIENDS`. -/
def isBusy (status : UInt8) : Bool := status &&& (statusBusy ||| statusNetfriends) ≠ 0

def isAvailable (status : UInt8) : Bool := status &&& statusAvailable ≠ 0

/-- None of the bits of `STATUS_MASK`. -/
def isPlain (status : UInt8) : Bool := status &&& statusMask = 0

/-- At most one of the bits of `STATUS_MASK`. -/
def Single (status : UInt8) : Prop :=
  status &&& statusMask ∈ [0, statusBusy, statusNetfriends, statusAvailable]

instance (status : UInt8) : Decidable (Single status) :=
  inferInstanceAs (Decidable (_ ∈ [0, statusBusy, statusNetfriends, statusAvailable]))

theorem isPlain_eq (status : UInt8) : isPlain status = (!isBusy status && !isAvailable status) := by
  revert status
  exact byte_forall (by decide +kernel)

theorem Single.not_both {status : UInt8} (h : Single status) (hbusy : isBusy status = true) :
    isAvailable status = false := by
  revert status
  exact fun {status} => byte_forall (P := fun status => Single status → isBusy status = true →
    isAvailable status = false) (by decide +kernel) status

/-- `nl->status |= STATUS_ONLINE`. -/
def setOnline (status : UInt8) : UInt8 := status ||| statusOnline

/-- `nl->status &= ~(STATUS_ONLINE | STATUS_MASK)`. -/
def setOffline (status : UInt8) : UInt8 := status &&& ~~~(statusOnline ||| statusMask)

theorem setOnline_bits (status : UInt8) :
    isOnline (setOnline status) = true ∧ isBusy (setOnline status) = isBusy status ∧
      isAvailable (setOnline status) = isAvailable status := by
  revert status
  exact byte_forall (by decide +kernel)

theorem setOffline_bits (status : UInt8) :
    isOnline (setOffline status) = false ∧ isBusy (setOffline status) = false ∧
      isAvailable (setOffline status) = false := by
  revert status
  exact byte_forall (by decide +kernel)

/-! ## The handlers -/

/-- The change of a mode on the console. -/
def chanMode (c : Conn) (mode : String) (nick : List UInt8) : Out :=
  .line (.chanMode c.nick c.nick serv console (ascii mode) nick)

def notInList (c : Conn) (nick : List UInt8) : Out :=
  ircErrmsg c.nick (ascii "nick " ++ nick ++ ascii " non presente nella lista")

/-- The answer to a command without a nick. -/
def noNick : List Out := [ircConsole (ascii "specificare almeno un nick")]

/-- What a command writes before its loop. -/
def writeFirst (outs : List Out) (r : Wrote Conn) : Wrote Conn :=
  Wrote.andThen (.ok ((), outs)) fun _ => r

section Handlers

variable (refuses : Refusal)

/-- A turn of the loop of `c_add`. -/
def addNick (c : Conn) (nick : List UInt8) : Wrote Conn :=
  let added := nicklistAdd refuses c.nicks nick
  .ok ({ c with nicks := added.1 },
    if added.2 = 1 then [.line (.join nick nick serv console), chanMode c "+v" nick]
    else if added.2 = 0 then
      [ircErrmsg c.nick (ascii "nick " ++ nick ++ ascii " gia' presente")]
    else [ircErrmsg c.nick (ascii "impossibile aggiungere " ++ nick ++ ascii " alla lista")])

def cAdd (c : Conn) : List (List UInt8) → Wrote Conn
  | [] => .ok (c, noNick)
  | arg :: argv => writeFirst [.emit (.reqUsers arg argv)] (each (addNick refuses) c (arg :: argv))

/-- A turn of the loop of `c_del`. -/
def delNick (c : Conn) (nick : List UInt8) : Wrote Conn :=
  let removed := nicklistDel c.nicks nick
  .ok ({ c with nicks := removed.1 },
    if removed.2 then [.line (.part nick nick serv console)] else [notInList c nick])

def cDel (c : Conn) : List (List UInt8) → Wrote Conn
  | [] => .ok (c, noNick)
  | arg :: argv => writeFirst [.emit (.delUsers arg argv)] (each delNick c (arg :: argv))

/-- A turn of the loop of `c_ignore`. -/
def ignoreNick (c : Conn) (nick : List UInt8) : Wrote Conn :=
  let added := nicklistAdd refuses c.nicks nick
  let said :=
    if added.2 = 1 then [.line (.join nick nick serv console)]
    else if added.2 = 0 then []
    else [ircErrmsg c.nick (ascii "impossibile aggiungere " ++ nick ++ ascii " alla lista")]
  match nicklistGetstruct added.1 nick with
  | none => .error (.fatal (ascii "nicklist error"), said)
  | some nl =>
      .ok ({ c with nicks := added.1.insert nick { nl with blackList := true } },
        said
        ++ (if nl.blackList then []
          else (if isOnline nl.status && (isAvailable nl.status || isPlain nl.status) then
              [chanMode c "-o" nick] else [])
            ++ (if isOnline nl.status && isBusy nl.status then [chanMode c "-h" nick] else [])
            ++ [chanMode c "-v" nick]))

def cIgnore (c : Conn) : List (List UInt8) → Wrote Conn
  | [] => .ok (c, noNick)
  | arg :: argv =>
      writeFirst [.emit (.reqUsers arg argv)] (each (ignoreNick refuses) c (arg :: argv))

/-- The loop of `c_unignore`: `nl` as the name of the entry that it points to, and the
names of the entries that the turns have worked on. -/
structure Unignore where
  conn : Conn
  nl : Option (List UInt8)
  used : List (List UInt8)

/-- A turn of the loop.  A nick that is not in the list leaves `nl` as it is. -/
def unignoreNick (u : Unignore) (nick : List UInt8) : Wrote Unignore :=
  let c := u.conn
  let found := nicklistGetstruct c.nicks nick
  let nl := if found.isSome then some nick else u.nl
  let said :=
    if found.isSome then [] else [ircConsole (ascii "nick non presente nella lista")]
  match nl.bind fun name => (nicklistGetstruct c.nicks name).map (name, ·) with
  | none => .error (.uninitialised, said)
  | some (name, info) =>
      .ok ({ conn := { c with nicks := c.nicks.insert name { info with blackList := false } },
             nl := nl, used := u.used ++ [name] },
        said
        ++ (if info.blackList then
            [chanMode c "+v" nick]
            ++ (if isOnline info.status && (isAvailable info.status || isPlain info.status) then
              [chanMode c "+o" nick] else [])
            ++ (if isOnline info.status && isBusy info.status then [chanMode c "+h" nick] else [])
          else []))

/-- `c_unignore`, with the entries that it works on. -/
def cUnignore (c : Conn) : List (List UInt8) → Wrote Unignore
  | [] => .ok ({ conn := c, nl := none, used := [] }, noNick)
  | arg :: argv => each unignoreNick { conn := c, nl := none, used := [] } (arg :: argv)

end Handlers

/-- A turn of the loop of `irc_out_users`. -/
def userOnline (c : Conn) (nick : List UInt8) : Wrote Conn :=
  match nicklistGetstruct c.nicks nick with
  | none => .ok (c, [notInList c nick])
  | some nl =>
      if isOnline nl.status then .ok (c, [])
      else .ok ({ c with nicks := c.nicks.insert nick { nl with status := setOnline nl.status } },
        if nl.blackList then [] else [chanMode c "+o" nick])

def ircOutUsers (c : Conn) (argv : List (List UInt8)) : Wrote Conn :=
  each userOnline c argv

def ircOutUserOnline (c : Conn) (nick : List UInt8) : Wrote Conn :=
  match nicklistGetstruct c.nicks nick with
  | none => .ok (c, [notInList c nick])
  | some nl =>
      .ok ({ c with nicks := c.nicks.insert nick { nl with status := setOnline nl.status } },
        (if nl.blackList then [] else [chanMode c "+o" nick])
        ++ [ircConsole (nick ++ ascii " e' online")])

def ircOutUserOffline (c : Conn) (nick : List UInt8) : Wrote Conn :=
  match nicklistGetstruct c.nicks nick with
  | none => .ok (c, [notInList c nick])
  | some nl =>
      .ok ({ c with nicks := c.nicks.insert nick { nl with status := setOffline nl.status } },
        (if nl.blackList then []
          else [if isAvailable nl.status || isPlain nl.status then chanMode c "-o" nick
              else chanMode c "-h" nick, chanMode c "+v" nick])
        ++ [ircConsole (nick ++ ascii " e' offline")])

/-- `%x`. -/
def hex (n : UInt8) : List UInt8 := (Nat.toDigits 16 n.toNat).map Char.toUInt8

/-- `irc_out_user_chg_status`.  The bits that it looks at lie in the low byte of `status`,
and `nl->status` keeps that byte. -/
def ircOutUserChgStatus (c : Conn) (nick : List UInt8) (status : UInt32) :
    Wrote Conn :=
  match nicklistGetstruct c.nicks nick with
  | none => .ok (c, [notInList c nick])
  | some nl =>
      let new := status.toUInt8
      .ok ({ c with nicks := c.nicks.insert nick { nl with status := new } },
        [ircNotice c.nick (ascii "old status " ++ hex nl.status ++ ascii " new " ++ hex new)]
        ++ (if isBusy nl.status && isAvailable new then
            [chanMode c "-h" nick, chanMode c "+o" nick] else [])
        ++ (if isBusy new && isAvailable nl.status then
            [chanMode c "-o" nick, chanMode c "+h" nick] else [])
        ++ (if isPlain nl.status && isBusy new then
            [chanMode c "-o" nick, chanMode c "+h" nick] else []))

end Irc
end IrC6
