import IrC6.Connection
import IrC6.Irc.Args
import IrC6.Irc.Console

/-!
# The user's own status

`status.c` changes `c->status`, sends it to the server and shows it to the client.  A busy
user may have a message, which stays until the user is not busy any more.
-/

namespace IrC6
namespace Irc

/-- A `char` array of 32 bytes with a string in it. -/
structure Name where
  text : List UInt8
  fits : text.length < 32

/-- `strlcpy` into such an array. -/
def strlcpy (src : List UInt8) : Name where
  text := src.take 31
  fits := Nat.lt_of_le_of_lt (List.length_take_le _ _) (by decide)

/-- `connection_t` with its `irc_t`.  `ip` is what `inet_ntoa` makes of the address. -/
structure State where
  nick : Name
  user : Name
  pass : Name
  chans : Dict Chan
  nicks : Dict NickInfo
  status : UInt8
  connFlags : UInt8
  isOnSearchusr : Bool
  skipColors : Bool
  away : Option (List UInt8)
  cmdList : List (List UInt8)
  ip : List UInt8

namespace State

/-- The part of a connection that the lists belong to. -/
def conn (st : State) : Conn := { nick := st.nick.text, chans := st.chans, nicks := st.nicks }

/-- A handler on that part. -/
def onConn (st : State) (r : Wrote Conn) : Wrote State :=
  r.map fun r => ({ st with chans := r.1.chans, nicks := r.1.nicks }, r.2)

end State

def reply (row : Row) (args : List (List UInt8)) : Out := .line (.other row args)

/-- `IRC_SEND_SRVMODE` with the sign of a mode. -/
def srvMode (st : State) (on : Bool) (mode : UInt8) : Out :=
  reply .srvMode [st.nick.text, st.nick.text, [if on then 43 else 45, mode]]

/-- `c->status &= ~STATUS_MASK` and then a bit of it. -/
def setMask (status bit : UInt8) : UInt8 := (status &&& ~~~statusMask) ||| bit

def ircStatusBusy (st : State) (on : Bool) (msg : Option (List UInt8)) : Wrote State :=
  let status := setMask st.status (if on then statusBusy else statusAvailable)
  .ok ({ st with status := status, away := if on then msg <|> st.away else none },
    [.sendStatus status, srvMode st on 97])

def ircStatusOnlyfriends (st : State) (on : Bool) : Wrote State :=
  let status := setMask st.status (if on then statusNetfriends else statusAvailable)
  .ok ({ st with status := status, away := none }, [.sendStatus status, srvMode st on 110])

def ircStatusAvailable (st : State) : Wrote State :=
  Wrote.andThen (if st.status &&& statusBusy ≠ 0 then ircStatusBusy st false none else .ok (st, []))
    fun st =>
      if st.status &&& statusNetfriends ≠ 0 then ircStatusOnlyfriends st false else .ok (st, [])

def ircStatusVisibleip (st : State) (on : Bool) : Wrote State :=
  let status :=
    if on then st.status &&& ~~~statusVisibleIp else st.status ||| statusVisibleIp
  .ok ({ st with status := status }, [.sendStatus status, srvMode st on 105])

end Irc
end IrC6
