import IrC6.C6.Blob
import IrC6.C6.Client.Layouts
import IrC6.Pending
import IrC6.C6.Server.Redirect
import IrC6.Irc.Read
import IrC6.Buffer.RoundTrip
import IrC6.C6.Server.Rooms
import IrC6.Buffer.Text
import IrC6.C6.Server.Decode
import IrC6.Hash.Cache
import IrC6.AreaChunk.Safety
import IrC6.Irc.Replies
import IrC6.Hash.Map
import IrC6.Irc.Rooms
import IrC6.Irc.Sent
import IrC6.Irc.Shown
import IrC6.Irc.Welcome
import IrC6.Irc.Presence
import IrC6.Irc.Join
import IrC6.Irc.Forwarded
import IrC6.Irc.Argv
import IrC6.Signals.Registry
import IrC6.Signals.Tree
import IrC6.Signals.Arguments
import IrC6.Signals.Guard
import IrC6.Area.Destroy
import IrC6.Irc.Away
import IrC6.C6.Server.Records
import IrC6.C6.Server.Nicks
import IrC6.Irc.Selnick
import IrC6.Irc.Decode
import IrC6.Irc.Words
import IrC6.Irc.Motd
import IrC6.Buffer.Insert
import IrC6.Signals.Priority
import IrC6.Socket
import IrC6.Insertion
import IrC6.Buffer.Position
import IrC6.C6.Profilo
import IrC6.C6.Search
import IrC6.Hash.Multi
import IrC6.Irc.Answers
import IrC6.Signals.Counts
import IrC6.Hash.Pointers
import IrC6.C6.Client.Login
import IrC6.Lifecycle.Runs
