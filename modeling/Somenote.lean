import Somenote.Cdecl.Source
import Somenote.Cdecl.Agreement
import Somenote.Cdecl.Params
import Somenote.Cdecl.Accesses
import Somenote.Db.Interruption
import Somenote.Db.Cursor
import Somenote.Db.Buffer
import Somenote.Db.LockOrder
import Somenote.Db.Linear
import Somenote.Relay.Ends
import Somenote.Echo.Clients
import Somenote.Poll.Table
import Somenote.Tables.Marked
import Somenote.Web.Failures
import Somenote.Tellwait.Tokens
import Somenote.Tellwait.Wakeup
import Somenote.Bytes.Blocks
import Somenote.Async.Copy
import Somenote.Threads.Timeout
import Somenote.Threads.Jobs
import Somenote.Text.Detab
import Somenote.Text.Alignment
import Somenote.Popen.Wiring
import Somenote.Db.Opening
import Somenote.Db.Endless
import Somenote.Transfer.Complete
import Somenote.Transfer.NonBlock
import Somenote.Tiny.Static
import Somenote.Tiny.Strings
import Somenote.Cvm.ViewMode
import Somenote.Cvm.Names
import Somenote.Cvm.Listing
import Somenote.Cvm.Rate
import Somenote.Cvm.Descriptors
import Somenote.Reversal.Agreement
import Somenote.Fib.Cache
import Somenote.Threads.Find
import Somenote.Text.Mirror
import Somenote.Malloc.Source
import Somenote.Heaps.Blocks
import Somenote.Malloc.Layout
import Somenote.Malloc.Calls
import Somenote.Malloc.Operations
import Somenote.Malloc.Runs
import Somenote.Malloc.Checks
import Somenote.Program.Tally
import Somenote.Sbuf.Source
import Somenote.Sbuf.Invariant
import Somenote.Sbuf.Queue
import Somenote.Program.Schedule
import Somenote.Refs.Source
import Somenote.Refs.Invariant
import Somenote.Refs.Moves
import Somenote.Refs.Safety
import Somenote.Refs.Runs
import Somenote.Semaph.Source
import Somenote.Semaph.Counting
import Somenote.Semaph.Steps
import Somenote.Semaph.Runs
import Somenote.Bytes.Numerals
import Somenote.Inet.Source
import Somenote.Inet.Quads
import Somenote.Inet.Groups
import Somenote.Inet.Accepted
import Somenote.Inet.RoundTrip
import Somenote.Rio.Runs
