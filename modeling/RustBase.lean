import RustBase.Task.Replies
import RustBase.Task.WakeUps
import RustBase.Task.Intact
import RustBase.Task.QueueLaw
import RustBase.Task.Timer
import RustBase.Task.TimerStop
import RustBase.Task.Identity
import RustBase.Task.PriorityQueue
import RustBase.Task.Watchdog
import RustBase.Task.Hangs
import RustBase.Io.Wakeup
import RustBase.Io.WatchTable
import RustBase.Io.Cancellation
import RustBase.Io.IsWatching
import RustBase.Io.Ownership
import RustBase.Io.PostOrder
import RustBase.Io.DoWork
import RustBase.Io.DelayLimits
import RustBase.Io.FileProxy
import RustBase.Net.Callbacks
import RustBase.Net.Deadlines
import RustBase.Net.Descriptors
import RustBase.Net.Readiness
import RustBase.Net.TlsOrder
import RustBase.Net.TlsRead
import RustBase.Net.TlsPump
import RustBase.Net.WriteAll
import RustBase.Net.SockAddr
import RustBase.Async.Parked
import RustBase.Async.Slots
import RustBase.Async.Mutex
import RustBase.Async.RwLock
import RustBase.Async.Channel
import RustBase.Async.Handoff
import RustBase.Async.Reentrancy
import RustBase.Async.Rounds
import RustBase.Async.SpawnBlocking
import RustBase.Async.Append
import RustBase.Async.FileCursor
import RustBase.Async.FileSeek
import RustBase.Async.PollWrite
import RustBase.Async.Local
import RustBase.Async.Stream
import RustBase.Async.Bridge
import RustBase.Async.BlockOn
import RustBase.Async.Served
import RustBase.Async.Timeout
import RustBase.Async.Alone
import RustBase.Async.Connect
import RustBase.Async.Datagrams
import RustBase.Async.Stdout
