import Megalo.Lib.System
import Megalo.Lib.OrdSet
import Megalo.Lib.OrdMap
import Megalo.Lib.KeyedLoop
import Megalo.Lib.Deferred
import Megalo.Lib.Throw
import Megalo.Lib.Overwrite
import Megalo.Lib.Count
import Megalo.Lib.Lease
import Megalo.Lib.Ledger
import Megalo.Lib.MachineInt
import Megalo.Lib.Scan
import Megalo.Lib.Zigzag
import Megalo.Lib.Framing
import Megalo.Lib.History
import Megalo.Util.Chars
import Megalo.Util.Url
import Megalo.Util.Trim
import Megalo.Util.Digits
import Megalo.Address.Interfaces
import Megalo.Address.Subnets
import Megalo.Address.Text
import Megalo.Address.Lookup
import Megalo.Util.UrlModes
import Megalo.Timer.Basic
import Megalo.Timer.Invariant
import Megalo.Timer.Due
import Megalo.Timer.Expiry
import Megalo.Timer.Empty
import Megalo.Timer.Listed
import Megalo.Timer.Report
import Megalo.Scheduler.Basic
import Megalo.Scheduler.Engaged
import Megalo.Scheduler.Exclusive
import Megalo.Scheduler.Outcomes
import Megalo.Scheduler.Transfer
import Megalo.Scheduler.Conservation
import Megalo.Scheduler.Affinity
import Megalo.Scheduler.Turns
import Megalo.IOManager.Basic
import Megalo.IOManager.Table
import Megalo.IOManager.Slots
import Megalo.IOManager.Bookkeeping
import Megalo.IOManager.Stale
import Megalo.IOManager.Loop
import Megalo.IOManager.LoopMoves
import Megalo.IOManager.Stopping
import Megalo.IOManager.TaskWakeup
import Megalo.IOManager.TimerWakeup
import Megalo.IOManager.Timeout
import Megalo.ByteArray.Basic
import Megalo.ByteArray.Invariant
import Megalo.ByteArray.Typed
import Megalo.ByteArray.Flat
import Megalo.ByteArray.RoundTrip
import Megalo.ByteArray.Buffers
import Megalo.ByteArray.Streaming
import Megalo.ByteArray.File
import Megalo.ByteArray.Strings
import Megalo.ByteArray.Reads
import Megalo.ByteArray.Positional
import Megalo.ByteArray.Scatter
import Megalo.ByteArray.Truncated
import Megalo.Stream.FixSize
import Megalo.Hook.TimedWait
import Megalo.Http.Machine
import Megalo.Http.Basic
import Megalo.Http.Scanner
import Megalo.Http.Segmentation
import Megalo.Http.Dump
import Megalo.Http.HeaderMap
import Megalo.Http.Server
import Megalo.Http.Params
import Megalo.Http.Lazy
import Megalo.Http.Session
import Megalo.Http.Body
import Megalo.Http.Memory
import Megalo.Http.Grammar
import Megalo.Http.Printed
import Megalo.Http.Method
import Megalo.Http.Segments
import Megalo.Http.Typed
import Megalo.Http.Servlet
import Megalo.TcpServer.Bind
import Megalo.Config.Yaml
import Megalo.Log.Formatter
import Megalo.Log.Define
import Megalo.Config.LexicalCast
import Megalo.Config.FromString
import Megalo.Config.Load
import Megalo.Config.Registry
import Megalo.Config.Listeners
import Megalo.Config.Mirrors
import Megalo.Log.Initer
import Megalo.Log.Appenders
import Megalo.FdManager.Basic
import Megalo.FdManager.Lookup
import Megalo.FdManager.Bounds
import Megalo.Hook.Descriptors
import Megalo.Hook.Nonblock
import Megalo.Hook.Timeouts
import Megalo.Hook.Sleep
import Megalo.Hook.DoIo
import Megalo.Hook.Retry
import Megalo.Lib.ActionTable
import Megalo.Util.Strtol
import Megalo.Http.ClientMachine
import Megalo.Http.Client
import Megalo.Http.ClientSafe
import Megalo.Http.ClientWords
import Megalo.Http.ClientLines
import Megalo.Http.ClientPrinted
import Megalo.Http.ClientChunk
import Megalo.Http.ClientBody
import Megalo.Fiber.Contexts
import Megalo.Fiber.Coroutines
import Megalo.Fiber.Refinement
import Megalo.Scheduler.Drained
import Megalo.Socket.Basic
import Megalo.Socket.Owned
import Megalo.TcpServer.Lifecycle
import Megalo.Scheduler.Threads
import Megalo.Config.RoundTrip
import Megalo.Log.FileAppender
import Megalo.Lib.Separated
import Megalo.Log.Console
