import Sylar.Lib.Run
import Sylar.Lib.Splice
import Sylar.Lib.Blocks
import Sylar.Lib.EState
import Sylar.Lib.Bytes
import Sylar.Lib.Netmask
import Sylar.Lib.Update
import Sylar.Lib.Counter
import Sylar.Lib.Exclusive
import Sylar.Lib.Apart
import Sylar.Lib.OrderedSet
import Sylar.Lib.OrderedMap
import Sylar.Lib.KeyedSet
import Sylar.Lib.Text
import Sylar.Lib.Machine
import Sylar.Lib.Scan
import Sylar.Lib.Drive
import Sylar.Lib.Walk
import Sylar.Lib.Lang
import Sylar.Lib.Events
import Sylar.Lib.Actions
import Sylar.Lib.Yaml
import Sylar.Spec.ByteArray
import Sylar.Spec.FlatBuffer
import Sylar.Spec.ByteArrayCodec
import Sylar.Spec.ByteArrayViews
import Sylar.Spec.ByteArrayReads
import Sylar.Spec.IOManager
import Sylar.Spec.FdContexts
import Sylar.Spec.FdManager
import Sylar.Spec.Hook
import Sylar.Spec.HookFlags
import Sylar.Spec.HookCalls
import Sylar.Spec.Scheduler
import Sylar.Spec.Stopping
import Sylar.Spec.TimerManager
import Sylar.Spec.Poller
import Sylar.Spec.Http
import Sylar.Spec.HttpRequestParser
import Sylar.Spec.Stream
import Sylar.Spec.SocketStream
import Sylar.Spec.HttpSession
import Sylar.Spec.HttpResponseParser
import Sylar.Spec.HttpConnection
import Sylar.Spec.HttpConnectionTrace
import Sylar.Spec.HttpLimits
import Sylar.Spec.HttpConnectionPool
import Sylar.Spec.Servlet
import Sylar.Spec.HttpServer
import Sylar.Spec.Uri
import Sylar.Spec.UriParts
import Sylar.Spec.ConfigVar
import Sylar.Spec.Config
import Sylar.Spec.Log
import Sylar.Spec.LogConfig
import Sylar.Spec.LogAppenders
import Sylar.Spec.LogPattern
import Sylar.Spec.Address
import Sylar.Spec.Lookup
import Sylar.Spec.TcpServer
import Sylar.Proofs.ByteArray.Loops
import Sylar.Proofs.ByteArray.Invariant
import Sylar.Proofs.ByteArray.Flat
import Sylar.Proofs.ByteArray.Stream
import Sylar.Proofs.ByteArray.Codec
import Sylar.Proofs.ByteArray.Strings
import Sylar.Proofs.ByteArray.Segments
import Sylar.Proofs.ByteArray.Views
import Sylar.Proofs.ByteArray.Export
import Sylar.Proofs.ByteArray.Scatter
import Sylar.Proofs.ByteArray.Failures
import Sylar.Proofs.ByteArray.Varint
import Sylar.Proofs.IOManager.EventTable
import Sylar.Proofs.IOManager.Bits
import Sylar.Proofs.IOManager.FdContexts
import Sylar.Proofs.FdManager.OneContext
import Sylar.Proofs.Hook.Timeout
import Sylar.Proofs.Hook.Flags
import Sylar.Proofs.Hook.Calls
import Sylar.Proofs.Scheduler.Steps
import Sylar.Proofs.Scheduler.Conservation
import Sylar.Proofs.Scheduler.Stopping
import Sylar.Proofs.Scheduler.Exclusion
import Sylar.Proofs.Timer.TimerSet
import Sylar.Proofs.Timer.Wakeup
import Sylar.Proofs.Timer.Expiry
import Sylar.Proofs.Http.RequestMachine
import Sylar.Proofs.Http.RequestScan
import Sylar.Proofs.Http.Slices
import Sylar.Proofs.Http.Methods
import Sylar.Proofs.Http.Segmentation
import Sylar.Proofs.Http.ResponsePrint
import Sylar.Proofs.Http.Reading
import Sylar.Proofs.Http.Chunked
import Sylar.Proofs.Http.Session
import Sylar.Proofs.Http.RequestPieces
import Sylar.Proofs.Http.RequestPrint
import Sylar.Proofs.Http.Memory
import Sylar.Proofs.Http.Limits
import Sylar.Proofs.Http.Pool
import Sylar.Proofs.Http.PoolLimits
import Sylar.Proofs.Http.Dispatch
import Sylar.Proofs.Http.Close
import Sylar.Proofs.Stream.FixSize
import Sylar.Proofs.Stream.Sending
import Sylar.Proofs.Uri.Machine
import Sylar.Proofs.Uri.Create
import Sylar.Proofs.Uri.Extract
import Sylar.Proofs.Uri.RoundTrip
import Sylar.Proofs.Config.Listeners
import Sylar.Proofs.Config.Load
import Sylar.Proofs.Log.Append
import Sylar.Proofs.Log.Apply
import Sylar.Proofs.Log.RoundTrip
import Sylar.Proofs.Log.Formatters
import Sylar.Proofs.Log.Pattern
import Sylar.Proofs.Address.Subnet
import Sylar.Proofs.Address.Text
import Sylar.Proofs.Address.Lookup
import Sylar.Proofs.TcpServer.Bind
import Sylar.Proofs.Fiber.Runs
import Sylar.Proofs.Socket.Timeouts
import Sylar.Proofs.Socket.Reported
import Sylar.Proofs.TcpServer.Stopping
import Sylar.Proofs.Timer.Ideal
import Sylar.Proofs.Http.Requests
import Sylar.Proofs.Http.Exchange
