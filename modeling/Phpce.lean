import Phpce.Events.Children
import Phpce.Events.Dispatch
import Phpce.Events.Poll
import Phpce.Events.Timers
import Phpce.Ext.Base64
import Phpce.Ext.CoroHttp
import Phpce.Ext.SplHeap
import Phpce.Ext.Url
import Phpce.Ext.UrlParse
import Phpce.Ext.VersionOrder
import Phpce.Ext.Versioning
import Phpce.Fcgi.Allowed
import Phpce.Fcgi.Cursor
import Phpce.Fcgi.Distinct
import Phpce.Fcgi.Emitted
import Phpce.Fcgi.Env
import Phpce.Fcgi.Grammar
import Phpce.Fcgi.HashMemory
import Phpce.Fcgi.HashRuns
import Phpce.Fcgi.Output
import Phpce.Fcgi.Params
import Phpce.Fcgi.Request
import Phpce.Fcgi.Socket
import Phpce.Fcgi.Stdin
import Phpce.Fcgi.Wire
import Phpce.Gc.Balance
import Phpce.Gc.Basic
import Phpce.Gc.Destructors
import Phpce.Gc.Exact
import Phpce.Gc.Phases
import Phpce.Hash.Basic
import Phpce.Hash.Duplicate
import Phpce.Hash.IteratorPositions
import Phpce.Hash.Iterators
import Phpce.Hash.NumericKeys
import Phpce.Hash.Operations
import Phpce.Hash.Refinement
import Phpce.Hash.Rehash
import Phpce.Hash.Resize
import Phpce.Hash.SharedIterators
import Phpce.Hash.Sort
import Phpce.Hash.Unwritten
import Phpce.Hash.Valid
import Phpce.Headers.Injection
import Phpce.Headers.Multimap
import Phpce.Input.Limit
import Phpce.Input.Multipart
import Phpce.Input.Names
import Phpce.Input.PostVars
import Phpce.Input.Protected
import Phpce.Input.QueryString
import Phpce.Input.Register
import Phpce.Json.Double
import Phpce.Json.Emitted
import Phpce.Json.Encoder
import Phpce.Json.Escape
import Phpce.Json.Literals
import Phpce.Json.Parser
import Phpce.Json.RoundTrip
import Phpce.Json.Scanner
import Phpce.Json.Tokens
import Phpce.Json.Written
import Phpce.Json.Zval
import Phpce.Lib.Arena
import Phpce.Lib.BitBounds
import Phpce.Lib.BitString
import Phpce.Lib.Bytes
import Phpce.Lib.CStack
import Phpce.Lib.CString
import Phpce.Lib.Chain
import Phpce.Lib.Cut
import Phpce.Lib.Dataflow
import Phpce.Lib.Decimal
import Phpce.Lib.Dll
import Phpce.Lib.Extremes
import Phpce.Lib.FdTable
import Phpce.Lib.HeapOrder
import Phpce.Lib.HeapQueue
import Phpce.Lib.InPlace
import Phpce.Lib.IntervalTimer
import Phpce.Lib.JsonText
import Phpce.Lib.LList
import Phpce.Lib.Lexical
import Phpce.Lib.Multimap
import Phpce.Lib.OrderedMap
import Phpce.Lib.Owned
import Phpce.Lib.Ring
import Phpce.Lib.Run
import Phpce.Lib.SkipSearch
import Phpce.Lib.SlotTable
import Phpce.Lib.Substring
import Phpce.Lib.SwapProgram
import Phpce.Lib.ThreeWay
import Phpce.Lib.Trace
import Phpce.Lib.Traversal
import Phpce.Lib.Utf8
import Phpce.Master.Accounting
import Phpce.Master.Config
import Phpce.Master.Escalation
import Phpce.Master.Faults
import Phpce.Master.PoolName
import Phpce.Master.Stdio
import Phpce.Operators.Memnstr
import Phpce.Operators.NumericString
import Phpce.Operators.Pow
import Phpce.Optimizer.BitRange
import Phpce.Optimizer.Dfg
import Phpce.Optimizer.Liveness
import Phpce.Optimizer.NopRemoval
import Phpce.Optimizer.Opline
import Phpce.Optimizer.Pi
import Phpce.Optimizer.PiSound
import Phpce.Optimizer.Range
import Phpce.Optimizer.RangeCorners
import Phpce.Optimizer.RangeSound
import Phpce.Optimizer.RangeWithin
import Phpce.Optimizer.Rename
import Phpce.Pool.Basic
import Phpce.Pool.Chains
import Phpce.Pool.Listener
import Phpce.Pool.Pointers
import Phpce.Pool.Refinement
import Phpce.Realpath.Basic
import Phpce.Realpath.Expand
import Phpce.Realpath.Resolution
import Phpce.Realpath.Transparency
import Phpce.Sapi.Connection
import Phpce.Sapi.PostBody
import Phpce.Sapi.Repeated
import Phpce.Sapi.RequestInfo
import Phpce.Sapi.Resume
import Phpce.Sapi.Revision
import Phpce.Sapi.Variables
import Phpce.Sort.Basic
import Phpce.Sort.Order
import Phpce.Sort.Run
import Phpce.Streams.Basic
import Phpce.Streams.Delivery
import Phpce.Streams.Lines
import Phpce.Streams.Reading
import Phpce.Streams.Records
import Phpce.Tsrm.Basic
import Phpce.Tsrm.Coroutines
import Phpce.Tsrm.Usable
import Phpce.Vm.Call
import Phpce.Vm.Frames
import Phpce.Vm.Scripts
import Phpce.Worker.Abandoned
import Phpce.Worker.AccessLog
import Phpce.Worker.Admission
import Phpce.Worker.Basic
import Phpce.Worker.Clients
import Phpce.Worker.Descriptors
import Phpce.Worker.HttpGet
import Phpce.Worker.Invariant
import Phpce.Worker.Limit
import Phpce.Worker.LogFormat
import Phpce.Worker.Pairing
import Phpce.Worker.Replies
import Phpce.Worker.RequestMemory
import Phpce.Worker.Retention
import Phpce.Worker.Switch
import Phpce.Worker.Terminate
import Phpce.Worker.Timer
import Phpce.Worker.Transition
import Phpce.Worker.View
import Phpce.Optimizer.Ssa
