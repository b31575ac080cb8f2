import Phpce.Lib.Run
import Phpce.Pool.Basic

/-!
# The event loop of a coroutine worker

The callbacks a worker hands to libevent, as functions on the worker's state: `do_accept`,
`socket_read_cb` and `event_cb` of `fpm_main.c`, `RemoteReadCallback` of `coro_http.c`, and
below them `close_request`, `resume_coroutine_context`, `yield_coroutine_context` and the file
loop `zend_execute_scripts_coro`. What PHP code does is an argument of the event that runs it:
how each file of a request ends, how code resumed after a call ends, and whether code that
`php_request_shutdown` runs (shutdown functions, destructors) makes a remote call.

A worker stops at a null dereference, at a `longjmp` into a C frame that has returned, and
after `php_module_shutdown`; no event can happen then. A `close` and a `free` of the source
leave a mark in the trace where a property needs to count them.
-/

namespace Phpce

/-! ## The data -/

/-- What the worker reads of an `fcgi_request`: which one it is, its descriptor and its
bufferevent. -/
structure FcgiRequest where
  id : Nat
  fd : Int
  bev : Nat
  deriving DecidableEq, Repr

/-- A compiled `zend_op_array`. It lives in the memory of the coroutine that compiled it. -/
structure OpArray where
  context : ContextPtr
  serial : Nat
  deriving DecidableEq, Repr

/-- The fields of a `sapi_coroutine_context` that belong to its connection and its request. The
fields that `init_coroutine_context` leaves uninitialised start as `none`, and a null `fd` is 0. -/
structure CoroutineContext where
  request : Option FcgiRequest
  opArray : Option OpArray
  prevExecuteData : Option Nat
  fd : Int
  bev : Option Nat
  deriving DecidableEq, Repr

/-- A client's bufferevent. Its callbacks get `context` as their argument; they can fire as
long as the bufferevent has not been freed and its descriptor is open. -/
structure Bufferevent where
  id : Nat
  context : ContextPtr
  fd : Int
  fdOpen : Bool
  deriving DecidableEq, Repr

/-- A remote call that has not completed (`coro_http_param`): its callbacks find the context in
it. `issuer` is what the context held when the call suspended it, kept to compare with. -/
structure RemoteCall where
  id : Nat
  context : ContextPtr
  issuer : CoroutineContext
  deriving DecidableEq, Repr

/-- The effects of the callbacks that the properties of a run speak about. -/
inductive Effect where
  | useContext (c : ContextPtr)
  | freeContext (c : ContextPtr)
  | requestStartup (c : ContextPtr)
  | closeRequest (c : ContextPtr)
  | destroyOpArray (op : Option OpArray)
  | resume (call : RemoteCall) (held : CoroutineContext)
  | buffereventFree (bev : Option Nat)
  | loopexit
  deriving DecidableEq, Repr

inductive WorkerStatus where
  | running
  | nullDereference
  | deadFrameJump
  | moduleShutdown
  deriving DecidableEq, Repr

structure Worker where
  pool : CoroutinePool
  contexts : ContextPtr → CoroutineContext
  -- The bufferevents that have not been freed
  bevs : List Bufferevent
  -- The remote calls that have not completed
  calls : List RemoteCall
  -- The next number for a request, an op array, a bufferevent, a call or a suspended frame
  nextId : Nat
  requests : Nat
  maxRequests : Nat
  status : WorkerStatus
  -- The effects so far, latest first
  trace : List Effect

/-! ## What PHP code does -/

/-- How a file of a request ends, or leaves the file loop. -/
inductive FileExit where
  -- The file runs to its end (an uncaught exception is handled there)
  | finished
  -- A call suspends the file
  | yielded
  -- `exit` or a fatal error: `longjmp` to the `zend_try` of `php_execute_script_coro`
  | bailout
  -- `zend_compile_file` returns a null pointer
  | notCompiled
  -- The file is over, but the user's exception handler suspends
  | handlerYielded
  deriving DecidableEq, Repr

inductive ResumeExit where
  | finished
  | yielded
  | bailout
  deriving DecidableEq, Repr

/-- Whether code run by `php_request_shutdown` suspends. -/
inductive ShutdownRun where
  | completes
  | yields
  deriving DecidableEq, Repr

/-- The way a request takes through `socket_read_cb`. -/
inductive RequestPath where
  -- `php_request_startup` returns `FAILURE`
  | startupFailed
  -- One of the checks before the script is opened jumps to `fastcgi_request_done2`
  | rejected
  -- `php_execute_script_coro` runs these files
  | executed (files : List FileExit)
  deriving DecidableEq, Repr

/-- An event of the loop. A remote call completes once, with a result or an error. -/
inductive WorkerEvent where
  | accept (fd : Int)
  | readable (bev : Nat) (path : RequestPath) (shutdown : ShutdownRun)
  | clientEof (bev : Nat) (shutdown : ShutdownRun)
  | reply (call : Nat) (exit : ResumeExit) (shutdown : ShutdownRun)
  deriving DecidableEq, Repr

namespace Worker

/-! ## Small steps -/

def emit (w : Worker) (e : Effect) : Worker := { w with trace := e :: w.trace }

def setContext (w : Worker) (c : ContextPtr) (ctx : CoroutineContext) : Worker :=
  { w with contexts := Function.update w.contexts c ctx }

def checkoutCoroutineContext (w : Worker) (c : ContextPtr) : Worker :=
  { w with pool := { w.pool with forceThreadId := some (w.pool.threadId c) } }

def buffereventFree (w : Worker) (bev : Option Nat) : Worker :=
  { w with
    bevs := w.bevs.filter fun b => some b.id ≠ bev
    trace := .buffereventFree bev :: w.trace }

/-- `free_coroutine_context`: the pool's part, then the bufferevent of a connection that is
not marked as gone. -/
def freeCoroutineContext (w : Worker) (c : ContextPtr) : Worker :=
  let w := { w with
    pool := w.pool.freeCoroutineContext c
    trace := .freeContext c :: w.trace }
  if (w.contexts c).fd ≠ 0 then w.buffereventFree (w.contexts c).bev else w

/-- `coro_http_get`, from the point where the request is made: `yield_coroutine_context` saves
the calling frame in the context, and the `longjmp` leaves the call outstanding. -/
def coroHttpGet (w : Worker) (c : ContextPtr) : Worker :=
  let ctx := { w.contexts c with prevExecuteData := some w.nextId }
  { w with
    contexts := Function.update w.contexts c ctx
    calls := { id := w.nextId + 1, context := c, issuer := ctx } :: w.calls
    nextId := w.nextId + 2 }

/-- `context->op_array = op_array` in `zend_execute_coro`, for a newly compiled file. -/
def storeOpArray (w : Worker) (c : ContextPtr) : Worker :=
  { w with
    contexts := Function.update w.contexts c
      { w.contexts c with opArray := some ⟨c, w.nextId⟩ }
    nextId := w.nextId + 1 }

/-! ## Closing a request -/

/-- How `close_request` comes back: it returns, or code that it ran suspends and the `longjmp`
of `yield_coroutine_context` leaves it half done. -/
inductive CloseResult where
  | returned (more : Bool)
  | left
  deriving DecidableEq, Repr

/-- `close_request`. The counter is compared after `php_request_shutdown`. -/
def closeRequest (w : Worker) (c : ContextPtr) : ShutdownRun → Worker × CloseResult
  | .yields => ((w.emit (.closeRequest c)).coroHttpGet c, .left)
  | .completes =>
      let w := { w.emit (.closeRequest c) with requests := w.requests + 1 }
      (w, .returned (!(w.maxRequests ≠ 0 && w.requests = w.maxRequests)))

/-- The label `fastcgi_request_done2` of `socket_read_cb`. The frame that a suspended shutdown
function would jump to, `zend_execute_coro`'s, has returned. -/
def fastcgiRequestDone2 (w : Worker) (c : ContextPtr) (shutdown : ShutdownRun) : Worker :=
  match w.closeRequest c shutdown with
  | (w, .left) => { w with status := .deadFrameJump }
  | (w, .returned more) => (if more then w else w.emit .loopexit).freeCoroutineContext c

/-! ## `socket_read_cb` -/

inductive ScriptsResult where
  | success
  | failure
  | yielded
  | bailout
  | deadFrame
  deriving DecidableEq, Repr

/-- `zend_execute_scripts_coro`, on the files that are there. -/
def zendExecuteScriptsCoro (w : Worker) (c : ContextPtr) :
    List FileExit → Worker × ScriptsResult
  | [] => (w, .success)
  | .notCompiled :: _ => (w, .failure)
  | .finished :: files =>
      let w := w.storeOpArray c
      (w.emit (.destroyOpArray (w.contexts c).opArray)).zendExecuteScriptsCoro c files
  | .yielded :: _ => ((w.storeOpArray c).coroHttpGet c, .yielded)
  | .bailout :: _ => (w.storeOpArray c, .bailout)
  | .handlerYielded :: _ => ((w.storeOpArray c).coroHttpGet c, .deadFrame)

def closeDescriptor (request : FcgiRequest) (b : Bufferevent) : Bufferevent :=
  if b.id = request.bev then { b with fdOpen := false } else b

/-- `fcgi_finish_request(request, 1)`: the client's descriptor is closed. -/
def fcgiFinishRequest (w : Worker) (request : FcgiRequest) : Worker :=
  { w with bevs := w.bevs.map (closeDescriptor request) }

/-- The start of a request: `init_coroutine_set_request` puts the new `fcgi_request` into the
context, and `php_request_startup` is called. -/
def startRequest (w : Worker) (c : ContextPtr) (request : FcgiRequest) : Worker :=
  let w := w.checkoutCoroutineContext c
  let w := w.setContext c { w.contexts c with request := some request }
  { w.emit (.requestStartup c) with nextId := w.nextId + 1 }

/-- `socket_read_cb` on the bufferevent `bev`. A start that fails leaves the context as it is. -/
def socketReadCb (w : Worker) (bev : Bufferevent) (path : RequestPath)
    (shutdown : ShutdownRun) : Worker :=
  let c := bev.context
  let request : FcgiRequest := ⟨w.nextId, (w.contexts c).fd, bev.id⟩
  let w := w.startRequest c request
  match path with
  | .startupFailed => { w.fcgiFinishRequest request with status := .moduleShutdown }
  | .rejected => w.fastcgiRequestDone2 c shutdown
  | .executed files =>
      let run := w.zendExecuteScriptsCoro c files
      match run.2 with
      | .yielded => run.1
      | .deadFrame => { run.1 with status := .deadFrameJump }
      | _ => run.1.fastcgiRequestDone2 c shutdown

/-! ## `event_cb` -/

/-- `event_cb`: the context's `fd` is cleared, its op array is destroyed and its request
closed, and the bufferevent is freed. The context is not given back. -/
def eventCb (w : Worker) (bev : Bufferevent) (shutdown : ShutdownRun) : Worker :=
  let c := bev.context
  let w := w.checkoutCoroutineContext c
  let w := w.setContext c { w.contexts c with fd := 0 }
  let w := w.emit (.destroyOpArray (w.contexts c).opArray)
  match w.closeRequest c shutdown with
  | (w, .left) => { w with status := .deadFrameJump }
  | (w, .returned _) => w.buffereventFree (some bev.id)

/-! ## Replies -/

/-- `resume_coroutine_context`. Its `setjmp` frame is live while it closes the request, so a
shutdown function that suspends there just leaves it; a bailout has no live frame to go to. -/
def resumeCoroutineContext (w : Worker) (call : RemoteCall) (exit : ResumeExit)
    (shutdown : ShutdownRun) : Worker :=
  let c := call.context
  if (w.contexts c).fd = 0 then w.freeCoroutineContext c
  else
    let w := w.emit (.resume call (w.contexts c))
    match exit with
    | .yielded => w.coroHttpGet c
    | .bailout => { w with status := .deadFrameJump }
    | .finished =>
        match (w.emit (.destroyOpArray (w.contexts c).opArray)).closeRequest c shutdown with
        | (w, .left) => w
        | (w, .returned _) => w.freeCoroutineContext c

def completeCall (w : Worker) (k : RemoteCall) : Worker :=
  { w with calls := w.calls.filter fun k' => k'.id ≠ k.id }

/-- `RemoteReadCallback`: the call is complete, and its context is resumed. -/
def remoteReadCallback (w : Worker) (call : RemoteCall) (exit : ResumeExit)
    (shutdown : ShutdownRun) : Worker :=
  ((w.checkoutCoroutineContext call.context).completeCall call).resumeCoroutineContext call exit
    shutdown

/-! ## `do_accept` -/

/-- `do_accept`. A null result of `use_coroutine_context` is stored through. -/
def doAccept (w : Worker) (fd : Int) : Worker :=
  if fd < 0 then w
  else
    match w.pool.useCoroutineContext with
    | none => { w with status := .nullDereference }
    | some (none, pool) => { w with pool := pool, status := .nullDereference }
    | some (some c, pool) =>
        { w with
          pool := pool
          contexts := Function.update w.contexts c
            { w.contexts c with fd := fd, bev := some w.nextId }
          bevs := ⟨w.nextId, c, fd, true⟩ :: w.bevs
          nextId := w.nextId + 1
          trace := .useContext c :: w.trace }

/-! ## The worker as an event system -/

/-- The start of a worker with one coroutine for each number in `idxs`. -/
def init (idxs : List Nat) (maxRequests : Nat) : Worker where
  pool := (CoroutinePool.initContexts idxs).registEvent
  contexts := fun _ => ⟨none, none, none, 0, none⟩
  bevs := []
  calls := []
  nextId := 0
  requests := 0
  maxRequests := maxRequests
  status := .running
  trace := []

def Listening (w : Worker) : Prop := w.pool.listenerCalls.head? = some .eventAdd

instance (w : Worker) : Decidable w.Listening :=
  inferInstanceAs (Decidable (w.pool.listenerCalls.head? = some .eventAdd))

/-- One event. `do_accept` is called only while `listener_event` is added, and never for the
descriptor 0, which is the listening socket; a client's callbacks only while its bufferevent is
there and its descriptor open; a call's callback while the call is outstanding. -/
def step (w : Worker) (e : WorkerEvent) : Option Worker :=
  if w.status = .running then
    match e with
    | .accept fd => if w.Listening ∧ fd ≠ 0 then some (w.doAccept fd) else none
    | .readable bev path shutdown =>
        ((w.bevs.find? fun b => b.id = bev ∧ b.fdOpen).map fun b =>
          w.socketReadCb b path shutdown)
    | .clientEof bev shutdown =>
        ((w.bevs.find? fun b => b.id = bev ∧ b.fdOpen).map fun b => w.eventCb b shutdown)
    | .reply call exit shutdown =>
        ((w.calls.find? fun k => k.id = call).map fun k =>
          w.remoteReadCallback k exit shutdown)
  else none

end Worker

def workerSystem : EventSystem Worker WorkerEvent where
  step := Worker.step

end Phpce
