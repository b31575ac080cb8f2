import Phpce.Sapi.RequestInfo
import Phpce.Worker.Outcome

/-!
# The scoreboard slot of a worker

A worker has one `fpm_scoreboard_proc_s` in shared memory, whatever the number of its coroutines.
The hooks of `fpm_request.c` write it for the request that runs; the master reads it in
`fpm_request_check_timed_out` and `fpm_request_is_idle`, and the access log in `fpm_log_write`.

Beside the slot the worker keeps, to compare it with, which requests have started and not been
closed, and what `fpm_request_info` was given since the last start.
-/

namespace Phpce

open Bytes

/-! ## The slot -/

/-- `enum fpm_request_stage_e`, and the 0 that a slot starts with. -/
inductive RequestStage where
  | unset
  | accepting
  | readingHeaders
  | info
  | executing
  | ended
  | finished
  deriving DecidableEq, Repr

def RequestStage.toNat : RequestStage → Nat
  | .unset => 0
  | .accepting => 1
  | .readingHeaders => 2
  | .info => 3
  | .executing => 4
  | .ended => 5
  | .finished => 6

/-- What the hooks write of an `fpm_scoreboard_proc_s`. A `timeval` is its microseconds. -/
structure ScoreboardProc where
  requests : Nat
  requestStage : RequestStage
  accepted : Nat
  duration : Nat
  tv : Nat
  requestUri : Bytes
  queryString : Bytes
  requestMethod : Bytes
  contentLength : Int
  scriptFilename : Bytes
  authUser : Bytes
  deriving DecidableEq, Repr

/-- The string that `strlcpy` leaves in an array of `size` bytes. -/
def strlcpy (size : Nat) (src : Bytes) : Bytes := (cstr src).take (size - 1)

/-- `strlcpy` from a pointer that may be null, into an array that holds `dst`. -/
def strlcpyIf (size : Nat) (dst : Bytes) : Option Bytes → Bytes
  | some src => strlcpy size src
  | none => dst

namespace ScoreboardProc

/-- `fpm_scoreboard_proc_alloc` gives out a slot that is filled with zeros. -/
def zero : ScoreboardProc where
  requests := 0
  requestStage := .unset
  accepted := 0
  duration := 0
  tv := 0
  requestUri := []
  queryString := []
  requestMethod := []
  contentLength := 0
  scriptFilename := []
  authUser := []

def fpmRequestAccepting (p : ScoreboardProc) (now : Nat) : ScoreboardProc :=
  { p with requestStage := .accepting, tv := now }

def fpmRequestReadingHeaders (p : ScoreboardProc) (now : Nat) : ScoreboardProc where
  requests := p.requests + 1
  requestStage := .readingHeaders
  accepted := now
  duration := p.duration
  tv := now
  requestUri := []
  queryString := []
  requestMethod := []
  contentLength := 0
  scriptFilename := []
  authUser := []

/-- `fpm_request_info`. A null pointer leaves its array as it is. -/
def fpmRequestInfo (p : ScoreboardProc) (now : Nat) (info : Sapi.RequestInfo) : ScoreboardProc where
  requests := p.requests
  requestStage := .info
  accepted := p.accepted
  duration := p.duration
  tv := now
  requestUri := strlcpyIf 128 p.requestUri info.requestUri
  queryString := strlcpyIf 512 p.queryString info.queryString
  requestMethod := strlcpyIf 16 p.requestMethod info.requestMethod
  contentLength := info.contentLength
  scriptFilename := strlcpyIf 256 p.scriptFilename info.pathTranslated
  authUser := strlcpyIf 32 p.authUser info.authUser

def fpmRequestExecuting (p : ScoreboardProc) (now : Nat) : ScoreboardProc :=
  { p with requestStage := .executing, tv := now }

def fpmRequestEnd (p : ScoreboardProc) (now : Nat) : ScoreboardProc :=
  { p with requestStage := .finished, tv := now, duration := now - p.accepted }

def fpmRequestFinished (p : ScoreboardProc) (now : Nat) : ScoreboardProc :=
  { p with requestStage := .finished, tv := now }

/-- `fpm_request_check_timed_out`, without the slow log: whether the child is sent a `SIGTERM`. -/
def fpmRequestCheckTimedOut (p : ScoreboardProc) (now terminateTimeout : Nat) : Bool :=
  RequestStage.accepting.toNat < p.requestStage.toNat &&
    p.requestStage.toNat < RequestStage.ended.toNat &&
    terminateTimeout ≠ 0 && terminateTimeout ≤ (now - p.accepted) / 1000000

def fpmRequestIsIdle (p : ScoreboardProc) : Bool := p.requestStage = .accepting

end ScoreboardProc

/-! ## The callbacks -/

/-- A request that `socket_read_cb` has started. Its data are those that `init_request_info` finds
when it starts. -/
structure WorkerRequest where
  id : Nat
  accepted : Nat
  info : Sapi.RequestInfo
  deriving DecidableEq, Repr

/-- The data of a `GET` request for a script of that name. -/
def getRequest (uri : String) : Sapi.RequestInfo where
  pathTranslated := some (ascii uri)
  requestMethod := some (ascii "GET")
  protoNum := 1000
  queryString := none
  requestUri := some (ascii uri)
  contentType := none
  contentLength := 0
  authUser := none
  authPassword := none
  authDigest := none

inductive SlotOp where
  -- `do_accept` gives the context a connection
  | connect (c : ContextPtr)
  | accepting
  -- The request of these data starts
  | readingHeaders (c : ContextPtr) (info : Sapi.RequestInfo)
  | info (info : Sapi.RequestInfo)
  | executing
  -- `fpm_request_end` and `fpm_log_write` in `close_request`
  | closeRequest (c : ContextPtr)
  -- `on_close`
  | finished
  -- `fcgi_finish_request(request, 1)`, of a request that could not be started
  | abandon (c : ContextPtr)
  deriving DecidableEq, Repr

inductive SlotStage where
  | op (o : SlotOp)
  | may (o : SlotOp)
  deriving DecidableEq, Repr

def SlotStage.slotOp : SlotStage → SlotOp
  | .op o | .may o => o

/-- `close_request`. The connection is closed in `php_request_shutdown` or behind it, unless the
web server keeps it. -/
def closeStages (c : ContextPtr) : List SlotStage := [.op (.closeRequest c), .may .finished]

/-- What `socket_read_cb` does behind `php_request_startup`. `fpm_status_handle_request` sets the
stage for a page of its own; a script may call `fastcgi_finish_request`. -/
def RequestPath.slotStages (path : RequestPath) (c : ContextPtr) : List SlotStage :=
  (match path with
    | .startupFailed => [.op (.abandon c)]
    | .rejected => [.may .executing]
    | .executed _ => [.op .executing, .may .finished]) ++
  if path.closes then closeStages c else []

/-- The callback of an event, where `init_request_info` finds `info`. -/
def Worker.slotStages (w : Worker) (info : Sapi.RequestInfo) : WorkerEvent → List SlotStage
  | .accept fd =>
      if fd < 0 then []
      else
        match w.pool.useCoroutineContext with
        | some (some c, _) => [.op (.connect c)]
        | _ => []
  | .readable bev path _ =>
      match w.bevs.find? fun b => b.id = bev ∧ b.fdOpen with
      | some b => .op .accepting :: .op (.readingHeaders b.context info) :: .op (.info info) ::
          path.slotStages b.context
      | none => []
  | .clientEof bev _ =>
      match w.bevs.find? fun b => b.id = bev ∧ b.fdOpen with
      | some b => closeStages b.context
      | none => []
  | .reply call exit _ =>
      match w.calls.find? fun k => k.id = call with
      | some k =>
          if (w.contexts k.context).fd = 0 then []
          else .op (.info info) :: .op .executing :: .may .finished ::
            if exit = .finished then closeStages k.context else []
      | none => []

/-! ## The worker with its slot -/

/-- A line of the access log: the request of the context that is closed, if it has one, and the slot
that `fpm_log_write` reads. -/
structure LogLine where
  request : Option WorkerRequest
  proc : ScoreboardProc
  deriving DecidableEq, Repr

/-- A worker, its slot and what is left of the callback that it runs. The worker is in the state in
which the callback leaves it. -/
structure SlotWorker where
  worker : Worker
  proc : ScoreboardProc
  -- The monotonic clock, in microseconds
  clock : Nat
  script : List SlotStage
  -- The request of the connection that a context has
  requestOf : ContextPtr → Option WorkerRequest
  nextRequest : Nat
  -- The requests that have started and have not been closed
  live : List WorkerRequest
  lastStarted : Option WorkerRequest
  -- What `fpm_request_info` was given since, latest first
  infos : List Sapi.RequestInfo
  log : List LogLine

/-- An event of the loop with what `init_request_info` finds in it, the next thing that the callback
does, or does not do, and time that passes. -/
inductive SlotEvent where
  | callback (e : WorkerEvent) (info : Sapi.RequestInfo)
  | next
  | skip
  | elapse (n : Nat)
  deriving DecidableEq, Repr

namespace SlotWorker

/-- The requests that are left when the one of `c` is closed. -/
def without (x : SlotWorker) (c : ContextPtr) : List WorkerRequest :=
  x.live.filter fun r => some r ≠ x.requestOf c

def op (x : SlotWorker) : SlotOp → SlotWorker
  | .connect c => { x with requestOf := Function.update x.requestOf c none }
  | .accepting => { x with proc := x.proc.fpmRequestAccepting x.clock }
  | .readingHeaders c info =>
      let r : WorkerRequest := ⟨x.nextRequest, x.clock, info⟩
      { x with
        proc := x.proc.fpmRequestReadingHeaders x.clock
        requestOf := Function.update x.requestOf c (some r)
        nextRequest := x.nextRequest + 1
        live := r :: x.live
        lastStarted := some r
        infos := [] }
  | .info info =>
      { x with proc := x.proc.fpmRequestInfo x.clock info, infos := info :: x.infos }
  | .executing => { x with proc := x.proc.fpmRequestExecuting x.clock }
  | .closeRequest c =>
      let p := x.proc.fpmRequestEnd x.clock
      { x with proc := p, live := x.without c, log := ⟨x.requestOf c, p⟩ :: x.log }
  | .finished => { x with proc := x.proc.fpmRequestFinished x.clock }
  | .abandon c => { x with proc := x.proc.fpmRequestFinished x.clock, live := x.without c }

def step (x : SlotWorker) : SlotEvent → Option SlotWorker
  | .callback e info =>
      if x.script = [] then
        (workerSystem.step x.worker e).map fun worker =>
          { x with worker := worker, script := x.worker.slotStages info e }
      else none
  | .next =>
      match x.script with
      | stage :: script => some { x.op stage.slotOp with script := script }
      | [] => none
  | .skip =>
      match x.script with
      | .may _ :: script => some { x with script := script }
      | _ => none
  | .elapse n => some { x with clock := x.clock + n }

def start (idxs : List Nat) (maxRequests : Nat) : SlotWorker where
  worker := Worker.init idxs maxRequests
  proc := .zero
  clock := 0
  script := []
  requestOf := fun _ => none
  nextRequest := 0
  live := []
  lastStarted := none
  infos := []
  log := []

end SlotWorker

def slotSystem : EventSystem SlotWorker SlotEvent where
  step := SlotWorker.step

namespace SlotWorker

variable {x x' : SlotWorker} {e : SlotEvent}

def nextOp (x : SlotWorker) : Option SlotOp := x.script.head?.map SlotStage.slotOp

/-- The guard of a run whose steps all do something that meets `P`. -/
def OpGuard (P : SlotWorker → SlotOp → Prop) (x : SlotWorker) : SlotEvent → Prop
  | .next => ∀ o ∈ x.nextOp, P x o
  | _ => True

instance (P : SlotWorker → SlotOp → Prop) [∀ x o, Decidable (P x o)] (x : SlotWorker) :
    DecidablePred (OpGuard P x)
  | .next => inferInstanceAs (Decidable (∀ o ∈ x.nextOp, P x o))
  | .callback _ _ | .skip | .elapse _ => inferInstanceAs (Decidable True)

theorem step_cases (h : slotSystem.step x e = some x') :
    (∃ o script, e = .next ∧ x.nextOp = some o ∧ x' = { x.op o with script := script }) ∨
      (∃ worker clock script, e ≠ .next ∧ x.clock ≤ clock ∧
        x' = { x with worker := worker, clock := clock, script := script }) := by
  cases e with
  | callback e info =>
    right
    simp only [slotSystem, step] at h
    split at h
    · obtain ⟨worker, -, rfl⟩ := Option.map_eq_some_iff.mp h
      exact ⟨worker, x.clock, _, by simp, Nat.le_refl _, rfl⟩
    · cases h
  | next =>
    left
    simp only [slotSystem, step] at h
    split at h
    · rename_i stage script hscript
      exact ⟨stage.slotOp, script, rfl, by simp [nextOp, hscript], (Option.some.inj h).symm⟩
    · cases h
  | skip =>
    right
    simp only [slotSystem, step] at h
    split at h
    · rename_i o script hscript
      exact ⟨x.worker, x.clock, script, by decide, Nat.le_refl _, (Option.some.inj h).symm⟩
    · cases h
  | elapse n =>
    right
    exact ⟨x.worker, x.clock + n, x.script, by simp, Nat.le_add_right _ _,
      (Option.some.inj h).symm⟩

end SlotWorker

end Phpce
