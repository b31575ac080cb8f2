import Phpce.Lib.IntervalTimer
import Phpce.Worker.Outcome

/-!
# The time limit of a request

Each coroutine has its own `EG(timeout_seconds)` and `EG(timed_out)`, but the process has one
profiling timer. What a request does to the timer while another is suspended, it does to the
other's limit as well.

* **`charged_of_run`** — while nobody sets or stops the timer of another request, and the timer
  expires in the request that has armed it, every timeout is charged to a request that has used up
  its limit, and the timer of a request that has armed it is running.
* **`not_charged`** — a request that is suspended when another one starts and ends has no timer.
-/

namespace Phpce

open List Option

/-- What a coroutine has for the time limit: of `EG`, the value of `max_execution_time` with the one
to be restored, `PG(max_input_time)`, and whether `SIGG(handlers)` has `zend_timeout_handler`. -/
structure Executor where
  timeoutSeconds : Int
  timedOut : Bool
  maxExecutionTime : Int
  origExecutionTime : Option Int
  maxInputTime : Int
  handler : Bool
  deriving DecidableEq, Repr

/-- An unfinished request has armed the timer, and has neither stopped it nor been timed out
since. -/
structure Arming where
  request : Nat
  limit : Int
  since : Nat
  deriving DecidableEq, Repr

/-- `zend_timeout_handler` has set `EG(timed_out)`: the arming of the request that it is set for. -/
structure Timeout where
  arming : Option Arming
  time : Nat
  deriving DecidableEq, Repr

structure Timers where
  current : ContextPtr
  executors : ContextPtr → Executor
  -- The request that a coroutine works on
  request : ContextPtr → Option Nat
  nextRequest : Nat
  itimer : IntervalTimer
  armed : List Arming
  timeouts : List Timeout
  -- A `SIGPROF` without a handler has ended the process
  killed : Bool

/-- The timer counts microseconds of CPU time. -/
def microseconds (seconds : Int) : Nat := seconds.toNat * 1000000

theorem microseconds_pos {seconds : Int} (h : 0 < seconds) : 0 < microseconds seconds :=
  Nat.mul_pos (by omega) (by decide)

def Arming.due (a : Arming) : Nat := a.since + microseconds a.limit

/-- What the record of a web server's `PHP_VALUE` sets. -/
inductive PhpValue where
  | maxExecutionTime (seconds : Int)
  | maxInputTime (seconds : Int)
  deriving DecidableEq, Repr

namespace Timers

def executor (t : Timers) : Executor := t.executors t.current

def setExecutor (t : Timers) (e : Executor) : Timers :=
  { t with executors := Function.update t.executors t.current e }

def others (t : Timers) : List Arming :=
  t.armed.filter fun a => some a.request ≠ t.request t.current

/-- `setitimer(ITIMER_PROF)`, which takes no negative time. -/
def setitimer (t : Timers) (seconds : Int) : Timers :=
  if seconds < 0 then t
  else
    { t with
      itimer := t.itimer.set (microseconds seconds)
      armed :=
        match t.request t.current with
        | some request =>
            if seconds = 0 then t.others else ⟨request, seconds, t.itimer.now⟩ :: t.others
        | none => t.armed }

def zendSetTimeoutEx (t : Timers) (seconds : Int) (resetSignals : Bool) : Timers :=
  let t := if seconds ≠ 0 then t.setitimer seconds else t
  if resetSignals then t.setExecutor { t.executor with handler := true } else t

def zendSetTimeout (t : Timers) (seconds : Int) (resetSignals : Bool) : Timers :=
  let t := t.setExecutor { t.executor with timeoutSeconds := seconds }
  let t := t.zendSetTimeoutEx seconds resetSignals
  t.setExecutor { t.executor with timedOut := false }

def zendUnsetTimeout (t : Timers) : Timers :=
  let t := if t.executor.timeoutSeconds ≠ 0 then t.setitimer 0 else t
  t.setExecutor { t.executor with timedOut := false }

/-- `zend_timeout`, up to the fatal error. -/
def zendTimeout (t : Timers) : Timers :=
  (t.setExecutor { t.executor with timedOut := false }).zendSetTimeoutEx 0 true

/-- `zend_timeout_handler`, in a build with threads. -/
def zendTimeoutHandler (t : Timers) : Timers :=
  { t.setExecutor { t.executor with timedOut := true } with
    armed := t.others
    timeouts := ⟨t.armed.find? fun a => some a.request = t.request t.current, t.itimer.now⟩ ::
      t.timeouts }

/-- CPU time passes. The signal comes when the timer expires. -/
def elapse (t : Timers) (n : Nat) : Option Timers :=
  match t.itimer.elapse n with
  | some (itimer, false) => some { t with itimer := itimer }
  | some (itimer, true) =>
      if t.executor.handler then some { t with itimer := itimer }.zendTimeoutHandler
      else some { t with itimer := itimer, killed := true }
  | none => none

def onUpdateTimeout (t : Timers) (seconds : Int) : Timers :=
  t.zendUnsetTimeout.zendSetTimeout seconds false

/-- `set_time_limit`, by way of `zend_alter_ini_entry_ex`. -/
def setTimeLimit (t : Timers) (seconds : Int) : Timers :=
  let orig := t.executor.origExecutionTime.getD t.executor.maxExecutionTime
  let t := t.onUpdateTimeout seconds
  t.setExecutor { t.executor with maxExecutionTime := seconds, origExecutionTime := some orig }

/-- `fpm_php_zend_ini_alter_master`: the value is not restored. -/
def alterMaster (t : Timers) : PhpValue → Timers
  | .maxExecutionTime seconds =>
      let t := t.onUpdateTimeout seconds
      t.setExecutor { t.executor with maxExecutionTime := seconds }
  | .maxInputTime seconds => t.setExecutor { t.executor with maxInputTime := seconds }

/-- `zend_deactivate`, by way of `zend_restore_ini_entry_cb`. -/
def zendDeactivate (t : Timers) : Timers :=
  match t.executor.origExecutionTime with
  | some orig =>
      let t := t.onUpdateTimeout orig
      t.setExecutor { t.executor with maxExecutionTime := orig, origExecutionTime := none }
  | none => t

/-- The limit that `php_request_startup` sets. -/
def startupSeconds (t : Timers) : Int :=
  if t.executor.maxInputTime = -1 then t.executor.timeoutSeconds else t.executor.maxInputTime

/-- `php_request_startup`, with `init_executor` and `zend_signal_activate`. -/
def phpRequestStartup (t : Timers) : Timers :=
  (t.setExecutor { t.executor with timedOut := false, handler := false }).zendSetTimeout
    t.startupSeconds true

def phpExecuteScriptCoro (t : Timers) : Timers :=
  if t.executor.maxInputTime ≠ -1 then t.zendSetTimeout t.executor.maxExecutionTime false else t

/-- `init_coroutine_set_request` -/
def initRequest (t : Timers) : Timers :=
  { t with
    request := Function.update t.request t.current (some t.nextRequest)
    nextRequest := t.nextRequest + 1 }

def finishRequest (t : Timers) : Timers :=
  { t with
    armed := t.others
    request := Function.update t.request t.current none }

end Timers

/-- What a callback, or the code that it runs, does to the timer. -/
inductive TimerOp where
  | checkoutCoroutineContext (c : ContextPtr)
  | initRequest
  | phpRequestStartup
  | phpExecuteScriptCoro
  | setTimeLimit (seconds : Int)
  | alterMaster (value : PhpValue)
  | zendTimeout
  | zendUnsetTimeout
  | zendDeactivate
  | finishRequest
  deriving DecidableEq, Repr

def Timers.op (t : Timers) : TimerOp → Timers
  | .checkoutCoroutineContext c => { t with current := c }
  | .initRequest => t.initRequest
  | .phpRequestStartup => t.phpRequestStartup
  | .phpExecuteScriptCoro => t.phpExecuteScriptCoro
  | .setTimeLimit seconds => t.setTimeLimit seconds
  | .alterMaster value => t.alterMaster value
  | .zendTimeout => t.zendTimeout
  | .zendUnsetTimeout => t.zendUnsetTimeout
  | .zendDeactivate => t.zendDeactivate
  | .finishRequest => t.finishRequest

/-! ## The callbacks -/

/-- A callback does this, or here it runs code. -/
inductive Stage where
  | op (o : TimerOp)
  | code
  deriving DecidableEq, Repr

/-- `php_request_shutdown`. Shutdown functions and destructors run first, and the code of the
extensions may run once the timer is reset. -/
def ShutdownRun.stages : ShutdownRun → List Stage
  | .yields => [.code]
  | .completes => [.code, .op .zendUnsetTimeout, .code, .op .zendDeactivate,
      .op .zendUnsetTimeout, .op .finishRequest]

/-- What `socket_read_cb` does when the request has started. -/
def RequestPath.stages (path : RequestPath) (shutdown : ShutdownRun) : List Stage :=
  (match path with
    | .executed _ => [.op .phpExecuteScriptCoro, .code]
    | .startupFailed | .rejected => []) ++
  if path.closes then shutdown.stages else []

/-- The callback of an event. `init_request_info` applies `PHP_VALUE` before the request starts and
before it is resumed. -/
def Worker.stages (w : Worker) : WorkerEvent → List Stage
  | .accept fd =>
      if fd < 0 then []
      else
        match w.pool.useCoroutineContext with
        | some (some c, _) => [.op (.checkoutCoroutineContext c)]
        | _ => []
  | .readable bev path shutdown =>
      match w.bevs.find? fun b => b.id = bev ∧ b.fdOpen with
      | some b => .op (.checkoutCoroutineContext b.context) :: .op .initRequest :: .code ::
          .op .phpRequestStartup :: path.stages shutdown
      | none => []
  | .clientEof bev shutdown =>
      match w.bevs.find? fun b => b.id = bev ∧ b.fdOpen with
      | some b => .op (.checkoutCoroutineContext b.context) :: shutdown.stages
      | none => []
  | .reply call exit shutdown =>
      match w.calls.find? fun k => k.id = call with
      | some k => .op (.checkoutCoroutineContext k.context) ::
          if (w.contexts k.context).fd = 0 then []
          else .code :: if exit = .finished then shutdown.stages else []
      | none => []

/-- A worker with the timer, and what is left of the callback that it runs. The worker is in the
state in which the callback leaves it. -/
structure TimedWorker where
  worker : Worker
  timers : Timers
  script : List Stage

/-- An event of the loop, the next thing that the callback does, something that its code does, or
CPU time that passes. -/
inductive TimedEvent where
  | callback (e : WorkerEvent)
  | next
  | code (o : TimerOp)
  | elapse (n : Nat)
  deriving DecidableEq, Repr

namespace TimedWorker

/-- The code of a request can do this. The interpreter calls `zend_timeout` when it finds
`EG(timed_out)`. -/
def OfCode (t : Timers) : TimerOp → Prop
  | .setTimeLimit _ | .alterMaster _ => True
  | .zendTimeout => t.executor.timedOut = true
  | _ => False

instance (t : Timers) : DecidablePred (OfCode t)
  | .setTimeLimit _ | .alterMaster _ => inferInstanceAs (Decidable True)
  | .zendTimeout => inferInstanceAs (Decidable (t.executor.timedOut = true))
  | .checkoutCoroutineContext _ | .initRequest | .phpRequestStartup | .phpExecuteScriptCoro
  | .zendUnsetTimeout | .zendDeactivate | .finishRequest => inferInstanceAs (Decidable False)

def step (x : TimedWorker) (e : TimedEvent) : Option TimedWorker :=
  if x.timers.killed then none
  else
    match e with
    | .callback e =>
        if x.script = [] then
          (workerSystem.step x.worker e).map fun worker =>
            { x with worker := worker, script := x.worker.stages e }
        else none
    | .next =>
        match x.script with
        | .op o :: script => some { x with timers := x.timers.op o, script := script }
        | .code :: script => some { x with script := script }
        | [] => none
    | .code o =>
        if x.script.head? = some .code ∧ OfCode x.timers o then
          some { x with timers := x.timers.op o }
        else none
    | .elapse n => (x.timers.elapse n).map fun timers => { x with timers := timers }

/-- The start of a worker, with the coroutines' limits as they are configured. -/
def start (idxs : List Nat) (maxRequests : Nat) (executors : ContextPtr → Executor) :
    TimedWorker where
  worker := Worker.init idxs maxRequests
  timers :=
    { current := 0
      executors := executors
      request := fun _ => none
      nextRequest := 0
      itimer := ⟨0, none⟩
      armed := []
      timeouts := []
      killed := false }
  script := []

end TimedWorker

def timedSystem : EventSystem TimedWorker TimedEvent where
  step := TimedWorker.step

/-! ## The timer of one request -/

namespace Timers

variable {t t' : Timers} {e : Executor} {seconds : Int} {n : Nat}

/-- The property: who is timed out has used up the limit that it armed the timer with, and the timer
of a request that has armed it runs, and not for longer than the limit. -/
structure Charged (t : Timers) : Prop where
  timeouts : ∀ f ∈ t.timeouts, ∃ a, f.arming = some a ∧ a.due ≤ f.time
  running : ∀ a ∈ t.armed, ∃ expiry, t.itimer.expiry = some expiry ∧ expiry ≤ a.due

/-- The invariant: one request at most has armed the timer, and it is set for its limit. -/
structure Inv (t : Timers) : Prop where
  single : ∀ a ∈ t.armed, t.armed = [a]
  expiry : ∀ a ∈ t.armed, t.itimer.expiry = some a.due
  timeouts : ∀ f ∈ t.timeouts, ∃ a, f.arming = some a ∧ a.due ≤ f.time

theorem Inv.charged (h : Inv t) : Charged t :=
  ⟨h.timeouts, fun a ha => ⟨a.due, h.expiry a ha, Nat.le_refl _⟩⟩

theorem Inv.setExecutor (h : Inv t) (e : Executor) : Inv (t.setExecutor e) :=
  ⟨h.single, h.expiry, h.timeouts⟩

theorem Inv.setitimer (h : Inv t) (hothers : t.others = []) (seconds : Int) :
    Inv (t.setitimer seconds) ∧ (t.setitimer seconds).others = [] := by
  unfold Timers.setitimer
  split
  · exact ⟨h, hothers⟩
  · rename_i hneg
    cases hrequest : t.request t.current with
    | none =>
      have harmed : t.armed = [] := by simpa [others, hrequest] using hothers
      simp only [harmed]
      exact ⟨⟨nofun, nofun, h.timeouts⟩, rfl⟩
    | some request =>
      by_cases hzero : seconds = 0
      · simp only [if_pos hzero, hothers]
        exact ⟨⟨nofun, nofun, h.timeouts⟩, rfl⟩
      · have hpos : 0 < microseconds seconds := microseconds_pos (by omega)
        simp only [if_neg hzero, hothers]
        refine ⟨⟨fun a ha => ?_, fun a ha => ?_, h.timeouts⟩, ?_⟩
        · rw [mem_singleton.mp ha]
        · rw [mem_singleton.mp ha, Arming.due]
          exact IntervalTimer.expiry_set hpos
        · simp [others, hrequest]

theorem Inv.zendSetTimeoutEx (h : Inv t) (hothers : 0 < seconds → t.others = [])
    (resetSignals : Bool) : Inv (t.zendSetTimeoutEx seconds resetSignals) := by
  have hset : Inv (if seconds ≠ 0 then t.setitimer seconds else t) := by
    split
    · by_cases hneg : seconds < 0
      · have heq : t.setitimer seconds = t := if_pos hneg
        rw [heq]
        exact h
      · exact (h.setitimer (hothers (by omega)) seconds).1
    · exact h
  unfold Timers.zendSetTimeoutEx
  dsimp only
  split
  · exact hset.setExecutor _
  · exact hset

theorem Inv.zendSetTimeout (h : Inv t) (hothers : 0 < seconds → t.others = [])
    (resetSignals : Bool) : Inv (t.zendSetTimeout seconds resetSignals) :=
  ((h.setExecutor _).zendSetTimeoutEx hothers resetSignals).setExecutor _

theorem Inv.zendUnsetTimeout (h : Inv t)
    (hothers : t.executor.timeoutSeconds ≠ 0 → t.others = []) : Inv t.zendUnsetTimeout := by
  unfold Timers.zendUnsetTimeout
  dsimp only
  split
  · exact (h.setitimer (hothers ‹_›) 0).1.setExecutor _
  · exact h.setExecutor _

theorem Inv.onUpdateTimeout (h : Inv t)
    (hothers : t.executor.timeoutSeconds ≠ 0 ∨ 0 < seconds → t.others = []) :
    Inv (t.onUpdateTimeout seconds) := by
  refine (h.zendUnsetTimeout fun hne => hothers (.inl hne)).zendSetTimeout (fun hpos => ?_) false
  unfold Timers.zendUnsetTimeout
  dsimp only
  split
  · exact (h.setitimer (hothers (.inr hpos)) 0).2
  · exact hothers (.inr hpos)

theorem Inv.zendTimeout (h : Inv t) : Inv t.zendTimeout :=
  (h.setExecutor _).zendSetTimeoutEx (fun hpos => absurd hpos (Int.lt_irrefl 0)) true

theorem Inv.finishRequest (h : Inv t) : Inv t.finishRequest := by
  have hsub : ∀ a ∈ t.others, a ∈ t.armed := fun a ha => mem_of_mem_filter ha
  refine ⟨fun a ha => ?_, fun a ha => h.expiry a (hsub a ha), h.timeouts⟩
  have hone := h.single a (hsub a ha)
  have hkept : some a.request ≠ t.request t.current := by simpa using (mem_filter.mp ha).2
  simp [Timers.finishRequest, others, hone, hkept]

theorem Inv.elapse (h : Inv t) (hstep : t.elapse n = some t')
    (hcurrent : t.itimer.left = some n →
      t.executor.handler = true ∧ ∃ a ∈ t.armed, some a.request = t.request t.current) :
    Inv t' := by
  unfold Timers.elapse at hstep
  split at hstep
  · rename_i itimer hitimer
    obtain rfl := some.inj hstep
    have hexpiry := IntervalTimer.expiry_elapse hitimer
    exact ⟨h.single, fun a ha => hexpiry.trans (h.expiry a ha), h.timeouts⟩
  · rename_i itimer hitimer
    obtain ⟨hleft, hexpiry, -⟩ := IntervalTimer.elapse_expired hitimer
    obtain ⟨hhandler, a, ha, hrequest⟩ := hcurrent hleft
    obtain rfl := some.inj ((if_pos hhandler).symm.trans hstep)
    have hone := h.single a ha
    have hnow : a.due = itimer.now := some.inj ((h.expiry a ha).symm.trans hexpiry)
    -- nobody else has armed the timer
    have hnone : ∀ a', a' ∉ t.others := by simp [others, hone, hrequest]
    refine ⟨fun a' ha' => absurd ha' (hnone a'), fun a' ha' => absurd ha' (hnone a'),
      fun f hf => ?_⟩
    rcases mem_cons.mp hf with rfl | hf
    · refine ⟨a, ?_, Nat.le_of_eq hnow⟩
      simp [hone, hrequest]
    · exact h.timeouts f hf
  · cases hstep

def Sets (t : Timers) : TimerOp → Bool
  | .phpRequestStartup => 0 < t.startupSeconds
  | .phpExecuteScriptCoro =>
      t.executor.maxInputTime ≠ -1 && 0 < t.executor.maxExecutionTime
  | .setTimeLimit seconds | .alterMaster (.maxExecutionTime seconds) =>
      t.executor.timeoutSeconds ≠ 0 || 0 < seconds
  | .zendUnsetTimeout => t.executor.timeoutSeconds ≠ 0
  | .zendDeactivate =>
      t.executor.origExecutionTime.any fun orig => t.executor.timeoutSeconds ≠ 0 || 0 < orig
  | .checkoutCoroutineContext _ | .initRequest | .alterMaster (.maxInputTime _) | .zendTimeout
  | .finishRequest => false

theorem Inv.op (h : Inv t) {o : TimerOp} (hothers : t.Sets o = true → t.others = []) :
    Inv (t.op o) := by
  cases o with
  | checkoutCoroutineContext c => exact ⟨h.single, h.expiry, h.timeouts⟩
  | initRequest => exact ⟨h.single, h.expiry, h.timeouts⟩
  | phpRequestStartup =>
    exact (h.setExecutor _).zendSetTimeout (fun hpos => hothers (by simpa [Sets] using hpos)) true
  | phpExecuteScriptCoro =>
    simp only [Timers.op, Timers.phpExecuteScriptCoro]
    split
    · rename_i hne
      exact h.zendSetTimeout (fun hpos => hothers (by simp [Sets, hne, hpos])) false
    · exact h
  | setTimeLimit seconds =>
    exact (h.onUpdateTimeout fun hset => hothers (by simpa [Sets] using hset)).setExecutor _
  | alterMaster value =>
    cases value with
    | maxExecutionTime seconds =>
      exact (h.onUpdateTimeout fun hset => hothers (by simpa [Sets] using hset)).setExecutor _
    | maxInputTime seconds => exact h.setExecutor _
  | zendTimeout => exact h.zendTimeout
  | zendUnsetTimeout =>
    exact h.zendUnsetTimeout fun hne => hothers (by simpa [Sets] using hne)
  | zendDeactivate =>
    simp only [Timers.op, Timers.zendDeactivate]
    split
    · rename_i orig horig
      exact (h.onUpdateTimeout fun hset =>
        hothers (by simpa [Sets, horig] using hset)).setExecutor _
    · exact h
  | finishRequest => exact h.finishRequest

end Timers

/-! ## Runs -/

namespace TimedWorker

variable {x x' : TimedWorker} {e : TimedEvent}

def nextOp (x : TimedWorker) : Option TimerOp :=
  match x.script.head? with
  | some (.op o) => some o
  | _ => none

/-- The condition on an event: what sets or stops the timer does so while no other request has it
armed, and the timer expires in a coroutine that has the handler and works on a request that has
armed it. -/
def OwnTimer (x : TimedWorker) : TimedEvent → Prop
  | .callback _ => True
  | .next => ∀ o ∈ x.nextOp, x.timers.Sets o = true → x.timers.others = []
  | .code o => x.timers.Sets o = true → x.timers.others = []
  | .elapse n => x.timers.itimer.left = some n → x.timers.executor.handler = true ∧
      ∃ a ∈ x.timers.armed, some a.request = x.timers.request x.timers.current

instance (x : TimedWorker) : DecidablePred x.OwnTimer
  | .callback _ => inferInstanceAs (Decidable True)
  | .next => inferInstanceAs (Decidable (∀ o ∈ x.nextOp,
      x.timers.Sets o = true → x.timers.others = []))
  | .code o => inferInstanceAs (Decidable (x.timers.Sets o = true → x.timers.others = []))
  | .elapse n => inferInstanceAs (Decidable (x.timers.itimer.left = some n →
      x.timers.executor.handler = true ∧
        ∃ a ∈ x.timers.armed, some a.request = x.timers.request x.timers.current))

theorem inv_start (idxs : List Nat) (maxRequests : Nat) (executors : ContextPtr → Executor) :
    (start idxs maxRequests executors).timers.Inv :=
  ⟨nofun, nofun, nofun⟩

theorem inv_step (h : x.timers.Inv) (hown : x.OwnTimer e)
    (hstep : timedSystem.step x e = some x') : x'.timers.Inv := by
  simp only [timedSystem, step] at hstep
  split at hstep
  · cases hstep
  · cases e with
    | callback e =>
      dsimp only at hstep
      split at hstep
      · obtain ⟨worker, -, rfl⟩ := map_eq_some_iff.mp hstep
        exact h
      · cases hstep
    | next =>
      dsimp only at hstep
      split at hstep
      · rename_i o script hscript
        obtain rfl := some.inj hstep
        exact h.op (hown o (by simp [nextOp, hscript]))
      · obtain rfl := some.inj hstep
        exact h
      · cases hstep
    | code o =>
      dsimp only at hstep
      split at hstep
      · obtain rfl := some.inj hstep
        exact h.op hown
      · cases hstep
    | elapse n =>
      obtain ⟨timers, htimers, rfl⟩ := map_eq_some_iff.mp hstep
      exact h.elapse htimers hown

/-- **While the timer is that of one request**, whoever is timed out has used up its limit, and a
request that has armed the timer is not forgotten. -/
theorem charged_of_run {idxs : List Nat} {maxRequests : Nat} {executors : ContextPtr → Executor}
    {es : List TimedEvent}
    (hrun : timedSystem.Run OwnTimer (start idxs maxRequests executors) es x) :
    x.timers.Charged := by
  have hinv : x.timers.Inv :=
    hrun.invariant (fun _ _ _ h hguard hstep => inv_step h hguard hstep)
      (inv_start idxs maxRequests executors)
  exact hinv.charged

/-- A request that uses up its limit of a second, and ends. -/
theorem charged_of_run_limit : ∃ x, timedSystem.Run OwnTimer
      (start [0] 0 fun _ => ⟨1, false, 1, none, 60, false⟩)
      [.callback (.accept 3), .next,
        .callback (.readable 0 (.executed [.bailout]) .completes), .next, .next, .next, .next,
        .next, .elapse 400000, .elapse 600000, .code .zendTimeout, .next, .next, .next, .next,
        .next, .next, .next] x ∧
    x.timers.timeouts = [⟨some ⟨0, 1, 0⟩, 1000000⟩] ∧ x.script = [] ∧ x.timers.Charged := by
  have hexec : (timedSystem.execWhile OwnTimer
      (start [0] 0 fun _ => ⟨1, false, 1, none, 60, false⟩)
      [.callback (.accept 3), .next,
        .callback (.readable 0 (.executed [.bailout]) .completes), .next, .next, .next, .next,
        .next, .elapse 400000, .elapse 600000, .code .zendTimeout, .next, .next, .next, .next,
        .next, .next, .next]).map (fun x => (x.timers.timeouts, x.script)) =
      some ([⟨some ⟨0, 1, 0⟩, 1000000⟩], []) := by decide +kernel
  obtain ⟨x, hexec, hx⟩ := map_eq_some_iff.mp hexec
  have hrun := EventSystem.run_of_execWhile hexec
  exact ⟨x, hrun, (Prod.mk.inj hx).1, (Prod.mk.inj hx).2, charged_of_run hrun⟩

/-- **A request that is suspended while another one starts and ends** has armed the timer, and the
timer is not running. -/
theorem not_charged : ¬∀ (idxs : List Nat) (maxRequests : Nat) (executors : ContextPtr → Executor)
    (es : List TimedEvent) (x : TimedWorker),
      timedSystem.FreeRun (start idxs maxRequests executors) es x → x.timers.Charged := by
  intro h
  have hexec : (timedSystem.exec (start [0, 1] 0 fun _ => ⟨30, false, 30, none, -1, false⟩)
      [.callback (.accept 3), .next,
        .callback (.readable 0 (.executed [.yielded]) .completes), .next, .next, .next, .next,
        .next, .next,
        .callback (.accept 4), .next,
        .callback (.readable 5 (.executed [.finished]) .completes), .next, .next, .next, .next,
        .next, .next, .next, .next, .next, .next, .next, .next]).any (fun x =>
          ⟨0, 30, 0⟩ ∈ x.timers.armed ∧ x.timers.itimer.expiry = none) = true := by decide +kernel
  obtain ⟨x, hrun, hx⟩ := (any_eq_true _ _).mp hexec
  obtain ⟨harmed, hnone⟩ := of_decide_eq_true hx
  have hcharged := h _ _ _ _ _ (EventSystem.run_of_exec hrun)
  obtain ⟨expiry, hexpiry, -⟩ := hcharged.running ⟨0, 30, 0⟩ harmed
  rw [hnone] at hexpiry
  cases hexpiry

end TimedWorker

end Phpce
