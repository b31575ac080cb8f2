import Phpce.Lib.Run
import Phpce.Lib.SlotTable
import Phpce.Master.Config
import Phpce.Worker.Scoreboard

/-!
# The master process

What the master does with its children: `fpm_children.c`, which makes and buries them, the process
managers and the state machine of `fpm_process_ctl.c`, the timers of `fpm_events.c`, and the slots
of `fpm_scoreboard.c` that it gives out.

What the system does is an argument: how each attempt to fork a child ends (`SpawnResult`, one for
each attempt), what `waitpid` reports, which signals come and when timers expire. Between two events
of the master a child may write its slot.

The master stops when it calls `execvp` or `exit`.
-/

namespace Phpce

/-! ## The data -/

inductive Signo where
  | sigquit
  | sigterm
  | sigkill
  | sigsegv
  | sigbus
  | other
  deriving DecidableEq, Repr

/-- The states of `fpm_process_ctl.h`. -/
inductive PctlState where
  | normal
  | reloading
  | terminating
  | finishing
  deriving DecidableEq, Repr

inductive PctlAction where
  | set (newState : PctlState)
  | timeout
  | lastChildExited
  deriving DecidableEq, Repr

/-- What calls `fpm_pctl_kill_all`. -/
inductive KillCaller where
  | fpmPctlActionNext
  | fpmLogOpen
  deriving DecidableEq, Repr

structure KillAll where
  state : PctlState
  sig : Signo
  caller : KillCaller
  deriving DecidableEq, Repr

/-- The timers of the master. All but `pctl_event` are persistent. -/
inductive FpmTimer where
  | heartbeat
  | idleServerMaintenance
  | pctl
  deriving DecidableEq, Repr

/-- The end of the process: `fpm_pctl_exec` ends it with another program, or with an error when
`execvp` fails. -/
inductive MasterStatus where
  | running
  | execed
  | exited
  deriving DecidableEq, Repr

structure FpmChild where
  pid : Nat
  started : Nat
  idleKill : Bool
  scoreboardI : Nat
  deriving DecidableEq, Repr

structure WorkerPool where
  config : ValidConfig
  -- `wp->children`, linked at the front
  children : List FpmChild
  runningChildren : Int
  idleSpawnRate : Int
  warnMaxChildren : Bool
  scoreboard : SlotTable ScoreboardProc

structure FpmGlobalConfig where
  processMax : Int
  processControlTimeout : Nat
  emergencyRestartThreshold : Nat
  emergencyRestartInterval : Nat
  -- In milliseconds; 0 without a terminate timeout
  heartbeat : Nat
  deriving DecidableEq, Repr

/-- How an attempt to make a child ends: without the memory or the pipes for it, with the error of
`fork`, or with a child. -/
inductive SpawnResult where
  | noMemory
  | noPipes
  | forkFailed
  | forked (pid : Nat)
  deriving DecidableEq, Repr

/-- What the master has outside its pools: `fpm_globals`, and the static variables. -/
structure MasterGlobals where
  config : FpmGlobalConfig
  runningChildren : Int
  fpmState : PctlState
  fpmSignalSent : Option Signo
  -- `fpm_event_queue_timer`, and when the timers are due, in microseconds
  timerQueue : List FpmTimer
  timeout : FpmTimer → Nat
  clock : Nat
  lastFaults : Option (List Nat)
  fault : Nat
  warned : Bool
  status : MasterStatus
  -- The attempts to make a child so far
  attempts : Nat
  -- The states so far, those in which children were made, and the signals to all children; latest
  -- first
  visited : List PctlState
  created : List PctlState
  killed : List KillAll

structure Master where
  globals : MasterGlobals
  pools : List WorkerPool

/-! ## Timers and the state machine -/

namespace MasterGlobals

/-- `fpm_event_add` for a timer. `fpm_event_queue_add` leaves the queue alone when
`fpm_event_queue_isset` finds the timer in it. -/
def fpmEventAdd (g : MasterGlobals) (timer : FpmTimer) (milliseconds : Nat) : MasterGlobals :=
  { g with
    timeout := Function.update g.timeout timer (g.clock + milliseconds * 1000)
    timerQueue := if timer ∈ g.timerQueue then g.timerQueue else timer :: g.timerQueue }

def fpmPctlTimeoutSet (g : MasterGlobals) (sec : Nat) : MasterGlobals :=
  g.fpmEventAdd .pctl (sec * 1000)

/-- `fpm_pctl_action_last`: `fpm_pctl_exec` or `fpm_pctl_exit`. -/
def fpmPctlActionLast (g : MasterGlobals) : MasterGlobals :=
  match g.fpmState with
  | .reloading => { g with status := .execed }
  | .finishing | .terminating => { g with status := .exited }
  | .normal => g

def fpmPctlKillAll (g : MasterGlobals) (sig : Signo) (caller : KillCaller) : MasterGlobals :=
  { g with killed := ⟨g.fpmState, sig, caller⟩ :: g.killed }

/-- The signal that `fpm_pctl_action_next` sends, and the time it gives the children. -/
def nextSignal (g : MasterGlobals) : Signo × Nat :=
  match g.fpmSignalSent with
  | none =>
      (if g.fpmState = .terminating then .sigterm else .sigquit, g.config.processControlTimeout)
  | some sent => (if sent = .sigquit then .sigterm else .sigkill, 1)

/-- The part of `fpm_pctl_action_next` that sends the signal. -/
def signalChildren (g : MasterGlobals) : MasterGlobals :=
  let next := g.nextSignal
  { g.fpmPctlKillAll next.1 .fpmPctlActionNext with
    fpmSignalSent := some next.1 }.fpmPctlTimeoutSet next.2

def fpmPctlActionNext (g : MasterGlobals) : MasterGlobals :=
  let g := if g.runningChildren = 0 then g.fpmPctlActionLast else g
  if g.status = .running then g.signalChildren else g

/-- Which states a new state overrides. The cases of the switch fall through. -/
def overrides (newState : PctlState) : PctlState → Bool
  | .normal => true
  | .reloading => newState = .finishing || newState = .terminating
  | .finishing => newState = .terminating
  | .terminating => false

def enterState (g : MasterGlobals) (newState : PctlState) : MasterGlobals :=
  { g with fpmSignalSent := none, fpmState := newState, visited := newState :: g.visited }

def fpmPctl (g : MasterGlobals) : PctlAction → MasterGlobals
  | .set newState =>
      if g.fpmState = newState then g
      else if overrides newState g.fpmState then (g.enterState newState).fpmPctlActionNext
      else g
  | .timeout => g.fpmPctlActionNext
  | .lastChildExited => g.fpmPctlActionLast

def fpmPctlCanSpawnChildren (g : MasterGlobals) : Bool := g.fpmState = .normal

def fpmPctlChildExited (g : MasterGlobals) : MasterGlobals :=
  if g.fpmState = .normal then g
  else if g.runningChildren = 0 then g.fpmPctl .lastChildExited
  else g

end MasterGlobals

/-! ## Making children -/

namespace WorkerPool

/-- `fpm_resources_prepare`: the slot for a new child, and the scoreboard that it is taken from. -/
def fpmResourcesPrepare (wp : WorkerPool) : SpawnResult →
    Option (Nat × SlotTable ScoreboardProc)
  | .noMemory | .noPipes => none
  | .forkFailed | .forked _ => wp.scoreboard.alloc .zero

/-- `fpm_child_link` -/
def fpmChildLink (wp : WorkerPool) (child : FpmChild) : WorkerPool :=
  { wp with
    children := child :: wp.children
    runningChildren := wp.runningChildren + 1 }

/-- `fpm_child_unlink` -/
def fpmChildUnlink (wp : WorkerPool) (child : FpmChild) : WorkerPool :=
  { wp with
    children := wp.children.erase child
    runningChildren := wp.runningChildren - 1 }

/-- `fpm_scoreboard_proc_free` -/
def fpmScoreboardProcFree (wp : WorkerPool) (i : Nat) : WorkerPool :=
  { wp with scoreboard := wp.scoreboard.free i }

end WorkerPool

/-- `fpm_children_make` returns 1 when it is done, and 2 on an error. -/
inductive MakeResult where
  | done
  | failed
  deriving DecidableEq, Repr

variable (spawns : Nat → SpawnResult)

/-- The condition of the loop in `fpm_children_make`. -/
def MayFork (g : MasterGlobals) (wp : WorkerPool) (max : Int) : Prop :=
  g.fpmPctlCanSpawnChildren = true ∧ wp.runningChildren < max ∧
    (g.config.processMax < 1 ∨ g.runningChildren < g.config.processMax)

instance (g : MasterGlobals) (wp : WorkerPool) (max : Int) : Decidable (MayFork g wp max) :=
  inferInstanceAs (Decidable (_ ∧ _ ∧ _))

/-- The loop of `fpm_children_make`, up to `fuel` times. -/
def fpmChildrenMakeLoop (max : Int) (g : MasterGlobals) (wp : WorkerPool) :
    Nat → MakeResult × MasterGlobals × WorkerPool
  | 0 => (.done, g, wp)
  | fuel + 1 =>
      if MayFork g wp max then
        let spawn := spawns g.attempts
        let g := { g with warned := false, attempts := g.attempts + 1 }
        match wp.fpmResourcesPrepare spawn with
        | none => (.failed, g, wp)
        | some (i, scoreboard) =>
            match spawn with
            | .forked pid =>
                fpmChildrenMakeLoop max
                  { g with
                    runningChildren := g.runningChildren + 1
                    created := g.fpmState :: g.created }
                  ({ wp with scoreboard := scoreboard }.fpmChildLink ⟨pid, g.clock, false, i⟩) fuel
            | _ => (.failed, g, { wp with scoreboard := scoreboard }.fpmScoreboardProcFree i)
      else (.done, g, wp)

def WorkerPool.maxToMake (wp : WorkerPool) (inEventLoop : Bool) (nbToSpawn : Int) : Int :=
  match wp.config.val.pm with
  | .dynamic =>
      if inEventLoop then wp.runningChildren + nbToSpawn else wp.config.val.pmStartServers
  | .ondemand => if inEventLoop then wp.runningChildren + nbToSpawn else 0
  | .static | .unset => wp.config.val.pmMaxChildren

/-- The warning behind the loop of `fpm_children_make` is given once. -/
def MasterGlobals.warnProcessMax (g : MasterGlobals) (wp : WorkerPool) (max : Int) :
    MasterGlobals :=
  if g.warned = false ∧ 0 < g.config.processMax ∧ g.config.processMax ≤ g.runningChildren ∧
      wp.runningChildren < max then
    { g with warned := true }
  else g

/-- `fpm_children_make`, in the master. -/
def fpmChildrenMake (g : MasterGlobals) (wp : WorkerPool) (inEventLoop : Bool) (nbToSpawn : Int) :
    MakeResult × MasterGlobals × WorkerPool :=
  let max := wp.maxToMake inEventLoop nbToSpawn
  let r := fpmChildrenMakeLoop spawns max g wp (max - wp.runningChildren).toNat
  match r.1 with
  | .done => (.done, r.2.1.warnProcessMax r.2.2 max, r.2.2)
  | .failed => r

/-! ## The process managers -/

namespace WorkerPool

/-- `fpm_request_is_idle`. A child without a slot is not idle. -/
def fpmRequestIsIdle (wp : WorkerPool) (child : FpmChild) : Bool :=
  (wp.scoreboard.value child.scoreboardI).any (·.fpmRequestIsIdle)

def idleChildren (wp : WorkerPool) : List FpmChild := wp.children.filter wp.fpmRequestIsIdle

def lastIdleChild (wp : WorkerPool) : Option FpmChild :=
  wp.idleChildren.foldl
    (fun last child =>
      match last with
      | none => some child
      | some first => if child.started < first.started then some child else some first)
    none

def idleKill (wp : WorkerPool) (child : FpmChild) : WorkerPool :=
  { wp with
    children := wp.children.map fun c => if c = child then { c with idleKill := true } else c }

end WorkerPool

/-- `MIN` -/
def minOf (a b : Int) : Int := if a < b then a else b

theorem minOf_le_right (a b : Int) : minOf a b ≤ b := by
  unfold minOf
  split <;> omega

/-- The body of the loop of `fpm_pctl_perform_idle_server_maintenance`, for one pool. -/
def fpmPctlMaintainPool (g : MasterGlobals) (wp : WorkerPool) : MasterGlobals × WorkerPool :=
  let config := wp.config.val
  let idle : Int := wp.idleChildren.length
  match config.pm with
  | .ondemand =>
      match wp.lastIdleChild with
      | none => (g, wp)
      | some child =>
          let last : Int := ((wp.scoreboard.value child.scoreboardI).elim 0 (·.tv)) / 1000000
          if last < g.clock / 1000000 - config.pmProcessIdleTimeout then (g, wp.idleKill child)
          else (g, wp)
  | .dynamic =>
      match wp.lastIdleChild with
      | some child =>
          if config.pmMaxSpareServers < idle then
            (g, { wp.idleKill child with idleSpawnRate := 1 })
          else spawnSpare idle g wp
      | none => spawnSpare idle g wp
  | .static | .unset => (g, wp)
where
  /-- The part for a pool without too many idle children. -/
  spawnSpare (idle : Int) (g : MasterGlobals) (wp : WorkerPool) : MasterGlobals × WorkerPool :=
    let config := wp.config.val
    if idle < config.pmMinSpareServers then
      let childrenToFork :=
        minOf (minOf wp.idleSpawnRate (config.pmMinSpareServers - idle))
          (config.pmMaxChildren - wp.runningChildren)
      if config.pmMaxChildren ≤ wp.runningChildren ∨ childrenToFork ≤ 0 then
        (g, { wp with warnMaxChildren := true, idleSpawnRate := 1 })
      else
        let r := fpmChildrenMake spawns g { wp with warnMaxChildren := false } true childrenToFork
        (r.2.1,
          if r.2.2.idleSpawnRate < 32 then
            { r.2.2 with idleSpawnRate := r.2.2.idleSpawnRate * 2 }
          else r.2.2)
    else (g, { wp with idleSpawnRate := 1 })

def fpmPctlMaintainPools (g : MasterGlobals) : List WorkerPool → MasterGlobals × List WorkerPool
  | [] => (g, [])
  | wp :: pools =>
      let r := fpmPctlMaintainPool spawns g wp
      let rest := fpmPctlMaintainPools r.1 pools
      (rest.1, r.2 :: rest.2)

/-- `fpm_pctl_on_socket_accept`, for a pool of the ondemand style. -/
def fpmPctlOnSocketAccept (g : MasterGlobals) (wp : WorkerPool) : MasterGlobals × WorkerPool :=
  if wp.config.val.pmMaxChildren ≤ wp.runningChildren then
    (g, { wp with warnMaxChildren := true })
  else if wp.children.any wp.fpmRequestIsIdle then (g, wp)
  else (fpmChildrenMake spawns g { wp with warnMaxChildren := false } true 1).2

/-! ## Burying children -/

/-- What `waitpid` tells of a child. -/
inductive WaitStatus where
  | exited (code : Nat)
  | signaled (sig : Signo)
  | stopped
  deriving DecidableEq, Repr

namespace MasterGlobals

/-- The child is to be replaced, unless the process manager has told it to quit. -/
def restartChild (child : FpmChild) : WaitStatus → Bool
  | .exited _ => !child.idleKill
  | .signaled sig => !(child.idleKill && sig = .sigquit)
  | .stopped => false

/-- `last_faults[fault++] = now` -/
def recordFault (g : MasterGlobals) (faults : List Nat) : MasterGlobals :=
  { g with
    lastFaults := some (faults.set g.fault (g.clock / 1000000))
    fault := if g.fault + 1 = g.config.emergencyRestartThreshold then 0 else g.fault + 1 }

/-- The last faults are all within `emergency_restart_interval`. -/
def manyFaults (g : MasterGlobals) : Bool :=
  g.lastFaults.any fun faults =>
    faults.all fun t => g.clock / 1000000 - t ≤ g.config.emergencyRestartInterval

/-- The emergency restart: a child has crashed, and so have enough others. -/
def emergencyRestart (g : MasterGlobals) (status : WaitStatus) : MasterGlobals :=
  match g.lastFaults with
  | none => g
  | some faults =>
      if status = .signaled .sigsegv ∨ status = .signaled .sigbus then
        let g := g.recordFault faults
        if g.manyFaults then g.fpmPctl (.set .reloading) else g
      else g

/-- What the end of a child does outside its pool. -/
def childExited (g : MasterGlobals) (status : WaitStatus) : MasterGlobals :=
  let g := { g with runningChildren := g.runningChildren - 1 }.fpmPctlChildExited
  if g.status = .running then g.emergencyRestart status else g

end MasterGlobals

/-- The pool in which `fpm_child_find` finds the child, with the pools before and behind it. -/
def splitAtPid (pid : Nat) : List WorkerPool →
    Option (List WorkerPool × WorkerPool × FpmChild × List WorkerPool)
  | [] => none
  | wp :: pools =>
      match wp.children.find? fun child => child.pid = pid with
      | some child => some ([], wp, child, pools)
      | none =>
          (splitAtPid pid pools).map fun (before, found, child, behind) =>
            (wp :: before, found, child, behind)

namespace Master

/-- One turn of the loop of `fpm_children_bury`. -/
def fpmChildBury (m : Master) (pid : Nat) (status : WaitStatus) : Master :=
  if status = .stopped then m
  else
    match splitAtPid pid m.pools with
    | none => m
    | some (before, wp, child, behind) =>
        let wp := (wp.fpmChildUnlink child).fpmScoreboardProcFree child.scoreboardI
        let g := m.globals.childExited status
        if g.status = .running ∧ MasterGlobals.restartChild child status = true then
          let r := fpmChildrenMake spawns g wp true 1
          ⟨r.2.1, before ++ r.2.2 :: behind⟩
        else ⟨g, before ++ wp :: behind⟩

/-- `fpm_children_bury`, with what the calls of `waitpid` report. -/
def fpmChildrenBury (m : Master) : List (Nat × WaitStatus) → Master
  | [] => m
  | (pid, status) :: reports =>
      if m.globals.status = .running then
        (m.fpmChildBury spawns pid status).fpmChildrenBury reports
      else m

/-! ## The event loop -/

/-- What a timer's callback does. `fpm_pctl_heartbeat` only signals to single children. -/
def fpmEventFire (m : Master) : FpmTimer → Master
  | .heartbeat => m
  | .idleServerMaintenance =>
      if m.globals.fpmPctlCanSpawnChildren then
        let r := fpmPctlMaintainPools spawns m.globals m.pools
        ⟨r.1, r.2⟩
      else m
  | .pctl => { m with globals := m.globals.fpmPctl .timeout }

/-- A timer is due: its event is fired, then it is set again if it is persistent, and taken out of
the queue otherwise. -/
def fpmEventExpire (m : Master) (timer : FpmTimer) : Master :=
  let now := m.globals.clock
  let m := m.fpmEventFire spawns timer
  if m.globals.status = .running then
    { m with
      globals :=
        match timer with
        | .pctl => { m.globals with timerQueue := m.globals.timerQueue.erase .pctl }
        | .heartbeat =>
            { m.globals with
              timeout := Function.update m.globals.timeout timer
                (now + max m.globals.config.heartbeat 130 * 1000) }
        | .idleServerMaintenance =>
            { m.globals with
              timeout := Function.update m.globals.timeout timer (now + 1000 * 1000) } }
  else m

end Master

/-- The characters that the signal handler sends to the event loop, without the one of `SIGCHLD`.
The calls of `open` for the access logs succeed or fail. -/
inductive MasterSignal where
  | sigint
  | sigterm
  | sigquit
  | sigusr1 (opened : List Bool)
  | sigusr2
  deriving DecidableEq, Repr

namespace MasterGlobals

/-- `fpm_log_open(1)`, up to the first access log that cannot be opened. All children are told to
quit for each log that can. -/
def fpmLogOpen (g : MasterGlobals) : List WorkerPool → List Bool → MasterGlobals
  | [], _ => g
  | wp :: pools, opened =>
      match wp.config.val.accessLog, opened with
      | none, opened => fpmLogOpen g pools opened
      | some _, true :: opened => fpmLogOpen (g.fpmPctlKillAll .sigquit .fpmLogOpen) pools opened
      | some _, _ => g

/-- `fpm_got_signal` -/
def fpmGotSignal (g : MasterGlobals) (pools : List WorkerPool) : MasterSignal → MasterGlobals
  | .sigint | .sigterm => g.fpmPctl (.set .terminating)
  | .sigquit => g.fpmPctl (.set .finishing)
  | .sigusr1 opened => g.fpmLogOpen pools opened
  | .sigusr2 => g.fpmPctl (.set .reloading)

end MasterGlobals

/-- An event of the master's loop, a child that writes its slot, or time that passes. -/
inductive MasterEvent where
  | signal (s : MasterSignal)
  | sigchld (reports : List (Nat × WaitStatus))
  | expire (timer : FpmTimer)
  | socketAccept (pool : Nat)
  | hook (pool slot : Nat) (proc : ScoreboardProc)
  | elapse (n : Nat)
  deriving DecidableEq, Repr

namespace Master

/-- The pool with this number is replaced, and what is outside the pools. -/
def onPool (m : Master) (f : MasterGlobals → WorkerPool → MasterGlobals × WorkerPool)
    (pool : Nat) : Option Master :=
  (m.pools[pool]?).map fun wp =>
    let r := f m.globals wp
    ⟨r.1, m.pools.set pool r.2⟩

def step (m : Master) (e : MasterEvent) : Option Master :=
  if m.globals.status = .running then
    match e with
    | .signal s => some { m with globals := m.globals.fpmGotSignal m.pools s }
    | .sigchld reports => some (m.fpmChildrenBury spawns reports)
    | .expire timer =>
        if timer ∈ m.globals.timerQueue ∧ m.globals.timeout timer ≤ m.globals.clock then
          some (m.fpmEventExpire spawns timer)
        else none
    | .socketAccept pool =>
        m.onPool
          (fun g wp =>
            if wp.config.val.pm = .ondemand then fpmPctlOnSocketAccept spawns g wp else (g, wp))
          pool
    | .hook pool slot proc =>
        m.onPool
          (fun g wp => (g, { wp with scoreboard := wp.scoreboard.update slot fun _ => proc }))
          pool
    | .elapse n => some { m with globals := { m.globals with clock := m.globals.clock + n } }
  else none

end Master

/-! ## The start -/

/-- `fpm_worker_pool_alloc`, with the scoreboard of `fpm_scoreboard_init_main`. -/
def fpmWorkerPoolAlloc (config : ValidConfig) : WorkerPool where
  config := config
  children := []
  runningChildren := 0
  idleSpawnRate := 1
  warnMaxChildren := false
  scoreboard := .empty config.val.pmMaxChildren.toNat

/-- `fpm_globals` after `fpm_init`. -/
def fpmInit (config : FpmGlobalConfig) : MasterGlobals where
  config := config
  runningChildren := 0
  fpmState := .normal
  fpmSignalSent := none
  timerQueue := []
  timeout := fun _ => 0
  clock := 0
  lastFaults :=
    if config.emergencyRestartThreshold ≠ 0 ∧ config.emergencyRestartInterval ≠ 0 then
      some (List.replicate config.emergencyRestartThreshold 0)
    else none
  fault := 0
  warned := false
  status := .running
  attempts := 0
  visited := [.normal]
  created := []
  killed := []

/-- `fpm_children_create_initial`. A pool of the ondemand style waits for connections. -/
def fpmChildrenCreateInitial (g : MasterGlobals) (wp : WorkerPool) :
    MakeResult × MasterGlobals × WorkerPool :=
  if wp.config.val.pm = .ondemand then (.done, g, wp) else fpmChildrenMake spawns g wp false 0

/-- The loop of `fpm_run`, up to the first pool whose children cannot be made. -/
def fpmRunLoop (g : MasterGlobals) : List WorkerPool → MakeResult × MasterGlobals × List WorkerPool
  | [] => (.done, g, [])
  | wp :: pools =>
      let r := fpmChildrenCreateInitial spawns g wp
      match r.1 with
      | .failed => (.failed, r.2.1.fpmPctl (.set .terminating), r.2.2 :: pools)
      | .done =>
          let rest := fpmRunLoop r.2.1 pools
          (rest.1, rest.2.1, r.2.2 :: rest.2.2)

/-- The timers that `fpm_event_loop` starts with. -/
def MasterGlobals.startTimers (g : MasterGlobals) (err : Bool) : MasterGlobals :=
  let g :=
    if 0 < g.config.heartbeat then g.fpmEventAdd .heartbeat (max g.config.heartbeat 130) else g
  if err then g else g.fpmEventAdd .idleServerMaintenance 1000

/-- `fpm_run`, up to the event loop. -/
def fpmRun (config : FpmGlobalConfig) (pools : List ValidConfig) : Master :=
  let r := fpmRunLoop spawns (fpmInit config) (pools.map fpmWorkerPoolAlloc)
  ⟨r.2.1.startTimers (r.1 = .failed), r.2.2⟩

def masterSystem : EventSystem Master MasterEvent where
  step := Master.step spawns

end Phpce
