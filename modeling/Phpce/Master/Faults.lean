import Phpce.Lib.Ring
import Phpce.Master.Accounting

/-!
# The emergency restart

`fpm_children_bury` keeps the times of the last faults in a ring that starts with zeros, and asks
for a reload when all of them are within the interval.

* **`Recorded.manyFaults_iff`** — as long as there have not been as many faults as the threshold,
  the zeros count as faults at the time 0.
* **`requestsReload_iff`** — in every run of the master: when a request is made for as many faults.
-/

namespace Phpce

open Option List

variable {g g' g'' : MasterGlobals} {m : Master} {wp : WorkerPool} {pools : List WorkerPool}
  {crashes : List Nat} {config : FpmGlobalConfig}

/-! ## What leaves the faults alone -/

/-- Nothing is recorded, and time may pass. -/
structure MasterGlobals.KeepsFaults (g g' : MasterGlobals) : Prop where
  config : g'.config = g.config
  lastFaults : g'.lastFaults = g.lastFaults
  fault : g'.fault = g.fault
  clock_le : g.clock ≤ g'.clock

namespace MasterGlobals

theorem KeepsFaults.refl (g : MasterGlobals) : g.KeepsFaults g :=
  ⟨rfl, rfl, rfl, Nat.le_refl _⟩

theorem KeepsFaults.trans (h : g.KeepsFaults g') (h' : g'.KeepsFaults g'') : g.KeepsFaults g'' :=
  ⟨h'.config.trans h.config, h'.lastFaults.trans h.lastFaults, h'.fault.trans h.fault,
    Nat.le_trans h.clock_le h'.clock_le⟩

theorem keepsFaults_actionLast (g : MasterGlobals) : g.KeepsFaults g.fpmPctlActionLast := by
  unfold fpmPctlActionLast
  split
  · exact ⟨rfl, rfl, rfl, Nat.le_refl _⟩
  · exact ⟨rfl, rfl, rfl, Nat.le_refl _⟩
  · exact ⟨rfl, rfl, rfl, Nat.le_refl _⟩
  · exact .refl g

theorem keepsFaults_signalChildren (g : MasterGlobals) : g.KeepsFaults g.signalChildren :=
  ⟨rfl, rfl, rfl, Nat.le_refl _⟩

theorem keepsFaults_actionNext (g : MasterGlobals) : g.KeepsFaults g.fpmPctlActionNext := by
  have hlast : g.KeepsFaults (if g.runningChildren = 0 then g.fpmPctlActionLast else g) := by
    split
    · exact keepsFaults_actionLast g
    · exact .refl g
  unfold fpmPctlActionNext
  dsimp only
  generalize (if g.runningChildren = 0 then g.fpmPctlActionLast else g) = g' at hlast ⊢
  split
  · exact hlast.trans (keepsFaults_signalChildren _)
  · exact hlast

theorem keepsFaults_pctl (g : MasterGlobals) (action : PctlAction) :
    g.KeepsFaults (g.fpmPctl action) := by
  cases action with
  | set newState =>
    rw [fpmPctl]
    split
    · exact .refl g
    · split
      · have henter : g.KeepsFaults (g.enterState newState) := ⟨rfl, rfl, rfl, Nat.le_refl _⟩
        exact henter.trans (keepsFaults_actionNext _)
      · exact .refl g
  | timeout => exact keepsFaults_actionNext g
  | lastChildExited => exact keepsFaults_actionLast g

theorem keepsFaults_childExited (g : MasterGlobals) : g.KeepsFaults g.fpmPctlChildExited := by
  unfold fpmPctlChildExited
  split
  · exact .refl g
  · split
    · exact keepsFaults_pctl g .lastChildExited
    · exact .refl g

theorem keepsFaults_logOpen (g : MasterGlobals) (pools : List WorkerPool) (opened : List Bool) :
    g.KeepsFaults (g.fpmLogOpen pools opened) := by
  -- induction on the pools
  induction pools generalizing g opened with
  | nil => exact .refl g
  | cons wp pools ih =>
    unfold fpmLogOpen
    split
    · exact ih g _
    · have hkill : g.KeepsFaults (g.fpmPctlKillAll .sigquit .fpmLogOpen) :=
        ⟨rfl, rfl, rfl, Nat.le_refl _⟩
      exact hkill.trans (ih _ _)
    · exact .refl g

theorem keepsFaults_gotSignal (g : MasterGlobals) (pools : List WorkerPool) (s : MasterSignal) :
    g.KeepsFaults (g.fpmGotSignal pools s) := by
  cases s with
  | sigint => exact keepsFaults_pctl g (.set .terminating)
  | sigterm => exact keepsFaults_pctl g (.set .terminating)
  | sigquit => exact keepsFaults_pctl g (.set .finishing)
  | sigusr1 opened => exact keepsFaults_logOpen g pools opened
  | sigusr2 => exact keepsFaults_pctl g (.set .reloading)

end MasterGlobals

section Making

variable (spawns : Nat → SpawnResult)

theorem keepsFaults_childrenMakeLoop (max : Int) (g : MasterGlobals) (wp : WorkerPool)
    (fuel : Nat) : g.KeepsFaults (fpmChildrenMakeLoop spawns max g wp fuel).2.1 := by
  -- induction on the number of turns
  induction fuel generalizing g wp with
  | zero => exact .refl g
  | succ fuel ih =>
    rw [fpmChildrenMakeLoop]
    split
    · dsimp only
      split
      · exact ⟨rfl, rfl, rfl, Nat.le_refl _⟩
      · split
        · have hmade : g.KeepsFaults
              { g with
                warned := false
                attempts := g.attempts + 1
                runningChildren := g.runningChildren + 1
                created := g.fpmState :: g.created } := ⟨rfl, rfl, rfl, Nat.le_refl _⟩
          exact hmade.trans (ih _ _)
        · exact ⟨rfl, rfl, rfl, Nat.le_refl _⟩
    · exact .refl g

theorem keepsFaults_childrenMake (g : MasterGlobals) (wp : WorkerPool) (inEventLoop : Bool)
    (nbToSpawn : Int) :
    g.KeepsFaults (fpmChildrenMake spawns g wp inEventLoop nbToSpawn).2.1 := by
  have hloop := keepsFaults_childrenMakeLoop spawns (wp.maxToMake inEventLoop nbToSpawn) g wp
    (wp.maxToMake inEventLoop nbToSpawn - wp.runningChildren).toNat
  unfold fpmChildrenMake
  dsimp only
  split
  · refine hloop.trans ?_
    unfold MasterGlobals.warnProcessMax
    split
    · exact ⟨rfl, rfl, rfl, Nat.le_refl _⟩
    · exact .refl _
  · exact hloop

theorem keepsFaults_spawnSpare (idle : Int) (g : MasterGlobals) (wp : WorkerPool) :
    g.KeepsFaults (fpmPctlMaintainPool.spawnSpare spawns idle g wp).1 := by
  unfold fpmPctlMaintainPool.spawnSpare
  dsimp only
  split
  · split
    · exact .refl g
    · exact keepsFaults_childrenMake spawns g _ _ _
  · exact .refl g

theorem keepsFaults_maintainPool (g : MasterGlobals) (wp : WorkerPool) :
    g.KeepsFaults (fpmPctlMaintainPool spawns g wp).1 := by
  unfold fpmPctlMaintainPool
  dsimp only
  split
  · split
    · exact .refl g
    · split
      · exact .refl g
      · exact .refl g
  · split
    · split
      · exact .refl g
      · exact keepsFaults_spawnSpare spawns _ g wp
    · exact keepsFaults_spawnSpare spawns _ g wp
  · exact .refl g
  · exact .refl g

theorem keepsFaults_maintainPools (g : MasterGlobals) (pools : List WorkerPool) :
    g.KeepsFaults (fpmPctlMaintainPools spawns g pools).1 := by
  -- induction on the pools
  induction pools generalizing g with
  | nil => exact .refl g
  | cons wp pools ih => exact (keepsFaults_maintainPool spawns g wp).trans (ih _)

theorem keepsFaults_onSocketAccept (g : MasterGlobals) (wp : WorkerPool) :
    g.KeepsFaults (fpmPctlOnSocketAccept spawns g wp).1 := by
  unfold fpmPctlOnSocketAccept
  split
  · exact .refl g
  · split
    · exact .refl g
    · exact keepsFaults_childrenMake spawns g _ _ _

theorem keepsFaults_eventExpire (m : Master) (timer : FpmTimer) :
    m.globals.KeepsFaults (m.fpmEventExpire spawns timer).globals := by
  have hfire : m.globals.KeepsFaults (m.fpmEventFire spawns timer).globals := by
    cases timer with
    | heartbeat => exact .refl _
    | idleServerMaintenance =>
      unfold Master.fpmEventFire
      dsimp only
      split
      · exact keepsFaults_maintainPools spawns m.globals m.pools
      · exact .refl _
    | pctl => exact MasterGlobals.keepsFaults_pctl m.globals .timeout
  unfold Master.fpmEventExpire
  dsimp only
  split
  · refine hfire.trans ?_
    cases timer <;> exact ⟨rfl, rfl, rfl, Nat.le_refl _⟩
  · exact hfire

theorem keepsFaults_runLoop (g : MasterGlobals) (pools : List WorkerPool) :
    g.KeepsFaults (fpmRunLoop spawns g pools).2.1 := by
  -- induction on the pools
  induction pools generalizing g with
  | nil => exact .refl g
  | cons wp pools ih =>
    have hcreate : g.KeepsFaults (fpmChildrenCreateInitial spawns g wp).2.1 := by
      unfold fpmChildrenCreateInitial
      split
      · exact .refl g
      · exact keepsFaults_childrenMake spawns g _ _ _
    rw [fpmRunLoop]
    dsimp only
    split
    · exact hcreate.trans (MasterGlobals.keepsFaults_pctl _ (.set .terminating))
    · exact hcreate.trans (ih _)

end Making

/-! ## The ring of faults -/

/-- The ring holds the times of the crashes, which come with the latest one first. -/
structure MasterGlobals.Recorded (config : FpmGlobalConfig) (crashes : List Nat)
    (g : MasterGlobals) : Prop where
  config : g.config = config
  latest : ∃ faults, g.lastFaults = some faults ∧
    faults.length = g.config.emergencyRestartThreshold ∧ Ring.Latest faults g.fault 0 crashes
  le_clock : ∀ t ∈ crashes, t ≤ g.clock / 1000000
  sorted : crashes.Pairwise (· ≥ ·)

def MasterGlobals.recent (g : MasterGlobals) (crashes : List Nat) : List Nat :=
  crashes.filter fun t => g.clock / 1000000 - t ≤ g.config.emergencyRestartInterval

namespace MasterGlobals

theorem Recorded.keeps (h : g.Recorded config crashes) (hkeeps : g.KeepsFaults g') :
    g'.Recorded config crashes := by
  refine ⟨hkeeps.config.trans h.config, ?_, ?_, h.sorted⟩
  · rw [hkeeps.lastFaults, hkeeps.fault, hkeeps.config]
    exact h.latest
  · intro t ht
    exact (h.le_clock t ht).trans (Nat.div_le_div_right hkeeps.clock_le)

theorem Recorded.record (h : g.Recorded config crashes) {faults : List Nat}
    (hfaults : g.lastFaults = some faults) :
    (g.recordFault faults).Recorded config (g.clock / 1000000 :: crashes) := by
  obtain ⟨faults', hfaults', hlen, hlatest⟩ := h.latest
  obtain rfl : faults = faults' := some.inj (hfaults.symm.trans hfaults')
  refine ⟨h.config, ⟨_, rfl, ?_, ?_⟩, ?_, ?_⟩
  · rw [length_set]
    exact hlen
  · have hset := hlatest.set (g.clock / 1000000)
    rw [Ring.next, hlen] at hset
    exact hset
  · exact forall_mem_cons.mpr ⟨Nat.le_refl _, h.le_clock⟩
  · exact pairwise_cons.mpr ⟨h.le_clock, h.sorted⟩

theorem Recorded.manyFaults_iff (h : g.Recorded config crashes) :
    (g.manyFaults = true ↔ g.config.emergencyRestartThreshold ≤ (g.recent crashes).length) ↔
      (g.config.emergencyRestartThreshold ≤ crashes.length ∨
        g.config.emergencyRestartInterval < g.clock / 1000000) := by
  obtain ⟨faults, hfaults, hlen, hlatest⟩ := h.latest
  have hmany : g.manyFaults = true ↔
      ∀ t ∈ (crashes ++ List.replicate g.config.emergencyRestartThreshold 0).take
        g.config.emergencyRestartThreshold,
        g.clock / 1000000 - t ≤ g.config.emergencyRestartInterval := by
    rw [manyFaults, hfaults, any_some, List.all_eq_true, ← hlen]
    simp only [decide_eq_true_eq]
    exact hlatest.forall_iff
  rw [hmany]
  by_cases henough : g.config.emergencyRestartThreshold ≤ crashes.length
  · -- the zeros have all been overwritten
    rw [take_append_of_le_length henough]
    have hcount := @Ring.forall_take_iff_le_length_filter _ crashes
      (fun t => g.clock / 1000000 - t ≤ g.config.emergencyRestartInterval)
      g.config.emergencyRestartThreshold
      (h.sorted.imp fun hle => by simp only [decide_eq_true_eq]; omega) henough
    simp only [decide_eq_true_eq] at hcount
    exact iff_of_true hcount (Or.inl henough)
  · have hfew : ¬g.config.emergencyRestartThreshold ≤ (g.recent crashes).length := by
      have := length_filter_le
        (fun t => decide (g.clock / 1000000 - t ≤ g.config.emergencyRestartInterval)) crashes
      unfold recent
      omega
    rw [iff_false_right hfew, or_iff_right henough]
    constructor
    · intro hold
      by_contra hclock
      refine hold ?_
      intro t _
      omega
    · intro hclock hall
      have hzero : 0 ∈ (crashes ++ List.replicate g.config.emergencyRestartThreshold 0).take
          g.config.emergencyRestartThreshold := by
        rw [take_append, take_of_length_le (by omega), take_replicate]
        refine mem_append_right _ (mem_replicate.mpr ⟨?_, rfl⟩)
        omega
      have := hall 0 hzero
      omega

end MasterGlobals

/-! ## Crashes -/

namespace Master

/-- What the master has outside its pools when `fpm_children_bury` comes to the faults. -/
def atFaults (m : Master) : MasterGlobals :=
  { m.globals with runningChildren := m.globals.runningChildren - 1 }.fpmPctlChildExited

/-- `fpm_children_bury` has found a child that was killed by `SIGSEGV` or `SIGBUS`. -/
def buriesCrash (m : Master) (pid : Nat) (status : WaitStatus) : Bool :=
  m.globals.status = .running && (status = .signaled .sigsegv || status = .signaled .sigbus) &&
    (splitAtPid pid m.pools).isSome && m.atFaults.status = .running

/-- It asks `fpm_pctl` to reload. -/
def requestsReload (m : Master) : Bool :=
  m.atFaults.lastFaults.any fun faults => (m.atFaults.recordFault faults).manyFaults

theorem keepsFaults_atFaults (m : Master) : m.globals.KeepsFaults m.atFaults := by
  have hgone : m.globals.KeepsFaults
      { m.globals with runningChildren := m.globals.runningChildren - 1 } :=
    ⟨rfl, rfl, rfl, Nat.le_refl _⟩
  exact hgone.trans (MasterGlobals.keepsFaults_childExited _)

theorem clock_atFaults (m : Master) : m.atFaults.clock = m.globals.clock := by
  unfold atFaults MasterGlobals.fpmPctlChildExited
  split
  · rfl
  · split
    · unfold MasterGlobals.fpmPctl MasterGlobals.fpmPctlActionLast
      dsimp only
      split <;> rfl
    · rfl

theorem childExited_of_crash {pid : Nat} {status : WaitStatus} {faults : List Nat}
    (hcrash : m.buriesCrash pid status = true) (hfaults : m.atFaults.lastFaults = some faults) :
    m.globals.childExited status =
      if m.requestsReload then (m.atFaults.recordFault faults).fpmPctl (.set .reloading)
      else m.atFaults.recordFault faults := by
  simp only [buriesCrash, Bool.and_eq_true, Bool.or_eq_true, decide_eq_true_eq] at hcrash
  obtain ⟨⟨⟨_, hstatus⟩, _⟩, hrunning⟩ := hcrash
  have hrequests : m.requestsReload = (m.atFaults.recordFault faults).manyFaults := by
    rw [requestsReload, hfaults, any_some]
  unfold MasterGlobals.childExited
  rw [hrequests]
  change (if m.atFaults.status = .running then m.atFaults.emergencyRestart status
    else m.atFaults) = _
  rw [if_pos hrunning, MasterGlobals.emergencyRestart, hfaults]
  dsimp only
  rw [if_pos hstatus]

theorem recorded_childExited {pid : Nat} {status : WaitStatus}
    (h : m.globals.Recorded config crashes) (hrunning : m.globals.status = .running)
    (hfound : (splitAtPid pid m.pools).isSome = true) :
    (m.globals.childExited status).Recorded config
      (if m.buriesCrash pid status then m.globals.clock / 1000000 :: crashes else crashes) := by
  have hat := h.keeps (keepsFaults_atFaults m)
  obtain ⟨faults, hfaults, _⟩ := hat.latest
  split
  · rename_i hcrash
    have hrecord := hat.record hfaults
    rw [clock_atFaults] at hrecord
    rw [childExited_of_crash hcrash hfaults]
    split
    · exact hrecord.keeps (MasterGlobals.keepsFaults_pctl _ _)
    · exact hrecord
  · rename_i hcrash
    have hkeeps : m.atFaults.KeepsFaults (m.globals.childExited status) := by
      unfold MasterGlobals.childExited
      change m.atFaults.KeepsFaults
        (if m.atFaults.status = .running then m.atFaults.emergencyRestart status else m.atFaults)
      split
      · rename_i hgoes
        have hstatus : ¬(status = .signaled .sigsegv ∨ status = .signaled .sigbus) := by
          intro hstatus
          refine hcrash ?_
          simp only [buriesCrash, Bool.and_eq_true, Bool.or_eq_true, decide_eq_true_eq]
          exact ⟨⟨⟨hrunning, hstatus⟩, hfound⟩, hgoes⟩
        rw [MasterGlobals.emergencyRestart, hfaults]
        dsimp only
        rw [if_neg hstatus]
        exact .refl _
      · exact .refl _
    exact hat.keeps hkeeps

end Master

/-- A master, and when the crashes were of which it has been told, the latest first. -/
structure Watch where
  master : Master
  crashes : List Nat

namespace Watch

variable (spawns : Nat → SpawnResult)

/-- One turn of the loop of `fpm_children_bury`. -/
def bury (w : Watch) (pid : Nat) (status : WaitStatus) : Watch where
  master := w.master.fpmChildBury spawns pid status
  crashes :=
    if w.master.buriesCrash pid status then w.master.globals.clock / 1000000 :: w.crashes
    else w.crashes

def buryAll (w : Watch) : List (Nat × WaitStatus) → Watch
  | [] => w
  | (pid, status) :: reports =>
      if w.master.globals.status = .running then (w.bury spawns pid status).buryAll reports
      else w

def step (w : Watch) : MasterEvent → Option Watch
  | .sigchld reports =>
      if w.master.globals.status = .running then some (w.buryAll spawns reports) else none
  | e => (w.master.step spawns e).map fun m => ⟨m, w.crashes⟩

variable {spawns} {w w' : Watch}

theorem recorded_bury (h : w.master.globals.Recorded config w.crashes)
    (hrunning : w.master.globals.status = .running) (pid : Nat) (status : WaitStatus) :
    (w.bury spawns pid status).master.globals.Recorded config
      (w.bury spawns pid status).crashes := by
  unfold bury Master.fpmChildBury
  dsimp only
  by_cases hstopped : status = .stopped
  · have hcrash : w.master.buriesCrash pid status = false := by
      subst hstopped
      simp only [Master.buriesCrash, reduceCtorEq, decide_false, Bool.or_false, Bool.and_false,
        Bool.false_and]
    rw [if_pos hstopped, hcrash, if_neg Bool.false_ne_true]
    exact h
  · rw [if_neg hstopped]
    cases hsplit : splitAtPid pid w.master.pools with
    | none =>
      have hcrash : w.master.buriesCrash pid status = false := by
        rw [Master.buriesCrash, hsplit, isSome_none, Bool.and_false, Bool.false_and]
      rw [hcrash, if_neg Bool.false_ne_true]
      exact h
    | some found =>
      obtain ⟨before, wp, child, behind⟩ := found
      have hfound : (splitAtPid pid w.master.pools).isSome = true := by
        rw [hsplit]
        rfl
      have hexited := @Master.recorded_childExited _ _ _ pid status h hrunning hfound
      generalize (if w.master.buriesCrash pid status then _ else _) = crashes at hexited ⊢
      dsimp only
      split
      · exact hexited.keeps (keepsFaults_childrenMake spawns _ _ _ _)
      · exact hexited

theorem recorded_buryAll (h : w.master.globals.Recorded config w.crashes)
    (reports : List (Nat × WaitStatus)) :
    (w.buryAll spawns reports).master.globals.Recorded config
      (w.buryAll spawns reports).crashes := by
  -- induction on the reports
  induction reports generalizing w with
  | nil => exact h
  | cons report reports ih =>
    rw [buryAll]
    split
    · rename_i hrunning
      exact ih (recorded_bury h hrunning report.1 report.2)
    · exact h

theorem keepsFaults_step {m m' : Master} {e : MasterEvent}
    (he : ∀ reports, e ≠ .sigchld reports) (hstep : m.step spawns e = some m') :
    m.globals.KeepsFaults m'.globals := by
  have hpool : ∀ f pool, (∀ wp, m.globals.KeepsFaults (f m.globals wp).1) →
      m.onPool f pool = some m' → m.globals.KeepsFaults m'.globals := by
    intro f pool hf hstep
    obtain ⟨wp, _, rfl⟩ := map_eq_some_iff.mp hstep
    exact hf wp
  unfold Master.step at hstep
  split at hstep
  · cases e with
    | signal s =>
      obtain rfl := some.inj hstep
      exact MasterGlobals.keepsFaults_gotSignal _ _ s
    | sigchld reports => exact absurd rfl (he reports)
    | expire timer =>
      dsimp only at hstep
      split at hstep
      · obtain rfl := some.inj hstep
        exact keepsFaults_eventExpire spawns m timer
      · cases hstep
    | socketAccept pool =>
      refine hpool _ pool ?_ hstep
      intro wp
      split
      · exact keepsFaults_onSocketAccept spawns _ wp
      · exact .refl _
    | hook pool slot proc => exact hpool _ pool (fun _ => .refl _) hstep
    | elapse n =>
      obtain rfl := some.inj hstep
      exact ⟨rfl, rfl, rfl, Nat.le_add_right _ _⟩
  · cases hstep

theorem recorded_step {e : MasterEvent} (h : w.master.globals.Recorded config w.crashes)
    (hstep : w.step spawns e = some w') : w'.master.globals.Recorded config w'.crashes := by
  have hother : (∀ reports, e ≠ .sigchld reports) →
      ((w.master.step spawns e).map fun m => (⟨m, w.crashes⟩ : Watch)) = some w' →
      w'.master.globals.Recorded config w'.crashes := by
    intro he hstep
    obtain ⟨m', hm', rfl⟩ := map_eq_some_iff.mp hstep
    exact h.keeps (keepsFaults_step he hm')
  cases e with
  | sigchld reports =>
    rw [step] at hstep
    split at hstep
    · obtain rfl := some.inj hstep
      exact recorded_buryAll h reports
    · cases hstep
  | signal s => exact hother (by rintro _ ⟨⟩) hstep
  | expire timer => exact hother (by rintro _ ⟨⟩) hstep
  | socketAccept pool => exact hother (by rintro _ ⟨⟩) hstep
  | hook pool slot proc => exact hother (by rintro _ ⟨⟩) hstep
  | elapse n => exact hother (by rintro _ ⟨⟩) hstep

theorem recorded_run (spawns : Nat → SpawnResult)
    (configs : List ValidConfig) (hthreshold : 1 ≤ config.emergencyRestartThreshold)
    (hinterval : 1 ≤ config.emergencyRestartInterval) :
    (fpmRun spawns config configs).globals.Recorded config [] := by
  have hinit : (fpmInit config).Recorded config [] := by
    refine ⟨rfl, ⟨List.replicate config.emergencyRestartThreshold 0, ?_, length_replicate,
      Ring.latest_replicate hthreshold 0⟩, by simp, List.Pairwise.nil⟩
    exact if_pos ⟨by omega, by omega⟩
  have hloop := hinit.keeps
    (keepsFaults_runLoop spawns (fpmInit config) (configs.map fpmWorkerPoolAlloc))
  refine hloop.keeps ?_
  unfold fpmRun MasterGlobals.startTimers
  dsimp only
  split <;> split <;> exact ⟨rfl, rfl, rfl, Nat.le_refl _⟩

end Watch

def watchSystem (spawns : Nat → SpawnResult) : EventSystem Watch MasterEvent where
  step := Watch.step spawns

/-- **When `fpm_children_bury` asks for a reload** because of as many crashes within the interval as
the threshold says. -/
theorem requestsReload_iff (spawns : Nat → SpawnResult) {configs : List ValidConfig}
    (hthreshold : 1 ≤ config.emergencyRestartThreshold)
    (hinterval : 1 ≤ config.emergencyRestartInterval) {es : List MasterEvent} {w w' : Watch}
    (h : (watchSystem spawns).FreeRun ⟨fpmRun spawns config configs, []⟩ es w)
    {reports : List (Nat × WaitStatus)} (hreports : w.buryAll spawns reports = w') {pid : Nat}
    {status : WaitStatus} (hcrash : w'.master.buriesCrash pid status = true) :
    (w'.master.requestsReload = true ↔ config.emergencyRestartThreshold ≤
        (w'.master.globals.recent (w'.bury spawns pid status).crashes).length) ↔
      (config.emergencyRestartThreshold ≤ (w'.bury spawns pid status).crashes.length ∨
        config.emergencyRestartInterval < w'.master.globals.clock / 1000000) := by
  have hw : w.master.globals.Recorded config w.crashes := by
    have hpres : ∀ (w : Watch) (e : MasterEvent) (w' : Watch),
        w.master.globals.Recorded config w.crashes → True →
        (watchSystem spawns).step w e = some w' → w'.master.globals.Recorded config w'.crashes :=
      fun _ _ _ h _ hstep => Watch.recorded_step h hstep
    exact h.invariant hpres (Watch.recorded_run spawns configs hthreshold hinterval)
  have hw' := @Watch.recorded_buryAll _ spawns _ hw reports
  rw [hreports] at hw'
  have hat := hw'.keeps w'.master.keepsFaults_atFaults
  obtain ⟨faults, hfaults, _⟩ := hat.latest
  have hrecord := hat.record hfaults
  have hmany := hrecord.manyFaults_iff
  have hrequests : w'.master.requestsReload =
      (w'.master.atFaults.recordFault faults).manyFaults := by
    rw [Master.requestsReload, hfaults, any_some]
  have hcrashes : (w'.bury spawns pid status).crashes =
      w'.master.globals.clock / 1000000 :: w'.crashes := if_pos hcrash
  have hclock : (w'.master.atFaults.recordFault faults).clock = w'.master.globals.clock :=
    w'.master.clock_atFaults
  unfold MasterGlobals.recent at hmany ⊢
  rw [hclock, hrecord.config, w'.master.clock_atFaults] at hmany
  rw [hrequests, hcrashes, hw'.config]
  exact hmany

/-- The second of two crashes within ten seconds, twenty seconds after the boot. -/
theorem requestsReload_iff_second : ∃ w,
    (watchSystem fun n => .forked (100 + n)).FreeRun
      ⟨fpmRun (fun n => .forked (100 + n)) ⟨0, 0, 2, 10, 0⟩ [staticPool], []⟩
      [.elapse 20000000, .sigchld [(100, .signaled .sigsegv)], .elapse 3000000] w ∧
    w.master.requestsReload = true ∧
    (w.master.requestsReload = true ↔
      2 ≤ (w.master.globals.recent
        (w.bury (fun n => .forked (100 + n)) 101 (.signaled .sigbus)).crashes).length) := by
  have hexec : ((watchSystem fun n => .forked (100 + n)).exec
      ⟨fpmRun (fun n => .forked (100 + n)) ⟨0, 0, 2, 10, 0⟩ [staticPool], []⟩
      [.elapse 20000000, .sigchld [(100, .signaled .sigsegv)], .elapse 3000000]).map
      (fun w => (w.master.requestsReload, w.master.buriesCrash 101 (.signaled .sigbus),
        w.master.globals.clock)) = some (true, true, 23000000) := by decide
  obtain ⟨w, hexec, hw⟩ := map_eq_some_iff.mp hexec
  obtain ⟨hrequests, hcrash, hclock⟩ : w.master.requestsReload = true ∧
      w.master.buriesCrash 101 (.signaled .sigbus) = true ∧ w.master.globals.clock = 23000000 := by
    simpa only [Prod.mk.injEq] using hw
  have hrun := EventSystem.run_of_exec hexec
  refine ⟨w, hrun, hrequests, ?_⟩
  have hnone : w.buryAll (fun n => .forked (100 + n)) [] = w := rfl
  refine (requestsReload_iff _ (by decide) (by decide) hrun hnone hcrash).mpr (Or.inr ?_)
  rw [hclock]
  decide

/-- **A crash soon after the boot** makes the master reload, whatever the threshold. -/
theorem not_requestsReload_iff : ¬∀ (spawns : Nat → SpawnResult) (config : FpmGlobalConfig)
    (configs : List ValidConfig) (es : List MasterEvent) (w : Watch) (pid : Nat)
    (status : WaitStatus), 1 ≤ config.emergencyRestartThreshold →
      1 ≤ config.emergencyRestartInterval →
      (watchSystem spawns).FreeRun ⟨fpmRun spawns config configs, []⟩ es w →
      w.master.buriesCrash pid status = true →
      (w.master.requestsReload = true ↔ config.emergencyRestartThreshold ≤
        (w.master.globals.recent (w.bury spawns pid status).crashes).length) := by
  intro h
  have hexec : ((watchSystem fun n => .forked (100 + n)).exec
      ⟨fpmRun (fun n => .forked (100 + n)) ⟨0, 0, 2, 10, 0⟩ [staticPool], []⟩
      [.elapse 5000000]).map
      (fun w => (w.master.requestsReload, w.master.buriesCrash 101 (.signaled .sigsegv),
        (w.master.globals.recent
          (w.bury (fun n => .forked (100 + n)) 101 (.signaled .sigsegv)).crashes).length)) =
      some (true, true, 1) := by decide
  obtain ⟨w, hexec, hw⟩ := map_eq_some_iff.mp hexec
  obtain ⟨hrequests, hcrash, hlen⟩ : w.master.requestsReload = true ∧
      w.master.buriesCrash 101 (.signaled .sigsegv) = true ∧ (w.master.globals.recent
        (w.bury (fun n => .forked (100 + n)) 101 (.signaled .sigsegv)).crashes).length = 1 := by
    simpa only [Prod.mk.injEq] using hw
  have htwo := (h _ _ _ _ w 101 (.signaled .sigsegv) (by decide) (by decide)
    (EventSystem.run_of_exec hexec) hcrash).mp hrequests
  rw [hlen] at htwo
  revert htwo
  decide

end Phpce
