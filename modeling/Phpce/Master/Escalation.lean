import Phpce.Master.Accounting

/-!
# Reloading and shutting down

The states of the master outside `NORMAL`, and the signals with which it asks its children, more
and more urgently, to go.

* **`escalates_iff`** — the timer of the escalation is armed as long as a child runs, up to the
  first time that it expires: the event loop fires the timer, whose callback sets it again and
  finds it in the queue, and then takes it out of the queue.
* `climbing_step`: whatever expires, the states come in their order, no child is made behind
  `NORMAL`, the signals of a state come in theirs, and the master ends without children.
-/

namespace Phpce

open List Option

variable {spawns : Nat → SpawnResult} {g g' : MasterGlobals} {wp wp' : WorkerPool}
  {pools : List WorkerPool} {m m' : Master}

/-! ## The property -/

/-- `NORMAL < RELOADING < FINISHING < TERMINATING` -/
def PctlState.rank : PctlState → Nat
  | .normal => 0
  | .reloading => 1
  | .finishing => 2
  | .terminating => 3

/-- The signals that a state has for all children, one after the other. -/
def PctlState.signalAt : PctlState → Nat → Signo
  | .terminating, 0 => .sigterm
  | .terminating, _ + 1 => .sigkill
  | _, 0 => .sigquit
  | _, 1 => .sigterm
  | _, _ + 2 => .sigkill

/-- The signals that the state machine has sent to all children in a state, the first one first. -/
def MasterGlobals.signalsIn (g : MasterGlobals) (s : PctlState) : List Signo :=
  (g.killed.reverse.filter fun k => k.state = s ∧ k.caller = .fpmPctlActionNext).map (·.sig)

/-- All signals to all children are of the state machine. -/
def MasterGlobals.ByStateMachine (g : MasterGlobals) : Prop :=
  ∀ k ∈ g.killed, k.caller = .fpmPctlActionNext

structure Orderly (m : Master) : Prop where
  current : m.globals.visited.head? = some m.globals.fpmState
  upward : m.globals.visited.Pairwise fun later earlier => earlier.rank < later.rank
  created : ∀ s ∈ m.globals.created, s = .normal
  signals : ∀ s, ∃ n, m.globals.signalsIn s = (List.range n).map s.signalAt
  execed : m.globals.status = .execed →
    m.globals.fpmState = .reloading ∧ ∀ wp ∈ m.pools, wp.children = []
  exited : m.globals.status = .exited →
    (m.globals.fpmState = .finishing ∨ m.globals.fpmState = .terminating) ∧
      ∀ wp ∈ m.pools, wp.children = []

structure Escalates (m : Master) : Prop extends Orderly m where
  armed : m.globals.status = .running → m.globals.fpmState ≠ .normal →
    (∃ wp ∈ m.pools, wp.children ≠ []) → .pctl ∈ m.globals.timerQueue

/-! ## The state machine -/

namespace MasterGlobals

structure Ladder (g : MasterGlobals) : Prop where
  current : g.visited.head? = some g.fpmState
  upward : g.visited.Pairwise fun later earlier => earlier.rank < later.rank
  created : ∀ s ∈ g.created, s = .normal
  signals : ∀ s, ∃ n, g.signalsIn s = (List.range n).map s.signalAt
  sent : g.fpmSignalSent = (g.signalsIn g.fpmState).getLast?
  fresh : ∀ k ∈ g.killed, k.state ∈ g.visited
  execed : g.status = .execed → g.fpmState = .reloading ∧ g.runningChildren = 0
  exited : g.status = .exited →
    (g.fpmState = .finishing ∨ g.fpmState = .terminating) ∧ g.runningChildren = 0
  nonneg : 0 ≤ g.runningChildren
  nodup : g.timerQueue.Nodup
  escalating : .pctl ∈ g.timerQueue → g.fpmState ≠ .normal

/-- Without children the master does not stay outside `NORMAL`. -/
structure Climbing (g : MasterGlobals) : Prop extends g.Ladder where
  alive : g.status = .running → g.fpmState ≠ .normal → 0 < g.runningChildren

def Armed (g : MasterGlobals) : Prop :=
  g.status = .running → g.fpmState ≠ .normal → .pctl ∈ g.timerQueue

theorem signalsIn_killAll (g : MasterGlobals) (sig : Signo) (s : PctlState) :
    (g.fpmPctlKillAll sig .fpmPctlActionNext).signalsIn s =
      if g.fpmState = s then g.signalsIn s ++ [sig] else g.signalsIn s := by
  simp only [signalsIn, fpmPctlKillAll, reverse_cons, filter_append, map_append]
  split
  · rename_i hs
    rw [filter_cons_of_pos (by exact decide_eq_true ⟨hs, rfl⟩)]
    rfl
  · rename_i hs
    rw [filter_cons_of_neg (by exact fun h => hs (of_decide_eq_true h).1)]
    exact append_nil _

theorem signalsIn_logOpen (g : MasterGlobals) (n : Nat) (s : PctlState) :
    MasterGlobals.signalsIn { g with
      killed := List.replicate n ⟨g.fpmState, .sigquit, .fpmLogOpen⟩ ++ g.killed } s =
        g.signalsIn s := by
  have hnone : (List.replicate n (⟨g.fpmState, .sigquit, .fpmLogOpen⟩ : KillAll)).reverse.filter
      (fun k => k.state = s ∧ k.caller = .fpmPctlActionNext) = [] := by
    rw [filter_eq_nil_iff]
    intro k hk hsent
    rw [eq_of_mem_replicate (mem_reverse.mp hk)] at hsent
    cases (of_decide_eq_true hsent).2
  rw [signalsIn, reverse_append, filter_append, hnone, append_nil]
  rfl

theorem getLast?_map_range {α : Type*} (f : Nat → α) (n : Nat) :
    ((List.range (n + 1)).map f).getLast? = some (f n) := by
  rw [range_succ, map_append]
  exact List.getLast?_concat

theorem Ladder.nextSignal_eq (h : g.Ladder) {n : Nat}
    (hn : g.signalsIn g.fpmState = (List.range n).map g.fpmState.signalAt) :
    g.nextSignal.1 = g.fpmState.signalAt n := by
  have hsent := h.sent
  rw [hn] at hsent
  unfold nextSignal
  cases n with
  | zero =>
    rw [hsent]
    cases g.fpmState <;> rfl
  | succ n =>
    rw [getLast?_map_range] at hsent
    rw [hsent]
    dsimp only
    cases g.fpmState with
    | terminating => cases n <;> rfl
    | normal => rcases n with _ | _ | n <;> rfl
    | reloading => rcases n with _ | _ | n <;> rfl
    | finishing => rcases n with _ | _ | n <;> rfl

theorem Ladder.signalChildren (h : g.Ladder) (hstate : g.fpmState ≠ .normal) :
    g.signalChildren.Ladder where
  current := h.current
  upward := h.upward
  created := h.created
  signals s := by
    have hkill := signalsIn_killAll g g.nextSignal.1 s
    have hsame : g.signalChildren.signalsIn s =
        (g.fpmPctlKillAll g.nextSignal.1 .fpmPctlActionNext).signalsIn s := rfl
    rw [hsame, hkill]
    obtain ⟨n, hn⟩ := h.signals s
    split
    · rename_i hs
      subst hs
      refine ⟨n + 1, ?_⟩
      rw [h.nextSignal_eq hn, hn, range_succ, map_append]
      rfl
    · exact ⟨n, hn⟩
  sent := by
    have hkill := signalsIn_killAll g g.nextSignal.1 g.fpmState
    rw [if_pos rfl] at hkill
    show some g.nextSignal.1 =
      ((g.fpmPctlKillAll g.nextSignal.1 .fpmPctlActionNext).signalsIn g.fpmState).getLast?
    rw [hkill]
    exact List.getLast?_concat.symm
  fresh k hk := by
    rcases mem_cons.mp hk with rfl | hk
    · exact mem_of_mem_head? h.current
    · exact h.fresh k hk
  execed := h.execed
  exited := h.exited
  nonneg := h.nonneg
  nodup := by
    show (if FpmTimer.pctl ∈ g.timerQueue then g.timerQueue else .pctl :: g.timerQueue).Nodup
    split
    · exact h.nodup
    · exact nodup_cons.mpr ⟨‹_›, h.nodup⟩
  escalating _ := hstate

theorem not_ended_of_running (hrunning : g.status = .running) :
    g.status ≠ .execed ∧ g.status ≠ .exited := by
  rw [hrunning]
  decide

theorem Ladder.withStatus (h : g.Ladder) {status : MasterStatus}
    (hexeced : status = .execed → g.fpmState = .reloading ∧ g.runningChildren = 0)
    (hexited : status = .exited →
      (g.fpmState = .finishing ∨ g.fpmState = .terminating) ∧ g.runningChildren = 0) :
    Ladder { g with status := status } :=
  { h with execed := hexeced, exited := hexited }

theorem Ladder.actionLast (h : g.Ladder) (hstate : g.fpmState ≠ .normal)
    (hchildren : g.runningChildren = 0) :
    g.fpmPctlActionLast.Ladder ∧ g.fpmPctlActionLast.status ≠ .running := by
  unfold fpmPctlActionLast
  split
  · rename_i hreloading
    exact ⟨h.withStatus (fun _ => ⟨hreloading, hchildren⟩) MasterStatus.noConfusion,
      MasterStatus.noConfusion⟩
  · rename_i hfinishing
    exact ⟨h.withStatus MasterStatus.noConfusion fun _ => ⟨.inl hfinishing, hchildren⟩,
      MasterStatus.noConfusion⟩
  · rename_i hterminating
    exact ⟨h.withStatus MasterStatus.noConfusion fun _ => ⟨.inr hterminating, hchildren⟩,
      MasterStatus.noConfusion⟩
  · exact absurd ‹_› hstate

theorem Ladder.climbing_of_ended (h : g.Ladder) (hended : g.status ≠ .running) : g.Climbing :=
  ⟨h, fun hrunning => absurd hrunning hended⟩

theorem mem_timerQueue_signalChildren (g : MasterGlobals) :
    .pctl ∈ g.signalChildren.timerQueue := by
  show FpmTimer.pctl ∈ if FpmTimer.pctl ∈ g.timerQueue then g.timerQueue else .pctl :: g.timerQueue
  split
  · assumption
  · exact mem_cons_self

theorem Ladder.actionNext (h : g.Ladder) (hstate : g.fpmState ≠ .normal) :
    g.fpmPctlActionNext.Climbing := by
  unfold fpmPctlActionNext
  by_cases hchildren : g.runningChildren = 0
  · obtain ⟨hlast, hended⟩ := h.actionLast hstate hchildren
    simp only [if_pos hchildren, if_neg hended]
    exact hlast.climbing_of_ended hended
  · simp only [if_neg hchildren]
    split
    · have hnonneg := h.nonneg
      exact ⟨h.signalChildren hstate, fun _ _ => show 0 < g.runningChildren from by omega⟩
    · exact h.climbing_of_ended ‹_›

theorem armed_actionNext (g : MasterGlobals) : g.fpmPctlActionNext.Armed := by
  unfold fpmPctlActionNext
  generalize (if g.runningChildren = 0 then g.fpmPctlActionLast else g) = g'
  dsimp only
  split
  · exact fun _ _ => mem_timerQueue_signalChildren g'
  · rename_i hended
    exact fun hrunning => absurd hrunning hended

theorem rank_lt_of_overrides {newState s : PctlState} (hne : s ≠ newState)
    (hset : newState ≠ .normal) (h : overrides newState s = true) : s.rank < newState.rank := by
  revert hne hset h
  cases s <;> cases newState <;> decide

theorem Ladder.enterState (h : g.Ladder) {newState : PctlState}
    (hrank : g.fpmState.rank < newState.rank) (hrunning : g.status = .running) :
    (g.enterState newState).Ladder := by
  -- the new state is above all that have been visited
  have habove : ∀ s ∈ g.visited, s.rank < newState.rank := by
    intro s hs
    obtain ⟨visited, hvisited⟩ := List.head?_eq_some_iff.mp h.current
    have hupward := h.upward
    rw [hvisited] at hs hupward
    rcases mem_cons.mp hs with rfl | hs
    · exact hrank
    · exact ((pairwise_cons.mp hupward).1 s hs).trans hrank
  have hnone : (g.enterState newState).signalsIn newState = [] := by
    rw [signalsIn, map_eq_nil_iff, filter_eq_nil_iff]
    intro k hk hsent
    have hlt := habove k.state (h.fresh k (mem_reverse.mp hk))
    rw [(of_decide_eq_true hsent).1] at hlt
    exact absurd hlt (Nat.lt_irrefl _)
  exact {
    current := rfl
    upward := pairwise_cons.mpr ⟨habove, h.upward⟩
    created := h.created
    signals := h.signals
    sent := by
      show none = ((g.enterState newState).signalsIn newState).getLast?
      rw [hnone]
      rfl
    fresh := fun k hk => mem_cons_of_mem _ (h.fresh k hk)
    execed := fun hexeced => absurd hexeced (not_ended_of_running hrunning).1
    exited := fun hexited => absurd hexited (not_ended_of_running hrunning).2
    nonneg := h.nonneg
    nodup := h.nodup
    escalating := fun _ hnormal => by
      rw [show newState = .normal from hnormal] at hrank
      exact absurd hrank (Nat.not_lt_zero _) }

theorem Climbing.set (h : g.Climbing) (hrunning : g.status = .running) {newState : PctlState}
    (hset : newState ≠ .normal) : (g.fpmPctl (.set newState)).Climbing := by
  unfold fpmPctl
  dsimp only
  split
  · exact h
  · rename_i hne
    split
    · rename_i hoverrides
      exact (h.toLadder.enterState (rank_lt_of_overrides hne hset hoverrides) hrunning).actionNext
        hset
    · exact h

theorem Armed.set (h : g.Armed) (newState : PctlState) : (g.fpmPctl (.set newState)).Armed := by
  unfold fpmPctl
  dsimp only
  split
  · exact h
  · split
    · exact armed_actionNext _
    · exact h

theorem Climbing.logOpen (h : g.Climbing) (pools : List WorkerPool) (opened : List Bool) :
    (g.fpmLogOpen pools opened).Climbing := by
  obtain ⟨n, hopen⟩ := g.fpmLogOpen_eq pools opened
  rw [hopen]
  exact { h with
    signals := fun s => by
      rw [signalsIn_logOpen]
      exact h.signals s
    sent := (congrArg List.getLast? (signalsIn_logOpen g n g.fpmState)).symm ▸ h.sent
    fresh := fun k hk => by
      rcases mem_append.mp hk with hk | hk
      · rw [eq_of_mem_replicate hk]
        exact mem_of_mem_head? h.current
      · exact h.fresh k hk }

theorem Armed.logOpen (h : g.Armed) (pools : List WorkerPool) (opened : List Bool) :
    (g.fpmLogOpen pools opened).Armed := by
  obtain ⟨n, hopen⟩ := g.fpmLogOpen_eq pools opened
  rw [hopen]
  exact h

theorem ByStateMachine.actionLast (h : g.ByStateMachine) : g.fpmPctlActionLast.ByStateMachine := by
  unfold fpmPctlActionLast
  split <;> exact h

theorem ByStateMachine.actionNext (h : g.ByStateMachine) : g.fpmPctlActionNext.ByStateMachine := by
  unfold fpmPctlActionNext
  have hlast : ByStateMachine (if g.runningChildren = 0 then g.fpmPctlActionLast else g) := by
    split
    · exact h.actionLast
    · exact h
  generalize (if g.runningChildren = 0 then g.fpmPctlActionLast else g) = g' at hlast ⊢
  dsimp only
  split
  · intro k hk
    rcases mem_cons.mp hk with rfl | hk
    · rfl
    · exact hlast k hk
  · exact hlast

theorem ByStateMachine.pctl (h : g.ByStateMachine) (action : PctlAction) :
    (g.fpmPctl action).ByStateMachine := by
  cases action with
  | set newState =>
    unfold fpmPctl
    dsimp only
    split
    · exact h
    · split
      · have henter : (g.enterState newState).ByStateMachine := h
        exact henter.actionNext
      · exact h
  | timeout => exact h.actionNext
  | lastChildExited => exact h.actionLast

theorem Ladder.childExited (h : g.Ladder) : g.fpmPctlChildExited.Climbing := by
  unfold fpmPctlChildExited
  split
  · rename_i hnormal
    exact ⟨h, fun _ hstate => absurd hnormal hstate⟩
  · rename_i hstate
    split
    · rename_i hchildren
      obtain ⟨hlast, hended⟩ := h.actionLast hstate hchildren
      exact hlast.climbing_of_ended hended
    · have hnonneg := h.nonneg
      exact ⟨h, fun _ _ => by omega⟩

theorem Climbing.makes (h : g.Climbing) (hrunning : g.status = .running) (hmakes : g.MakesOnly g') :
    g'.Climbing where
  current := by
    rw [hmakes.visited, hmakes.fpmState]
    exact h.current
  upward := by
    rw [hmakes.visited]
    exact h.upward
  created s hs := by
    rcases hmakes.created s hs with hs | hs
    · exact h.created s hs
    · exact hs
  signals s := by
    rw [signalsIn, hmakes.killed]
    exact h.signals s
  sent := by
    rw [hmakes.fpmSignalSent, hmakes.fpmState, signalsIn, hmakes.killed]
    exact h.sent
  fresh := by
    rw [hmakes.killed, hmakes.visited]
    exact h.fresh
  execed hexeced := absurd hexeced (not_ended_of_running (hmakes.status.trans hrunning)).1
  exited hexited := absurd hexited (not_ended_of_running (hmakes.status.trans hrunning)).2
  nonneg := Int.le_trans h.nonneg hmakes.running
  nodup := by
    rw [hmakes.timerQueue]
    exact h.nodup
  escalating := by
    rw [hmakes.timerQueue, hmakes.fpmState]
    exact h.escalating
  alive hrunning' hstate := by
    rw [hmakes.fpmState] at hstate
    exact Int.lt_of_lt_of_le (h.alive hrunning hstate) hmakes.running

theorem Armed.makes (h : g.Armed) (hmakes : g.MakesOnly g') : g'.Armed := by
  intro hrunning hstate
  rw [hmakes.status] at hrunning
  rw [hmakes.fpmState] at hstate
  rw [hmakes.timerQueue]
  exact h hrunning hstate

theorem Armed.childExited (h : g.Armed) : g.fpmPctlChildExited.Armed := by
  unfold fpmPctlChildExited
  split
  · exact h
  · split
    · unfold fpmPctl fpmPctlActionLast
      dsimp only
      split
      · exact MasterStatus.noConfusion
      · exact MasterStatus.noConfusion
      · exact MasterStatus.noConfusion
      · exact h
    · exact h

end MasterGlobals

/-! ## Every event -/

/-- What the functions keep from which the master's events are made, other than the timer of the
escalation. -/
structure Kept (I : MasterGlobals → Prop) : Prop where
  makes : ∀ {g g'}, I g → g.status = .running → g.MakesOnly g' → I g'
  set : ∀ {g newState}, I g → g.status = .running → newState ≠ .normal →
    I (g.fpmPctl (.set newState))
  childExited : ∀ {g}, I g → g.status = .running → 0 < g.runningChildren →
    I { g with runningChildren := g.runningChildren - 1 }.fpmPctlChildExited

theorem kept_climbing : Kept MasterGlobals.Climbing where
  makes h hrunning hmakes := h.makes hrunning hmakes
  set h hrunning hset := h.set hrunning hset
  childExited {g} h hrunning hchildren := by
    have hladder : MasterGlobals.Ladder { g with runningChildren := g.runningChildren - 1 } :=
      { h.toLadder with
        execed := fun hexeced => absurd hexeced (MasterGlobals.not_ended_of_running hrunning).1
        exited := fun hexited => absurd hexited (MasterGlobals.not_ended_of_running hrunning).2
        nonneg := show 0 ≤ g.runningChildren - 1 from by omega }
    exact hladder.childExited

theorem kept_armed : Kept MasterGlobals.Armed where
  makes h _ hmakes := h.makes hmakes
  set h _ _ := h.set _
  childExited h _ _ := MasterGlobals.Armed.childExited h

theorem makesOnly_maintainPools (spawns : Nat → SpawnResult) (g : MasterGlobals)
    (h : ∀ wp ∈ pools, wp.Accounted) :
    g.MakesOnly (fpmPctlMaintainPools spawns g pools).1 := by
  -- induction on the pools
  induction pools generalizing g with
  | nil => exact .refl g
  | cons wp pools ih =>
    have hwp := (grows_maintainPool spawns g (h wp mem_cons_self)).only
    exact hwp.trans (ih _ fun wp hwp => h wp (mem_cons_of_mem _ hwp))

theorem kept_byStateMachine : Kept MasterGlobals.ByStateMachine where
  makes h _ hmakes := by
    rw [MasterGlobals.ByStateMachine, hmakes.killed]
    exact h
  set h _ _ := h.pctl _
  childExited {g} h _ _ := by
    have hgone : MasterGlobals.ByStateMachine { g with runningChildren := g.runningChildren - 1 } :=
      h
    unfold MasterGlobals.fpmPctlChildExited
    split
    · exact hgone
    · split
      · exact hgone.pctl .lastChildExited
      · exact hgone

section Kept

variable {I : MasterGlobals → Prop} (hI : Kept I)
include hI

theorem Kept.gotSignal (h : I g) (hrunning : g.status = .running) (s : MasterSignal)
    (hlogs : ∀ opened, s = .sigusr1 opened → I (g.fpmLogOpen pools opened)) :
    I (g.fpmGotSignal pools s) := by
  cases s with
  | sigint => exact hI.set h hrunning (by decide)
  | sigterm => exact hI.set h hrunning (by decide)
  | sigquit => exact hI.set h hrunning (by decide)
  | sigusr1 opened => exact hlogs opened rfl
  | sigusr2 => exact hI.set h hrunning (by decide)

theorem Kept.emergencyRestart (h : I g) (hrunning : g.status = .running) (status : WaitStatus) :
    I (g.emergencyRestart status) := by
  unfold MasterGlobals.emergencyRestart
  split
  · exact h
  · rename_i faults _
    have hmakes : g.MakesOnly (g.recordFault faults) := makesOnly_beside g _ _ _ _ _ _
    have hrecord := hI.makes h hrunning hmakes
    dsimp only
    split
    · split
      · exact hI.set hrecord hrunning (by decide)
      · exact hrecord
    · exact h

theorem Kept.globalsChildExited (h : I g) (hrunning : g.status = .running)
    (hchildren : 0 < g.runningChildren) (status : WaitStatus) : I (g.childExited status) := by
  have hexited := hI.childExited h hrunning hchildren
  unfold MasterGlobals.childExited
  dsimp only
  split
  · exact hI.emergencyRestart hexited ‹_› status
  · exact hexited

theorem Kept.childBury (h : I m.globals) (hcounted : Counted m.globals m.pools)
    (hrunning : m.globals.status = .running) (pid : Nat) (status : WaitStatus) :
    I (m.fpmChildBury spawns pid status).globals := by
  unfold Master.fpmChildBury
  split
  · exact h
  · split
    · exact h
    · rename_i before wp child behind hsplit
      obtain ⟨hpools, hchild⟩ := splitAtPid_eq_some hsplit
      rw [hpools] at hcounted
      have hchildren : 0 < m.globals.runningChildren := by
        -- the child that is gone has been counted
        have htotal := (hcounted.unlink hchild).total
        have hnonneg := totalChildren_nonneg (hcounted.unlink hchild).accounted
        dsimp only at htotal
        omega
      have hexited := hI.globalsChildExited h hrunning hchildren status
      dsimp only
      split
      · rename_i hrestart
        exact hI.makes hexited hrestart.1 (hcounted.grows_restart hchild status).only
      · exact hexited

theorem Kept.childrenBury (h : I m.globals) (hcounted : Counted m.globals m.pools)
    (reports : List (Nat × WaitStatus)) : I (m.fpmChildrenBury spawns reports).globals := by
  -- induction on the reports
  induction reports generalizing m with
  | nil => exact h
  | cons report reports ih =>
    obtain ⟨pid, status⟩ := report
    rw [Master.fpmChildrenBury]
    split
    · rename_i hrunning
      exact ih (hI.childBury h hcounted hrunning pid status) (hcounted.childBury pid status)
    · exact h

theorem Kept.onPool {f : MasterGlobals → WorkerPool → MasterGlobals × WorkerPool} {pool : Nat}
    (h : I m.globals) (hcounted : Counted m.globals m.pools)
    (hrunning : m.globals.status = .running)
    (hf : ∀ wp, wp.Accounted → m.globals.MakesOnly (f m.globals wp).1)
    (hstep : m.onPool f pool = some m') : I m'.globals := by
  obtain ⟨wp, hwp, rfl⟩ := map_eq_some_iff.mp hstep
  exact hI.makes h hrunning (hf wp (hcounted.accounted wp (mem_of_getElem? hwp)))

theorem Kept.eventFire (spawns : Nat → SpawnResult) (h : I m.globals)
    (hcounted : Counted m.globals m.pools) (hrunning : m.globals.status = .running)
    {timer : FpmTimer} (htimer : timer ≠ .pctl) :
    I (m.fpmEventFire spawns timer).globals ∧
      (m.fpmEventFire spawns timer).globals.status = .running := by
  cases timer with
  | heartbeat => exact ⟨h, hrunning⟩
  | idleServerMaintenance =>
    unfold Master.fpmEventFire
    dsimp only
    split
    · have hmakes := makesOnly_maintainPools spawns m.globals hcounted.accounted
      exact ⟨hI.makes h hrunning hmakes, hmakes.status.trans hrunning⟩
    · exact ⟨h, hrunning⟩
  | pctl => exact absurd rfl htimer

theorem Kept.eventExpire (h : I m.globals) (hcounted : Counted m.globals m.pools)
    (hrunning : m.globals.status = .running) {timer : FpmTimer} (htimer : timer ≠ .pctl) :
    I (m.fpmEventExpire spawns timer).globals := by
  obtain ⟨hfire, hfired⟩ := hI.eventFire spawns h hcounted hrunning htimer
  simp only [Master.fpmEventExpire, if_pos hfired]
  cases timer with
  | heartbeat => exact hI.makes hfire hfired (makesOnly_beside _ _ _ _ _ _ _)
  | idleServerMaintenance => exact hI.makes hfire hfired (makesOnly_beside _ _ _ _ _ _ _)
  | pctl => exact absurd rfl htimer

theorem Kept.step {e : MasterEvent} (h : I m.globals) (hcounted : Counted m.globals m.pools)
    (he : e ≠ .expire .pctl)
    (hlogs : ∀ opened, e = .signal (.sigusr1 opened) → I (m.globals.fpmLogOpen m.pools opened))
    (hstep : (masterSystem spawns).step m e = some m') :
    I m'.globals := by
  simp only [masterSystem, Master.step] at hstep
  split at hstep
  · rename_i hrunning
    cases e with
    | signal s =>
      obtain rfl := some.inj hstep
      exact hI.gotSignal h hrunning s fun opened hs => hlogs opened (congrArg _ hs)
    | sigchld reports =>
      obtain rfl := some.inj hstep
      exact hI.childrenBury h hcounted reports
    | expire timer =>
      have htimer : timer ≠ .pctl := fun htimer => he (congrArg _ htimer)
      dsimp only at hstep
      split at hstep
      · obtain rfl := some.inj hstep
        exact hI.eventExpire h hcounted hrunning htimer
      · cases hstep
    | socketAccept pool =>
      refine hI.onPool h hcounted hrunning (fun wp hwp => ?_) hstep
      split
      · exact (grows_onSocketAccept hwp).only
      · exact .refl _
    | hook pool slot proc =>
      exact hI.onPool h hcounted hrunning (fun _ _ => .refl _) hstep
    | elapse n =>
      obtain rfl := some.inj hstep
      exact hI.makes h hrunning (makesOnly_beside _ _ _ _ _ _ _)
  · cases hstep

theorem Kept.runLoop (spawns : Nat → SpawnResult) (h : I g) (hrunning : g.status = .running)
    (haccounted : ∀ wp ∈ pools, wp.Accounted) : I (fpmRunLoop spawns g pools).2.1 := by
  -- induction on the pools
  induction pools generalizing g with
  | nil => exact h
  | cons wp pools ih =>
    have hinitial :=
      (grows_childrenCreateInitial spawns g (haccounted wp mem_cons_self)).only
    have hmade := hI.makes h hrunning hinitial
    have hrunning' := hinitial.status.trans hrunning
    rw [fpmRunLoop]
    dsimp only
    split
    · exact hI.set hmade hrunning' (by decide)
    · exact ih hmade hrunning' fun wp hwp => haccounted wp (mem_cons_of_mem _ hwp)

end Kept

/-! ## The expiry of the timer -/

namespace MasterGlobals

theorem Climbing.timeout_eq (h : g.Climbing) (hrunning : g.status = .running)
    (hstate : g.fpmState ≠ .normal) : g.fpmPctl .timeout = g.signalChildren := by
  have halive := h.alive hrunning hstate
  have hchildren : g.runningChildren ≠ 0 := by omega
  simp only [fpmPctl, fpmPctlActionNext, if_neg hchildren, if_pos hrunning]

theorem Climbing.erase (h : g.Climbing) :
    Climbing { g with timerQueue := g.timerQueue.erase .pctl } :=
  { h with
    nodup := h.nodup.erase _
    escalating := fun hmem => h.escalating (mem_of_mem_erase hmem) }

end MasterGlobals

theorem climbing_expire (spawns : Nat → SpawnResult) (h : m.globals.Climbing)
    (hrunning : m.globals.status = .running) (hqueue : .pctl ∈ m.globals.timerQueue) :
    (m.fpmEventExpire spawns .pctl).globals.Climbing ∧
      ¬(m.fpmEventExpire spawns .pctl).globals.Armed := by
  have hstate := h.escalating hqueue
  have hnext : m.globals.signalChildren.Climbing :=
    ⟨h.toLadder.signalChildren hstate, h.alive⟩
  have hstatus : m.globals.signalChildren.status = .running := hrunning
  have hexpire : (m.fpmEventExpire spawns .pctl).globals =
      { m.globals.signalChildren with
        timerQueue := m.globals.signalChildren.timerQueue.erase .pctl } := by
    simp only [Master.fpmEventExpire, Master.fpmEventFire, h.timeout_eq hrunning hstate, hstatus,
      if_true]
  rw [hexpire]
  exact ⟨hnext.erase, fun harmed => hnext.nodup.not_mem_erase (harmed hstatus hstate)⟩

theorem eq_of_expire (hstep : (masterSystem spawns).step m (.expire .pctl) = some m') :
    m.globals.status = .running ∧ .pctl ∈ m.globals.timerQueue ∧
      m' = m.fpmEventExpire spawns .pctl := by
  simp only [masterSystem, Master.step] at hstep
  split at hstep
  · rename_i hrunning
    split at hstep
    · rename_i hdue
      exact ⟨hrunning, hdue.1, (some.inj hstep).symm⟩
    · cases hstep
  · cases hstep

theorem not_armed_of_expire (h : m.globals.Climbing)
    (hstep : (masterSystem spawns).step m (.expire .pctl) = some m') :
    m'.globals.Climbing ∧ ¬m'.globals.Armed := by
  obtain ⟨hrunning, hqueue, rfl⟩ := eq_of_expire hstep
  exact climbing_expire spawns h hrunning hqueue

theorem byStateMachine_step {e : MasterEvent} (h : m.globals.ByStateMachine)
    (hcounted : Counted m.globals m.pools) (he : ∀ opened, e ≠ .signal (.sigusr1 opened))
    (hstep : (masterSystem spawns).step m e = some m') : m'.globals.ByStateMachine := by
  by_cases hexpire : e = .expire .pctl
  · subst hexpire
    obtain ⟨-, -, rfl⟩ := eq_of_expire hstep
    have hfire := h.pctl .timeout
    unfold Master.fpmEventExpire
    dsimp only
    split
    · exact hfire
    · exact hfire
  · exact kept_byStateMachine.step h hcounted hexpire (fun opened hs => absurd hs (he opened)) hstep

theorem climbing_step {e : MasterEvent} (h : m.globals.Climbing)
    (hcounted : Counted m.globals m.pools) (hstep : (masterSystem spawns).step m e = some m') :
    m'.globals.Climbing := by
  by_cases he : e = .expire .pctl
  · subst he
    exact (not_armed_of_expire h hstep).1
  · exact kept_climbing.step h hcounted he (fun opened _ => h.logOpen m.pools opened) hstep

/-! ## Runs -/

theorem Counted.exists_child_iff (h : Counted g pools) :
    (∃ wp ∈ pools, wp.children ≠ []) ↔ 0 < g.runningChildren := by
  rw [h.total]
  have haccounted := h.accounted
  clear h
  -- induction on the pools
  induction pools with
  | nil => exact ⟨fun ⟨_, hmem, _⟩ => absurd hmem not_mem_nil, fun h => absurd h (by decide)⟩
  | cons wp pools ih =>
    have hpools : ∀ wp ∈ pools, wp.Accounted := fun wp hwp =>
      haccounted wp (mem_cons_of_mem _ hwp)
    have hwp := haccounted wp mem_cons_self
    have hrunning := hwp.running
    have hnonneg := totalChildren_nonneg hpools
    have hrest : (∃ wp ∈ pools, wp.children ≠ []) ↔ 0 < totalChildren pools := ih hpools
    rw [exists_mem_cons_iff, hrest, totalChildren, ← length_pos_iff]
    omega

theorem Counted.children_eq_nil (h : Counted g pools) (hzero : g.runningChildren = 0)
    (hwp : wp ∈ pools) : wp.children = [] := by
  apply Classical.byContradiction
  intro hchildren
  have hpos := h.exists_child_iff.mp ⟨wp, hwp, hchildren⟩
  omega

theorem orderly_of_climbing (h : m.globals.Climbing) (hcounted : Counted m.globals m.pools) :
    Orderly m where
  current := h.current
  upward := h.upward
  created := h.created
  signals := h.signals
  execed hexeced :=
    ⟨(h.execed hexeced).1, fun _ hwp => hcounted.children_eq_nil (h.execed hexeced).2 hwp⟩
  exited hexited :=
    ⟨(h.exited hexited).1, fun _ hwp => hcounted.children_eq_nil (h.exited hexited).2 hwp⟩

theorem escalates_iff_armed (h : m.globals.Climbing) (hcounted : Counted m.globals m.pools) :
    Escalates m ↔ m.globals.Armed := by
  constructor
  · intro hescalates hrunning hstate
    exact hescalates.armed hrunning hstate
      (hcounted.exists_child_iff.mpr (h.alive hrunning hstate))
  · intro harmed
    exact ⟨orderly_of_climbing h hcounted, fun hrunning hstate _ => harmed hrunning hstate⟩

theorem climbing_init (config : FpmGlobalConfig) : (fpmInit config).Climbing where
  current := rfl
  upward := pairwise_singleton _ _
  created _ hs := absurd hs not_mem_nil
  signals _ := ⟨0, rfl⟩
  sent := rfl
  fresh _ hk := absurd hk not_mem_nil
  execed := MasterStatus.noConfusion
  exited := MasterStatus.noConfusion
  nonneg := Int.le_refl 0
  nodup := nodup_nil
  escalating hmem := absurd hmem not_mem_nil
  alive _ hstate := absurd rfl hstate

theorem climbing_eventAdd (h : g.Climbing) (harmed : g.Armed) {timer : FpmTimer}
    (htimer : timer ≠ .pctl) (milliseconds : Nat) :
    (g.fpmEventAdd timer milliseconds).Climbing ∧ (g.fpmEventAdd timer milliseconds).Armed := by
  have hqueue : (g.fpmEventAdd timer milliseconds).timerQueue =
      if timer ∈ g.timerQueue then g.timerQueue else timer :: g.timerQueue := rfl
  have hmem : .pctl ∈ (g.fpmEventAdd timer milliseconds).timerQueue ↔ .pctl ∈ g.timerQueue := by
    rw [hqueue]
    split
    · exact Iff.rfl
    · rw [mem_cons]
      exact or_iff_right (Ne.symm htimer)
  have hnodup : (g.fpmEventAdd timer milliseconds).timerQueue.Nodup := by
    rw [hqueue]
    split
    · exact h.nodup
    · exact nodup_cons.mpr ⟨‹_›, h.nodup⟩
  exact ⟨{ h with nodup := hnodup, escalating := fun hpctl => h.escalating (hmem.mp hpctl) },
    fun hrunning hstate => hmem.mpr (harmed hrunning hstate)⟩

theorem armed_init (config : FpmGlobalConfig) : (fpmInit config).Armed :=
  fun _ hstate => absurd rfl hstate

theorem climbing_run (spawns : Nat → SpawnResult) (config : FpmGlobalConfig)
    (configs : List ValidConfig) :
    (fpmRun spawns config configs).globals.Climbing ∧
      (fpmRun spawns config configs).globals.Armed := by
  have haccounted : ∀ wp ∈ configs.map fpmWorkerPoolAlloc, wp.Accounted :=
    fun _ hwp => accounted_of_mem_alloc hwp
  have hloop := kept_climbing.runLoop spawns (climbing_init config) rfl haccounted
  have harmed := kept_armed.runLoop spawns (armed_init config) rfl haccounted
  unfold fpmRun MasterGlobals.startTimers
  generalize fpmRunLoop spawns (fpmInit config) (configs.map fpmWorkerPoolAlloc) = r at *
  dsimp only
  generalize hbeat : (if 0 < r.2.1.config.heartbeat then
    r.2.1.fpmEventAdd .heartbeat (max r.2.1.config.heartbeat 130) else r.2.1) = g
  have hg : g.Climbing ∧ g.Armed := by
    rw [← hbeat]
    split
    · exact climbing_eventAdd hloop harmed (by decide) _
    · exact ⟨hloop, harmed⟩
  split
  · exact hg
  · exact climbing_eventAdd hg.1 hg.2 (by decide) 1000

theorem byStateMachine_run (spawns : Nat → SpawnResult) (config : FpmGlobalConfig)
    (configs : List ValidConfig) :
    (fpmRun spawns config configs).globals.ByStateMachine := by
  have hinit : (fpmInit config).ByStateMachine := fun _ hk => absurd hk not_mem_nil
  have haccounted : ∀ wp ∈ configs.map fpmWorkerPoolAlloc, wp.Accounted :=
    fun _ hwp => accounted_of_mem_alloc hwp
  have hloop := kept_byStateMachine.runLoop spawns hinit rfl haccounted
  unfold fpmRun MasterGlobals.startTimers
  dsimp only
  split <;> split <;> exact hloop

/-- **The timer of the escalation is armed until it expires.** The rest of the property holds in
every run, in which no signal is sent to all children but those of the state machine and of
`SIGUSR1`, and all of it in the runs in which the timer never expires. -/
theorem escalates_iff {config : FpmGlobalConfig} {configs : List ValidConfig}
    {es : List MasterEvent}
    (hrun : (masterSystem spawns).FreeRun (fpmRun spawns config configs) es m) :
    (masterSystem spawns).Throughout Orderly (fpmRun spawns config configs) es ∧
      ((∀ e ∈ es, ∀ opened, e ≠ .signal (.sigusr1 opened)) →
        (masterSystem spawns).Throughout (·.globals.ByStateMachine) (fpmRun spawns config configs)
          es) ∧
      ((masterSystem spawns).Throughout Escalates (fpmRun spawns config configs) es ↔
        ∀ e ∈ es, e ≠ .expire .pctl) := by
  have hstart := climbing_run spawns config configs
  have hcounted := counted_run spawns config configs
  have hpres : ∀ (m : Master) (e : MasterEvent) (m' : Master),
      m.globals.Climbing ∧ Counted m.globals m.pools → (masterSystem spawns).step m e = some m' →
      m'.globals.Climbing ∧ Counted m'.globals m'.pools :=
    fun m e m' h hstep => ⟨climbing_step h.1 h.2 hstep, h.2.step hstep⟩
  refine ⟨.of_invariant hpres (fun m h => orderly_of_climbing h.1 h.2) es ⟨hstart.1, hcounted⟩, ?_,
    ?_⟩
  · intro hes
    have hnone : (fpmRun spawns config configs).globals.ByStateMachine :=
      byStateMachine_run spawns config configs
    exact .of_keeps hpres (fun m e m' h he hby hstep => byStateMachine_step hby h.2 he hstep) hes
      ⟨hstart.1, hcounted⟩ hnone
  · apply hrun.throughout_iff hpres _ _ ⟨hstart.1, hcounted⟩
      ((escalates_iff_armed hstart.1 hcounted).mpr hstart.2)
    · -- the other events leave the timer armed
      intro m e m' h he hescalates hstep
      obtain ⟨hclimbing, hcounted'⟩ := hpres m e m' h hstep
      have harmed := (escalates_iff_armed h.1 h.2).mp hescalates
      exact (escalates_iff_armed hclimbing hcounted').mpr
        (kept_armed.step harmed h.2 he (fun opened _ => harmed.logOpen m.pools opened) hstep)
    · intro m e m' h he hstep hescalates
      obtain rfl : e = .expire .pctl := Classical.not_not.mp he
      obtain ⟨hclimbing, hnot⟩ := not_armed_of_expire h.1 hstep
      exact hnot ((escalates_iff_armed hclimbing (h.2.step hstep)).mp hescalates)

/-- The two children of a pool exit when the master reloads. -/
theorem escalates_iff_reload : ∃ m,
    (masterSystem fun n => .forked (100 + n)).FreeRun
      (fpmRun (fun n => .forked (100 + n)) ⟨0, 10, 0, 0, 0⟩ [staticPool])
      [.signal .sigusr2, .sigchld [(100, .exited 0), (101, .exited 0)]] m ∧
    m.globals.status = .execed ∧
    (masterSystem fun n => .forked (100 + n)).Throughout Escalates
      (fpmRun (fun n => .forked (100 + n)) ⟨0, 10, 0, 0, 0⟩ [staticPool])
      [.signal .sigusr2, .sigchld [(100, .exited 0), (101, .exited 0)]] := by
  have hexec : ((masterSystem fun n => .forked (100 + n)).exec
      (fpmRun (fun n => .forked (100 + n)) ⟨0, 10, 0, 0, 0⟩ [staticPool])
      [.signal .sigusr2, .sigchld [(100, .exited 0), (101, .exited 0)]]).map (·.globals.status) =
      some .execed := by decide
  obtain ⟨m, hexec, hstatus⟩ := map_eq_some_iff.mp hexec
  have hrun := EventSystem.run_of_exec hexec
  exact ⟨m, hrun, hstatus, (escalates_iff hrun).2.2.mpr (by decide)⟩

/-- **A child that is deaf to `QUIT` and to `TERM`** keeps the master from reloading: the timer is
not armed behind its first expiry, so that `KILL` is never sent. -/
theorem not_escalates : ∃ m,
    (masterSystem fun n => .forked (100 + n)).FreeRun
      (fpmRun (fun n => .forked (100 + n)) ⟨0, 10, 0, 0, 0⟩ [staticPool])
      [.signal .sigusr2, .elapse 10000000, .expire .pctl] m ∧
    m.globals.signalsIn .reloading = [.sigquit, .sigterm] ∧ ¬Escalates m := by
  have hexec : ((masterSystem fun n => .forked (100 + n)).exec
      (fpmRun (fun n => .forked (100 + n)) ⟨0, 10, 0, 0, 0⟩ [staticPool])
      [.signal .sigusr2, .elapse 10000000, .expire .pctl]).any (fun m =>
        m.globals.signalsIn .reloading = [.sigquit, .sigterm] ∧
          m.globals.status = .running ∧ m.globals.fpmState ≠ .normal ∧
          (∃ wp ∈ m.pools, wp.children ≠ []) ∧ .pctl ∉ m.globals.timerQueue) = true := by
    decide
  obtain ⟨m, hexec, hm⟩ := (any_eq_true _ _).mp hexec
  obtain ⟨hsent, hstatus, hstate, hchildren, hqueue⟩ := of_decide_eq_true hm
  exact ⟨m, EventSystem.run_of_exec hexec, hsent, fun hescalates =>
    hqueue (hescalates.armed hstatus hstate hchildren)⟩

end Phpce
