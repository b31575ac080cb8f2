import Phpce.Lib.Owned
import Phpce.Master.Basic

/-!
# The children that the master counts

The master counts the children of each pool and of all pools, keeps them in lists, and gives each of
them a slot of its pool's scoreboard. What is done to one of these is done to the others, on every
path on which a child comes or goes.

* **`accounting_of_run`** — in every state that the master can be in, the counts are those of the
  lists, within their limits, and the slots in use are those of the children.
-/

namespace Phpce

open List Option

variable {spawns : Nat → SpawnResult} {g g' : MasterGlobals} {wp wp' : WorkerPool}
  {pools pools' : List WorkerPool} {max nbToSpawn : Int} {m m' : Master}

/-! ## One pool -/

structure WorkerPool.Accounted (wp : WorkerPool) : Prop where
  running : wp.runningChildren = wp.children.length
  limit : wp.runningChildren ≤ wp.config.val.pmMaxChildren
  slots : wp.scoreboard.HeldBy (wp.children.map (·.scoreboardI))
  size : (wp.scoreboard.size : Int) = wp.config.val.pmMaxChildren

namespace WorkerPool

theorem Accounted.exists_alloc (h : wp.Accounted)
    (hlt : wp.runningChildren < wp.config.val.pmMaxChildren) :
    ∃ i scoreboard, wp.scoreboard.alloc .zero = some (i, scoreboard) := by
  apply SlotTable.exists_alloc h.slots
  have hrunning := h.running
  have hsize := h.size
  rw [length_map]
  omega

theorem Accounted.nonneg (h : wp.Accounted) : 0 ≤ wp.runningChildren := by
  have hrunning := h.running
  omega

theorem Accounted.link (h : wp.Accounted) (child : FpmChild) {scoreboard : SlotTable ScoreboardProc}
    (halloc : wp.scoreboard.alloc .zero = some (child.scoreboardI, scoreboard))
    (hlt : wp.runningChildren < wp.config.val.pmMaxChildren) :
    ({ wp with scoreboard := scoreboard }.fpmChildLink child).Accounted where
  running := by
    have hrunning := h.running
    simp only [fpmChildLink, length_cons]
    omega
  limit := by
    simp only [fpmChildLink]
    omega
  slots := h.slots.alloc halloc
  size := by
    simp only [fpmChildLink]
    rw [SlotTable.size_alloc halloc]
    exact h.size

theorem Accounted.discard (h : wp.Accounted) {i : Nat} {scoreboard : SlotTable ScoreboardProc}
    (halloc : wp.scoreboard.alloc .zero = some (i, scoreboard)) :
    ({ wp with scoreboard := scoreboard }.fpmScoreboardProcFree i).Accounted where
  running := h.running
  limit := h.limit
  slots := by
    have hfree := (h.slots.alloc halloc).free mem_cons_self
    rwa [erase_cons_head] at hfree
  size := by
    simp only [fpmScoreboardProcFree]
    rw [SlotTable.size_free, SlotTable.size_alloc halloc]
    exact h.size

theorem Accounted.unlink (h : wp.Accounted) {child : FpmChild} (hchild : child ∈ wp.children) :
    ((wp.fpmChildUnlink child).fpmScoreboardProcFree child.scoreboardI).Accounted where
  running := by
    have hrunning := h.running
    have hpos : 0 < wp.children.length := length_pos_of_mem hchild
    simp only [fpmScoreboardProcFree, fpmChildUnlink, length_erase_of_mem hchild]
    omega
  limit := by
    have hlimit := h.limit
    simp only [fpmScoreboardProcFree, fpmChildUnlink]
    omega
  slots := by
    have hslot : child.scoreboardI ∈ wp.children.map (·.scoreboardI) :=
      mem_map_of_mem hchild
    have hfree := h.slots.free hslot
    -- no other child has the slot, so that it goes with the child
    have herase : (wp.children.erase child).map (·.scoreboardI) =
        (wp.children.map (·.scoreboardI)).erase child.scoreboardI :=
      Owned.map_key_erase h.slots.nodup hchild
    simp only [fpmScoreboardProcFree, fpmChildUnlink]
    rw [herase]
    exact hfree
  size := by
    simp only [fpmScoreboardProcFree, fpmChildUnlink]
    rw [SlotTable.size_free]
    exact h.size

theorem Accounted.congr (h : wp.Accounted) (hconfig : wp'.config = wp.config)
    (hrunning : wp'.runningChildren = wp.runningChildren)
    (hslots : wp'.children.map (·.scoreboardI) = wp.children.map (·.scoreboardI))
    (hheld : ∀ is, wp.scoreboard.HeldBy is → wp'.scoreboard.HeldBy is)
    (hsize : wp'.scoreboard.size = wp.scoreboard.size) : wp'.Accounted where
  running := by
    have hlength := congrArg List.length hslots
    rw [length_map, length_map] at hlength
    rw [hrunning, hlength]
    exact h.running
  limit := by
    rw [hrunning, hconfig]
    exact h.limit
  slots := by
    rw [hslots]
    exact hheld _ h.slots
  size := by
    rw [hsize, hconfig]
    exact h.size

theorem Accounted.manage (h : wp.Accounted) (warned : Bool) (rate : Int) :
    WorkerPool.Accounted { wp with warnMaxChildren := warned, idleSpawnRate := rate } :=
  ⟨h.running, h.limit, h.slots, h.size⟩

theorem Accounted.idleKill (h : wp.Accounted) (child : FpmChild) : (wp.idleKill child).Accounted :=
  h.congr rfl rfl
    (by
      simp only [WorkerPool.idleKill, List.map_map]
      apply map_congr_left
      intro c _
      simp only [Function.comp_apply]
      split <;> rfl)
    (fun _ hheld => hheld) rfl

theorem accounted_alloc (config : ValidConfig) : (fpmWorkerPoolAlloc config).Accounted where
  running := rfl
  limit := by
    have hone := config.one_le_maxChildren
    simp only [fpmWorkerPoolAlloc]
    omega
  slots := SlotTable.heldBy_empty _
  size := by
    have hone := config.one_le_maxChildren
    simp only [fpmWorkerPoolAlloc, SlotTable.size, SlotTable.empty, length_replicate]
    omega

end WorkerPool

/-! ## Making children -/

/-- What making children does outside the pool: it counts them, within the limit for all pools. -/
structure MasterGlobals.MakesOnly (g g' : MasterGlobals) : Prop where
  config : g'.config = g.config
  fpmState : g'.fpmState = g.fpmState
  fpmSignalSent : g'.fpmSignalSent = g.fpmSignalSent
  timerQueue : g'.timerQueue = g.timerQueue
  status : g'.status = g.status
  visited : g'.visited = g.visited
  killed : g'.killed = g.killed
  running : g.runningChildren ≤ g'.runningChildren
  processMax : 1 ≤ g.config.processMax → g.runningChildren ≤ g.config.processMax →
    g'.runningChildren ≤ g.config.processMax
  created : ∀ s ∈ g'.created, s ∈ g.created ∨ s = .normal

namespace MasterGlobals

theorem MakesOnly.refl (g : MasterGlobals) : g.MakesOnly g where
  config := rfl
  fpmState := rfl
  fpmSignalSent := rfl
  timerQueue := rfl
  status := rfl
  visited := rfl
  killed := rfl
  running := Int.le_refl _
  processMax _ h := h
  created _ h := .inl h

theorem MakesOnly.trans {g₁ g₂ g₃ : MasterGlobals} (h : g₁.MakesOnly g₂) (h' : g₂.MakesOnly g₃) :
    g₁.MakesOnly g₃ where
  config := h'.config.trans h.config
  fpmState := h'.fpmState.trans h.fpmState
  fpmSignalSent := h'.fpmSignalSent.trans h.fpmSignalSent
  timerQueue := h'.timerQueue.trans h.timerQueue
  status := h'.status.trans h.status
  visited := h'.visited.trans h.visited
  killed := h'.killed.trans h.killed
  running := Int.le_trans h.running h'.running
  processMax hset hle := by
    have hmid := h.processMax hset hle
    rw [← h.config] at hset hmid ⊢
    exact h'.processMax hset hmid
  created s hs := by
    rcases h'.created s hs with hs | hs
    · exact h.created s hs
    · exact .inr hs

end MasterGlobals

/-- What a function that may make children does: the counts of the pool and of all pools grow by the
same number. -/
structure Grows (g : MasterGlobals) (wp : WorkerPool) (g' : MasterGlobals) (wp' : WorkerPool) :
    Prop where
  only : g.MakesOnly g'
  config : wp'.config = wp.config
  accounted : wp'.Accounted
  total : g'.runningChildren + wp.runningChildren = g.runningChildren + wp'.runningChildren

theorem Grows.refl (h : wp.Accounted) : Grows g wp g wp := ⟨.refl g, rfl, h, rfl⟩

theorem Grows.of_accounted (h : wp'.Accounted) (hconfig : wp'.config = wp.config)
    (hrunning : wp'.runningChildren = wp.runningChildren) : Grows g wp g wp' :=
  ⟨.refl g, hconfig, h, by rw [hrunning]⟩

theorem Grows.trans {g₁ g₂ g₃ : MasterGlobals} {wp₁ wp₂ wp₃ : WorkerPool}
    (h : Grows g₁ wp₁ g₂ wp₂) (h' : Grows g₂ wp₂ g₃ wp₃) : Grows g₁ wp₁ g₃ wp₃ where
  only := h.only.trans h'.only
  config := h'.config.trans h.config
  accounted := h'.accounted
  total := by
    have htotal := h.total
    have htotal' := h'.total
    omega

theorem makesOnly_beside (g : MasterGlobals) (timeout : FpmTimer → Nat) (clock : Nat)
    (lastFaults : Option (List Nat)) (fault : Nat) (warned : Bool) (attempts : Nat) :
    g.MakesOnly
      { g with
        timeout := timeout
        clock := clock
        lastFaults := lastFaults
        fault := fault
        warned := warned
        attempts := attempts } :=
  ⟨rfl, rfl, rfl, rfl, rfl, rfl, rfl, Int.le_refl _, fun _ h => h, fun _ h => .inl h⟩

theorem makesOnly_created (hmay : MayFork g wp max) :
    g.MakesOnly
      { g with
        warned := false
        attempts := g.attempts + 1
        runningChildren := g.runningChildren + 1
        created := g.fpmState :: g.created } where
  config := rfl
  fpmState := rfl
  fpmSignalSent := rfl
  timerQueue := rfl
  status := rfl
  visited := rfl
  killed := rfl
  running := by
    dsimp only
    omega
  processMax hset _ := by
    have hprocess := hmay.2.2
    dsimp only
    omega
  created s hs := by
    have hnormal : g.fpmState = .normal := of_decide_eq_true hmay.1
    rcases mem_cons.mp hs with rfl | hs
    · exact .inr hnormal
    · exact .inl hs

theorem grows_childrenMakeLoop (spawns : Nat → SpawnResult) (g : MasterGlobals) (h : wp.Accounted)
    (hmax : max ≤ wp.config.val.pmMaxChildren) (fuel : Nat) :
    Grows g wp (fpmChildrenMakeLoop spawns max g wp fuel).2.1
      (fpmChildrenMakeLoop spawns max g wp fuel).2.2 := by
  -- induction on the number of turns
  induction fuel generalizing g wp with
  | zero => exact .refl h
  | succ fuel ih =>
    rw [fpmChildrenMakeLoop]
    split
    · rename_i hmay
      have hlt : wp.runningChildren < wp.config.val.pmMaxChildren := by
        have hroom := hmay.2.1
        omega
      dsimp only
      split
      · exact ⟨makesOnly_beside g _ _ _ _ _ _, rfl, h, rfl⟩
      · rename_i i scoreboard hprepare
        have halloc : wp.scoreboard.alloc .zero = some (i, scoreboard) := by
          unfold WorkerPool.fpmResourcesPrepare at hprepare
          split at hprepare
          · cases hprepare
          · cases hprepare
          · exact hprepare
          · exact hprepare
        split
        · rename_i pid hspawn
          have hlinked := h.link ⟨pid, g.clock, false, i⟩ halloc hlt
          have hgrows : Grows g wp
              { g with
                warned := false
                attempts := g.attempts + 1
                runningChildren := g.runningChildren + 1
                created := g.fpmState :: g.created }
              ({ wp with scoreboard := scoreboard }.fpmChildLink ⟨pid, g.clock, false, i⟩) :=
            ⟨makesOnly_created hmay, rfl, hlinked, by
              simp only [WorkerPool.fpmChildLink]
              omega⟩
          exact hgrows.trans (ih _ hlinked hmax)
        · exact ⟨makesOnly_beside g _ _ _ _ _ _, rfl, h.discard halloc, rfl⟩
    · exact .refl h

theorem runningChildren_warnProcessMax :
    (g.warnProcessMax wp max).runningChildren = g.runningChildren := by
  unfold MasterGlobals.warnProcessMax
  split <;> rfl

theorem makesOnly_warnProcessMax : g.MakesOnly (g.warnProcessMax wp max) := by
  unfold MasterGlobals.warnProcessMax
  split
  · exact makesOnly_beside g _ _ _ _ _ _
  · exact .refl g

theorem maxToMake_le (inEventLoop : Bool)
    (hspawn : inEventLoop = true → wp.runningChildren + nbToSpawn ≤ wp.config.val.pmMaxChildren) :
    wp.maxToMake inEventLoop nbToSpawn ≤ wp.config.val.pmMaxChildren := by
  have hone := wp.config.one_le_maxChildren
  unfold WorkerPool.maxToMake
  split
  · rename_i hdynamic
    split
    · exact hspawn ‹_›
    · exact wp.config.startServers_le hdynamic
  · split
    · exact hspawn ‹_›
    · omega
  · exact Int.le_refl _
  · exact Int.le_refl _

theorem grows_childrenMake (spawns : Nat → SpawnResult) (g : MasterGlobals) (h : wp.Accounted)
    (inEventLoop : Bool)
    (hspawn : inEventLoop = true → wp.runningChildren + nbToSpawn ≤ wp.config.val.pmMaxChildren) :
    Grows g wp (fpmChildrenMake spawns g wp inEventLoop nbToSpawn).2.1
      (fpmChildrenMake spawns g wp inEventLoop nbToSpawn).2.2 := by
  have hloop : Grows g wp _ _ :=
    grows_childrenMakeLoop spawns g h (maxToMake_le inEventLoop hspawn)
      (wp.maxToMake inEventLoop nbToSpawn - wp.runningChildren).toNat
  unfold fpmChildrenMake
  dsimp only
  split
  · refine ⟨hloop.only.trans makesOnly_warnProcessMax, hloop.config, hloop.accounted, ?_⟩
    rw [runningChildren_warnProcessMax]
    exact hloop.total
  · exact hloop

/-! ## The process managers -/

theorem grows_childrenMake_room (spawns : Nat → SpawnResult) (g : MasterGlobals)
    (h : wp.Accounted)
    (hroom : nbToSpawn ≤ wp.config.val.pmMaxChildren - wp.runningChildren) :
    Grows g wp (fpmChildrenMake spawns g { wp with warnMaxChildren := false } true nbToSpawn).2.1
      (fpmChildrenMake spawns g { wp with warnMaxChildren := false } true nbToSpawn).2.2 := by
  have hmake := grows_childrenMake spawns g (h.manage false wp.idleSpawnRate) true
    (fun _ => show wp.runningChildren + nbToSpawn ≤ wp.config.val.pmMaxChildren by omega)
  exact ⟨hmake.only, hmake.config, hmake.accounted, hmake.total⟩

theorem grows_spawnSpare (h : wp.Accounted) (idle : Int) :
    Grows g wp (fpmPctlMaintainPool.spawnSpare spawns idle g wp).1
      (fpmPctlMaintainPool.spawnSpare spawns idle g wp).2 := by
  unfold fpmPctlMaintainPool.spawnSpare
  dsimp only
  split
  · split
    · exact .of_accounted (h.manage true 1) rfl rfl
    · have hmake := grows_childrenMake_room spawns g h
        (minOf_le_right (minOf wp.idleSpawnRate (wp.config.val.pmMinSpareServers - idle))
          (wp.config.val.pmMaxChildren - wp.runningChildren))
      split
      · exact ⟨hmake.only, hmake.config, hmake.accounted.manage _ _, hmake.total⟩
      · exact hmake
  · exact .of_accounted (h.manage _ 1) rfl rfl

theorem grows_maintainPool (spawns : Nat → SpawnResult) (g : MasterGlobals) (h : wp.Accounted) :
    Grows g wp (fpmPctlMaintainPool spawns g wp).1 (fpmPctlMaintainPool spawns g wp).2 := by
  unfold fpmPctlMaintainPool
  dsimp only
  split
  · split
    · exact .refl h
    · split
      · exact .of_accounted (h.idleKill _) rfl rfl
      · exact .refl h
  · split
    · rename_i child hlast
      split
      · exact .of_accounted ((h.idleKill child).manage _ 1) rfl rfl
      · exact grows_spawnSpare h _
    · exact grows_spawnSpare h _
  · exact .refl h
  · exact .refl h

theorem grows_onSocketAccept (h : wp.Accounted) :
    Grows g wp (fpmPctlOnSocketAccept spawns g wp).1 (fpmPctlOnSocketAccept spawns g wp).2 := by
  unfold fpmPctlOnSocketAccept
  split
  · exact .of_accounted (h.manage true _) rfl rfl
  · split
    · exact .refl h
    · exact grows_childrenMake_room spawns g h (by omega)

/-! ## All pools -/

def totalChildren : List WorkerPool → Int
  | [] => 0
  | wp :: pools => wp.runningChildren + totalChildren pools

theorem totalChildren_append (pools pools' : List WorkerPool) :
    totalChildren (pools ++ pools') = totalChildren pools + totalChildren pools' := by
  induction pools with
  | nil => exact (Int.zero_add _).symm
  | cons wp pools ih => rw [cons_append, totalChildren, totalChildren, ih, Int.add_assoc]

/-- The pools agree with themselves, and with the count of all children. -/
structure Counted (g : MasterGlobals) (pools : List WorkerPool) : Prop where
  accounted : ∀ wp ∈ pools, wp.Accounted
  total : g.runningChildren = totalChildren pools
  processMax : 1 ≤ g.config.processMax → g.runningChildren ≤ g.config.processMax

theorem totalChildren_nonneg (h : ∀ wp ∈ pools, wp.Accounted) : 0 ≤ totalChildren pools := by
  induction pools with
  | nil => exact Int.le_refl 0
  | cons wp pools ih =>
    have hwp := (h wp mem_cons_self).nonneg
    have hpools := ih fun wp hwp => h wp (mem_cons_of_mem _ hwp)
    rw [totalChildren]
    omega

theorem Counted.replace {before behind : List WorkerPool} (h : Counted g (before ++ wp :: behind))
    (haccounted : wp'.Accounted) (hconfig : g'.config = g.config)
    (htotal : g'.runningChildren + wp.runningChildren = g.runningChildren + wp'.runningChildren)
    (hprocess : 1 ≤ g.config.processMax → g.runningChildren ≤ g.config.processMax →
      g'.runningChildren ≤ g.config.processMax) :
    Counted g' (before ++ wp' :: behind) where
  accounted wp₁ hwp₁ := by
    rcases mem_append.mp hwp₁ with hbefore | hrest
    · exact h.accounted wp₁ (mem_append_left _ hbefore)
    · rcases mem_cons.mp hrest with rfl | hbehind
      · exact haccounted
      · exact h.accounted wp₁ (mem_append_right _ (mem_cons_of_mem _ hbehind))
  total := by
    have hbefore := h.total
    rw [totalChildren_append, totalChildren] at hbefore ⊢
    omega
  processMax hset := by
    rw [hconfig] at hset ⊢
    exact hprocess hset (h.processMax hset)

theorem Counted.grow {before behind : List WorkerPool} (h : Counted g (before ++ wp :: behind))
    (hgrows : Grows g wp g' wp') : Counted g' (before ++ wp' :: behind) :=
  h.replace hgrows.accounted hgrows.only.config hgrows.total hgrows.only.processMax

theorem Counted.mem {before behind : List WorkerPool} (h : Counted g (before ++ wp :: behind)) :
    wp.Accounted :=
  h.accounted wp (mem_append_right _ mem_cons_self)

theorem Counted.congr (h : Counted g pools) (hconfig : g'.config = g.config)
    (hrunning : g'.runningChildren = g.runningChildren) : Counted g' pools where
  accounted := h.accounted
  total := hrunning.trans h.total
  processMax := by
    rw [hconfig, hrunning]
    exact h.processMax

/-- What the state machine leaves alone. -/
structure MasterGlobals.SameCounts (g g' : MasterGlobals) : Prop where
  config : g'.config = g.config
  runningChildren : g'.runningChildren = g.runningChildren
  created : g'.created = g.created

namespace MasterGlobals

theorem SameCounts.refl (g : MasterGlobals) : g.SameCounts g := ⟨rfl, rfl, rfl⟩

theorem SameCounts.trans {g₁ g₂ g₃ : MasterGlobals} (h : g₁.SameCounts g₂)
    (h' : g₂.SameCounts g₃) : g₁.SameCounts g₃ :=
  ⟨h'.config.trans h.config, h'.runningChildren.trans h.runningChildren,
    h'.created.trans h.created⟩

theorem sameCounts_actionLast (g : MasterGlobals) : g.SameCounts g.fpmPctlActionLast := by
  unfold fpmPctlActionLast
  split <;> exact ⟨rfl, rfl, rfl⟩

theorem sameCounts_actionNext (g : MasterGlobals) : g.SameCounts g.fpmPctlActionNext := by
  unfold fpmPctlActionNext
  dsimp only
  set g' := if g.runningChildren = 0 then g.fpmPctlActionLast else g with hg'
  have hlast : g.SameCounts g' := by
    rw [hg']
    split
    · exact sameCounts_actionLast g
    · exact .refl g
  split
  · exact hlast.trans ⟨rfl, rfl, rfl⟩
  · exact hlast

theorem sameCounts_pctl (g : MasterGlobals) (action : PctlAction) :
    g.SameCounts (g.fpmPctl action) := by
  cases action with
  | set newState =>
    unfold fpmPctl
    dsimp only
    split
    · exact .refl g
    · split
      · have henter : g.SameCounts (g.enterState newState) := ⟨rfl, rfl, rfl⟩
        exact henter.trans (sameCounts_actionNext _)
      · exact .refl g
  | timeout => exact sameCounts_actionNext g
  | lastChildExited => exact sameCounts_actionLast g

theorem sameCounts_childExited (g : MasterGlobals) : g.SameCounts g.fpmPctlChildExited := by
  unfold fpmPctlChildExited
  split
  · exact .refl g
  · split
    · exact sameCounts_pctl g _
    · exact .refl g

theorem sameCounts_emergencyRestart (g : MasterGlobals) (status : WaitStatus) :
    g.SameCounts (g.emergencyRestart status) := by
  unfold emergencyRestart
  split
  · exact .refl g
  · split
    · rename_i faults _ _
      have hrecord : g.SameCounts (g.recordFault faults) := ⟨rfl, rfl, rfl⟩
      dsimp only
      split
      · exact hrecord.trans (sameCounts_pctl _ _)
      · exact hrecord
    · exact .refl g

theorem fpmLogOpen_eq (g : MasterGlobals) (pools : List WorkerPool) (opened : List Bool) :
    ∃ n, g.fpmLogOpen pools opened =
      { g with killed := List.replicate n ⟨g.fpmState, .sigquit, .fpmLogOpen⟩ ++ g.killed } := by
  -- induction on the pools
  induction pools generalizing g opened with
  | nil => exact ⟨0, rfl⟩
  | cons wp pools ih =>
    unfold fpmLogOpen
    split
    · exact ih g _
    · rename_i opened _
      obtain ⟨n, hn⟩ := ih (g.fpmPctlKillAll .sigquit .fpmLogOpen) opened
      refine ⟨n + 1, ?_⟩
      rw [hn, replicate_succ', append_assoc]
      rfl
    · exact ⟨0, rfl⟩

theorem sameCounts_gotSignal (g : MasterGlobals) (pools : List WorkerPool) (s : MasterSignal) :
    g.SameCounts (g.fpmGotSignal pools s) := by
  cases s with
  | sigint => exact sameCounts_pctl g (.set .terminating)
  | sigterm => exact sameCounts_pctl g (.set .terminating)
  | sigquit => exact sameCounts_pctl g (.set .finishing)
  | sigusr1 opened =>
    obtain ⟨n, hopen⟩ := g.fpmLogOpen_eq pools opened
    rw [fpmGotSignal, hopen]
    exact ⟨rfl, rfl, rfl⟩
  | sigusr2 => exact sameCounts_pctl g (.set .reloading)

end MasterGlobals

theorem Counted.same (h : Counted g pools) (hsame : g.SameCounts g') : Counted g' pools :=
  h.congr hsame.config hsame.runningChildren

theorem splitAtPid_eq_some {pid : Nat} {before behind : List WorkerPool} {child : FpmChild}
    (h : splitAtPid pid pools = some (before, wp, child, behind)) :
    pools = before ++ wp :: behind ∧ child ∈ wp.children := by
  -- induction on the pools, up to the one that has the child
  induction pools generalizing before with
  | nil => cases h
  | cons wp₁ pools ih =>
    rw [splitAtPid] at h
    split at h
    · rename_i found hfound
      obtain ⟨rfl, rfl, rfl, rfl⟩ : [] = before ∧ wp₁ = wp ∧ found = child ∧ pools = behind := by
        simpa using h
      exact ⟨rfl, mem_of_find?_eq_some hfound⟩
    · obtain ⟨⟨before', wp', child', behind'⟩, hsplit, heq⟩ := map_eq_some_iff.mp h
      obtain ⟨rfl, rfl, rfl, rfl⟩ :
          wp₁ :: before' = before ∧ wp' = wp ∧ child' = child ∧ behind' = behind := by
        simpa using heq
      obtain ⟨hpools, hchild⟩ := ih hsplit
      exact ⟨by rw [hpools, cons_append], hchild⟩

/-! ## Children that come and go -/

theorem Counted.unlink {before behind : List WorkerPool} {child : FpmChild}
    (h : Counted g (before ++ wp :: behind)) (hchild : child ∈ wp.children) :
    Counted { g with runningChildren := g.runningChildren - 1 }
      (before ++ (wp.fpmChildUnlink child).fpmScoreboardProcFree child.scoreboardI :: behind) := by
  refine h.replace (h.mem.unlink hchild) rfl ?_ fun _ hle => ?_
  · simp only [WorkerPool.fpmScoreboardProcFree, WorkerPool.fpmChildUnlink]
    omega
  · dsimp only
    omega

theorem Counted.childExited
    (h : Counted { g with runningChildren := g.runningChildren - 1 } pools)
    (status : WaitStatus) : Counted (g.childExited status) pools := by
  have hexited := h.same (MasterGlobals.sameCounts_childExited _)
  unfold MasterGlobals.childExited
  dsimp only
  split
  · exact hexited.same (MasterGlobals.sameCounts_emergencyRestart _ status)
  · exact hexited

theorem Counted.grows_restart {before behind : List WorkerPool} {child : FpmChild}
    (h : Counted g (before ++ wp :: behind)) (hchild : child ∈ wp.children) (status : WaitStatus) :
    let gone := (wp.fpmChildUnlink child).fpmScoreboardProcFree child.scoreboardI
    let r := fpmChildrenMake spawns (g.childExited status) gone true 1
    Grows (g.childExited status) gone r.2.1 r.2.2 := by
  have hlimit := h.mem.limit
  apply grows_childrenMake spawns _ (h.mem.unlink hchild) true
  intro _
  simp only [WorkerPool.fpmScoreboardProcFree, WorkerPool.fpmChildUnlink]
  omega

theorem Counted.childBury (h : Counted m.globals m.pools) (pid : Nat) (status : WaitStatus) :
    Counted (m.fpmChildBury spawns pid status).globals
      (m.fpmChildBury spawns pid status).pools := by
  unfold Master.fpmChildBury
  split
  · exact h
  · split
    · exact h
    · rename_i before wp child behind hsplit
      obtain ⟨hpools, hchild⟩ := splitAtPid_eq_some hsplit
      rw [hpools] at h
      have hexited := (h.unlink hchild).childExited status
      dsimp only
      split
      · exact hexited.grow (h.grows_restart hchild status)
      · exact hexited

theorem Counted.childrenBury (h : Counted m.globals m.pools)
    (reports : List (Nat × WaitStatus)) :
    Counted (m.fpmChildrenBury spawns reports).globals
      (m.fpmChildrenBury spawns reports).pools := by
  -- induction on the reports
  induction reports generalizing m with
  | nil => exact h
  | cons report reports ih =>
    obtain ⟨pid, status⟩ := report
    rw [Master.fpmChildrenBury]
    split
    · exact ih (h.childBury pid status)
    · exact h

/-! ## The event loop -/

theorem Counted.maintainPools {before : List WorkerPool} (h : Counted g (before ++ pools)) :
    Counted (fpmPctlMaintainPools spawns g pools).1
      (before ++ (fpmPctlMaintainPools spawns g pools).2) := by
  -- induction on the pools, with those that have been looked after in front
  induction pools generalizing g before with
  | nil => exact h
  | cons wp pools ih =>
    rw [fpmPctlMaintainPools]
    have hgrow := h.grow (grows_maintainPool spawns g h.mem)
    rw [append_cons] at hgrow
    have hrest := ih hgrow
    rw [← append_cons] at hrest
    exact hrest

theorem Counted.eventFire (spawns : Nat → SpawnResult) (h : Counted m.globals m.pools)
    (timer : FpmTimer) :
    Counted (m.fpmEventFire spawns timer).globals (m.fpmEventFire spawns timer).pools := by
  cases timer with
  | heartbeat => exact h
  | idleServerMaintenance =>
    unfold Master.fpmEventFire
    dsimp only
    split
    · have hmaintain : Counted m.globals ([] ++ m.pools) := h
      exact hmaintain.maintainPools
    · exact h
  | pctl => exact h.same (m.globals.sameCounts_pctl .timeout)

theorem Counted.eventExpire (h : Counted m.globals m.pools) (timer : FpmTimer) :
    Counted (m.fpmEventExpire spawns timer).globals (m.fpmEventExpire spawns timer).pools := by
  have hfire := h.eventFire spawns timer
  unfold Master.fpmEventExpire
  dsimp only
  split
  · cases timer <;> exact hfire.congr rfl rfl
  · exact hfire

theorem Counted.onPool {f : MasterGlobals → WorkerPool → MasterGlobals × WorkerPool} {pool : Nat}
    (h : Counted m.globals m.pools)
    (hf : ∀ wp, wp.Accounted → Grows m.globals wp (f m.globals wp).1 (f m.globals wp).2)
    (hstep : m.onPool f pool = some m') : Counted m'.globals m'.pools := by
  obtain ⟨wp, hwp, rfl⟩ := map_eq_some_iff.mp hstep
  obtain ⟨hlt, rfl⟩ := List.getElem?_eq_some_iff.mp hwp
  have hsplit : m.pools = m.pools.take pool ++ m.pools[pool] :: m.pools.drop (pool + 1) := by
    rw [← drop_eq_getElem_cons hlt, take_append_drop]
  dsimp only
  rw [set_eq_take_append_cons_drop, if_pos hlt]
  rw [hsplit] at h
  exact h.grow (hf _ h.mem)

theorem Counted.step {e : MasterEvent} (h : Counted m.globals m.pools)
    (hstep : (masterSystem spawns).step m e = some m') : Counted m'.globals m'.pools := by
  simp only [masterSystem, Master.step] at hstep
  split at hstep
  · cases e with
    | signal s =>
      obtain rfl := some.inj hstep
      exact h.same (m.globals.sameCounts_gotSignal m.pools s)
    | sigchld reports =>
      obtain rfl := some.inj hstep
      exact h.childrenBury reports
    | expire timer =>
      dsimp only at hstep
      split at hstep
      · obtain rfl := some.inj hstep
        exact h.eventExpire timer
      · cases hstep
    | socketAccept pool =>
      refine h.onPool (fun wp hwp => ?_) hstep
      split
      · exact grows_onSocketAccept hwp
      · exact .refl hwp
    | hook pool slot proc =>
      refine h.onPool (fun wp hwp => ?_) hstep
      have hupdate : WorkerPool.Accounted
          { wp with scoreboard := wp.scoreboard.update slot fun _ => proc } :=
        hwp.congr rfl rfl rfl (fun _ hheld => hheld.update slot _) SlotTable.size_update
      exact .of_accounted hupdate rfl rfl
    | elapse n =>
      obtain rfl := some.inj hstep
      exact h.congr rfl rfl
  · cases hstep

/-! ## The start -/

theorem grows_childrenCreateInitial (spawns : Nat → SpawnResult) (g : MasterGlobals)
    (h : wp.Accounted) :
    Grows g wp (fpmChildrenCreateInitial spawns g wp).2.1
      (fpmChildrenCreateInitial spawns g wp).2.2 := by
  unfold fpmChildrenCreateInitial
  split
  · exact .refl h
  · exact grows_childrenMake spawns g h false fun hloop => Bool.noConfusion hloop

theorem counted_runLoop (spawns : Nat → SpawnResult) {before : List WorkerPool}
    (h : Counted g (before ++ pools)) :
    Counted (fpmRunLoop spawns g pools).2.1 (before ++ (fpmRunLoop spawns g pools).2.2) := by
  -- induction on the pools, with those that have their children in front
  induction pools generalizing g before with
  | nil => exact h
  | cons wp pools ih =>
    have hgrow := h.grow (grows_childrenCreateInitial spawns g h.mem)
    rw [fpmRunLoop]
    dsimp only
    split
    · exact hgrow.same (MasterGlobals.sameCounts_pctl _ (.set .terminating))
    · rw [append_cons] at hgrow
      have hrest := ih hgrow
      rw [← append_cons] at hrest
      exact hrest

theorem accounted_of_mem_alloc {configs : List ValidConfig}
    (hwp : wp ∈ configs.map fpmWorkerPoolAlloc) : wp.Accounted := by
  obtain ⟨config, -, rfl⟩ := List.mem_map.mp hwp
  exact WorkerPool.accounted_alloc config

theorem counted_run (spawns : Nat → SpawnResult) (config : FpmGlobalConfig)
    (configs : List ValidConfig) :
    Counted (fpmRun spawns config configs).globals (fpmRun spawns config configs).pools := by
  have hinit : Counted (fpmInit config) ([] ++ configs.map fpmWorkerPoolAlloc) := by
    refine ⟨fun _ hwp => accounted_of_mem_alloc hwp, ?_, fun hset => ?_⟩
    · -- no pool has a child
      have hzero : totalChildren (configs.map fpmWorkerPoolAlloc) = 0 := by
        induction configs with
        | nil => rfl
        | cons c configs ih =>
          rw [map_cons, totalChildren, ih]
          rfl
      exact hzero.symm
    · show (0 : Int) ≤ config.processMax
      have hpos : 1 ≤ config.processMax := hset
      omega
  have hloop := counted_runLoop spawns hinit
  unfold fpmRun MasterGlobals.startTimers
  dsimp only
  split <;> split <;> exact hloop.congr rfl rfl

/-! ## Runs -/

/-- The property: the counts are those of the lists and within their limits, the slots in use are
those of the children, one for each, and there is a slot wherever there is room for a child. -/
structure Accounting (m : Master) : Prop where
  running : ∀ wp ∈ m.pools, wp.runningChildren = wp.children.length
  total : m.globals.runningChildren = totalChildren m.pools
  limit : ∀ wp ∈ m.pools, wp.runningChildren ≤ wp.config.val.pmMaxChildren
  processMax : 1 ≤ m.globals.config.processMax →
    m.globals.runningChildren ≤ m.globals.config.processMax
  inRange : ∀ wp ∈ m.pools, ∀ child ∈ wp.children, child.scoreboardI < wp.scoreboard.size
  distinct : ∀ wp ∈ m.pools, (wp.children.map (·.scoreboardI)).Nodup
  used : ∀ wp ∈ m.pools, ∀ i, (∃ proc, wp.scoreboard.slots[i]? = some (some proc)) ↔
    ∃ child ∈ wp.children, child.scoreboardI = i
  allocates : ∀ wp ∈ m.pools, wp.runningChildren < wp.config.val.pmMaxChildren →
    ∃ i scoreboard, wp.scoreboard.alloc .zero = some (i, scoreboard)

theorem Counted.accounting (h : Counted m.globals m.pools) : Accounting m where
  running wp hwp := (h.accounted wp hwp).running
  total := h.total
  limit wp hwp := (h.accounted wp hwp).limit
  processMax := h.processMax
  inRange wp hwp child hchild :=
    (h.accounted wp hwp).slots.lt_size (mem_map_of_mem hchild)
  distinct wp hwp := (h.accounted wp hwp).slots.nodup
  used wp hwp i := by
    rw [← (h.accounted wp hwp).slots.mem_iff i, List.mem_map]
  allocates wp hwp hlt := (h.accounted wp hwp).exists_alloc hlt

/-- **Whatever happens to the master**, what it counts is what it has. -/
theorem accounting_of_run {config : FpmGlobalConfig} {configs : List ValidConfig}
    {es : List MasterEvent}
    (hrun : (masterSystem spawns).FreeRun (fpmRun spawns config configs) es m) :
    Accounting m := by
  have hpres : ∀ (m : Master) (e : MasterEvent) (m' : Master), Counted m.globals m.pools → True →
      (masterSystem spawns).step m e = some m' → Counted m'.globals m'.pools :=
    fun _ _ _ h _ hstep => h.step hstep
  exact (hrun.invariant hpres (counted_run spawns config configs)).accounting

def staticPool : ValidConfig :=
  ⟨⟨"www", .static, 2, 0, 0, 0, 10, none⟩, false, ⟨"www", .static, 2, 0, 0, 0, 10, none⟩,
    by decide⟩

/-- Two children are made, one of them exits, and the fork of another one fails. -/
theorem accounting_of_run_failed : ∃ m,
    (masterSystem fun n => if n = 2 then .forkFailed else .forked (100 + n)).FreeRun
      (fpmRun (fun n => if n = 2 then .forkFailed else .forked (100 + n)) ⟨0, 0, 0, 0, 0⟩
        [staticPool]) [.sigchld [(100, .exited 0)]] m ∧
    m.pools.map (·.children) = [[⟨101, 0, false, 1⟩]] ∧ Accounting m := by
  have hexec : ((masterSystem fun n => if n = 2 then .forkFailed else .forked (100 + n)).exec
      (fpmRun (fun n => if n = 2 then .forkFailed else .forked (100 + n)) ⟨0, 0, 0, 0, 0⟩
        [staticPool]) [.sigchld [(100, .exited 0)]]).map (fun m => m.pools.map (·.children)) =
      some [[⟨101, 0, false, 1⟩]] := by decide
  obtain ⟨m, hexec, hm⟩ := map_eq_some_iff.mp hexec
  have hrun := EventSystem.run_of_exec hexec
  exact ⟨m, hrun, hm, accounting_of_run hrun⟩

end Phpce
