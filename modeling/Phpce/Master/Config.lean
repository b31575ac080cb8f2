import Mathlib.Data.Int.Basic

/-!
# The configuration of a pool

`fpm_conf_process_all_pools` checks the settings of each pool's process manager before anything is
started, and fills in those that it does not leave to the user. The master works with a
configuration that has passed.

* **`ValidConfig.startServers_le`** — no pool starts with more children than it may have.
-/

namespace Phpce

/-- `PM_STYLE_STATIC` and the others; `unset` is the 0 of a pool without the setting. -/
inductive PmStyle where
  | unset
  | static
  | dynamic
  | ondemand
  deriving DecidableEq, Repr

/-- The settings of `fpm_worker_pool_config_s` that say how many children a pool has, and its access
log. -/
structure PoolConfig where
  name : String
  pm : PmStyle
  pmMaxChildren : Int
  pmStartServers : Int
  pmMinSpareServers : Int
  pmMaxSpareServers : Int
  pmProcessIdleTimeout : Int
  accessLog : Option String
  deriving DecidableEq, Repr

/-- The checks of `fpm_conf_process_all_pools` for the process manager of one pool.
`edgeTrigger` is `fpm_event_support_edge_trigger`. -/
def fpmConfProcessPool (edgeTrigger : Bool) (c : PoolConfig) : Except String PoolConfig :=
  if c.pm = .unset then
    .error s!"[pool {c.name}] the process manager is missing (static, dynamic or ondemand)"
  else if c.pmMaxChildren < 1 then
    .error s!"[pool {c.name}] pm.max_children must be a positive value"
  else if c.pm = .dynamic then
    if c.pmMinSpareServers ≤ 0 then
      .error (s!"[pool {c.name}] pm.min_spare_servers({c.pmMinSpareServers}) " ++
        "must be a positive value")
    else if c.pmMaxSpareServers ≤ 0 then
      .error (s!"[pool {c.name}] pm.max_spare_servers({c.pmMaxSpareServers}) " ++
        "must be a positive value")
    else if c.pmMaxChildren < c.pmMinSpareServers ∨ c.pmMaxChildren < c.pmMaxSpareServers then
      .error (s!"[pool {c.name}] pm.min_spare_servers({c.pmMinSpareServers}) and " ++
        s!"pm.max_spare_servers({c.pmMaxSpareServers}) cannot be greater than " ++
        s!"pm.max_children({c.pmMaxChildren})")
    else if c.pmMaxSpareServers < c.pmMinSpareServers then
      .error (s!"[pool {c.name}] pm.max_spare_servers({c.pmMaxSpareServers}) must not be less " ++
        s!"than pm.min_spare_servers({c.pmMinSpareServers})")
    else if c.pmStartServers ≤ 0 then
      .ok
        { c with
          pmStartServers := c.pmMinSpareServers + (c.pmMaxSpareServers - c.pmMinSpareServers) / 2 }
    else if c.pmStartServers < c.pmMinSpareServers ∨ c.pmMaxSpareServers < c.pmStartServers then
      .error (s!"[pool {c.name}] pm.start_servers({c.pmStartServers}) must not be less than " ++
        s!"pm.min_spare_servers({c.pmMinSpareServers}) and not greater than " ++
        s!"pm.max_spare_servers({c.pmMaxSpareServers})")
    else .ok c
  else if c.pm = .ondemand then
    if edgeTrigger = false then
      .error (s!"[pool {c.name}] ondemand process manager can ONLY be used when " ++
        "events.mechanisme is either epoll (Linux) or kqueue (*BSD).")
    else if c.pmProcessIdleTimeout < 1 then
      .error (s!"[pool {c.name}] pm.process_idle_timeout({c.pmProcessIdleTimeout}s) must be " ++
        "greater than 0s")
    else .ok { c with pmStartServers := 0, pmMinSpareServers := 0, pmMaxSpareServers := 0 }
  else .ok c

def ValidConfig : Type :=
  { c : PoolConfig // ∃ edgeTrigger raw, fpmConfProcessPool edgeTrigger raw = .ok c }

namespace ValidConfig

theorem not_and_ok_of_check {p : Prop} [Decidable p] {e : String} {rest : Except String PoolConfig}
    {c : PoolConfig} (h : (if p then .error e else rest) = .ok c) : ¬p ∧ rest = .ok c := by
  split at h
  · cases h
  · exact ⟨‹_›, h⟩

theorem fpmConfProcessPool_ok {edgeTrigger : Bool} {raw c : PoolConfig}
    (h : fpmConfProcessPool edgeTrigger raw = .ok c) :
    1 ≤ c.pmMaxChildren ∧ (c.pm = .dynamic → c.pmStartServers ≤ c.pmMaxChildren) := by
  unfold fpmConfProcessPool at h
  obtain ⟨-, h⟩ := not_and_ok_of_check h
  obtain ⟨hmax, h⟩ := not_and_ok_of_check h
  by_cases hdynamic : raw.pm = .dynamic
  · rw [if_pos hdynamic] at h
    obtain ⟨-, h⟩ := not_and_ok_of_check h
    obtain ⟨-, h⟩ := not_and_ok_of_check h
    obtain ⟨hspare, h⟩ := not_and_ok_of_check h
    obtain ⟨horder, h⟩ := not_and_ok_of_check h
    by_cases hstart : raw.pmStartServers ≤ 0
    · -- the default lies between the spare servers
      rw [if_pos hstart] at h
      obtain rfl := Except.ok.inj h
      have hdefault : raw.pmMinSpareServers + (raw.pmMaxSpareServers - raw.pmMinSpareServers) / 2 ≤
          raw.pmMaxChildren := by omega
      exact ⟨show 1 ≤ raw.pmMaxChildren from by omega, fun _ => hdefault⟩
    · rw [if_neg hstart] at h
      obtain ⟨hbetween, h⟩ := not_and_ok_of_check h
      obtain rfl := Except.ok.inj h
      exact ⟨by omega, fun _ => by omega⟩
  · rw [if_neg hdynamic] at h
    by_cases hondemand : raw.pm = .ondemand
    · rw [if_pos hondemand] at h
      obtain ⟨-, h⟩ := not_and_ok_of_check h
      obtain ⟨-, h⟩ := not_and_ok_of_check h
      obtain rfl := Except.ok.inj h
      exact ⟨show 1 ≤ raw.pmMaxChildren from by omega, fun hpm => absurd hpm hdynamic⟩
    · rw [if_neg hondemand] at h
      obtain rfl := Except.ok.inj h
      exact ⟨by omega, fun hpm => absurd hpm hdynamic⟩

variable (c : ValidConfig)

theorem one_le_maxChildren : 1 ≤ c.val.pmMaxChildren := by
  obtain ⟨edgeTrigger, raw, hok⟩ := c.property
  exact (fpmConfProcessPool_ok hok).1

theorem startServers_le (h : c.val.pm = .dynamic) : c.val.pmStartServers ≤ c.val.pmMaxChildren := by
  obtain ⟨edgeTrigger, raw, hok⟩ := c.property
  exact (fpmConfProcessPool_ok hok).2 h

end ValidConfig

end Phpce
