import Phpce.Realpath.Resolution

/-!
# The realpath cache is transparent

The entries of a cache are *good* when they answer every task that may look them up as resolving
with nothing cached does. Resolving keeps a good cache good as long as it does not go through a link
whose target is missing in a mode that tolerates this (`tsrmRealpathR_of_good`), and its answer is
the one that `Resolves` gives, unless more than `LINK_MAX` links are followed. So each call of a run
returns what it would without a cache (`results_eq`), when no call's path goes through a dangling
link or takes more links than that.
-/

namespace Phpce.Realpath

open List

/-! ## The cache -/

namespace RealpathCache

variable {c c' : RealpathCache} {path q : Path} {t ttl : Int}

def Sub (c' c : RealpathCache) : Prop := ∀ n, ∀ b ∈ c'.chain n, b ∈ c.chain n

theorem Sub.refl (c : RealpathCache) : c.Sub c := fun _ _ h => h

theorem mem_findIn (key : UInt64) (chain : List RealpathCacheBucket) :
    (∀ b ∈ (findIn key path ttl t chain).2.1, b ∈ chain) ∧
      ∀ b, (findIn key path ttl t chain).1 = some b → b.path = path ∧ b ∈ chain := by
  -- induction on the chain
  induction chain with
  | nil => exact ⟨fun _ h => h, fun b h => absurd h (by simp [findIn])⟩
  | cons bucket next ih =>
    unfold findIn
    split
    · exact ⟨fun b hb => mem_cons_of_mem _ (ih.1 b hb),
        fun b hb => ⟨(ih.2 b hb).1, mem_cons_of_mem _ (ih.2 b hb).2⟩⟩
    · split
      · rename_i heq
        refine ⟨fun _ h => h, fun b hb => ?_⟩
        obtain rfl := Option.some.inj hb
        exact ⟨heq.2.symm, mem_cons_self⟩
      · refine ⟨fun b hb => ?_, fun b hb =>
          ⟨(ih.2 b hb).1, mem_cons_of_mem _ (ih.2 b hb).2⟩⟩
        rcases mem_cons.mp hb with rfl | hb
        · exact mem_cons_self
        · exact mem_cons_of_mem _ (ih.1 b hb)

theorem sub_realpathCacheFind (c : RealpathCache) (path : Path) (t : Int) :
    (c.realpathCacheFind path t).2.Sub c := by
  intro n b hb
  dsimp only [realpathCacheFind, Function.update] at hb
  split at hb
  · rename_i hn
    subst hn
    exact (mem_findIn _ _).1 b hb
  · exact hb

theorem mem_of_realpathCacheFind {b : RealpathCacheBucket}
    (h : (c.realpathCacheFind path t).1 = some b) : b.path = path ∧ ∃ n, b ∈ c.chain n := by
  obtain ⟨hpath, hmem⟩ := (mem_findIn _ _).2 b h
  exact ⟨hpath, _, hmem⟩

theorem mem_realpathCacheAdd {directory : Bool} {n : UInt64} {b : RealpathCacheBucket}
    (h : b ∈ (c.realpathCacheAdd path q directory t).chain n) :
    b ∈ c.chain n ∨ b.path = path ∧ b.realpath = q ∧ b.isDir = directory := by
  unfold realpathCacheAdd at h
  dsimp only at h
  split at h
  · dsimp only [Function.update] at h
    split at h
    · rename_i hn
      subst hn
      rcases mem_cons.mp h with rfl | h
      · exact .inr ⟨rfl, rfl, rfl⟩
      · exact .inl h
    · exact .inl h
  · exact .inl h

/-- The entries answer every task that looks them up. -/
def Good (fs : FileSystem) (c : RealpathCache) : Prop :=
  ∀ n, ∀ b ∈ c.chain n, Answers fs b.path b.realpath b.isDir

theorem Good.mono {fs : FileSystem} (h : c.Good fs) (hsub : c'.Sub c) : c'.Good fs :=
  fun n b hb => h n b (hsub n b hb)

theorem Good.add {fs : FileSystem} {directory : Bool} (h : c.Good fs)
    (hans : Answers fs path q directory) : (c.realpathCacheAdd path q directory t).Good fs := by
  intro n b hb
  rcases mem_realpathCacheAdd hb with hb | ⟨rfl, rfl, rfl⟩
  · exact h n b hb
  · exact hans

theorem good_empty (fs : FileSystem) (sizeLimit ttl : Int) : (empty sizeLimit ttl).Good fs :=
  fun _ _ hb => absurd hb not_mem_nil

end RealpathCache

open RealpathCache

/-! ## What a call does -/

section

variable {fs : FileSystem} {t : Int} {task next : Task} {ll links n : Nat} {r : Resolved}
  {post : Resolved → Resolved} {c c' : RealpathCache}

abbrev resolve (fs : FileSystem) (t : Int) (task : Task) (ll : Nat) (c : RealpathCache) : Result :=
  tsrmRealpathR fs t task.path ll task.useRealpath task.isDir c

structure Saves (fs : FileSystem) (task : Task) : Prop where
  kind_eq : kind task.path = .name
  mode : task.useRealpath ≠ .expand
  lstat : fs.lstat task.path ≠ none

inductive Ran (fs : FileSystem) (t : Int) (task : Task) (ll : Nat) (c : RealpathCache) :
    Result → Prop where
  | hit {b : RealpathCacheBucket} (hmode : task.useRealpath ≠ .expand)
      (h : (c.realpathCacheFind task.path t).1 = some b) :
      Ran fs t task ll c
        ⟨answer task.isDir b.realpath b.isDir, ll, (c.realpathCacheFind task.path t).2⟩
  | stop {c' : RealpathCache} {r : Resolved} {ll' : Nat} (hsub : c'.Sub c)
      (h : fs.plan task = .stop r) : Ran fs t task ll c ⟨r, ll', c'⟩
  | tooMany {c' : RealpathCache} {next : Task} {post : Resolved → Resolved} {ll' : Nat}
      (hsub : c'.Sub c) (h : fs.plan task = .call next 1 post) (hll : LINK_MAX < ll + 1) :
      Ran fs t task ll c ⟨none, ll', c'⟩
  | call {c' : RealpathCache} {next : Task} {links : Nat} {post : Resolved → Resolved}
      {res : Result} (hsub : c'.Sub c) (h : fs.plan task = .call next links post)
      (hll : links = 1 → ll + 1 ≤ LINK_MAX)
      (hres : res.resolved = post (resolve fs t next (ll + links) c').resolved)
      (hcache : res.cache = (resolve fs t next (ll + links) c').cache ∨
        ∃ q directory, res.resolved = some (q, directory) ∧ Saves fs task ∧ res.cache =
            (resolve fs t next (ll + links) c').cache.realpathCacheAdd task.path q directory t) :
      Ran fs t task ll c res

theorem tsrmRealpathR_nil (useRealpath : UseRealpath) (isDir : Bool) :
    tsrmRealpathR fs t [] ll useRealpath isDir c = ⟨some ([], true), ll, c⟩ := by
  rw [tsrmRealpathR, if_pos rfl]

@[simp] theorem resolved_save (res : Result) (path : Path) (t : Int) :
    (res.save path t).resolved = res.resolved := by
  unfold Result.save
  split
  · rfl
  · split
    · rfl
    · rfl

theorem cache_save (res : Result) (hsaves : Saves fs task) :
    (res.save task.path t).cache = res.cache ∨
      ∃ q directory, (res.save task.path t).resolved = some (q, directory) ∧ Saves fs task ∧
        (res.save task.path t).cache = res.cache.realpathCacheAdd task.path q directory t := by
  rw [resolved_save]
  unfold Result.save
  split
  · exact .inl rfl
  · rename_i q directory hres
    split
    · exact .inr ⟨q, directory, hres, hsaves, rfl⟩
    · exact .inl rfl

theorem ran_name {path : Path} {mode : UseRealpath} {isDir : Bool} (hne : path ≠ [])
    (hsame : ¬(lastName path = [] ∨ lastName path = [dot])) (hdots : lastName path ≠ [dot, dot])
    (hsub : c'.Sub c)
    (hfind : (if mode ≠ .expand ∧ c.sizeLimit ≠ 0 then c.realpathCacheFind path t else (none, c)) =
      (none, c')) : Ran fs t ⟨path, mode, isDir⟩ ll c (resolve fs t ⟨path, mode, isDir⟩ ll c) := by
  have hk : kind path = .name := by
    rw [kind, if_neg hne, if_neg hsame, if_neg hdots]
  unfold resolve
  dsimp only
  rw [tsrmRealpathR, if_neg hne, if_neg hsame, if_neg hdots]
  dsimp only
  rw [hfind]
  dsimp only
  split
  · -- the file is not there, or was not asked for
    rename_i hstat
    have hplan : fs.plan ⟨path, mode, isDir⟩ = if mode = .realpath then .stop none else
        .call ⟨parent path, mode, true⟩ 0 (attach (lastName path) false) := by
      have hstat' : fs.stat path mode = none := hstat
      simp only [FileSystem.plan, hk, hstat']
    split
    · rename_i hmode
      rw [if_pos hmode] at hplan
      exact .stop hsub hplan
    · rename_i hmode
      rw [if_neg hmode] at hplan
      split
      · rename_i hroot
        refine .call hsub hplan (fun h => by cases h) ?_ (.inl ?_)
        · unfold resolve
          dsimp only
          rw [hroot, tsrmRealpathR_nil]
          rfl
        · unfold resolve
          dsimp only
          rw [hroot, tsrmRealpathR_nil]
      · exact .call hsub hplan (fun h => by cases h) rfl (.inl rfl)
  · rename_i hstat
    have hmode : mode ≠ .expand := by
      intro h
      rw [h] at hstat
      cases hstat
    have hsaves : Saves fs ⟨path, mode, isDir⟩ := by
      refine ⟨hk, hmode, ?_⟩
      rw [if_pos hmode] at hstat
      rw [hstat]
      exact Option.some_ne_none _
    have hplan : fs.plan ⟨path, mode, isDir⟩ = fs.planLink ⟨path, mode, isDir⟩ := by
      have hstat' : fs.stat path mode = some .link := hstat
      simp only [FileSystem.plan, hk, hstat']
    unfold FileSystem.planLink at hplan
    have hfollow : ((fs.readlink path).map (·.take MAXPATHLEN)).bind (linkTarget path) =
      fs.follow path := rfl
    rw [hfollow]
    cases htarget : fs.follow path with
    | none =>
      rw [htarget] at hplan
      split
      · exact .stop hsub hplan
      · exact .stop hsub hplan
    | some target =>
      rw [htarget] at hplan
      dsimp only at hplan ⊢
      split
      · rename_i hll
        exact .tooMany hsub hplan hll
      · rename_i hll
        have hcache := cache_save (t := t) (resolve fs t ⟨target, mode, isDir⟩ (ll + 1) c') hsaves
        have hres := resolved_save (resolve fs t ⟨target, mode, isDir⟩ (ll + 1) c') path t
        exact .call hsub hplan (fun _ => Nat.le_of_not_lt hll) hres hcache
  · rename_i type hlink hstat
    have hmode : mode ≠ .expand := by
      intro h
      rw [h] at hstat
      cases hstat
    have hsaves : Saves fs ⟨path, mode, isDir⟩ := by
      refine ⟨hk, hmode, ?_⟩
      rw [if_pos hmode] at hstat
      rw [hstat]
      exact Option.some_ne_none _
    have hplan : fs.plan ⟨path, mode, isDir⟩ = planFile ⟨path, mode, isDir⟩ (type = .dir) := by
      have hstat' : fs.stat path mode = some type := hstat
      cases type with
      | dir | other =>
        simp only [FileSystem.plan, hk, hstat']
        rfl
      | link => exact absurd rfl hlink
    split
    · rename_i hfail
      rw [planFile, if_pos hfail] at hplan
      exact .stop hsub hplan
    · rename_i hfail
      rw [planFile, if_neg hfail] at hplan
      have hroot : (if parent path = [] then ⟨some ([], true), ll, c'⟩
          else tsrmRealpathR fs t (parent path) ll .filepath true c') =
          tsrmRealpathR fs t (parent path) ll .filepath true c' := by
        split
        · rename_i hnil
          rw [hnil, tsrmRealpathR_nil]
        · rfl
      rw [hroot]
      have hres := resolved_save ⟨attach (lastName path) (type = .dir)
        (resolve fs t ⟨parent path, .filepath, true⟩ ll c').resolved,
        (resolve fs t ⟨parent path, .filepath, true⟩ ll c').ll,
        (resolve fs t ⟨parent path, .filepath, true⟩ ll c').cache⟩ path t
      have hcache := cache_save (t := t) ⟨attach (lastName path) (type = .dir)
        (resolve fs t ⟨parent path, .filepath, true⟩ ll c').resolved,
        (resolve fs t ⟨parent path, .filepath, true⟩ ll c').ll,
        (resolve fs t ⟨parent path, .filepath, true⟩ ll c').cache⟩ hsaves
      exact .call hsub hplan (fun h => by cases h) hres hcache

theorem ran (fs : FileSystem) (t : Int) (task : Task) (ll : Nat) (c : RealpathCache) :
    Ran fs t task ll c (resolve fs t task ll c) := by
  obtain ⟨path, mode, isDir⟩ := task
  by_cases hne : path = []
  · subst hne
    unfold resolve
    dsimp only
    rw [tsrmRealpathR_nil]
    exact .stop (.refl c) rfl
  by_cases hsame : lastName path = [] ∨ lastName path = [dot]
  · have hk : kind path = .same := by rw [kind, if_neg hne, if_pos hsame]
    have hplan : fs.plan ⟨path, mode, isDir⟩ = .call ⟨parent path, mode, true⟩ 0 id := by
      simp only [FileSystem.plan, hk]
    have heq : resolve fs t ⟨path, mode, isDir⟩ ll c =
        resolve fs t ⟨parent path, mode, true⟩ ll c := by
      unfold resolve
      dsimp only
      rw [tsrmRealpathR, if_neg hne, if_pos hsame]
    exact .call (.refl c) hplan (fun h => by cases h) (by rw [heq]; rfl) (.inl (by rw [heq]; rfl))
  by_cases hdots : lastName path = [dot, dot]
  · have hk : kind path = .dotdot := by rw [kind, if_neg hne, if_neg hsame, if_pos hdots]
    have hplan : fs.plan ⟨path, mode, isDir⟩ = .call ⟨parent path, mode, true⟩ 0 up := by
      simp only [FileSystem.plan, hk]
    have heq : resolve fs t ⟨path, mode, isDir⟩ ll c =
        { resolve fs t ⟨parent path, mode, true⟩ ll c with
          resolved := up (resolve fs t ⟨parent path, mode, true⟩ ll c).resolved } := by
      unfold resolve
      dsimp only
      rw [tsrmRealpathR, if_neg hne, if_neg hsame, if_pos hdots]
      split
      · rename_i hroot
        rw [hroot, tsrmRealpathR_nil]
        rfl
      · rfl
    exact .call (.refl c) hplan (fun h => by cases h) (by rw [heq]; rfl) (.inl (by rw [heq]; rfl))
  by_cases hlook : mode ≠ .expand ∧ c.sizeLimit ≠ 0
  · cases hfind : (c.realpathCacheFind path t).1 with
    | none =>
      refine ran_name hne hsame hdots (sub_realpathCacheFind c path t) ?_
      rw [if_pos hlook, ← hfind]
    | some b =>
      have heq : resolve fs t ⟨path, mode, isDir⟩ ll c =
          ⟨answer isDir b.realpath b.isDir, ll, (c.realpathCacheFind path t).2⟩ := by
        unfold resolve
        dsimp only
        rw [tsrmRealpathR, if_neg hne, if_neg hsame, if_neg hdots]
        dsimp only
        rw [if_pos hlook, hfind]
        dsimp only
        unfold answer
        split
        · rfl
        · rfl
      rw [heq]
      exact .hit hlook.1 hfind
  · exact ran_name hne hsame hdots (.refl c) (if_neg hlook)

/-! ## One resolution -/

/-- No link whose target is missing is met in the mode `CWD_FILEPATH`: that of the call, or that in
which `tsrm_realpath_r` resolves the parents of what exists. -/
def MeetsNoDangling (fs : FileSystem) (task : Task) : Prop :=
  ∀ next, Leads fs task next → next.useRealpath = .filepath → ¬Dangling fs next.path

theorem MeetsNoDangling.call (h : MeetsNoDangling fs task)
    (hplan : fs.plan task = .call next links post) : MeetsNoDangling fs next :=
  fun last hleads => h last (.head ⟨links, post, hplan⟩ hleads)

theorem MeetsNoDangling.of_call (hplan : fs.plan task = .call next links post)
    (h : ¬Dangling fs task.path) (hnext : MeetsNoDangling fs next) : MeetsNoDangling fs task := by
  intro last hleads hmode
  rcases hleads.cases_head with rfl | ⟨mid, ⟨links', post', hplan'⟩, hrest⟩
  · exact h
  · rw [hplan] at hplan'
    cases hplan'
    exact hnext last hrest hmode

theorem MeetsNoDangling.of_stop (hplan : fs.plan task = .stop r) (h : ¬Dangling fs task.path) :
    MeetsNoDangling fs task := by
  intro last hleads hmode
  rcases hleads.cases_head with rfl | ⟨mid, ⟨links', post', hplan'⟩, hrest⟩
  · exact h
  · rw [hplan] at hplan'
    cases hplan'

theorem answers_of_saves (h : Resolves fs task n r) {q : Path} {directory : Bool}
    (hr : r = some (q, directory)) (hsaves : Saves fs task) (hclean : MeetsNoDangling fs task) :
    Answers fs task.path q directory := by
  refine (h.anyMode hr hsaves.mode fun hmiss => ?_).2
  obtain ⟨path, mode, isDir⟩ := task
  obtain ⟨hk, hmode, hstat⟩ := hsaves
  dsimp only at hk hmode hstat hmiss
  cases mode with
  | expand => exact hmode rfl
  | realpath =>
    -- in this mode nothing would have been resolved
    rw [hmiss.eq_none h] at hr
    cases hr
  | filepath =>
    refine hclean _ .refl rfl ⟨?_, hmiss⟩
    cases hmiss with
    | absent _ habsent => exact absurd habsent hstat
    | same hsame _ | dotdot hsame _ =>
      rw [hk] at hsame
      cases hsame
    | link _ hlink _ _ => exact hlink

/-- The answer of a resolution that starts after `ll` links. -/
def Answered (fs : FileSystem) (task : Task) (ll : Nat) (r : Resolved) : Prop :=
  (∃ n, Resolves fs task n r) ∨ r = none ∧ ∀ n r', Resolves fs task n r' → LINK_MAX < ll + n

theorem Answered.call {r' : Resolved} (h : Answered fs next (ll + links) r')
    (hplan : fs.plan task = .call next links post) : Answered fs task ll (post r') := by
  rcases h with ⟨n, hres⟩ | ⟨rfl, hmany⟩
  · exact .inl ⟨n + links, .call hplan hres⟩
  · refine .inr ⟨(plan_call hplan).2, fun n r' hres => ?_⟩
    obtain ⟨n', r'', hrest, rfl, -⟩ := hres.of_call hplan
    have hlt := hmany n' r'' hrest
    omega

theorem tsrmRealpathR_of_good (t : Int) (task : Task) (ll : Nat) (c : RealpathCache)
    (hgood : c.Good fs) (hclean : MeetsNoDangling fs task) :
    (resolve fs t task ll c).cache.Good fs ∧
      Answered fs task ll (resolve fs t task ll c).resolved := by
  -- induction on the links that may still be followed, and on the length of the path
  have hrun := ran fs t task ll c
  generalize resolve fs t task ll c = res at hrun
  cases hrun with
  | @hit b hmode h =>
    obtain ⟨hpath, m, hmem⟩ := mem_of_realpathCacheFind h
    have hans := hgood m b hmem
    rw [hpath] at hans
    exact ⟨hgood.mono (sub_realpathCacheFind c task.path t), .inl (hans _ task.isDir hmode)⟩
  | stop hsub h => exact ⟨hgood.mono hsub, .inl ⟨0, .stop h⟩⟩
  | tooMany hsub h hll =>
    refine ⟨hgood.mono hsub, .inr ⟨rfl, fun n r' hres => ?_⟩⟩
    obtain ⟨n', r'', -, rfl, -⟩ := hres.of_call h
    omega
  | @call c' next links post _ hsub h hll hres hcache =>
    have hdec := (plan_call h).1
    obtain ⟨hgood', hans⟩ := tsrmRealpathR_of_good t next (ll + links) c' (hgood.mono hsub)
      (hclean.call h)
    have hanswered := hans.call h
    rw [← hres] at hanswered
    refine ⟨?_, hanswered⟩
    rcases hcache with heq | ⟨q, directory, hq, hsaves, heq⟩
    · rw [heq]
      exact hgood'
    · rw [heq]
      rcases hanswered with ⟨n, hn⟩ | ⟨hnone, -⟩
      · exact hgood'.add (answers_of_saves hn hq hsaves hclean)
      · rw [hnone] at hq
        cases hq
termination_by (LINK_MAX + 1 - ll, task.path.length)
decreasing_by
  rcases hdec with rfl | ⟨rfl, hlt⟩
  · have hle := hll rfl
    exact .left _ _ (by omega)
  · exact .right _ hlt

end

/-! ## Runs -/

variable {fs : FileSystem} {c c' : RealpathCache} {call : Call}

def Call.task (call : Call) : Task := ⟨call.path, call.useRealpath, false⟩

/-- The path fits into the buffer, and is resolved. -/
def Call.Fits (call : Call) : Prop := call.path.length + 1 < MAXPATHLEN - 1

/-- If following the links of the path ends at all, it ends after `LINK_MAX` at most. -/
def Call.FewLinks (fs : FileSystem) (call : Call) : Prop :=
  ∀ n r, Resolves fs call.task n r → n ≤ LINK_MAX

/-- Each call's result, one call after another with the cache that the last one left. -/
def results (fs : FileSystem) : RealpathCache → List Call → List (Option Path)
  | _, [] => []
  | c, call :: calls =>
      (virtualFileEx fs c call).1 :: results fs (virtualFileEx fs c call).2 calls

/-- The result with `realpath_cache_size_limit = 0`. -/
def uncached (fs : FileSystem) (ttl : Int) (call : Call) : Option Path :=
  (virtualFileEx fs (empty 0 ttl) call).1

theorem resolved_eq (t t' : Int) (hgood : c.Good fs) (hgood' : c'.Good fs)
    (hlinks : call.FewLinks fs) (hclean : MeetsNoDangling fs call.task) :
    (resolve fs t call.task 0 c).resolved = (resolve fs t' call.task 0 c').resolved := by
  have hans := (tsrmRealpathR_of_good t _ 0 c hgood hclean).2
  have hans' := (tsrmRealpathR_of_good t' _ 0 c' hgood' hclean).2
  have hfew : ∀ n r, Resolves fs call.task n r → ¬LINK_MAX < 0 + n := by
    intro n r hres
    have hle := hlinks n r hres
    omega
  rcases hans with ⟨n, hn⟩ | ⟨hnone, hmany⟩
  · rcases hans' with ⟨n', hn'⟩ | ⟨-, hmany'⟩
    · exact hn.unique hn'
    · exact absurd (hmany' n _ hn) (hfew n _ hn)
  · rcases hans' with ⟨n', hn'⟩ | ⟨hnone', -⟩
    · exact absurd (hmany n' _ hn') (hfew n' _ hn')
    · rw [hnone, hnone']

/-- The call reaches no dangling link and does not run out of links. -/
structure Call.Regular (fs : FileSystem) (call : Call) : Prop where
  fewLinks : call.FewLinks fs
  noDangling : MeetsNoDangling fs call.task

theorem virtualFileEx_of_good (hgood : c.Good fs) (hgood' : c'.Good fs)
    (h : call.Fits → call.Regular fs) :
    (virtualFileEx fs c call).2.Good fs ∧
      (virtualFileEx fs c call).1 = (virtualFileEx fs c' call).1 := by
  by_cases hfits : call.Fits
  · obtain ⟨hlinks, hclean⟩ := h hfits
    have hnot : ¬call.path.length + 1 ≥ MAXPATHLEN - 1 := Nat.not_le.mpr hfits
    have heq := resolved_eq (if c.ttl ≠ 0 then call.time else -1)
      (if c'.ttl ≠ 0 then call.time else -1) hgood hgood' hlinks hclean
    have hkeep := (tsrmRealpathR_of_good (if c.ttl ≠ 0 then call.time else -1) call.task 0 c hgood
      hclean).1
    unfold resolve Call.task at heq hkeep
    unfold virtualFileEx
    rw [if_neg hnot, if_neg hnot]
    dsimp only at heq hkeep ⊢
    rw [← heq]
    exact ⟨hkeep, rfl⟩
  · have hlong : call.path.length + 1 ≥ MAXPATHLEN - 1 := Nat.not_lt.mp hfits
    unfold virtualFileEx
    rw [if_pos hlong, if_pos hlong]
    exact ⟨hgood, rfl⟩

theorem results_of_good (ttl : Int) (calls : List Call)
    (h : ∀ call ∈ calls, call.Fits → call.Regular fs) (hgood : c.Good fs) :
    results fs c calls = calls.map (uncached fs ttl) := by
  -- induction on the calls, with any good cache
  induction calls generalizing c with
  | nil => rfl
  | cons call calls ih =>
    obtain ⟨hkeep, heq⟩ := virtualFileEx_of_good hgood (good_empty fs 0 ttl)
      (h call mem_cons_self)
    rw [results, map_cons, heq,
      ih (fun call' hmem => h call' (mem_cons_of_mem _ hmem)) hkeep]
    rfl

/-- **The cache is transparent** to calls that meet no dangling link and follow `LINK_MAX` links at
most. -/
theorem results_eq (fs : FileSystem) (sizeLimit ttl : Int) (calls : List Call)
    (h : ∀ call ∈ calls, call.Fits → call.Regular fs) :
    results fs (empty sizeLimit ttl) calls = calls.map (uncached fs ttl) :=
  results_of_good ttl calls h (good_empty fs sizeLimit ttl)

/-! ## A link and its target -/

/-- A link `/l` to `/x`, which is a directory or not there. -/
def linkFs (target : Option FileType) : FileSystem where
  lstat path := if path = [108] then some .link else if path = [120] then target else none
  readlink path := if path = [108] then some [47, 120] else none

def linkCall (useRealpath : UseRealpath) : Call where
  path := [108]
  verifyPath := none
  useRealpath := useRealpath
  time := 1

def linkCached : RealpathCache :=
  let c := ((empty 4194304 120).realpathCacheFind [108] 1).2
  (c.realpathCacheFind [120] 1).2.realpathCacheAdd [108] [120] false 1

theorem virtualFileEx_filepath :
    virtualFileEx (linkFs none) (empty 4194304 120) (linkCall .filepath) =
      (some [120], linkCached) := by
  have htarget : tsrmRealpathR (linkFs none) 1 [120] 1 .filepath false
      ((empty 4194304 120).realpathCacheFind [108] 1).2 = ⟨some ([120], false), 1,
        (((empty 4194304 120).realpathCacheFind [108] 1).2.realpathCacheFind [120] 1).2⟩ := by
    rw [tsrmRealpathR]
    rfl
  have hlink : tsrmRealpathR (linkFs none) 1 [108] 0 .filepath false (empty 4194304 120) =
      (tsrmRealpathR (linkFs none) 1 [120] 1 .filepath false
        ((empty 4194304 120).realpathCacheFind [108] 1).2).save [108] 1 := by
    rw [tsrmRealpathR]
    rfl
  rw [htarget] at hlink
  unfold virtualFileEx
  rw [if_neg (by decide)]
  let res := tsrmRealpathR (linkFs none) 1 [108] 0 .filepath false (empty 4194304 120)
  change (res.resolved.bind _, res.cache) = _
  unfold res
  rw [hlink]
  rfl

theorem virtualFileEx_realpath :
    (virtualFileEx (linkFs none) linkCached (linkCall .realpath)).1 = some [120] := by
  have hlink : (tsrmRealpathR (linkFs none) 1 [108] 0 .realpath false linkCached).resolved =
      some ([120], false) := by
    rw [tsrmRealpathR]
    rfl
  unfold virtualFileEx
  rw [if_neg (by decide)]
  change (tsrmRealpathR (linkFs none) 1 [108] 0 .realpath false linkCached).resolved.bind _ = _
  rw [hlink]
  rfl

theorem uncached_realpath : uncached (linkFs none) 120 (linkCall .realpath) = none := by
  have htarget : tsrmRealpathR (linkFs none) 1 [120] 1 .realpath false (empty 0 120) =
      ⟨none, 1, empty 0 120⟩ := by
    rw [tsrmRealpathR]
    rfl
  have hlink : tsrmRealpathR (linkFs none) 1 [108] 0 .realpath false (empty 0 120) =
      (tsrmRealpathR (linkFs none) 1 [120] 1 .realpath false (empty 0 120)).save [108] 1 := by
    rw [tsrmRealpathR]
    rfl
  rw [htarget] at hlink
  unfold uncached virtualFileEx
  rw [if_neg (by decide)]
  change (tsrmRealpathR (linkFs none) 1 [108] 0 .realpath false (empty 0 120)).resolved.bind _ = _
  rw [hlink]
  rfl

/-- A dangling link that was resolved with `CWD_FILEPATH` exists for `CWD_REALPATH`. -/
theorem not_transparent_linkFs :
    results (linkFs none) (empty 4194304 120) [linkCall .filepath, linkCall .realpath] ≠
      [linkCall .filepath, linkCall .realpath].map (uncached (linkFs none) 120) := by
  intro h
  unfold results results at h
  rw [virtualFileEx_filepath, virtualFileEx_realpath] at h
  have hsecond : some [120] = uncached (linkFs none) 120 (linkCall .realpath) := by
    injection h with _ h
    injection h
  rw [uncached_realpath] at hsecond
  cases hsecond

theorem regular_linkCall (useRealpath : UseRealpath) (h : useRealpath ≠ .expand) :
    (linkCall useRealpath).Regular (linkFs (some .dir)) := by
  have hlink : (linkFs (some .dir)).plan (linkCall useRealpath).task =
      .call ⟨[120], useRealpath, false⟩ 1 id := by
    cases useRealpath with
    | expand => exact absurd rfl h
    | filepath | realpath => rfl
  have htarget : (linkFs (some .dir)).plan ⟨[120], useRealpath, false⟩ =
      .call ⟨[], .filepath, true⟩ 0 (attach [120] true) := by
    cases useRealpath with
    | expand => exact absurd rfl h
    | filepath | realpath => rfl
  have hroot : (linkFs (some .dir)).plan ⟨[], .filepath, true⟩ = .stop (some ([], true)) := rfl
  have hexists : ¬Missing (linkFs (some .dir)) [120] := by
    intro hmiss
    cases hmiss with
    | absent _ hnone => cases hnone
    | same hk _ | dotdot hk _ => cases hk
    | link _ hlink _ _ => cases hlink
  have hdangling : ¬Dangling (linkFs (some .dir)) [108] := by
    rintro ⟨-, hmiss⟩
    cases hmiss with
    | absent _ hnone => cases hnone
    | same hk _ | dotdot hk _ => cases hk
    | link _ _ htarget h =>
      cases htarget
      exact hexists h
  constructor
  · intro n r hres
    obtain ⟨n₁, r₁, hres₁, rfl, -⟩ := hres.of_call hlink
    obtain ⟨n₂, r₂, hres₂, rfl, -⟩ := hres₁.of_call htarget
    obtain ⟨rfl, -⟩ := hres₂.of_stop hroot
    decide
  · refine .of_call hlink hdangling (.of_call htarget ?_ (.of_stop hroot ?_))
    · exact fun h => hexists h.2
    · exact fun h => absurd h.1 (by decide)

theorem results_eq_linkFs :
    results (linkFs (some .dir)) (empty 4194304 120) [linkCall .filepath, linkCall .realpath] =
      [linkCall .filepath, linkCall .realpath].map (uncached (linkFs (some .dir)) 120) := by
  refine results_eq _ 4194304 120 _ fun call hmem _ => ?_
  rcases mem_cons.mp hmem with rfl | hmem
  · exact regular_linkCall .filepath (by decide)
  · obtain rfl := mem_singleton.mp hmem
    exact regular_linkCall .realpath (by decide)

end Phpce.Realpath
