import Mathlib.Logic.Relation
import Phpce.Realpath.Basic

/-!
# What a path resolves to

`tsrm_realpath_r` calls itself at most once, so resolving a path goes through a chain of tasks.

* `plan`: what is done at a task when the cache does not answer.
* `Resolves fs task n r`: the chain ends, with the result `r` after `n` links.
* `tsrmRealpathR_cases`: the cache answers, or the function follows the plan, unless it has followed
  too many links.
* `Missing`, `Dangling`: following the links of a path leads to a name that does not exist.
* `Resolves.anyMode`: where it does not, the result depends neither on the mode nor, up to the test
  for a directory, on whether a directory is wanted.
-/

namespace Phpce.Realpath

inductive Kind where
  | root
  -- the path ends in a slash or in '.'
  | same
  | dotdot
  | name
  deriving DecidableEq, Repr

def kind (path : Path) : Kind :=
  if path = [] then .root
  else if lastName path = [] ∨ lastName path = [dot] then .same
  else if lastName path = [dot, dot] then .dotdot
  else .name

structure Task where
  path : Path
  useRealpath : UseRealpath
  isDir : Bool

def attach (name : Path) (directory : Bool) (r : Resolved) : Resolved :=
  r.bind fun r => (appendName name r.1).map fun path => (path, directory)

/-- What is made of the resolved path in front of `..`. -/
def up (r : Resolved) : Resolved := r.map fun r => (parent r.1, true)

/-- What is done at a task: it has an answer, or calls for another one after so many links and makes
the answer of that one. -/
inductive Plan where
  | stop (r : Resolved)
  | call (next : Task) (links : Nat) (post : Resolved → Resolved)

def planFile (task : Task) (directory : Bool) : Plan :=
  if task.isDir && !directory then .stop none
  else .call ⟨parent task.path, .filepath, true⟩ 0 (attach (lastName task.path) directory)

namespace FileSystem

/-- `lstat`, which is not asked in the mode `CWD_EXPAND`. -/
def stat (fs : FileSystem) (path : Path) (useRealpath : UseRealpath) : Option FileType :=
  if useRealpath ≠ .expand then fs.lstat path else none

def follow (fs : FileSystem) (path : Path) : Option Path :=
  ((fs.readlink path).map (·.take MAXPATHLEN)).bind (linkTarget path)

def planLink (fs : FileSystem) (task : Task) : Plan :=
  match fs.follow task.path with
  | none => .stop none
  | some target => .call ⟨target, task.useRealpath, task.isDir⟩ 1 id

def plan (fs : FileSystem) (task : Task) : Plan :=
  match kind task.path with
  | .root => .stop (some ([], true))
  | .same => .call ⟨parent task.path, task.useRealpath, true⟩ 0 id
  | .dotdot => .call ⟨parent task.path, task.useRealpath, true⟩ 0 up
  | .name =>
      match fs.stat task.path task.useRealpath with
      | none =>
          if task.useRealpath = .realpath then .stop none
          else
            .call ⟨parent task.path, task.useRealpath, true⟩ 0 (attach (lastName task.path) false)
      | some .link => fs.planLink task
      | some .dir => planFile task true
      | some .other => planFile task false

end FileSystem

variable {fs : FileSystem} {task next : Task} {n links : Nat} {r : Resolved}
  {post : Resolved → Resolved}

theorem plan_call (h : fs.plan task = .call next links post) :
    (links = 1 ∨ links = 0 ∧ next.path.length < task.path.length) ∧ post none = none := by
  unfold FileSystem.plan at h
  have hne : kind task.path ≠ .root → task.path ≠ [] := fun hk hnil => hk (if_pos hnil)
  cases hk : kind task.path with
  | root =>
    rw [hk] at h
    cases h
  | same =>
    rw [hk] at h
    cases h
    exact ⟨.inr ⟨rfl, length_parent_lt (hne (by rw [hk]; decide))⟩, rfl⟩
  | dotdot =>
    rw [hk] at h
    cases h
    exact ⟨.inr ⟨rfl, length_parent_lt (hne (by rw [hk]; decide))⟩, rfl⟩
  | name =>
    have hlt := length_parent_lt (hne (by rw [hk]; decide))
    have hfile : ∀ directory, planFile task directory = .call next links post →
        (links = 1 ∨ links = 0 ∧ next.path.length < task.path.length) ∧ post none = none := by
      intro directory h
      unfold planFile at h
      split at h
      · cases h
      · cases h
        exact ⟨.inr ⟨rfl, hlt⟩, rfl⟩
    rw [hk] at h
    dsimp only at h
    split at h
    · split at h
      · cases h
      · cases h
        exact ⟨.inr ⟨rfl, hlt⟩, rfl⟩
    · unfold FileSystem.planLink at h
      split at h
      · cases h
      · cases h
        exact ⟨.inl rfl, rfl⟩
    · exact hfile true h
    · exact hfile false h

/-! ## Resolving with nothing cached -/

/-- The chain of tasks from `task` ends with `r` after `n` links. -/
inductive Resolves (fs : FileSystem) : Task → Nat → Resolved → Prop where
  | stop {task : Task} {r : Resolved} (h : fs.plan task = .stop r) : Resolves fs task 0 r
  | call {task next : Task} {links n : Nat} {post : Resolved → Resolved} {r : Resolved}
      (h : fs.plan task = .call next links post) (rest : Resolves fs next n r) :
      Resolves fs task (n + links) (post r)

theorem Resolves.of_stop (h : Resolves fs task n r) {r' : Resolved}
    (hplan : fs.plan task = .stop r') : n = 0 ∧ r = r' := by
  cases h with
  | stop h =>
    rw [hplan] at h
    injection h with h
    exact ⟨rfl, h.symm⟩
  | call h _ =>
    rw [hplan] at h
    cases h

theorem Resolves.of_call (h : Resolves fs task n r) (hplan : fs.plan task = .call next links post) :
    ∃ n' r', Resolves fs next n' r' ∧ n = n' + links ∧ r = post r' := by
  cases h with
  | stop h =>
    rw [hplan] at h
    cases h
  | call h rest =>
    rw [hplan] at h
    cases h
    exact ⟨_, _, rest, rfl, rfl⟩

theorem Resolves.unique (h : Resolves fs task n r) {n' : Nat} {r' : Resolved}
    (h' : Resolves fs task n' r') : r = r' := by
  induction h generalizing n' r' with
  | stop hplan => exact (h'.of_stop hplan).2.symm
  | call hplan _ ih =>
    obtain ⟨n'', r'', hrest, -, rfl⟩ := h'.of_call hplan
    rw [ih hrest]

def Leads (fs : FileSystem) : Task → Task → Prop :=
  Relation.ReflTransGen fun task next => ∃ links post, fs.plan task = .call next links post

/-! ## Links that lead nowhere -/

/-- Following the links of the path leads to a name that does not exist. -/
inductive Missing (fs : FileSystem) : Path → Prop where
  | absent {path : Path} (hk : kind path = .name) (h : fs.lstat path = none) : Missing fs path
  | same {path : Path} (hk : kind path = .same) (h : Missing fs (parent path)) : Missing fs path
  | dotdot {path : Path} (hk : kind path = .dotdot) (h : Missing fs (parent path)) :
      Missing fs path
  | link {path target : Path} (hk : kind path = .name) (hlink : fs.lstat path = some .link)
      (htarget : fs.follow path = some target) (h : Missing fs target) : Missing fs path

/-- A symbolic link whose target does not exist. -/
def Dangling (fs : FileSystem) (path : Path) : Prop :=
  fs.lstat path = some .link ∧ Missing fs path

theorem stat_of_ne {useRealpath : UseRealpath} (h : useRealpath ≠ .expand) (path : Path) :
    fs.stat path useRealpath = fs.lstat path := if_pos h

theorem Missing.eq_none {path : Path} (h : Missing fs path) {isDir : Bool}
    (hres : Resolves fs ⟨path, .realpath, isDir⟩ n r) : r = none := by
  -- induction on the way to the missing name
  induction h generalizing isDir n r with
  | @absent path hk h =>
    have hplan : fs.plan ⟨path, .realpath, isDir⟩ = .stop none := by
      simp only [FileSystem.plan, hk, stat_of_ne (show UseRealpath.realpath ≠ .expand by decide), h,
        if_true]
    exact (hres.of_stop hplan).2
  | @same path hk _ ih =>
    have hplan : fs.plan ⟨path, .realpath, isDir⟩ = .call ⟨parent path, .realpath, true⟩ 0 id := by
      simp only [FileSystem.plan, hk]
    obtain ⟨n', r', hrest, -, rfl⟩ := hres.of_call hplan
    exact ih hrest
  | @dotdot path hk _ ih =>
    have hplan : fs.plan ⟨path, .realpath, isDir⟩ = .call ⟨parent path, .realpath, true⟩ 0 up := by
      simp only [FileSystem.plan, hk]
    obtain ⟨n', r', hrest, -, rfl⟩ := hres.of_call hplan
    rw [ih hrest]
    rfl
  | @link path target hk hlink htarget _ ih =>
    have hplan : fs.plan ⟨path, .realpath, isDir⟩ = .call ⟨target, .realpath, isDir⟩ 1 id := by
      simp only [FileSystem.plan, hk, stat_of_ne (show UseRealpath.realpath ≠ .expand by decide),
        hlink, FileSystem.planLink, htarget]
    obtain ⟨n', r', hrest, -, rfl⟩ := hres.of_call hplan
    exact ih hrest

/-- What an entry with the path `q` and `directory` answers. -/
def answer (isDir : Bool) (q : Path) (directory : Bool) : Resolved :=
  if isDir && !directory then none else some (q, directory)

/-- The entry `path ↦ q` answers every task that looks it up. -/
def Answers (fs : FileSystem) (path q : Path) (directory : Bool) : Prop :=
  ∀ useRealpath isDir, useRealpath ≠ .expand →
    ∃ n, Resolves fs ⟨path, useRealpath, isDir⟩ n (answer isDir q directory)

theorem kind_of_stop {x : Path × Bool} (h : fs.plan task = .stop (some x)) :
    kind task.path = .root ∧ x = ([], true) := by
  unfold FileSystem.plan at h
  cases hk : kind task.path with
  | root =>
    rw [hk] at h
    cases h
    exact ⟨rfl, rfl⟩
  | same | dotdot =>
    rw [hk] at h
    cases h
  | name =>
    have hfile : ∀ directory, planFile task directory ≠ .stop (some x) := by
      intro directory h
      unfold planFile at h
      split at h
      · cases h
      · cases h
    rw [hk] at h
    dsimp only at h
    split at h
    · split at h
      · cases h
      · cases h
    · unfold FileSystem.planLink at h
      split at h
      · cases h
      · cases h
    · exact absurd h (hfile true)
    · exact absurd h (hfile false)

theorem attach_eq_some {name q : Path} {directory directory' : Bool}
    (h : attach name directory r = some (q, directory')) : directory = directory' := by
  obtain ⟨x, -, hx⟩ := Option.bind_eq_some_iff.mp h
  obtain ⟨p, -, heq⟩ := Option.map_eq_some_iff.mp hx
  exact congrArg Prod.snd heq

theorem answers_of_file {path q : Path} {directory isDir : Bool} {useRealpath : UseRealpath}
    (hplan : ∀ m d, m ≠ .expand → fs.plan ⟨path, m, d⟩ = planFile ⟨path, m, d⟩ directory)
    (hmode : useRealpath ≠ .expand) {n : Nat} {directory' : Bool}
    (h : Resolves fs ⟨path, useRealpath, isDir⟩ n (some (q, directory'))) :
    (isDir = true → directory' = true) ∧ Answers fs path q directory' := by
  have hp := hplan useRealpath isDir hmode
  cases hfail : isDir && !directory with
  | true =>
    rw [planFile, hfail, if_pos rfl] at hp
    cases (h.of_stop hp).2
  | false =>
    rw [planFile, hfail, if_neg (by decide)] at hp
    obtain ⟨n', r', hrest, -, heq⟩ := h.of_call hp
    obtain rfl := attach_eq_some heq.symm
    refine ⟨fun hd => ?_, fun m d hm => ?_⟩
    · rw [hd, Bool.true_and, Bool.not_eq_false'] at hfail
      exact hfail
    · have hp' := hplan m d hm
      unfold planFile at hp'
      unfold answer
      cases hfail' : d && !directory with
      | true =>
        rw [hfail', if_pos rfl] at hp'
        exact ⟨0, .stop hp'⟩
      | false =>
        rw [hfail', if_neg (by decide)] at hp'
        rw [if_neg (by decide), heq]
        exact ⟨_, .call hp' hrest⟩

/-- **What is not missing resolves in every mode**, as a directory if it is one. -/
theorem Resolves.anyMode (h : Resolves fs task n r) {q : Path} {directory : Bool}
    (hr : r = some (q, directory)) (hmode : task.useRealpath ≠ .expand)
    (hex : ¬Missing fs task.path) :
    (task.isDir = true → directory = true) ∧ Answers fs task.path q directory := by
  -- induction on the chain of tasks; only the parents of existing files change the mode
  induction h generalizing q directory with
  | @stop task r h =>
    subst hr
    obtain ⟨hk, hx⟩ := kind_of_stop h
    cases hx
    refine ⟨fun _ => rfl, fun m d _ => ⟨0, .stop ?_⟩⟩
    simp only [FileSystem.plan, hk, answer, Bool.not_true, Bool.and_false, Bool.false_eq_true,
      if_false]
  | @call task next links n post r h rest ih =>
    obtain ⟨path, mode, isDir⟩ := task
    dsimp only at hmode hex ⊢
    have hres := Resolves.call h rest
    cases hk : kind path with
    | root =>
      rw [FileSystem.plan, hk] at h
      cases h
    | same =>
      rw [FileSystem.plan, hk] at h
      cases h
      obtain ⟨hdir, hans⟩ := ih hr hmode fun hmiss => hex (.same hk hmiss)
      obtain rfl := hdir rfl
      refine ⟨fun _ => rfl, fun m d hm => ?_⟩
      obtain ⟨n', hn'⟩ := hans m true hm
      refine ⟨n' + 0, ?_⟩
      have hplan : fs.plan ⟨path, m, d⟩ = .call ⟨parent path, m, true⟩ 0 id := by
        simp only [FileSystem.plan, hk]
      have hanswer : answer d q true = id (answer true q true) := by
        simp only [answer, Bool.not_true, Bool.and_false, id_eq]
      rw [hanswer]
      exact .call hplan hn'
    | dotdot =>
      rw [FileSystem.plan, hk] at h
      cases h
      obtain ⟨⟨q', directory'⟩, rfl, hq⟩ := Option.map_eq_some_iff.mp hr
      cases hq
      obtain ⟨hdir, hans⟩ := ih rfl hmode fun hmiss => hex (.dotdot hk hmiss)
      obtain rfl := hdir rfl
      refine ⟨fun _ => rfl, fun m d hm => ?_⟩
      obtain ⟨n', hn'⟩ := hans m true hm
      refine ⟨n' + 0, ?_⟩
      have hplan : fs.plan ⟨path, m, d⟩ = .call ⟨parent path, m, true⟩ 0 up := by
        simp only [FileSystem.plan, hk]
      have hanswer : answer d (parent q') true = up (answer true q' true) := by
        simp only [answer, Bool.not_true, Bool.and_false, Bool.false_eq_true, if_false]
        rfl
      rw [hanswer]
      exact .call hplan hn'
    | name =>
      have hname : ∀ m d, m ≠ .expand → fs.plan ⟨path, m, d⟩ =
          match fs.lstat path with
          | none => if m = .realpath then .stop none
              else .call ⟨parent path, m, true⟩ 0 (attach (lastName path) false)
          | some .link => fs.planLink ⟨path, m, d⟩
          | some .dir => planFile ⟨path, m, d⟩ true
          | some .other => planFile ⟨path, m, d⟩ false := by
        intro m d hm
        simp only [FileSystem.plan, hk, stat_of_ne hm]
      cases hstat : fs.lstat path with
      | none => exact absurd (.absent hk hstat) hex
      | some type =>
        cases type with
        | dir =>
          rw [hr] at hres
          exact answers_of_file (fun m d hm => by rw [hname m d hm, hstat]) hmode hres
        | other =>
          rw [hr] at hres
          exact answers_of_file (fun m d hm => by rw [hname m d hm, hstat]) hmode hres
        | link =>
          have hplan := hname mode isDir hmode
          rw [hstat, h] at hplan
          dsimp only [FileSystem.planLink] at hplan
          cases htarget : fs.follow path with
          | none =>
            rw [htarget] at hplan
            cases hplan
          | some target =>
            rw [htarget] at hplan
            cases hplan
            obtain ⟨hdir, hans⟩ := ih hr hmode fun hmiss => hex (.link hk hstat htarget hmiss)
            refine ⟨hdir, fun m d hm => ?_⟩
            obtain ⟨n', hn'⟩ := hans m d hm
            have hplan' : fs.plan ⟨path, m, d⟩ = .call ⟨target, m, d⟩ 1 id := by
              rw [hname m d hm, hstat]
              dsimp only [FileSystem.planLink]
              rw [htarget]
            have hcall := Resolves.call hplan' hn'
            exact ⟨n' + 1, hcall⟩

end Phpce.Realpath
