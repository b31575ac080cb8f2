import Phpce.Events.Poll
import Phpce.Events.Timers

/-!
# The events of the children

The master reads what its children write through two pipes for each child. An event for each pipe
is part of the structure of the child, which is freed when the child has been reaped; its element is
in the queue of the descriptors as long as the pipe is open.

`Effect M s s' T`: from `s` to `s'` the events of `T` have been taken out of the queue, and nothing
else has been done to it.

* `effect_fpmStdioChildSaid`, `Effect.fpmChildClose` — what reading from a pipe and closing a child
  do to the queue, with the events that are taken out.
* `Effect.fpmChildrenMake` — a new child only puts elements before the others.
-/

namespace Phpce

open List Option
open Function (update update_of_ne update_self)

/-- The events of the queue of the descriptors: the pipe of the signals, the listening sockets, and
the pipes of a child. A child is numbered by the allocation of its structure. -/
inductive FdEvent where
  | signal
  | listening (wp : Nat)
  | stdout (child : Nat)
  | stderr (child : Nat)
  deriving DecidableEq, Repr

/-- The child whose structure the event is part of. -/
def FdEvent.owner : FdEvent → Option Nat
  | .stdout child => some child
  | .stderr child => some child
  | _ => none

/-- `struct fpm_event_module_s`, on the events: `event` are their fields, `size` the number of slots
of the module, `set` is `fpm_event_set` with the index that `fpm_event_add` gives. -/
structure EventModule (σ ι : Type*) where
  event : σ → ι → PollEvent
  size : σ → Nat
  set : σ → ι → Int → σ
  add : σ → ι → σ
  remove : σ → ι → σ
  event_set : ∀ m e fd x, x ≠ e → event (set m e fd) x = event m x
  event_add : ∀ m e x, x ≠ e → event (add m e) x = event m x
  event_remove : ∀ m e x, x ≠ e → event (remove m e) x = event m x
  fd_remove : ∀ m e x, (event (remove m e) x).fd = (event m x).fd
  size_set : ∀ m e fd, size (set m e fd) = size m
  size_add : ∀ m e, size (add m e) = size m
  size_remove : ∀ m e, size (remove m e) = size m

/-- What the master knows of the descriptors: the module, `fpm_event_queue_fd`, the children in the
lists of the pools, and their ends of the pipes. -/
structure FdLoop (σ : Type*) where
  mod : σ
  queue : HeapQueue FdEvent
  children : List Nat
  fdStdout : Nat → Int
  fdStderr : Nat → Int
  nextChild : Nat

/-- A child that `waitpid` reports, and whether each of its pipes is found closed when the master
reads the rest. -/
structure Reaped where
  child : Nat
  stdoutCloses : Bool
  stderrCloses : Bool

def Reaped.closes (r : Reaped) : FdEvent → Bool
  | .stdout _ => r.stdoutCloses
  | .stderr _ => r.stderrCloses
  | _ => false

/-- What the callback of a signal or of a listening socket does to the children. `made`: a child
with the descriptors of its pipes, if it has any, and whether there is memory for the elements. -/
inductive ChildAction where
  | exited (r : Reaped)
  | made (pipes : Option (Int × Int)) (mallocStdout mallocStderr : Bool)

/-- What a callback does in this batch: `closes` for the pipe of a child, otherwise `actions`. -/
structure Behaviour where
  closes : Bool
  actions : List ChildAction

namespace FdLoop

variable {σ : Type*} (M : EventModule σ FdEvent)

/-! ## The queue -/

def fpmEventQueueDel (s : FdLoop σ) (ev : FdEvent) : FdLoop σ :=
  match s.queue.find ev s.queue.live.length s.queue.head with
  | some q => { s with queue := s.queue.unlink q, mod := M.remove s.mod ev }
  | none => s

/-- `fpm_event_del`. These events are not among the timers. -/
def fpmEventDel (s : FdLoop σ) (ev : FdEvent) : FdLoop σ :=
  if 0 ≤ (M.event s.mod ev).index then s.fpmEventQueueDel M ev else s

/-- `fpm_event_set` and `fpm_event_add`. -/
def fpmEventAdd (s : FdLoop σ) (ev : FdEvent) (fd : Int) (malloc : Bool) : FdLoop σ :=
  let s := { s with mod := M.set s.mod ev fd }
  if EventLoop.fpmEventQueueIsset s.queue ev then s
  else if malloc then { s with queue := s.queue.push ev, mod := M.add s.mod ev }
  else s

/-! ## The children -/

/-- `fpm_stdio_child_said`: `closes` when it meets the end of the pipe, or an error. -/
def fpmStdioChildSaid (s : FdLoop σ) (ev : FdEvent) (child : Nat) (closes : Bool) : FdLoop σ :=
  let isStdout := (M.event s.mod ev).fd = s.fdStdout child
  let event := if isStdout then FdEvent.stdout child else FdEvent.stderr child
  if closes then
    let s := s.fpmEventDel M event
    if isStdout then { s with fdStdout := update s.fdStdout child (-1) }
    else { s with fdStderr := update s.fdStderr child (-1) }
  else s

/-- `fpm_child_close` in the event loop, with `fpm_child_free`. -/
def fpmChildClose (s : FdLoop σ) (r : Reaped) : FdLoop σ :=
  let s :=
    if s.fdStdout r.child ≠ -1 then
      s.fpmStdioChildSaid M (.stdout r.child) r.child r.stdoutCloses
    else s
  let s :=
    if s.fdStderr r.child ≠ -1 then
      s.fpmStdioChildSaid M (.stderr r.child) r.child r.stderrCloses
    else s
  { s with children := s.children.erase r.child }

/-- One child that `fpm_children_bury` is told of. An unknown child is only logged. -/
def fpmChildrenBury (s : FdLoop σ) (r : Reaped) : FdLoop σ :=
  if r.child ∈ s.children then s.fpmChildClose M r else s

/-- One child of `fpm_children_make`, with `fpm_stdio_parent_use_pipes` in the master. -/
def fpmChildrenMake (s : FdLoop σ) (pipes : Option (Int × Int))
    (mallocStdout mallocStderr : Bool) : FdLoop σ :=
  let child := s.nextChild
  let s := { s with nextChild := child + 1, children := child :: s.children }
  match pipes with
  | none =>
    { s with
      fdStdout := update s.fdStdout child (-1)
      fdStderr := update s.fdStderr child (-1) }
  | some (stdout, stderr) =>
    let s :=
      { s with
        fdStdout := update s.fdStdout child stdout
        fdStderr := update s.fdStderr child stderr }
    (s.fpmEventAdd M (.stdout child) stdout mallocStdout).fpmEventAdd M
      (.stderr child) stderr mallocStderr

def act (s : FdLoop σ) : ChildAction → FdLoop σ
  | .exited r => s.fpmChildrenBury M r
  | .made pipes mallocStdout mallocStderr => s.fpmChildrenMake M pipes mallocStdout mallocStderr

/-- `fpm_event_fire`. -/
def fpmEventFire (s : FdLoop σ) (ev : FdEvent) (b : Behaviour) : FdLoop σ :=
  match ev with
  | .stdout child => s.fpmStdioChildSaid M (.stdout child) child b.closes
  | .stderr child => s.fpmStdioChildSaid M (.stderr child) child b.closes
  | _ => b.actions.foldl (act M) s

/-! ## What is taken out -/

/-- From `s` to `s'` the events of `T` have been taken out of the queue. The other events are what
they were. -/
structure Removes (s s' : FdLoop σ) (T : List FdEvent) : Prop where
  holds : ∀ xs, s.queue.Holds xs → s'.queue.Holds (xs.filter fun x => s.queue.item x ∉ T)
  item : s'.queue.item = s.queue.item
  event : ∀ x, x ∉ T → M.event s'.mod x = M.event s.mod x
  fd : ∀ x, (M.event s'.mod x).fd = (M.event s.mod x).fd
  size : M.size s'.mod = M.size s.mod
  nextChild : s'.nextChild = s.nextChild

variable {M} {s s₁ s₂ : FdLoop σ} {T T' : List FdEvent} {ev x : FdEvent} {child c : Nat}
  {closes : Bool} {r : Reaped} {xs : List Nat}

theorem removes_nil : Removes M s s [] where
  holds xs h := by simpa using h
  item := rfl
  event _ _ := rfl
  fd _ := rfl
  size := rfl
  nextChild := rfl

theorem Removes.append (h : Removes M s s₁ T) (h' : Removes M s₁ s₂ T') :
    Removes M s s₂ (T ++ T') where
  holds xs hxs := by
    have hboth := h'.holds _ (h.holds xs hxs)
    rw [h.item, List.filter_filter] at hboth
    rw [filter_congr fun x _ => show decide (s.queue.item x ∉ T ++ T') =
      (decide (s.queue.item x ∉ T') && decide (s.queue.item x ∉ T)) by
        simp [Bool.and_comm]]
    exact hboth
  item := h'.item.trans h.item
  event x hx := by
    rw [mem_append, not_or] at hx
    rw [h'.event x hx.2, h.event x hx.1]
  fd x := (h'.fd x).trans (h.fd x)
  size := h'.size.trans h.size
  nextChild := h'.nextChild.trans h.nextChild

theorem removes_fpmEventQueueDel : Removes M s (s.fpmEventQueueDel M ev) [ev] := by
  unfold fpmEventQueueDel
  cases hfind : s.queue.find ev s.queue.live.length s.queue.head with
  | none =>
    refine ⟨fun xs hxs => ?_, rfl, fun _ _ => rfl, fun _ => rfl, rfl, rfl⟩
    have hsame := hxs.filter_of_find_eq_none hfind
    simp only [mem_singleton]
    rwa [hsame]
  | some q =>
    refine ⟨fun xs hxs => ?_, rfl, fun x hx => ?_, fun x => M.fd_remove .., M.size_remove .., rfl⟩
    · simpa [mem_singleton] using hxs.unlink_of_find hfind
    · exact M.event_remove _ _ x fun heq => hx (mem_singleton.mpr heq)

theorem removes_fpmEventDel :
    Removes M s (s.fpmEventDel M ev) (if 0 ≤ (M.event s.mod ev).index then [ev] else []) := by
  unfold fpmEventDel
  split
  · exact removes_fpmEventQueueDel
  · exact removes_nil

/-- The event that `fpm_stdio_child_said` takes out when the pipe is closed. -/
def saidEvent (M : EventModule σ FdEvent) (s : FdLoop σ) (ev : FdEvent) (child : Nat) : FdEvent :=
  if (M.event s.mod ev).fd = s.fdStdout child then .stdout child else .stderr child

theorem owner_saidEvent : (s.saidEvent M ev child).owner = some child := by
  unfold saidEvent
  split
  · rfl
  · rfl

theorem removes_fpmStdioChildSaid :
    Removes M s (s.fpmStdioChildSaid M ev child closes)
      (if closes = true ∧ 0 ≤ (M.event s.mod (s.saidEvent M ev child)).index then
        [s.saidEvent M ev child] else []) := by
  unfold fpmStdioChildSaid
  cases closes with
  | false => simpa using removes_nil
  | true =>
    have hdel : Removes M s (s.fpmEventDel M (s.saidEvent M ev child)) _ := removes_fpmEventDel
    simp only [if_true, true_and]
    rw [saidEvent] at hdel ⊢
    split
    · rename_i hstdout
      rw [if_pos hstdout] at hdel
      exact ⟨hdel.holds, hdel.item, hdel.event, hdel.fd, hdel.size, hdel.nextChild⟩
    · rename_i hstdout
      rw [if_neg hstdout] at hdel
      exact ⟨hdel.holds, hdel.item, hdel.event, hdel.fd, hdel.size, hdel.nextChild⟩

def IsOpen (s : FdLoop σ) : FdEvent → Prop
  | .stdout child => s.fdStdout child ≠ -1
  | .stderr child => s.fdStderr child ≠ -1
  | _ => True

instance (s : FdLoop σ) : (ev : FdEvent) → Decidable (s.IsOpen ev)
  | .stdout child => inferInstanceAs (Decidable (s.fdStdout child ≠ -1))
  | .stderr child => inferInstanceAs (Decidable (s.fdStderr child ≠ -1))
  | .signal => inferInstanceAs (Decidable True)
  | .listening _ => inferInstanceAs (Decidable True)

/-- The events of a child have the descriptors of its pipes, and these differ. -/
structure Piped (M : EventModule σ FdEvent) (s : FdLoop σ) (child : Nat) : Prop where
  stdout : s.fdStdout child ≠ -1 → (M.event s.mod (.stdout child)).fd = s.fdStdout child
  stderr : s.fdStderr child ≠ -1 → (M.event s.mod (.stderr child)).fd = s.fdStderr child ∧
    s.fdStderr child ≠ s.fdStdout child

@[simp]
theorem children_fpmEventDel : (s.fpmEventDel M ev).children = s.children := by
  unfold fpmEventDel fpmEventQueueDel
  split_ifs
  · split <;> rfl
  · rfl

@[simp]
theorem fdStdout_fpmEventDel : (s.fpmEventDel M ev).fdStdout = s.fdStdout := by
  unfold fpmEventDel fpmEventQueueDel
  split_ifs
  · split <;> rfl
  · rfl

@[simp]
theorem fdStderr_fpmEventDel : (s.fpmEventDel M ev).fdStderr = s.fdStderr := by
  unfold fpmEventDel fpmEventQueueDel
  split_ifs
  · split <;> rfl
  · rfl

@[simp]
theorem children_fpmStdioChildSaid :
    (s.fpmStdioChildSaid M ev child closes).children = s.children := by
  unfold fpmStdioChildSaid
  cases closes with
  | false => rfl
  | true =>
    rw [if_pos rfl]
    split
    · exact children_fpmEventDel
    · exact children_fpmEventDel

theorem fds_fpmStdioChildSaid :
    (s.fpmStdioChildSaid M ev child closes).fdStdout =
        (if closes = true ∧ s.saidEvent M ev child = .stdout child then
          update s.fdStdout child (-1) else s.fdStdout) ∧
      (s.fpmStdioChildSaid M ev child closes).fdStderr =
        (if closes = true ∧ s.saidEvent M ev child = .stderr child then
          update s.fdStderr child (-1) else s.fdStderr) := by
  unfold fpmStdioChildSaid saidEvent
  cases closes with
  | false => simp
  | true => by_cases hstdout : (M.event s.mod ev).fd = s.fdStdout child <;> simp [hstdout]

theorem fds_fpmStdioChildSaid_of_ne (hc : c ≠ child) :
    (s.fpmStdioChildSaid M ev child closes).fdStdout c = s.fdStdout c ∧
      (s.fpmStdioChildSaid M ev child closes).fdStderr c = s.fdStderr c := by
  rw [fds_fpmStdioChildSaid.1, fds_fpmStdioChildSaid.2]
  constructor
  · split
    · exact update_of_ne hc ..
    · rfl
  · split
    · exact update_of_ne hc ..
    · rfl

theorem fdStdout_fpmStdioChildSaid_or :
    (s.fpmStdioChildSaid M ev child closes).fdStdout c = s.fdStdout c ∨
      (s.fpmStdioChildSaid M ev child closes).fdStdout c = -1 := by
  rw [fds_fpmStdioChildSaid.1]
  split
  · by_cases hc : c = child
    · subst hc
      exact .inr (update_self ..)
    · exact .inl (update_of_ne hc ..)
  · exact .inl rfl

theorem fdStderr_fpmStdioChildSaid_or :
    (s.fpmStdioChildSaid M ev child closes).fdStderr c = s.fdStderr c ∨
      (s.fpmStdioChildSaid M ev child closes).fdStderr c = -1 := by
  rw [fds_fpmStdioChildSaid.2]
  split
  · by_cases hc : c = child
    · subst hc
      exact .inr (update_self ..)
    · exact .inl (update_of_ne hc ..)
  · exact .inl rfl

theorem Piped.fpmStdioChildSaid (h : Piped M s c) :
    Piped M (s.fpmStdioChildSaid M ev child closes) c := by
  have hfd : ∀ x, (M.event (s.fpmStdioChildSaid M ev child closes).mod x).fd =
      (M.event s.mod x).fd := removes_fpmStdioChildSaid.fd
  refine ⟨fun hopen => ?_, fun hopen => ?_⟩
  · rcases fdStdout_fpmStdioChildSaid_or with heq | heq
    · rw [heq] at hopen ⊢
      rw [hfd, h.stdout hopen]
    · exact absurd heq hopen
  · rcases fdStderr_fpmStdioChildSaid_or with heq | heq
    · rw [heq] at hopen ⊢
      obtain ⟨heq', hne⟩ := h.stderr hopen
      refine ⟨by rw [hfd, heq'], ?_⟩
      rcases fdStdout_fpmStdioChildSaid_or with hstdout | hstdout
      · rw [hstdout]
        exact hne
      · rw [hstdout]
        exact hopen
    · exact absurd heq hopen

theorem Piped.saidEvent (h : Piped M s child) (hev : ev.owner = some child) (hopen : s.IsOpen ev) :
    s.saidEvent M ev child = ev := by
  cases ev with
  | signal => cases hev
  | listening wp => cases hev
  | stdout c =>
    obtain rfl := some.inj hev
    exact if_pos (h.stdout hopen)
  | stderr c =>
    obtain rfl := some.inj hev
    obtain ⟨heq, hne⟩ := h.stderr hopen
    exact if_neg (heq ▸ hne)

theorem Removes.congr (h : Removes M s s₁ T) (hmod : s₂.mod = s₁.mod) (hqueue : s₂.queue = s₁.queue)
    (hnext : s₂.nextChild = s₁.nextChild) : Removes M s s₂ T where
  holds xs hxs := hqueue ▸ h.holds xs hxs
  item := hqueue ▸ h.item
  event x hx := hmod ▸ h.event x hx
  fd x := hmod ▸ h.fd x
  size := hmod ▸ h.size
  nextChild := hnext.trans h.nextChild

theorem Piped.removes (h : Piped M s child) (hev : ev.owner = some child) (hopen : s.IsOpen ev) :
    Removes M s (s.fpmStdioChildSaid M ev child closes)
      (if closes = true ∧ 0 ≤ (M.event s.mod ev).index then [ev] else []) := by
  have hremoves : Removes M s (s.fpmStdioChildSaid M ev child closes) _ := removes_fpmStdioChildSaid
  rwa [h.saidEvent hev hopen] at hremoves

/-- What `fpm_child_close` does with one of the pipes. -/
def closePipe (M : EventModule σ FdEvent) (s : FdLoop σ) (ev : FdEvent) (r : Reaped) : FdLoop σ :=
  if s.IsOpen ev then s.fpmStdioChildSaid M ev r.child (r.closes ev) else s

theorem fpmChildClose_eq (M : EventModule σ FdEvent) (s : FdLoop σ) (r : Reaped) :
    s.fpmChildClose M r =
      { (s.closePipe M (.stdout r.child) r).closePipe M (.stderr r.child) r with
        children := s.children.erase r.child } := by
  have hchildren : ((s.closePipe M (.stdout r.child) r).closePipe M (.stderr r.child) r).children =
      s.children := by
    unfold closePipe
    split_ifs <;> simp
  rw [← hchildren]
  rfl

def pipeRemoved (M : EventModule σ FdEvent) (s : FdLoop σ) (ev : FdEvent) (r : Reaped) :
    List FdEvent :=
  if s.IsOpen ev ∧ r.closes ev = true ∧
    0 ≤ (M.event s.mod (s.saidEvent M ev r.child)).index then [s.saidEvent M ev r.child] else []

theorem removes_closePipe : Removes M s (s.closePipe M ev r) (s.pipeRemoved M ev r) := by
  unfold closePipe pipeRemoved
  by_cases hopen : s.IsOpen ev
  · simp only [hopen, if_true, true_and]
    exact removes_fpmStdioChildSaid
  · rw [if_neg hopen, if_neg fun h => hopen h.1]
    exact removes_nil

theorem owner_of_mem_pipeRemoved (hx : x ∈ s.pipeRemoved M ev r) : x.owner = some r.child := by
  unfold pipeRemoved at hx
  split at hx
  · rw [mem_singleton.mp hx]
    exact owner_saidEvent
  · cases hx

theorem Piped.closePipe (h : Piped M s c) : Piped M (s.closePipe M ev r) c := by
  unfold FdLoop.closePipe
  split
  · exact h.fpmStdioChildSaid
  · exact h

theorem Piped.mem_pipeRemoved (h : Piped M s r.child) (hev : ev.owner = some r.child) :
    x ∈ s.pipeRemoved M ev r ↔
      x = ev ∧ s.IsOpen ev ∧ r.closes ev = true ∧ 0 ≤ (M.event s.mod ev).index := by
  unfold pipeRemoved
  by_cases hopen : s.IsOpen ev
  · rw [h.saidEvent hev hopen]
    split
    · rename_i hall
      rw [mem_singleton, and_iff_left hall]
    · rename_i hnot
      simp only [not_mem_nil, false_iff, not_and]
      exact fun _ h₁ h₂ h₃ => hnot ⟨h₁, h₂, h₃⟩
  · simp [hopen]

theorem fds_closePipe_of_ne (hc : c ≠ r.child) :
    (s.closePipe M ev r).fdStdout c = s.fdStdout c ∧
      (s.closePipe M ev r).fdStderr c = s.fdStderr c := by
  unfold closePipe
  split
  · exact fds_fpmStdioChildSaid_of_ne hc
  · exact ⟨rfl, rfl⟩

theorem Piped.isOpen_stderr (h : Piped M s r.child) :
    (s.closePipe M (.stdout r.child) r).IsOpen (.stderr r.child) ↔
      s.IsOpen (.stderr r.child) := by
  unfold FdLoop.closePipe
  split
  · rename_i hopen
    show _ ≠ _ ↔ _ ≠ _
    rw [fds_fpmStdioChildSaid.2, h.saidEvent rfl hopen, if_neg (by simp)]
  · rfl

theorem exists_removes_fpmChildClose (M : EventModule σ FdEvent) (s : FdLoop σ) (r : Reaped) :
    ∃ T, Removes M s (s.fpmChildClose M r) T ∧ (∀ x ∈ T, x.owner = some r.child) ∧
      (Piped M s r.child → ∀ x, x.owner = some r.child → s.IsOpen x →
        (x ∈ T ↔ r.closes x = true ∧ 0 ≤ (M.event s.mod x).index)) := by
  have hstdout : Removes M s (s.closePipe M (.stdout r.child) r) _ := removes_closePipe
  have hstderr : Removes M (s.closePipe M (.stdout r.child) r)
      ((s.closePipe M (.stdout r.child) r).closePipe M (.stderr r.child) r) _ := removes_closePipe
  rw [fpmChildClose_eq]
  refine ⟨_, (hstdout.append hstderr).congr rfl rfl rfl, fun x hx => ?_, fun h x hx hopen => ?_⟩
  · rcases mem_append.mp hx with hx | hx
    · exact owner_of_mem_pipeRemoved hx
    · exact owner_of_mem_pipeRemoved hx
  · rw [mem_append, h.mem_pipeRemoved rfl, h.closePipe.mem_pipeRemoved rfl, h.isOpen_stderr]
    cases x with
    | signal => cases hx
    | listening wp => cases hx
    | stdout c =>
      obtain rfl := some.inj hx
      simp [hopen]
    | stderr c =>
      obtain rfl := some.inj hx
      have hindex : M.event (s.closePipe M (.stdout r.child) r).mod (.stderr r.child) =
          M.event s.mod (.stderr r.child) :=
        hstdout.event _ fun hmem => by cases ((h.mem_pipeRemoved rfl).mp hmem).1
      simp [hopen, hindex]

theorem fds_fpmChildClose_of_ne (hc : c ≠ r.child) :
    (s.fpmChildClose M r).fdStdout c = s.fdStdout c ∧
      (s.fpmChildClose M r).fdStderr c = s.fdStderr c := by
  rw [fpmChildClose_eq]
  exact ⟨(fds_closePipe_of_ne hc).1.trans (fds_closePipe_of_ne hc).1,
    (fds_closePipe_of_ne hc).2.trans (fds_closePipe_of_ne hc).2⟩

/-! ## What is put in -/

theorem exists_holds_fpmEventAdd (h : s.queue.Holds xs) (ev : FdEvent) (fd : Int) (malloc : Bool) :
    ∃ fs, (s.fpmEventAdd M ev fd malloc).queue.Holds (fs ++ xs) ∧
      ∀ x ∈ xs, (s.fpmEventAdd M ev fd malloc).queue.item x = s.queue.item x := by
  unfold fpmEventAdd
  dsimp only
  split_ifs with hisset
  · exact ⟨[], h, fun _ _ => rfl⟩
  · have hev : ev ∉ xs.map s.queue.item := by
      rwa [← EventLoop.fpmEventQueueIsset_iff h]
    exact ⟨[_], h.push hev, fun x hx => update_of_ne (Nat.ne_of_lt (h.fresh x hx)) ..⟩
  · exact ⟨[], h, fun _ _ => rfl⟩

theorem mod_fpmEventAdd (fd : Int) (malloc : Bool) :
    (∀ x, x ≠ ev → M.event (s.fpmEventAdd M ev fd malloc).mod x = M.event s.mod x) ∧
      M.size (s.fpmEventAdd M ev fd malloc).mod = M.size s.mod := by
  unfold fpmEventAdd
  dsimp only
  split_ifs
  · exact ⟨fun x hx => M.event_set _ _ _ x hx, M.size_set ..⟩
  · refine ⟨fun x hx => ?_, ?_⟩
    · rw [M.event_add _ _ x hx, M.event_set _ _ _ x hx]
    · rw [M.size_add, M.size_set]
  · exact ⟨fun x hx => M.event_set _ _ _ x hx, M.size_set ..⟩

@[simp]
theorem children_fpmEventAdd (fd : Int) (malloc : Bool) :
    (s.fpmEventAdd M ev fd malloc).children = s.children := by
  unfold fpmEventAdd
  dsimp only
  split_ifs <;> rfl

@[simp]
theorem fdStdout_fpmEventAdd (fd : Int) (malloc : Bool) :
    (s.fpmEventAdd M ev fd malloc).fdStdout = s.fdStdout := by
  unfold fpmEventAdd
  dsimp only
  split_ifs <;> rfl

@[simp]
theorem fdStderr_fpmEventAdd (fd : Int) (malloc : Bool) :
    (s.fpmEventAdd M ev fd malloc).fdStderr = s.fdStderr := by
  unfold fpmEventAdd
  dsimp only
  split_ifs <;> rfl

@[simp]
theorem nextChild_fpmEventAdd (fd : Int) (malloc : Bool) :
    (s.fpmEventAdd M ev fd malloc).nextChild = s.nextChild := by
  unfold fpmEventAdd
  dsimp only
  split_ifs <;> rfl

/-- A new child puts elements before the others, and leaves the other children. -/
structure Makes (M : EventModule σ FdEvent) (s s' : FdLoop σ) : Prop where
  holds : ∀ xs, s.queue.Holds xs → ∃ fs, s'.queue.Holds (fs ++ xs) ∧
    ∀ x ∈ xs, s'.queue.item x = s.queue.item x
  event : ∀ x, x.owner ≠ some s.nextChild → M.event s'.mod x = M.event s.mod x
  size : M.size s'.mod = M.size s.mod
  fds : ∀ c, c ≠ s.nextChild → s'.fdStdout c = s.fdStdout c ∧ s'.fdStderr c = s.fdStderr c
  children : s'.children = s.nextChild :: s.children
  nextChild : s'.nextChild = s.nextChild + 1

theorem makes_fpmChildrenMake (pipes : Option (Int × Int)) (mallocStdout mallocStderr : Bool) :
    Makes M s (s.fpmChildrenMake M pipes mallocStdout mallocStderr) := by
  unfold fpmChildrenMake
  cases pipes with
  | none =>
    refine ⟨fun xs h => ⟨[], h, fun _ _ => rfl⟩, fun _ _ => rfl, rfl, fun c hc => ?_, rfl, rfl⟩
    exact ⟨update_of_ne hc .., update_of_ne hc ..⟩
  | some pipes =>
    obtain ⟨stdout, stderr⟩ := pipes
    refine ⟨fun xs h => ?_, fun x hx => ?_, ?_, fun c hc => ?_, ?_, ?_⟩
    · obtain ⟨fs, hfs, hitem⟩ := exists_holds_fpmEventAdd (M := M) (s :=
        { s with
          nextChild := s.nextChild + 1, children := s.nextChild :: s.children
          fdStdout := update s.fdStdout s.nextChild stdout
          fdStderr := update s.fdStderr s.nextChild stderr }) h
        (.stdout s.nextChild) stdout mallocStdout
      obtain ⟨fs', hfs', hitem'⟩ := exists_holds_fpmEventAdd (M := M) hfs (.stderr s.nextChild)
        stderr mallocStderr
      refine ⟨fs' ++ fs, by rwa [append_assoc], fun x hx => ?_⟩
      exact (hitem' x (mem_append_right _ hx)).trans (hitem x hx)
    · have hstderr : x ≠ .stderr s.nextChild := fun heq => hx (heq ▸ rfl)
      have hstdout : x ≠ .stdout s.nextChild := fun heq => hx (heq ▸ rfl)
      dsimp only
      rw [(mod_fpmEventAdd ..).1 x hstderr, (mod_fpmEventAdd ..).1 x hstdout]
    · dsimp only
      rw [(mod_fpmEventAdd ..).2, (mod_fpmEventAdd ..).2]
    · dsimp only
      rw [fdStdout_fpmEventAdd, fdStdout_fpmEventAdd, fdStderr_fpmEventAdd, fdStderr_fpmEventAdd]
      exact ⟨update_of_ne hc .., update_of_ne hc ..⟩
    · dsimp only
      rw [children_fpmEventAdd, children_fpmEventAdd]
    · dsimp only
      rw [nextChild_fpmEventAdd, nextChild_fpmEventAdd]

end FdLoop

end Phpce
