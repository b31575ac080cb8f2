import Phpce.Lib.HeapQueue

/-!
# The timers

The event loop of the master keeps its timers in a queue. When the event module has waited, it goes
through the queue, fires what has expired and takes it out again, unless it is persistent. A
callback may put new timers in, and it may set the very event that is fired again: the reload
timer does so. An event that is in the queue is not put in once more.

* `Passed.step`: what one element of the queue leads to.
* **`losesNone_iff`** — after a pass the queue is well formed and has the timers it should have, if
  and only if no event that its own callback has added again is taken out behind it.
-/

namespace Phpce

open List
open Function (update update_idem update_of_ne update_self)

/-- `struct timeval`. -/
structure Timeval where
  sec : Nat
  usec : Nat
  deriving DecidableEq, Repr

def timeradd (a b : Timeval) : Timeval :=
  if a.usec + b.usec < 1000000 then ⟨a.sec + b.sec, a.usec + b.usec⟩
  else ⟨a.sec + b.sec + 1, a.usec + b.usec - 1000000⟩

/-- `timercmp(a, b, >)`. -/
def timercmpGt (a b : Timeval) : Bool :=
  if a.sec = b.sec then b.usec < a.usec else b.sec < a.sec

def FPM_EV_TIMEOUT : Nat := 1
def FPM_EV_READ : Nat := 2
def FPM_EV_PERSIST : Nat := 4

/-- `struct fpm_event_s`, without the argument of the callback. A callback is its address. -/
structure FpmEvent where
  fd : Int
  timeout : Timeval
  frequency : Timeval
  callback : Option Nat
  flags : Nat
  index : Int
  which : Nat
  deriving DecidableEq, Repr

/-- The variables of the event loop, and the events. `moduleAdd` is the index that the event module
gives an event that it is asked to add; a module need not have it. -/
structure EventLoop (ι : Type*) where
  events : ι → FpmEvent
  queueTimer : HeapQueue ι
  queueFd : HeapQueue ι
  moduleAdd : Option (FpmEvent → Int)

/-- `fpm_event_set` and `fpm_event_add`, one after the other, with the clock that is read and
whether there is memory. -/
structure Arm (ι : Type*) where
  ev : ι
  fd : Int
  fd_ge : -1 ≤ fd
  flags : Nat
  callback : Nat
  frequency : Nat
  now : Timeval
  malloc : Bool

namespace EventLoop

variable {ι : Type*} [DecidableEq ι]

/-! ## The queues -/

def fpmEventQueueIsset (queue : HeapQueue ι) (ev : ι) : Bool :=
  (queue.find ev queue.live.length queue.head).isSome

/-- `fpm_event_queue_add` for the timers. The module is not asked. -/
def fpmEventQueueAddTimer (l : EventLoop ι) (ev : ι) (malloc : Bool) : EventLoop ι × Int :=
  if fpmEventQueueIsset l.queueTimer ev then (l, 0)
  else if malloc then ({ l with queueTimer := l.queueTimer.push ev }, 0)
  else (l, -1)

/-- `fpm_event_queue_add` for the descriptors. -/
def fpmEventQueueAddFd (l : EventLoop ι) (ev : ι) (malloc : Bool) : EventLoop ι × Int :=
  if fpmEventQueueIsset l.queueFd ev then (l, 0)
  else if malloc then
    ({ l with
        queueFd := l.queueFd.push ev
        events := update l.events ev
          { l.events ev with index := l.moduleAdd.elim (l.events ev).index (· (l.events ev)) } }, 0)
  else (l, -1)

/-! ## Setting and adding -/

/-- `fpm_event_set`, of an event and a callback that are there. -/
def fpmEventSet (l : EventLoop ι) (ev : ι) (fd : Int) (flags callback : Nat) :
    EventLoop ι × Int :=
  if fd < -1 then (l, -1)
  else
    ({ l with
        events := update l.events ev
          ⟨fd, ⟨0, 0⟩, ⟨0, 0⟩, some callback, flags, 0, 0⟩ }, 0)

def frequencyOf (frequency : Nat) : Timeval :=
  if 1000 ≤ frequency then ⟨frequency / 1000, frequency % 1000 * 1000⟩ else ⟨0, frequency * 1000⟩

/-- The macro `fpm_event_set_timeout`. -/
def fpmEventSetTimeout (l : EventLoop ι) (ev : ι) (now : Timeval) : EventLoop ι :=
  { l with
    events := update l.events ev
      { l.events ev with timeout := timeradd now (l.events ev).frequency } }

def fpmEventAdd (l : EventLoop ι) (ev : ι) (frequency : Nat) (now : Timeval) (malloc : Bool) :
    EventLoop ι × Int :=
  if (l.events ev).flags &&& FPM_EV_READ ≠ 0 then
    fpmEventQueueAddFd
      { l with
        events := update l.events ev
          { l.events ev with index := -1, which := FPM_EV_READ } } ev malloc
  else
    let set : EventLoop ι :=
      { l with
        events := update l.events ev
          { l.events ev with
            index := -1, which := FPM_EV_TIMEOUT, frequency := frequencyOf frequency } }
    fpmEventQueueAddTimer (set.fpmEventSetTimeout ev now) ev malloc

def arm (l : EventLoop ι) (a : Arm ι) : EventLoop ι × Int :=
  fpmEventAdd (l.fpmEventSet a.ev a.fd a.flags a.callback).1 a.ev a.frequency a.now a.malloc

end EventLoop

def Arm.timer {ι : Type*} (a : Arm ι) : Bool := a.flags &&& FPM_EV_READ == 0

namespace EventLoop

variable {ι : Type*} [DecidableEq ι]

/-! ## The pass -/

/-- What a callback sets and adds, and the timers whose addition has succeeded. -/
def called (l : EventLoop ι) : List (Arm ι) → EventLoop ι × List ι
  | [] => (l, [])
  | a :: as =>
    let (l', ret) := l.arm a
    let (l'', added) := called l' as
    (l'', if ret = 0 ∧ a.timer then a.ev :: added else added)

/-- `fpm_event_fire`, for a callback that sets and adds `as`. -/
def fpmEventFire (l : EventLoop ι) (ev : ι) (as : List (Arm ι)) : EventLoop ι × List ι :=
  match (l.events ev).callback with
  | none => (l, [])
  | some _ => l.called as

def expired (l : EventLoop ι) (now : ι → Timeval) (ev : ι) : Bool :=
  timercmpGt (now ev) (l.events ev).timeout || now ev == (l.events ev).timeout

/-- The loop over the timers in `fpm_event_loop` of the master, from the element `q`: `now` are the
clocks that it reads, `calls` what the callbacks set and add. -/
def triggerFrom (now : ι → Timeval) (calls : ι → List (Arm ι)) :
    Nat → Option Nat → EventLoop ι × List ι → Option (EventLoop ι × List ι)
  | _, none, s => some s
  | 0, some _, _ => none
  | fuel + 1, some q, (l, added) =>
    let ev := l.queueTimer.item q
    if l.expired now ev then
      let (fired, new) := l.fpmEventFire ev (calls ev)
      if (fired.events ev).flags &&& FPM_EV_PERSIST ≠ 0 then
        let l := fired.fpmEventSetTimeout ev (now ev)
        triggerFrom now calls fuel (l.queueTimer.links.next q) (l, added ++ new)
      else
        let l := { fired with queueTimer := fired.queueTimer.unlink q }
        triggerFrom now calls fuel (l.queueTimer.links.next q) (l, added ++ new)
    else triggerFrom now calls fuel (l.queueTimer.links.next q) (l, added)

def triggerTimers (l : EventLoop ι) (now : ι → Timeval) (calls : ι → List (Arm ι)) :
    Option (EventLoop ι × List ι) :=
  triggerFrom now calls l.queueTimer.live.length l.queueTimer.head (l, [])

/-! ## What a pass should do -/

section Pass

variable (l : EventLoop ι) (now : ι → Timeval) (calls : ι → List (Arm ι))

/-- What is set and added when the loop comes to the event. -/
def callsOf (ev : ι) : List (Arm ι) :=
  if l.expired now ev && (l.events ev).callback.isSome then calls ev else []

def flagsBehind (ev : ι) : Nat :=
  ((l.callsOf now calls ev).filter fun a => a.ev = ev).getLast?.elim (l.events ev).flags Arm.flags

def stays (ev : ι) : Bool :=
  !l.expired now ev || l.flagsBehind now calls ev &&& FPM_EV_PERSIST != 0

end Pass

end EventLoop

/-- The timer `x` is added. -/
def Adds {ι : Type*} (as : List (Arm ι)) (x : ι) : Prop := ∃ a ∈ as, a.ev = x ∧ a.timer = true

/-- The timer `x` is added, and there is memory for its element. -/
def Puts {ι : Type*} (as : List (Arm ι)) (x : ι) : Prop :=
  ∃ a ∈ as, a.ev = x ∧ a.timer = true ∧ a.malloc = true

section Calls

variable {ι : Type*} {a : Arm ι} {as as' : List (Arm ι)} {x : ι}

theorem adds_append : Adds (as ++ as') x ↔ Adds as x ∨ Adds as' x := by
  simp only [Adds, mem_append, or_and_right, exists_or]

theorem puts_append : Puts (as ++ as') x ↔ Puts as x ∨ Puts as' x := by
  simp only [Puts, mem_append, or_and_right, exists_or]

theorem adds_singleton : Adds [a] x ↔ a.ev = x ∧ a.timer = true := by simp [Adds]

theorem puts_singleton : Puts [a] x ↔ a.ev = x ∧ a.timer = true ∧ a.malloc = true := by simp [Puts]

theorem Puts.adds (h : Puts as x) : Adds as x := by
  obtain ⟨a, ha, hev, htimer, -⟩ := h
  exact ⟨a, ha, hev, htimer⟩

end Calls

namespace EventLoop

variable {ι : Type*} [DecidableEq ι]

/-- A callback sets its own event and events that are not in the queue, be it that they have never
been or that the pass has taken them out. -/
def NewOrOwn (l : EventLoop ι) (now : ι → Timeval) (calls : ι → List (Arm ι)) (es : List ι) :
    Prop :=
  ∀ before ev behind, es = before ++ ev :: behind → ∀ a ∈ l.callsOf now calls ev,
    a.ev ∉ behind ∧ (a.ev ∈ before → l.stays now calls a.ev = false)

/-- The queue behind a pass over the timers `es`, which has left `l'` and `added`: the events that
have not expired, the persistent ones with their next time, and those added, each of them once. -/
def LosesNone (l : EventLoop ι) (now : ι → Timeval) (calls : ι → List (Arm ι)) (es : List ι)
    (l' : EventLoop ι) (added : List ι) : Prop :=
  (∃ es', l'.queueTimer.Lists es' ∧
    ∀ x, x ∈ es' ↔ (x ∈ es ∧ l.stays now calls x = true) ∨ x ∈ added) ∧
  ∀ x ∈ es, l.expired now x = true → l.stays now calls x = true →
    (l'.events x).timeout = timeradd (now x) (l'.events x).frequency

/-- What a callback has added to the queue again is not taken out behind it, unless another
callback adds it anew. -/
def NotTakenOut (l : EventLoop ι) (now : ι → Timeval) (calls : ι → List (Arm ι)) (es : List ι) :
    Prop :=
  ∀ x ∈ es, Adds (l.callsOf now calls x) x → l.stays now calls x = false →
    ∃ e ∈ es, e ≠ x ∧ Puts (l.callsOf now calls e) x

variable {l l₁ l₂ l' : EventLoop ι} {now : ι → Timeval} {calls : ι → List (Arm ι)} {a : Arm ι}
  {as as' : List (Arm ι)} {xs fs fs' : List Nat} {ev x : ι} {es added added' : List ι}

/-! ## The calls of a callback -/

theorem fpmEventQueueIsset_iff {queue : HeapQueue ι} (h : queue.Holds xs) :
    fpmEventQueueIsset queue ev = true ↔ ev ∈ xs.map queue.item :=
  HeapQueue.Lists.find_isSome ⟨xs, h, rfl⟩

theorem fpmEventSet_eq (l : EventLoop ι) (a : Arm ι) :
    l.fpmEventSet a.ev a.fd a.flags a.callback =
      ({ l with
          events := update l.events a.ev
            ⟨a.fd, ⟨0, 0⟩, ⟨0, 0⟩, some a.callback, a.flags, 0, 0⟩ }, 0) :=
  if_neg (Int.not_lt.mpr a.fd_ge)

@[simp]
theorem events_fpmEventQueueAddTimer (malloc : Bool) :
    (l.fpmEventQueueAddTimer ev malloc).1.events = l.events := by
  unfold fpmEventQueueAddTimer
  split_ifs <;> rfl

theorem queueTimer_fpmEventQueueAddTimer (malloc : Bool) :
    (l.fpmEventQueueAddTimer ev malloc).1.queueTimer =
      if fpmEventQueueIsset l.queueTimer ev = false ∧ malloc = true then l.queueTimer.push ev
      else l.queueTimer := by
  unfold fpmEventQueueAddTimer
  cases fpmEventQueueIsset l.queueTimer ev <;> cases malloc <;> rfl

theorem fpmEventQueueAddTimer_snd (malloc : Bool) :
    (l.fpmEventQueueAddTimer ev malloc).2 = 0 ↔
      fpmEventQueueIsset l.queueTimer ev = true ∨ malloc = true := by
  unfold fpmEventQueueAddTimer
  cases fpmEventQueueIsset l.queueTimer ev <;> cases malloc <;> simp

@[simp]
theorem queueTimer_fpmEventQueueAddFd (malloc : Bool) :
    (l.fpmEventQueueAddFd ev malloc).1.queueTimer = l.queueTimer := by
  unfold fpmEventQueueAddFd
  split_ifs <;> rfl

theorem events_fpmEventQueueAddFd (malloc : Bool) :
    (∀ x, x ≠ ev → (l.fpmEventQueueAddFd ev malloc).1.events x = l.events x) ∧
      ((l.fpmEventQueueAddFd ev malloc).1.events ev).flags = (l.events ev).flags := by
  unfold fpmEventQueueAddFd
  split_ifs
  · exact ⟨fun _ _ => rfl, rfl⟩
  · exact ⟨fun x hx => update_of_ne hx .., by simp⟩
  · exact ⟨fun _ _ => rfl, rfl⟩

theorem events_fpmEventAdd (frequency : Nat) (clock : Timeval) (malloc : Bool) :
    (∀ x, x ≠ ev → (l.fpmEventAdd ev frequency clock malloc).1.events x = l.events x) ∧
      ((l.fpmEventAdd ev frequency clock malloc).1.events ev).flags = (l.events ev).flags := by
  unfold fpmEventAdd
  split
  · refine ⟨fun x hx => ?_, (events_fpmEventQueueAddFd malloc).2.trans (by simp)⟩
    exact ((events_fpmEventQueueAddFd malloc).1 x hx).trans (update_of_ne hx ..)
  · simp only [events_fpmEventQueueAddTimer, fpmEventSetTimeout, update_self,
      update_idem]
    exact ⟨fun x hx => update_of_ne hx .., trivial⟩

theorem events_arm_of_ne (hx : x ≠ a.ev) : (l.arm a).1.events x = l.events x := by
  rw [arm, (events_fpmEventAdd ..).1 x hx, fpmEventSet_eq]
  exact update_of_ne hx ..

theorem flags_arm : ((l.arm a).1.events a.ev).flags = a.flags := by
  rw [arm, (events_fpmEventAdd ..).2, fpmEventSet_eq]
  simp

theorem arm_of_timer (h : a.timer = true) :
    (l.arm a).1.queueTimer =
        (if fpmEventQueueIsset l.queueTimer a.ev = false ∧ a.malloc = true then
          l.queueTimer.push a.ev else l.queueTimer) ∧
      ((l.arm a).2 = 0 ↔ fpmEventQueueIsset l.queueTimer a.ev = true ∨ a.malloc = true) := by
  have hflags : ¬(((l.fpmEventSet a.ev a.fd a.flags a.callback).1.events a.ev).flags &&&
      FPM_EV_READ ≠ 0) := by
    rw [fpmEventSet_eq]
    simpa [Arm.timer] using h
  rw [arm, fpmEventAdd, if_neg hflags, queueTimer_fpmEventQueueAddTimer, fpmEventQueueAddTimer_snd,
    fpmEventSet_eq]
  exact ⟨rfl, Iff.rfl⟩

theorem arm_of_read (h : a.timer = false) : (l.arm a).1.queueTimer = l.queueTimer := by
  have hflags : ((l.fpmEventSet a.ev a.fd a.flags a.callback).1.events a.ev).flags &&&
      FPM_EV_READ ≠ 0 := by
    rw [fpmEventSet_eq]
    simpa [Arm.timer] using h
  rw [arm, fpmEventAdd, if_pos hflags, queueTimer_fpmEventQueueAddFd, fpmEventSet_eq]

/-- The calls `as` have led from `l` to `l'`, with new elements `fs` before the elements `xs` of the
queue, and have added `added`. -/
structure Calls (l : EventLoop ι) (as : List (Arm ι)) (xs fs : List Nat) (l' : EventLoop ι)
    (added : List ι) : Prop where
  holds : l'.queueTimer.Holds (fs ++ xs)
  item : ∀ x ∈ xs, l'.queueTimer.item x = l.queueTimer.item x
  mem_iff : ∀ e, e ∈ fs.map l'.queueTimer.item ↔ e ∉ xs.map l.queueTimer.item ∧ Puts as e
  added_iff : ∀ e, e ∈ added ↔ Adds as e ∧ (e ∈ xs.map l.queueTimer.item ∨ Puts as e)
  events : ∀ e, (∀ a ∈ as, a.ev ≠ e) → l'.events e = l.events e
  flags : ∀ e, (l'.events e).flags =
    (as.filter fun a => a.ev = e).getLast?.elim (l.events e).flags Arm.flags

theorem calls_nil (h : l.queueTimer.Holds xs) : Calls l [] xs [] l [] where
  holds := h
  item _ _ := rfl
  mem_iff e := by simp [Puts]
  added_iff e := by simp [Adds]
  events _ _ := rfl
  flags _ := rfl

theorem calls_arm (h : l.queueTimer.Holds xs) :
    ∃ fs, Calls l [a] xs fs (l.arm a).1 (if (l.arm a).2 = 0 ∧ a.timer then [a.ev] else []) := by
  have hevents : ∀ e, (∀ b ∈ [a], b.ev ≠ e) → (l.arm a).1.events e = l.events e := fun e he =>
    events_arm_of_ne (he a (mem_singleton_self a)).symm
  have hflags : ∀ e, ((l.arm a).1.events e).flags =
      ([a].filter fun b => b.ev = e).getLast?.elim (l.events e).flags Arm.flags := by
    intro e
    by_cases he : a.ev = e
    · subst he
      simpa using flags_arm
    · simp [he, events_arm_of_ne (l := l) (Ne.symm he)]
  cases htimer : a.timer with
  | false =>
    have hqueue := arm_of_read (l := l) htimer
    refine ⟨[], ⟨hqueue ▸ h, fun x _ => by rw [hqueue], fun e => ?_, fun e => ?_, hevents, hflags⟩⟩
    · simp [puts_singleton, htimer]
    · simp [adds_singleton, htimer]
  | true =>
    obtain ⟨hqueue, hret⟩ := arm_of_timer (l := l) htimer
    have hisset : fpmEventQueueIsset l.queueTimer a.ev = true ↔
        a.ev ∈ xs.map l.queueTimer.item := fpmEventQueueIsset_iff h
    by_cases hnew : fpmEventQueueIsset l.queueTimer a.ev = false ∧ a.malloc = true
    · -- a new element
      rw [if_pos hnew] at hqueue
      have hmem : a.ev ∉ xs.map l.queueTimer.item := by
        rw [← hisset, hnew.1]
        exact Bool.false_ne_true
      refine ⟨[l.queueTimer.fresh], ⟨hqueue ▸ h.push hmem, fun x hx => ?_, fun e => ?_, fun e => ?_,
        hevents, hflags⟩⟩
      · rw [hqueue]
        exact update_of_ne (Nat.ne_of_lt (h.fresh x hx)) ..
      · rw [hqueue, map_singleton, mem_singleton, puts_singleton,
          show (l.queueTimer.push a.ev).item l.queueTimer.fresh = a.ev from update_self ..]
        constructor
        · rintro rfl
          exact ⟨hmem, rfl, htimer, hnew.2⟩
        · rintro ⟨-, he, -⟩
          exact he.symm
      · rw [if_pos ⟨hret.mpr (.inr hnew.2), rfl⟩, mem_singleton, adds_singleton,
          puts_singleton]
        constructor
        · rintro rfl
          exact ⟨⟨rfl, htimer⟩, .inr ⟨rfl, htimer, hnew.2⟩⟩
        · rintro ⟨⟨he, -⟩, -⟩
          exact he.symm
    · -- the event is there, or there is no memory
      rw [if_neg hnew] at hqueue
      have hold : a.malloc = true → a.ev ∈ xs.map l.queueTimer.item := fun hmalloc =>
        hisset.mp (by simpa [hmalloc] using hnew)
      refine ⟨[], hqueue ▸ h, fun x _ => by rw [hqueue], fun e => ?_, fun e => ?_, hevents, hflags⟩
      · rw [puts_singleton]
        constructor
        · rintro ⟨⟩
        · rintro ⟨hmem, rfl, -, hmalloc⟩
          exact absurd (hold hmalloc) hmem
      · rw [adds_singleton, puts_singleton]
        simp only [hret, hisset, and_true]
        split
        · rename_i hret'
          rw [mem_singleton]
          constructor
          · rintro rfl
            exact ⟨⟨rfl, htimer⟩, hret'.imp_right fun hmalloc => ⟨rfl, htimer, hmalloc⟩⟩
          · rintro ⟨⟨he, -⟩, -⟩
            exact he.symm
        · rename_i hret'
          constructor
          · rintro ⟨⟩
          · rintro ⟨⟨rfl, -⟩, hmem⟩
            exact absurd (hmem.imp_right fun hputs => hputs.2.2) hret'

theorem Calls.append (h : Calls l as xs fs l₁ added) (h' : Calls l₁ as' (fs ++ xs) fs' l₂ added') :
    Calls l (as ++ as') xs (fs' ++ fs) l₂ (added ++ added') := by
  have hmap : ∀ e, e ∈ (fs ++ xs).map l₁.queueTimer.item ↔
      e ∈ xs.map l.queueTimer.item ∨ Puts as e := by
    intro e
    rw [map_append, mem_append, h.mem_iff, map_congr_left h.item]
    tauto
  have hfs : fs.map l₂.queueTimer.item = fs.map l₁.queueTimer.item :=
    map_congr_left fun x hx => h'.item x (mem_append_left _ hx)
  refine ⟨?_, fun x hx => ?_, fun e => ?_, fun e => ?_, fun e he => ?_, fun e => ?_⟩
  · rw [append_assoc]
    exact h'.holds
  · rw [h'.item x (mem_append_right _ hx), h.item x hx]
  · rw [map_append, mem_append, h'.mem_iff, hfs, h.mem_iff, hmap, puts_append]
    tauto
  · rw [mem_append, h.added_iff, h'.added_iff, hmap, adds_append, puts_append]
    have hputs : Puts as e → Adds as e := Puts.adds
    have hputs' : Puts as' e → Adds as' e := Puts.adds
    tauto
  · rw [h'.events e fun a ha => he a (mem_append_right _ ha),
      h.events e fun a ha => he a (mem_append_left _ ha)]
  · rw [h'.flags, h.flags, filter_append, List.getLast?_append]
    cases (as'.filter fun a => a.ev = e).getLast? <;> rfl

theorem calls_called (h : l.queueTimer.Holds xs) :
    ∃ fs, Calls l as xs fs (l.called as).1 (l.called as).2 := by
  -- induction on the calls
  induction as generalizing l xs with
  | nil => exact ⟨[], calls_nil h⟩
  | cons a as ih =>
    obtain ⟨fs, harm⟩ := calls_arm (a := a) h
    obtain ⟨fs', hrest⟩ := ih harm.holds
    refine ⟨fs' ++ fs, ?_⟩
    have happend := harm.append hrest
    rw [show (l.called (a :: as)).2 = (if (l.arm a).2 = 0 ∧ a.timer = true then [a.ev] else []) ++
      ((l.arm a).1.called as).2 by
        rw [called]
        dsimp only
        split_ifs <;> rfl]
    exact happend

theorem calls_fpmEventFire (h : l.queueTimer.Holds xs) :
    ∃ fs, Calls l (if (l.events ev).callback.isSome then as else []) xs fs
      (l.fpmEventFire ev as).1 (l.fpmEventFire ev as).2 := by
  unfold fpmEventFire
  cases (l.events ev).callback with
  | none => exact ⟨[], calls_nil h⟩
  | some callback => exact calls_called h

/-! ## One element -/

@[simp]
theorem queueTimer_fpmEventSetTimeout (clock : Timeval) :
    (l.fpmEventSetTimeout ev clock).queueTimer = l.queueTimer := rfl

theorem events_fpmEventSetTimeout_of_ne (clock : Timeval) (hx : x ≠ ev) :
    (l.fpmEventSetTimeout ev clock).events x = l.events x := update_of_ne hx ..

theorem events_fpmEventSetTimeout_self (clock : Timeval) :
    (l.fpmEventSetTimeout ev clock).events ev =
      { l.events ev with timeout := timeradd clock (l.events ev).frequency } :=
  update_self ..

/-- The pass that began in `l` has gone through the events `before`, and the callbacks of `fired`
have run: it has left the elements `fs` before the elements `xs`, and has added `added`. -/
structure Passed (l : EventLoop ι) (now : ι → Timeval) (calls : ι → List (Arm ι))
    (before fired behind : List ι) (fs xs : List Nat) (l' : EventLoop ι) (added : List ι) :
    Prop where
  holds : l'.queueTimer.Holds (fs ++ xs)
  behind_eq : xs.map l'.queueTimer.item = behind
  events : ∀ x ∈ behind, x ∉ fired → l'.events x = l.events x
  mem_iff : ∀ x, x ∈ fs.map l'.queueTimer.item ↔ (x ∈ before ∧ l.stays now calls x = true) ∨
    ∃ e ∈ fired, e ≠ x ∧ Puts (l.callsOf now calls e) x
  added_sub : ∀ x ∈ added, x ∈ fs.map l'.queueTimer.item ∨
    x ∈ fired ∧ Adds (l.callsOf now calls x) x
  sub_added : ∀ x, (x ∈ fired ∧ Adds (l.callsOf now calls x) x) ∨
    (∃ e ∈ fired, e ≠ x ∧ Puts (l.callsOf now calls e) x) → x ∈ added
  timeout : ∀ x ∈ before, l.expired now x = true → l.stays now calls x = true →
    (l'.events x).timeout = timeradd (now x) (l'.events x).frequency

theorem passed_nil (h : l.queueTimer.Holds xs) (hes : xs.map l.queueTimer.item = es) :
    Passed l now calls [] [] es [] xs l [] where
  holds := h
  behind_eq := hes
  events _ _ _ := rfl
  mem_iff x := by simp
  added_sub x hx := by cases hx
  sub_added x hx := by simp at hx
  timeout x hx := by cases hx

section Step

variable {before behind : List ι} {q : Nat}

omit [DecidableEq ι] in
theorem callsOf_of_not_expired (h : l.expired now ev = false) : l.callsOf now calls ev = [] := by
  simp [callsOf, h]

theorem Passed.ne (h : Passed l now calls before before (ev :: behind) fs (q :: xs) l' added) :
    ev ∉ behind ∧ ev ∉ fs.map l'.queueTimer.item ∧
      ∀ x ∈ behind, x ∉ fs.map l'.queueTimer.item := by
  have hnd := h.holds.items
  rw [map_append, h.behind_eq, nodup_append] at hnd
  obtain ⟨-, hright, hdisj⟩ := hnd
  exact ⟨(nodup_cons.mp hright).1, fun hmem => hdisj ev hmem ev mem_cons_self rfl,
    fun x hx hmem => hdisj x hmem x (mem_cons_of_mem ev hx) rfl⟩

theorem Passed.fire
    (h : Passed l now calls before before (ev :: behind) fs (q :: xs) l' added)
    (hev : ev ∉ before) (hcalls : ∀ a ∈ l.callsOf now calls ev,
      a.ev ∉ behind ∧ (a.ev ∈ before → l.stays now calls a.ev = false))
    (hexpired : l.expired now ev = true) :
    (∃ fs', Passed l now calls before (before ++ [ev]) (ev :: behind) fs' (q :: xs)
      (l'.fpmEventFire ev (calls ev)).1 (added ++ (l'.fpmEventFire ev (calls ev)).2)) ∧
      ((l'.fpmEventFire ev (calls ev)).1.events ev).flags = l.flagsBehind now calls ev := by
  obtain ⟨hbehind, hfront, hdisj⟩ := h.ne
  have hsame : l'.events ev = l.events ev := h.events ev mem_cons_self hev
  obtain ⟨fs', hfire⟩ : ∃ fs', Calls l' (if (l'.events ev).callback.isSome then calls ev else [])
      (fs ++ q :: xs) fs' (l'.fpmEventFire ev (calls ev)).1 (l'.fpmEventFire ev (calls ev)).2 :=
    calls_fpmEventFire h.holds
  have hof : (if (l'.events ev).callback.isSome then calls ev else []) =
      l.callsOf now calls ev := by
    rw [callsOf, hexpired, hsame, Bool.true_and]
  rw [hof] at hfire
  generalize l'.fpmEventFire ev (calls ev) = r at hfire
  have hold : ∀ x, x ∈ (fs ++ q :: xs).map l'.queueTimer.item ↔
      x ∈ fs.map l'.queueTimer.item ∨ x = ev ∨ x ∈ behind := by
    intro x
    rw [map_append, h.behind_eq, mem_append, mem_cons]
  have hitem : ∀ ys ⊆ fs ++ q :: xs, ys.map r.1.queueTimer.item = ys.map l'.queueTimer.item :=
    fun ys hys => map_congr_left fun x hx => hfire.item x (hys hx)
  have hfs := hitem fs (subset_append_left ..)
  have hnot : ∀ x ∈ behind, ¬Adds (l.callsOf now calls ev) x := by
    rintro x hx ⟨a, ha, rfl, -⟩
    exact (hcalls a ha).1 hx
  have hnot' : ∀ x ∈ behind, ¬Puts (l.callsOf now calls ev) x := fun x hx hputs =>
    hnot x hx hputs.adds
  have hmem : ∀ x, x ∈ (fs' ++ fs).map r.1.queueTimer.item ↔ x ∈ fs.map l'.queueTimer.item ∨
      (ev ≠ x ∧ Puts (l.callsOf now calls ev) x) := by
    intro x
    have hnotx := hnot' x
    rw [map_append, mem_append, hfire.mem_iff, hfs, hold]
    have hcomm : ev ≠ x ↔ x ≠ ev := ne_comm
    tauto
  have hputs : ∀ x, (∃ e ∈ before ++ [ev], e ≠ x ∧ Puts (l.callsOf now calls e) x) ↔
      (∃ e ∈ before, e ≠ x ∧ Puts (l.callsOf now calls e) x) ∨
        (ev ≠ x ∧ Puts (l.callsOf now calls ev) x) := by
    intro x
    simp only [mem_append, mem_singleton, or_and_right, exists_or, exists_eq_left]
  have hadds : ∀ x, (x ∈ before ++ [ev] ∧ Adds (l.callsOf now calls x) x) ↔
      (x ∈ before ∧ Adds (l.callsOf now calls x) x) ∨
        (x = ev ∧ Adds (l.callsOf now calls ev) ev) := by
    intro x
    rw [mem_append, mem_singleton, or_and_right]
    exact or_congr_right (and_congr_right fun hx => by rw [hx])
  refine ⟨⟨fs' ++ fs, ?_, ?_, fun x hx hfired => ?_, fun x => ?_, fun x hx => ?_, fun x hx => ?_,
    fun x hx hexp hstays => ?_⟩, ?_⟩
  · rw [append_assoc]
    exact hfire.holds
  · rw [hitem (q :: xs) (subset_append_right ..), h.behind_eq]
  · rw [mem_append, mem_singleton, not_or] at hfired
    rw [hfire.events x fun a ha heq => ?_, h.events x hx hfired.1]
    rcases mem_cons.mp hx with rfl | hx
    · exact hfired.2 rfl
    · exact (hcalls a ha).1 (heq ▸ hx)
  · rw [hmem, h.mem_iff, hputs, or_assoc]
  · rw [hmem, hadds]
    rcases mem_append.mp hx with hx | hx
    · have hcases := h.added_sub x hx
      tauto
    · obtain ⟨hadd, hqueue⟩ := (hfire.added_iff x).mp hx
      rw [hold] at hqueue
      by_cases heq : ev = x
      · subst heq
        exact .inr (.inr ⟨rfl, hadd⟩)
      · rcases hqueue with (hqueue | rfl | hqueue) | hqueue
        · exact .inl (.inl hqueue)
        · exact absurd rfl heq
        · exact absurd hadd (hnot x hqueue)
        · exact .inl (.inr ⟨heq, hqueue⟩)
  · rw [hadds, hputs] at hx
    rw [mem_append, hfire.added_iff, hold]
    rcases hx with (hx | ⟨rfl, hadd⟩) | (hx | ⟨-, hput⟩)
    · exact .inl (h.sub_added x (.inl hx))
    · exact .inr ⟨hadd, .inl (.inr (.inl rfl))⟩
    · exact .inl (h.sub_added x (.inr hx))
    · exact .inr ⟨hput.adds, .inr hput⟩
  · rw [hfire.events x fun a ha heq => ?_]
    · exact h.timeout x hx hexp hstays
    · have hnone := (hcalls a ha).2 (heq ▸ hx)
      rw [heq, hstays] at hnone
      cases hnone
  · rw [hfire.flags, hsame]
    rfl

theorem Passed.skip
    (h : Passed l now calls before before (ev :: behind) fs (q :: xs) l' added)
    (hexpired : l.expired now ev = false) :
    Passed l now calls before (before ++ [ev]) (ev :: behind) fs (q :: xs) l' added := by
  have hnone : l.callsOf now calls ev = [] := callsOf_of_not_expired hexpired
  have hputs : ∀ x, (∃ e ∈ before ++ [ev], e ≠ x ∧ Puts (l.callsOf now calls e) x) ↔
      ∃ e ∈ before, e ≠ x ∧ Puts (l.callsOf now calls e) x := by
    intro x
    have hnil : ¬Puts (l.callsOf now calls ev) x := by simp [hnone, Puts]
    simp only [mem_append, mem_singleton, or_and_right, exists_or, exists_eq_left, hnil,
      and_false, or_false]
  have hadds : ∀ x, (x ∈ before ++ [ev] ∧ Adds (l.callsOf now calls x) x) ↔
      x ∈ before ∧ Adds (l.callsOf now calls x) x := by
    intro x
    rw [mem_append, mem_singleton, or_and_right, or_iff_left_iff_imp]
    rintro ⟨rfl, a, ha, -⟩
    rw [hnone] at ha
    cases ha
  refine ⟨h.holds, h.behind_eq, fun x hx hfired => ?_, fun x => ?_, fun x hx => ?_, fun x hx => ?_,
    h.timeout⟩
  · exact h.events x hx fun hmem => hfired (mem_append_left _ hmem)
  · rw [hputs]
    exact h.mem_iff x
  · rw [hadds]
    exact h.added_sub x hx
  · rw [hadds, hputs] at hx
    exact h.sub_added x hx

theorem Passed.setTimeout
    (h : Passed l now calls before (before ++ [ev]) (ev :: behind) fs (q :: xs) l' added)
    (hev : ev ∉ before) (clock : Timeval) :
    Passed l now calls before (before ++ [ev]) (ev :: behind) fs (q :: xs)
      (l'.fpmEventSetTimeout ev clock) added where
  holds := h.holds
  behind_eq := h.behind_eq
  events x hx hfired := by
    have hne : x ≠ ev := fun heq => hfired (heq ▸ mem_concat_self)
    rw [events_fpmEventSetTimeout_of_ne clock hne]
    exact h.events x hx hfired
  mem_iff := h.mem_iff
  added_sub := h.added_sub
  sub_added := h.sub_added
  timeout x hx hexp hstays := by
    have hne : x ≠ ev := fun heq => hev (heq ▸ hx)
    rw [events_fpmEventSetTimeout_of_ne clock hne]
    exact h.timeout x hx hexp hstays

theorem Passed.keep
    (h : Passed l now calls before (before ++ [ev]) (ev :: behind) fs (q :: xs) l' added)
    (hstays : l.stays now calls ev = true)
    (htimeout : l.expired now ev = true →
      (l'.events ev).timeout = timeradd (now ev) (l'.events ev).frequency) :
    Passed l now calls (before ++ [ev]) (before ++ [ev]) behind (fs ++ [q]) xs l' added := by
  obtain ⟨hq, hxs⟩ := List.cons.inj ((map_cons ..).symm.trans h.behind_eq)
  have hmap : (fs ++ [q]).map l'.queueTimer.item = fs.map l'.queueTimer.item ++ [ev] := by
    rw [map_append, map_singleton, hq]
  refine ⟨?_, hxs, fun x hx hfired => h.events x (mem_cons_of_mem ev hx) hfired, fun x => ?_,
    fun x hx => ?_, h.sub_added, fun x hx hexp hstays' => ?_⟩
  · rw [append_assoc]
    exact h.holds
  · rw [hmap, mem_append, h.mem_iff, mem_append, mem_singleton]
    have heq : x = ev → l.stays now calls x = true := fun heq => heq ▸ hstays
    rw [or_and_right, and_iff_left_of_imp heq, or_right_comm]
  · rw [hmap, mem_append]
    have hcases := h.added_sub x hx
    tauto
  · rcases mem_append.mp hx with hx | hx
    · exact h.timeout x hx hexp hstays'
    · obtain rfl := mem_singleton.mp hx
      exact htimeout hexp

theorem Passed.drop
    (h : Passed l now calls before (before ++ [ev]) (ev :: behind) fs (q :: xs) l' added)
    (hstays : l.stays now calls ev = false) :
    Passed l now calls (before ++ [ev]) (before ++ [ev]) behind fs xs
      { l' with queueTimer := l'.queueTimer.unlink q } added := by
  obtain ⟨-, hxs⟩ := List.cons.inj ((map_cons ..).symm.trans h.behind_eq)
  have hne : ∀ x, x ∈ before ++ [ev] ∧ l.stays now calls x = true ↔
      x ∈ before ∧ l.stays now calls x = true := by
    intro x
    rw [mem_append, mem_singleton]
    have heq : x = ev → l.stays now calls x = false := fun heq => heq ▸ hstays
    grind
  refine ⟨h.holds.unlink, hxs, fun x hx hfired => h.events x (mem_cons_of_mem ev hx) hfired,
    fun x => ?_, h.added_sub, h.sub_added, fun x hx hexp hstays' => ?_⟩
  · rw [hne]
    exact h.mem_iff x
  · exact h.timeout x ((hne x).mp ⟨hx, hstays'⟩).1 hexp hstays'

end Step

/-! ## The pass -/

theorem exists_triggerFrom {before behind : List ι} (hnew : l.NewOrOwn now calls (before ++ behind))
    (hnd : (before ++ behind).Nodup)
    (h : Passed l now calls before before behind fs xs l' added) :
    ∃ fs' l'' added', triggerFrom now calls xs.length xs.head? (l', added) = some (l'', added') ∧
      Passed l now calls (before ++ behind) (before ++ behind) [] fs' [] l'' added' := by
  -- induction on the elements that are left
  induction xs generalizing before behind fs l' added with
  | nil =>
    obtain rfl : [] = behind := h.behind_eq
    rw [append_nil]
    exact ⟨fs, l', added, rfl, h⟩
  | cons q xs ih =>
    obtain ⟨ev, behind, rfl⟩ : ∃ ev rest, behind = ev :: rest := ⟨_, _, h.behind_eq.symm⟩
    have hq : l'.queueTimer.item q = ev := (List.cons.inj h.behind_eq).1
    have hev : ev ∉ before := fun hmem =>
      (nodup_append.mp hnd).2.2 ev hmem ev mem_cons_self rfl
    have hassoc : before ++ ev :: behind = (before ++ [ev]) ++ behind := by
      rw [append_assoc, singleton_append]
    have hsame : l'.expired now ev = l.expired now ev := by
      rw [expired, expired, h.events ev mem_cons_self hev]
    rw [length_cons, List.head?_cons, triggerFrom]
    dsimp only
    rw [hq, hsame]
    rw [hassoc] at hnew hnd ⊢
    cases hexpired : l.expired now ev with
    | false =>
      have hstays : l.stays now calls ev = true := by simp [stays, hexpired]
      have hpassed := (h.skip hexpired).keep hstays fun hexp => by simp [hexpired] at hexp
      rw [if_neg Bool.false_ne_true, h.holds.isDll.links_at.2]
      exact ih hnew hnd hpassed
    | true =>
      have hcalls := hnew before ev behind hassoc.symm
      obtain ⟨⟨fs', hfire⟩, hflags⟩ := h.fire hev hcalls hexpired
      rw [if_pos rfl]
      split
      · rename_i hpersist
        rw [hflags] at hpersist
        have hstays : l.stays now calls ev = true := by simp [stays, hexpired, hpersist]
        have hpassed := (hfire.setTimeout hev (now ev)).keep hstays fun _ => by
          rw [events_fpmEventSetTimeout_self]
        rw [queueTimer_fpmEventSetTimeout, hfire.holds.isDll.links_at.2]
        exact ih hnew hnd hpassed
      · rename_i hpersist
        rw [hflags, ne_eq, not_not] at hpersist
        have hstays : l.stays now calls ev = false := by simp [stays, hexpired, hpersist]
        rw [hfire.holds.next_unlink]
        exact ih hnew hnd (hfire.drop hstays)

theorem exists_triggerTimers (h : l.queueTimer.Lists es) (hnew : l.NewOrOwn now calls es) :
    ∃ fs l' added, l.triggerTimers now calls = some (l', added) ∧
      Passed l now calls es es [] fs [] l' added := by
  have hnd := h.nodup
  obtain ⟨xs, hxs, hes⟩ := h
  have hall : l.NewOrOwn now calls ([] ++ es) := hnew
  obtain ⟨fs, l', added, hrun, hpassed⟩ := exists_triggerFrom hall hnd (passed_nil hxs hes)
  rw [triggerTimers, hxs.length_live, hxs.isDll.head_eq]
  exact ⟨fs, l', added, hrun, hpassed⟩

theorem Passed.losesNone_iff_notTakenOut (h : Passed l now calls es es [] fs [] l' added) :
    l.LosesNone now calls es l' added ↔ l.NotTakenOut now calls es := by
  have hholds := h.holds
  rw [append_nil] at hholds
  constructor
  · rintro ⟨⟨es', ⟨ys, hys, rfl⟩, hmem⟩, -⟩ x hx hadds hstays
    have hin := (hmem x).mpr (.inr (h.sub_added x (.inl ⟨hx, hadds⟩)))
    rw [hys.mem_map_iff hholds, h.mem_iff] at hin
    rcases hin with ⟨-, hstays'⟩ | hputs
    · rw [hstays] at hstays'
      cases hstays'
    · exact hputs
  · intro hnot
    refine ⟨⟨fs.map l'.queueTimer.item, ⟨fs, hholds, rfl⟩, fun x => ⟨fun hx => ?_, ?_⟩⟩, h.timeout⟩
    · exact ((h.mem_iff x).mp hx).imp_right fun hputs => h.sub_added x (.inr hputs)
    · rintro (hx | hx)
      · exact (h.mem_iff x).mpr (.inl hx)
      · rcases h.added_sub x hx with hx | ⟨hx, hadds⟩
        · exact hx
        · cases hstays : l.stays now calls x with
          | true => exact (h.mem_iff x).mpr (.inl ⟨hx, hstays⟩)
          | false => exact (h.mem_iff x).mpr (.inr (hnot x hx hadds hstays))

/-- **A pass over the timers loses none of them**, if and only if no event that its own callback has
added again is taken out of the queue behind it. -/
theorem losesNone_iff (h : l.queueTimer.Lists es) (hnew : l.NewOrOwn now calls es) :
    ∃ l' added, l.triggerTimers now calls = some (l', added) ∧
      (l.LosesNone now calls es l' added ↔ l.NotTakenOut now calls es) := by
  obtain ⟨fs, l', added, hrun, hpassed⟩ := exists_triggerTimers h hnew
  exact ⟨l', added, hrun, hpassed.losesNone_iff_notTakenOut⟩

/-! ## One timer -/

/-- One timer that fires once, at the time `1`. -/
def oneTimer : EventLoop Nat where
  events := fun _ => ⟨-1, ⟨1, 0⟩, ⟨1, 0⟩, some 0, 0, -1, FPM_EV_TIMEOUT⟩
  queueTimer := (HeapQueue.empty ⟨fun _ => none, fun _ => none⟩ fun _ => 0).push 0
  queueFd := HeapQueue.empty ⟨fun _ => none, fun _ => none⟩ fun _ => 0
  moduleAdd := none

/-- Every callback sets the event `x` to fire once, a second later. -/
def setsOnce (x : Nat) : Nat → List (Arm Nat) := fun _ =>
  [⟨x, -1, Int.le_refl _, 0, 0, 1000, ⟨1, 0⟩, true⟩]

theorem lists_oneTimer : oneTimer.queueTimer.Lists [0] :=
  HeapQueue.Lists.push ⟨[], HeapQueue.holds_empty _ _, rfl⟩ not_mem_nil

theorem newOrOwn_oneTimer (calls : Nat → List (Arm Nat)) :
    oneTimer.NewOrOwn (fun _ => ⟨1, 0⟩) calls [0] := by
  intro before ev behind heq a _
  rcases before with _ | ⟨b, before⟩
  · obtain rfl : [] = behind := (List.cons.inj heq).2
    exact ⟨not_mem_nil, fun hmem => absurd hmem not_mem_nil⟩
  · exact absurd (List.cons.inj heq).2 (by simp)

theorem losesNone_iff_oneTimer :
    ∃ l' added, oneTimer.triggerTimers (fun _ => ⟨1, 0⟩) (setsOnce 1) = some (l', added) ∧
      (oneTimer.LosesNone (fun _ => ⟨1, 0⟩) (setsOnce 1) [0] l' added ↔
        oneTimer.NotTakenOut (fun _ => ⟨1, 0⟩) (setsOnce 1) [0]) :=
  losesNone_iff lists_oneTimer (newOrOwn_oneTimer _)

/-- The timer sets itself again, and is lost. -/
theorem not_losesNone :
    ∃ l' added, oneTimer.triggerTimers (fun _ => ⟨1, 0⟩) (setsOnce 0) = some (l', added) ∧
      ¬oneTimer.LosesNone (fun _ => ⟨1, 0⟩) (setsOnce 0) [0] l' added := by
  obtain ⟨fs, l', added, hrun, hpassed⟩ :=
    exists_triggerTimers lists_oneTimer (newOrOwn_oneTimer (setsOnce 0))
  refine ⟨l', added, hrun, fun hloses => ?_⟩
  obtain ⟨e, he, hne, -⟩ := hpassed.losesNone_iff_notTakenOut.mp hloses 0 (by decide)
    ⟨_, mem_singleton_self _, rfl, rfl⟩ rfl
  exact hne (mem_singleton.mp he)

end EventLoop

end Phpce
