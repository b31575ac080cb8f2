import Phpce.Events.Children

/-!
# Firing what is ready

When `poll` or `epoll_wait` has returned, the event module fires the events that are ready. The
module for `poll` follows the queue of the descriptors and reads the next element when the callback
has returned; the module for `epoll` goes through an array of events. The callbacks take events out
of that queue and release the children that own them.

`Follows` is what is known of the events still to come when the children `R` have been reaped.

* **`dispatch_iff`** — no element is followed and no event fired that has been taken out or whose
  child has been released, if and only if: for `poll`, each pipe of the queue is either
  left open by its own callback, or the child has been reaped before and has taken it out; for
  `epoll`, no event belongs to a child that has been reaped before.
-/

namespace Phpce

open List Option
open Function (update update_of_ne)

/-! ## The modules -/

/-- `poll_module`. -/
def pollModule : EventModule (Poll FdEvent) FdEvent where
  event p := p.events
  size := Poll.npollfds
  set := Poll.fpmEventSet
  add p ev := (p.fpmEventPollAdd ev).1
  remove p ev := (p.fpmEventPollRemove ev).1
  event_set _ _ _ _ hx := Poll.events_fpmEventSet_of_ne hx
  event_add p ev x hx := by
    rcases p.fpmEventPollAdd_cases ev with ⟨i, heq⟩ | heq
    · rw [heq, Poll.events_register_of_ne hx]
    · rw [heq]
  event_remove p ev x hx := by
    rcases p.fpmEventPollRemove_cases ev with ⟨i, -, heq⟩ | heq
    · rw [heq, Poll.events_unregister_of_ne hx]
    · rw [heq]
  fd_remove p ev x := by
    rcases p.fpmEventPollRemove_cases ev with ⟨i, -, heq⟩ | heq
    · rw [heq, Poll.fd_unregister]
    · rw [heq]
  size_set _ _ _ := rfl
  size_add p ev := by
    rcases p.fpmEventPollAdd_cases ev with ⟨i, heq⟩ | heq
    · rw [heq, Poll.npollfds_register]
    · rw [heq]
  size_remove p ev := by
    rcases p.fpmEventPollRemove_cases ev with ⟨i, -, heq⟩ | heq
    · rw [heq, Poll.npollfds_unregister]
    · rw [heq]

/-- The variables of the epoll module, and the events. `epollCtl n` is whether the call number `n`
of `epoll_ctl` succeeds. -/
structure Epoll (ι : Type*) where
  events : ι → PollEvent
  nepollfds : Nat
  epollCtl : Nat → Bool
  calls : Nat

namespace Epoll

variable {ι : Type*} [DecidableEq ι]

/-- `fpm_event_set`, with the index that `fpm_event_add` gives. -/
def fpmEventSet (e : Epoll ι) (ev : ι) (fd : Int) : Epoll ι :=
  { e with events := update e.events ev ⟨fd, -1⟩ }

/-- `fpm_event_epoll_add`, with what it returns. -/
def fpmEventEpollAdd (e : Epoll ι) (ev : ι) : Epoll ι × Int :=
  if e.epollCtl e.calls then
    ({ e with
        calls := e.calls + 1
        events := update e.events ev { e.events ev with index := (e.events ev).fd } }, 0)
  else ({ e with calls := e.calls + 1 }, -1)

/-- `fpm_event_epoll_remove`, with what it returns. -/
def fpmEventEpollRemove (e : Epoll ι) (ev : ι) : Epoll ι × Int :=
  if e.epollCtl e.calls then
    ({ e with
        calls := e.calls + 1
        events := update e.events ev { e.events ev with index := -1 } }, 0)
  else ({ e with calls := e.calls + 1 }, -1)

end Epoll

/-- `epoll_module`. -/
def epollModule : EventModule (Epoll FdEvent) FdEvent where
  event e := e.events
  size := Epoll.nepollfds
  set := Epoll.fpmEventSet
  add e ev := (e.fpmEventEpollAdd ev).1
  remove e ev := (e.fpmEventEpollRemove ev).1
  event_set _ _ _ _ hx := update_of_ne hx ..
  event_add e ev x hx := by
    unfold Epoll.fpmEventEpollAdd
    split_ifs
    · exact update_of_ne hx ..
    · rfl
  event_remove e ev x hx := by
    unfold Epoll.fpmEventEpollRemove
    split_ifs
    · exact update_of_ne hx ..
    · rfl
  fd_remove e ev x := by
    unfold Epoll.fpmEventEpollRemove
    split_ifs
    · by_cases hx : x = ev
      · simp [hx]
      · simp [hx]
    · rfl
  size_set _ _ _ := rfl
  size_add e ev := by
    unfold Epoll.fpmEventEpollAdd
    split_ifs <;> rfl
  size_remove e ev := by
    unfold Epoll.fpmEventEpollRemove
    split_ifs <;> rfl

def ChildAction.reaped (actions : List ChildAction) : List Reaped :=
  actions.filterMap fun
    | .exited r => some r
    | .made .. => none

namespace FdLoop

variable {σ : Type*}

/-! ## The loops -/

def Usable (s : FdLoop σ) (ev : FdEvent) : Prop := ∀ child ∈ ev.owner, child ∈ s.children

instance (s : FdLoop σ) (ev : FdEvent) : Decidable (s.Usable ev) :=
  inferInstanceAs (Decidable (∀ child ∈ ev.owner, child ∈ s.children))

/-- The loop of `fpm_event_poll_wait` in the master, from the element `q`: `active` is what `poll`
has left, `behave` what the callbacks do. It is followed up to the first use of an element that has
been freed or of an event whose child has been released; the result says whether there is none. -/
def pollFrom (active : List PollFd) (behave : FdEvent → Behaviour) :
    Nat → Option Nat → FdLoop (Poll FdEvent) → Option (FdLoop (Poll FdEvent) × Bool)
  | _, none, s => some (s, true)
  | 0, some _, _ => none
  | fuel + 1, some q, s =>
    let ev := s.queue.item q
    if q ∈ s.queue.live ∧ s.Usable ev then
      let fired :=
        if s.mod.triggered active ev then s.fpmEventFire pollModule ev (behave ev) else s
      if q ∈ fired.queue.live then pollFrom active behave fuel (fired.queue.links.next q) fired
      else some (fired, false)
    else some (s, false)

/-- `fpm_event_poll_wait`. `poll` fails when `ready` is `none`. -/
def fpmEventPollWait (s : FdLoop (Poll FdEvent)) (ready : Option (Int → Nat))
    (behave : FdEvent → Behaviour) : Option (FdLoop (Poll FdEvent) × Bool) :=
  match ready with
  | none => some (s, true)
  | some ready =>
    let active := Poll.poll ready s.mod.pollfds
    if 0 < active.countP fun slot => slot.revents != 0 then
      pollFrom active behave s.queue.live.length s.queue.head s
    else some (s, true)

/-- The loop of `fpm_event_epoll_wait` in the master, over what `epoll_wait` has returned. -/
def fpmEventEpollWait (behave : FdEvent → Behaviour) :
    List (Option FdEvent) → FdLoop (Epoll FdEvent) → FdLoop (Epoll FdEvent) × Bool
  | [], s => (s, true)
  | none :: rest, s => fpmEventEpollWait behave rest s
  | some ev :: rest, s =>
    if EventLoop.fpmEventQueueIsset s.queue ev ∧ s.Usable ev then
      fpmEventEpollWait behave rest (s.fpmEventFire epollModule ev (behave ev))
    else (s, false)

/-! ## What is to come -/

/-- What has become of the child of the event, with the children `R` reaped in this order. -/
def fate (R : List Reaped) (ev : FdEvent) : Option Reaped :=
  ev.owner.bind fun child => R.find? fun r => r.child = child

/-- The children that the callback of the event reaps, if it is fired and is not that of a pipe. -/
def reapedBy (fires : FdEvent → Bool) (behave : FdEvent → Behaviour) (ev : FdEvent) :
    List Reaped :=
  if ev.owner = none ∧ fires ev = true then ChildAction.reaped (behave ev).actions else []

section Start

variable (M : EventModule σ FdEvent) (s₀ : FdLoop σ)

def gone (R : List Reaped) (ev : FdEvent) : Bool :=
  match fate R ev with
  | some r => r.closes ev && 0 ≤ (M.event s₀.mod ev).index
  | none => false

/-- The queue holds the events `es`: the children that own them are there, their pipes are open,
and each pair of pipes has two descriptors, which their events have. -/
structure WellFormed (es : List FdEvent) : Prop where
  lists : s₀.queue.Lists es
  nodup : s₀.children.Nodup
  lt : ∀ c ∈ s₀.children, c < s₀.nextChild
  piped : ∀ c ∈ s₀.children, Piped M s₀ c
  owner : ∀ x ∈ es, ∀ c, x.owner = some c → c ∈ s₀.children
  isOpen : ∀ x ∈ es, s₀.IsOpen x

/-- From `s₀` to `s` the children `R` have been reaped; the events `es` are to come, and those of
them whose children are left are as they were. -/
structure Follows (s : FdLoop σ) (R : List Reaped) (es : List FdEvent) : Prop where
  nodup : s.children.Nodup
  lt : ∀ c ∈ s.children, c < s.nextChild
  nextChild : s₀.nextChild ≤ s.nextChild
  mem_children : ∀ c, c < s₀.nextChild →
    (c ∈ s.children ↔ c ∈ s₀.children ∧ ∀ r ∈ R, r.child ≠ c)
  piped : ∀ c ∈ s.children, c < s₀.nextChild → Piped M s c
  owner : ∀ x ∈ es, ∀ c, x.owner = some c → c < s₀.nextChild ∧ c ∈ s₀.children
  event : ∀ x ∈ es, fate R x = none → M.event s.mod x = M.event s₀.mod x
  isOpen : ∀ x ∈ es, fate R x = none → s.IsOpen x
  size : M.size s.mod = M.size s₀.mod

end Start

variable {M : EventModule σ FdEvent} {s₀ s s' : FdLoop σ} {R : List Reaped} {es : List FdEvent}
  {T : List FdEvent} {r : Reaped} {x ev : FdEvent} {c : Nat}

theorem WellFormed.follows (h : WellFormed M s₀ es) : Follows M s₀ s₀ [] es where
  nodup := h.nodup
  lt := h.lt
  nextChild := Nat.le_refl _
  mem_children c _ := by simp
  piped c hc _ := h.piped c hc
  owner x hx c hc := ⟨h.lt c (h.owner x hx c hc), h.owner x hx c hc⟩
  event _ _ _ := rfl
  isOpen x hx _ := h.isOpen x hx
  size := rfl

theorem fate_eq_none : fate R x = none ↔ ∀ c, x.owner = some c → ∀ r ∈ R, r.child ≠ c := by
  unfold fate
  cases x.owner with
  | none => simp
  | some c => simp [List.find?_eq_none]

theorem fate_concat : fate (R ++ [r]) x =
    (fate R x).or (if x.owner = some r.child then some r else none) := by
  unfold fate
  cases x.owner with
  | none => simp
  | some c =>
    simp only [bind_some, List.find?_append, some.injEq]
    by_cases hc : r.child = c
    · simp [hc]
    · simp [hc, Ne.symm hc]

theorem Follows.usable_iff (h : Follows M s₀ s R es) (hx : x ∈ es) :
    s.Usable x ↔ fate R x = none := by
  rw [fate_eq_none]
  refine forall_congr' fun c => imp_congr_right fun hc => ?_
  obtain ⟨hlt, hmem⟩ := h.owner x hx c hc
  rw [h.mem_children c hlt, and_iff_right hmem]

theorem Follows.mono (h : Follows M s₀ s R es) {es' : List FdEvent} (hsub : es' ⊆ es) :
    Follows M s₀ s R es' where
  nodup := h.nodup
  lt := h.lt
  nextChild := h.nextChild
  mem_children := h.mem_children
  piped := h.piped
  owner x hx := h.owner x (hsub hx)
  event x hx := h.event x (hsub hx)
  isOpen x hx := h.isOpen x (hsub hx)
  size := h.size

/-! ## Reaping and making children -/

theorem Follows.exists_removes (h : Follows M s₀ s R es) (r : Reaped) :
    ∃ T, Removes M s (s.fpmChildrenBury M r) T ∧ (∀ x ∈ T, x.owner = some r.child) ∧
      ∀ x ∈ es, x ∈ T ↔ fate R x = none ∧ x.owner = some r.child ∧ r.closes x = true ∧
        0 ≤ (M.event s₀.mod x).index := by
  unfold fpmChildrenBury
  split
  · rename_i hmem
    obtain ⟨T, hremoves, howner, hexact⟩ := exists_removes_fpmChildClose M s r
    refine ⟨T, hremoves, howner, fun x hx => ?_⟩
    by_cases hc : x.owner = some r.child
    · obtain ⟨hlt, -⟩ := h.owner x hx _ hc
      have hnone : fate R x = none := (h.usable_iff hx).mp fun c hc' => by
        obtain rfl : r.child = c := some.inj (hc.symm.trans hc')
        exact hmem
      rw [hexact (h.piped _ hmem hlt) x hc (h.isOpen x hx hnone), h.event x hx hnone]
      simp [hnone, hc]
    · exact ⟨fun hT => absurd (howner x hT) hc, fun hall => absurd hall.2.1 hc⟩
  · rename_i hmem
    refine ⟨[], removes_nil, by simp, fun x hx => ?_⟩
    simp only [not_mem_nil, false_iff, not_and]
    exact fun hnone hc _ => absurd ((h.usable_iff hx).mpr hnone _ hc) hmem

theorem fds_fpmChildrenBury_of_ne (hc : c ≠ r.child) :
    (s.fpmChildrenBury M r).fdStdout c = s.fdStdout c ∧
      (s.fpmChildrenBury M r).fdStderr c = s.fdStderr c := by
  unfold fpmChildrenBury
  split
  · exact fds_fpmChildClose_of_ne hc
  · exact ⟨rfl, rfl⟩

theorem children_fpmChildrenBury :
    (s.fpmChildrenBury M r).children = s.children.erase r.child := by
  unfold fpmChildrenBury
  split
  · rw [fpmChildClose_eq]
  · rename_i hmem
    exact (erase_of_not_mem hmem).symm

theorem Piped.congr (h : Piped M s c) (hstdout : s'.fdStdout c = s.fdStdout c)
    (hstderr : s'.fdStderr c = s.fdStderr c)
    (hfd : ∀ x, x.owner = some c → (M.event s'.mod x).fd = (M.event s.mod x).fd) :
    Piped M s' c := by
  refine ⟨fun hopen => ?_, fun hopen => ?_⟩
  · rw [hstdout] at hopen ⊢
    rw [hfd _ rfl, h.stdout hopen]
  · rw [hstderr] at hopen ⊢
    rw [hstdout, hfd _ rfl]
    exact h.stderr hopen

theorem isOpen_congr (h : ∀ c, x.owner = some c → s'.fdStdout c = s.fdStdout c ∧
    s'.fdStderr c = s.fdStderr c) : s'.IsOpen x ↔ s.IsOpen x := by
  cases x with
  | signal => exact Iff.rfl
  | listening wp => exact Iff.rfl
  | stdout c =>
    show _ ≠ _ ↔ _ ≠ _
    rw [(h c rfl).1]
  | stderr c =>
    show _ ≠ _ ↔ _ ≠ _
    rw [(h c rfl).2]

theorem Follows.bury (h : Follows M s₀ s R es) (r : Reaped) :
    Follows M s₀ (s.fpmChildrenBury M r) (R ++ [r]) es := by
  obtain ⟨T, hremoves, howner, -⟩ := h.exists_removes r
  have hleft : ∀ x, fate (R ++ [r]) x = none → fate R x = none ∧ x.owner ≠ some r.child := by
    intro x hx
    rw [fate_concat, or_eq_none_iff] at hx
    exact ⟨hx.1, fun hc => by simp [hc] at hx⟩
  refine ⟨?_, fun c hc => ?_, ?_, fun c hlt => ?_, fun c hc hlt => ?_, h.owner,
    fun x hx hnone => ?_, fun x hx hnone => ?_, hremoves.size.trans h.size⟩
  · rw [children_fpmChildrenBury]
    exact h.nodup.erase _
  · rw [children_fpmChildrenBury] at hc
    rw [hremoves.nextChild]
    exact h.lt c (mem_of_mem_erase hc)
  · rw [hremoves.nextChild]
    exact h.nextChild
  · rw [children_fpmChildrenBury, h.nodup.mem_erase_iff, h.mem_children c hlt]
    simp only [mem_append, mem_singleton]
    grind
  · rw [children_fpmChildrenBury, h.nodup.mem_erase_iff] at hc
    obtain ⟨hstdout, hstderr⟩ := fds_fpmChildrenBury_of_ne (M := M) (s := s) hc.1
    exact (h.piped c hc.2 hlt).congr hstdout hstderr fun x _ => hremoves.fd x
  · obtain ⟨hnone, hc⟩ := hleft x hnone
    rw [hremoves.event x fun hT => hc (howner x hT), h.event x hx hnone]
  · obtain ⟨hnone, hc⟩ := hleft x hnone
    refine (isOpen_congr fun c hc' => fds_fpmChildrenBury_of_ne ?_).mpr (h.isOpen x hx hnone)
    rintro rfl
    exact hc hc'

theorem Follows.make (h : Follows M s₀ s R es) (hmake : Makes M s s') :
    Follows M s₀ s' R es := by
  have hne : ∀ c, c < s₀.nextChild → c ≠ s.nextChild := fun c hlt heq => by
    have hle := h.nextChild
    omega
  have howner : ∀ x ∈ es, x.owner ≠ some s.nextChild := fun x hx hc =>
    hne _ (h.owner x hx _ hc).1 rfl
  refine ⟨?_, fun c hc => ?_, ?_, fun c hlt => ?_, fun c hc hlt => ?_, h.owner,
    fun x hx hnone => ?_, fun x hx hnone => ?_, hmake.size.trans h.size⟩
  · rw [hmake.children]
    exact nodup_cons.mpr ⟨fun hmem => Nat.lt_irrefl _ (h.lt _ hmem), h.nodup⟩
  · rw [hmake.children] at hc
    rw [hmake.nextChild]
    rcases mem_cons.mp hc with rfl | hc
    · exact Nat.lt_succ_self _
    · exact Nat.lt_succ_of_lt (h.lt c hc)
  · rw [hmake.nextChild]
    exact Nat.le_succ_of_le h.nextChild
  · rw [hmake.children, mem_cons, or_iff_right (hne c hlt), h.mem_children c hlt]
  · rw [hmake.children, mem_cons, or_iff_right (hne c hlt)] at hc
    obtain ⟨hstdout, hstderr⟩ := hmake.fds c (hne c hlt)
    refine (h.piped c hc hlt).congr hstdout hstderr fun x hx => ?_
    rw [hmake.event x fun heq => hne c hlt (some.inj (hx.symm.trans heq))]
  · rw [hmake.event x (howner x hx), h.event x hx hnone]
  · refine (isOpen_congr fun c hc => hmake.fds c ?_).mpr (h.isOpen x hx hnone)
    exact hne c (h.owner x hx c hc).1

theorem Follows.actions {P : FdLoop σ → List Reaped → Prop} (h : Follows M s₀ s R es) (hP : P s R)
    (hbury : ∀ s R r, Follows M s₀ s R es → P s R → P (s.fpmChildrenBury M r) (R ++ [r]))
    (hmake : ∀ s s' R, Follows M s₀ s R es → Makes M s s' → P s R → P s' R)
    (actions : List ChildAction) :
    Follows M s₀ (actions.foldl (act M) s) (R ++ ChildAction.reaped actions) es ∧
      P (actions.foldl (act M) s) (R ++ ChildAction.reaped actions) := by
  -- induction on the actions
  induction actions generalizing s R with
  | nil =>
    rw [show ChildAction.reaped [] = [] from rfl, append_nil]
    exact ⟨h, hP⟩
  | cons a actions ih =>
    cases a with
    | exited r =>
      rw [show ChildAction.reaped (.exited r :: actions) = [r] ++ ChildAction.reaped actions from
        rfl, ← append_assoc]
      exact ih (h.bury r) (hbury s R r h hP)
    | made pipes mallocStdout mallocStderr =>
      have hmakes : Makes M s (s.act M (.made pipes mallocStdout mallocStderr)) :=
        makes_fpmChildrenMake ..
      exact ih (h.make hmakes) (hmake s _ R h hmakes hP)

theorem filter_gone_concat (hexact : ∀ x ∈ es, x ∈ T ↔ fate R x = none ∧
      x.owner = some r.child ∧ r.closes x = true ∧ 0 ≤ (M.event s₀.mod x).index) :
    (es.filter fun x => !gone M s₀ R x).filter (fun x => x ∉ T) =
      es.filter fun x => !gone M s₀ (R ++ [r]) x := by
  rw [List.filter_filter]
  refine filter_congr fun x hx => ?_
  have hT := hexact x hx
  rw [gone, gone, fate_concat]
  cases hfate : fate R x with
  | some r' => simp [hT, hfate]
  | none =>
    rw [Bool.eq_iff_iff]
    by_cases hc : x.owner = some r.child
    · simp [hT, hfate, hc]
    · simp [hT, hfate, hc]

theorem forall_split_cons {α : Type*} {Q : List α → α → Prop} {y : α} {ys : List α} :
    (∀ before x behind, y :: ys = before ++ x :: behind → Q before x) ↔
      Q [] y ∧ ∀ before x behind, ys = before ++ x :: behind → Q (y :: before) x := by
  constructor
  · exact fun h => ⟨h [] y ys rfl, fun before x behind heq => h (y :: before) x behind
      (congrArg (y :: ·) heq)⟩
  · rintro ⟨hnil, hcons⟩ before x behind heq
    cases before with
    | nil =>
      obtain ⟨rfl, -⟩ := List.cons.inj heq
      exact hnil
    | cons z before =>
      obtain ⟨rfl, hys⟩ := List.cons.inj heq
      exact hcons before x behind hys

/-! ## The queue is followed -/

section Poll

variable {s₀ s : FdLoop (Poll FdEvent)} {active : List PollFd} {behave : FdEvent → Behaviour}
  {fs xs : List Nat} {q fuel : Nat}

/-- With the children `R` reaped, the element of the event may be followed: if the child is left,
its callback leaves the pipe open, otherwise the element has been taken out. -/
def Followed (s₀ : FdLoop (Poll FdEvent)) (active : List PollFd) (behave : FdEvent → Behaviour)
    (R : List Reaped) (x : FdEvent) : Prop :=
  match fate R x with
  | none => x.owner ≠ none → s₀.mod.triggered active x = true → (behave x).closes = false
  | some r => r.closes x = true ∧ 0 ≤ (s₀.mod.events x).index

/-- Each element of the queue may be followed, with those children reaped that the callbacks of the
elements before it reap. -/
def QueueFollowed (s₀ : FdLoop (Poll FdEvent)) (active : List PollFd)
    (behave : FdEvent → Behaviour) (es : List FdEvent) : Prop :=
  ∀ before x behind, es = before ++ x :: behind →
    Followed s₀ active behave (before.flatMap (reapedBy (s₀.mod.triggered active) behave)) x

theorem triggered_congr {p p' : Poll FdEvent} (hevent : p'.events x = p.events x)
    (hsize : p'.npollfds = p.npollfds) : p'.triggered active x = p.triggered active x := by
  rw [Poll.triggered, Poll.triggered, hevent, hsize]

theorem Follows.fire_other (h : Follows pollModule s₀ s R (x :: es)) (hx : x.owner = none)
    (hholds : s.queue.Holds (fs ++ q :: xs)) (hq : s.queue.item q = x)
    (hxs : xs.map s.queue.item = es.filter fun y => !gone pollModule s₀ R y) (b : Behaviour) :
    Follows pollModule s₀ (s.fpmEventFire pollModule x b) (R ++ ChildAction.reaped b.actions)
        (x :: es) ∧
      ∃ fs' xs', (s.fpmEventFire pollModule x b).queue.Holds (fs' ++ q :: xs') ∧
        (s.fpmEventFire pollModule x b).queue.item q = x ∧ xs'.length ≤ xs.length ∧
        xs'.map (s.fpmEventFire pollModule x b).queue.item =
          es.filter fun y => !gone pollModule s₀ (R ++ ChildAction.reaped b.actions) y := by
  have hfire : s.fpmEventFire pollModule x b = b.actions.foldl (act pollModule) s := by
    cases x with
    | signal => rfl
    | listening wp => rfl
    | stdout c => cases hx
    | stderr c => cases hx
  rw [hfire]
  refine h.actions (P := fun s R => ∃ fs' xs', s.queue.Holds (fs' ++ q :: xs') ∧
    s.queue.item q = x ∧ xs'.length ≤ xs.length ∧
      xs'.map s.queue.item = es.filter fun y => !gone pollModule s₀ R y)
    ⟨fs, xs, hholds, hq, Nat.le_refl _, hxs⟩ ?_ ?_ _
  · rintro s R r h ⟨fs', xs', hholds, hq, hlen, hxs⟩
    obtain ⟨T, hremoves, howner, hexact⟩ := h.exists_removes r
    have hxT : x ∉ T := fun hT => by
      rw [howner x hT] at hx
      cases hx
    have hholds' := hremoves.holds _ hholds
    rw [filter_append, filter_cons_of_pos (by simp [hq, hxT])] at hholds'
    refine ⟨_, _, hholds', hremoves.item ▸ hq, Nat.le_trans (length_filter_le ..) hlen, ?_⟩
    rw [hremoves.item, ← filter_gone_concat fun y hy => hexact y (mem_cons_of_mem x hy), ← hxs,
      List.filter_map]
    rfl
  · rintro s s' R h hmake ⟨fs', xs', hholds, hq, hlen, hxs⟩
    obtain ⟨fs'', hholds', hitem⟩ := hmake.holds _ hholds
    rw [← append_assoc] at hholds'
    refine ⟨_, _, hholds', ?_, hlen, ?_⟩
    · rw [hitem q (by simp), hq]
    · rw [map_congr_left fun y hy => hitem y (by simp [hy]), hxs]

theorem Follows.fire_closes (h : Follows pollModule s₀ s R (x :: es)) (hx : x.owner = some c)
    (hnone : fate R x = none) (hindex : 0 ≤ (s.mod.events x).index)
    (hholds : s.queue.Holds (fs ++ q :: xs)) (hq : s.queue.item q = x) {b : Behaviour}
    (hcloses : b.closes = true) : q ∉ (s.fpmEventFire pollModule x b).queue.live := by
  have hmem := mem_cons_self (a := x) (l := es)
  have hchild : c ∈ s.children := (h.usable_iff hmem).mpr hnone c hx
  have hpiped := h.piped c hchild (h.owner x hmem c hx).1
  have hfire : s.fpmEventFire pollModule x b = s.fpmStdioChildSaid pollModule x c b.closes := by
    cases x with
    | signal => cases hx
    | listening wp => cases hx
    | stdout c' =>
      obtain rfl := some.inj hx
      rfl
    | stderr c' =>
      obtain rfl := some.inj hx
      rfl
  have hremoves : Removes pollModule s (s.fpmStdioChildSaid pollModule x c b.closes) _ :=
    hpiped.removes hx (h.isOpen x hmem hnone)
  rw [if_pos ⟨hcloses, hindex⟩] at hremoves
  rw [hfire, (hremoves.holds _ hholds).live.mem_iff, mem_filter]
  simp [hq]

theorem fpmEventFire_of_open {M : EventModule σ FdEvent} {s : FdLoop σ} (hx : x.owner = some c)
    {b : Behaviour} (hcloses : b.closes = false) : s.fpmEventFire M x b = s := by
  cases x with
  | signal => cases hx
  | listening wp => cases hx
  | stdout c' => simp [fpmEventFire, fpmStdioChildSaid, hcloses]
  | stderr c' => simp [fpmEventFire, fpmStdioChildSaid, hcloses]

theorem reapedBy_of_owner {fires : FdEvent → Bool} (h : x.owner ≠ none) :
    reapedBy fires behave x = [] :=
  if_neg fun hall => h hall.1

theorem followed_of_gone (h : gone pollModule s₀ R x = true) :
    Followed s₀ active behave R x ∧ x.owner ≠ none := by
  cases hfate : fate R x with
  | none => simp [gone, hfate] at h
  | some r =>
    rw [gone, hfate] at h
    obtain ⟨hcloses, hindex⟩ := Bool.and_eq_true_iff.mp h
    have hclosed : r.closes x = true ∧ 0 ≤ (s₀.mod.events x).index :=
      ⟨hcloses, of_decide_eq_true hindex⟩
    rw [Followed, hfate]
    exact ⟨hclosed, fun hnone => by simp [fate, hnone] at hfate⟩

theorem not_followed_of_not_gone (hfate : fate R x = some r)
    (h : gone pollModule s₀ R x = false) : ¬Followed s₀ active behave R x := by
  intro hok
  rw [Followed, hfate] at hok
  have hgone : gone pollModule s₀ R x = true := by
    rw [gone, hfate]
    exact Bool.and_eq_true_iff.mpr ⟨hok.1, decide_eq_true hok.2⟩
  rw [h] at hgone
  cases hgone

theorem index_nonneg_of_triggered {p : Poll FdEvent} (h : p.triggered active x = true) :
    0 ≤ (p.events x).index := by
  unfold Poll.triggered at h
  split at h
  · simp only [Bool.and_eq_true, decide_eq_true_eq] at h
    exact h.1.1.1
  · cases h

theorem pollFrom_of_not_usable (husable : ¬s.Usable (s.queue.item q)) :
    pollFrom active behave (fuel + 1) (some q) s = some (s, false) :=
  if_neg fun h => husable h.2

theorem pollFrom_of_usable (hlive : q ∈ s.queue.live) (husable : s.Usable (s.queue.item q))
    {fired : FdLoop (Poll FdEvent)}
    (hfired : fired = if s.mod.triggered active (s.queue.item q) then
      s.fpmEventFire pollModule (s.queue.item q) (behave (s.queue.item q)) else s) :
    pollFrom active behave (fuel + 1) (some q) s =
      if q ∈ fired.queue.live then pollFrom active behave fuel (fired.queue.links.next q) fired
      else some (fired, false) := by
  rw [hfired]
  exact if_pos ⟨hlive, husable⟩

theorem exists_pollFrom (h : Follows pollModule s₀ s R es) (hholds : s.queue.Holds (fs ++ xs))
    (hxs : xs.map s.queue.item = es.filter fun y => !gone pollModule s₀ R y)
    (hfuel : xs.length ≤ fuel) :
    ∃ s' safe, pollFrom active behave fuel xs.head? s = some (s', safe) ∧
      (safe = true ↔ ∀ before x behind, es = before ++ x :: behind →
        Followed s₀ active behave
          (R ++ before.flatMap (reapedBy (s₀.mod.triggered active) behave)) x) := by
  -- induction on the events
  induction es generalizing R fs xs s fuel with
  | nil =>
    obtain rfl : xs = [] := map_eq_nil_iff.mp hxs
    refine ⟨s, true, by cases fuel <;> rfl, iff_of_true rfl fun before x behind heq => ?_⟩
    simp at heq
  | cons x es ih =>
    have hmem := mem_cons_self (a := x) (l := es)
    have hrest := h.mono (subset_cons_self x es)
    rw [forall_split_cons]
    simp only [flatMap_nil, append_nil, flatMap_cons, ← append_assoc]
    cases hgone : gone pollModule s₀ R x with
    | true =>
      -- the element has been taken out
      rw [filter_cons_of_neg (by simp [hgone])] at hxs
      obtain ⟨hok, howner⟩ : Followed s₀ active behave R x ∧ x.owner ≠ none :=
        followed_of_gone hgone
      rw [reapedBy_of_owner howner, append_nil, and_iff_right hok]
      exact ih hrest hholds hxs hfuel
    | false =>
      rw [filter_cons_of_pos (by simp [hgone])] at hxs
      obtain ⟨q, xs, rfl⟩ : ∃ q ys, xs = q :: ys := by
        cases xs with
        | nil => cases hxs
        | cons q ys => exact ⟨q, ys, rfl⟩
      obtain ⟨hq, hxs⟩ := List.cons.inj ((map_cons ..).symm.trans hxs)
      obtain ⟨fuel, rfl⟩ : ∃ n, fuel = n + 1 := Nat.exists_eq_add_one_of_ne_zero
        (Nat.ne_of_gt (Nat.lt_of_lt_of_le (Nat.succ_pos _) hfuel))
      have hlen : xs.length ≤ fuel := Nat.le_of_succ_le_succ hfuel
      have hlive : q ∈ s.queue.live := hholds.live.mem_iff.mpr (by simp)
      rw [List.head?_cons]
      cases hfate : fate R x with
      | some r =>
        -- the child has been released, and the element has been left
        have husable : ¬s.Usable (s.queue.item q) := by
          rw [hq, h.usable_iff hmem, hfate]
          exact some_ne_none r
        exact ⟨s, false, pollFrom_of_not_usable husable, iff_of_false Bool.false_ne_true fun hall =>
          not_followed_of_not_gone hfate hgone hall.1⟩
      | none =>
        have husable : s.Usable (s.queue.item q) := by
          rw [hq]
          exact (h.usable_iff hmem).mpr hfate
        have htriggered : s.mod.triggered active (s.queue.item q) =
            s₀.mod.triggered active x := by
          rw [hq]
          exact triggered_congr (h.event x hmem hfate) h.size
        -- the callback leaves the queue, and the element is followed
        have hsame : s = (if s.mod.triggered active (s.queue.item q) then
            s.fpmEventFire pollModule (s.queue.item q) (behave (s.queue.item q)) else s) →
            reapedBy (s₀.mod.triggered active) behave x = [] →
            Followed s₀ active behave R x → ∃ s' safe,
            pollFrom active behave (fuel + 1) (some q) s = some (s', safe) ∧
              (safe = true ↔ Followed s₀ active behave R x ∧ ∀ before y behind,
                es = before ++ y :: behind → Followed s₀ active behave
                  (R ++ reapedBy (s₀.mod.triggered active) behave x ++
                    before.flatMap (reapedBy (s₀.mod.triggered active) behave)) y) := by
          intro hs hreaped hok
          rw [pollFrom_of_usable hlive husable hs, if_pos hlive, hholds.isDll.links_at.2, hreaped,
            append_nil, and_iff_right hok]
          have hstep : s.queue.Holds ((fs ++ [q]) ++ xs) := by
            rw [append_assoc]
            exact hholds
          exact ih hrest hstep hxs hlen
        cases hfires : s₀.mod.triggered active x with
        | false =>
          refine hsame (by rw [htriggered, hfires]; rfl) (by simp [reapedBy, hfires]) ?_
          simp [Followed, hfate, hfires]
        | true =>
          cases howner : x.owner with
          | none =>
            -- the callback of a signal or of a listening socket
            have hreaped : reapedBy (s₀.mod.triggered active) behave x =
                ChildAction.reaped (behave x).actions := if_pos ⟨howner, hfires⟩
            have hok : Followed s₀ active behave R x := by simp [Followed, hfate, howner]
            obtain ⟨h', fs', xs', hholds', hq', hlen', hxs'⟩ :=
              h.fire_other howner hholds hq hxs (behave x)
            have hfired : s.fpmEventFire pollModule x (behave x) =
                if s.mod.triggered active (s.queue.item q) then
                  s.fpmEventFire pollModule (s.queue.item q) (behave (s.queue.item q)) else s := by
              rw [htriggered, hfires, hq, if_pos rfl]
            rw [pollFrom_of_usable hlive husable hfired,
              if_pos (hholds'.live.mem_iff.mpr (by simp)), hholds'.isDll.links_at.2, hreaped,
              and_iff_right hok]
            have hstep : (s.fpmEventFire pollModule x (behave x)).queue.Holds
                ((fs' ++ [q]) ++ xs') := by
              rw [append_assoc]
              exact hholds'
            exact ih (h'.mono (subset_cons_self x es)) hstep hxs' (Nat.le_trans hlen' hlen)
          | some c =>
            have howner' : x.owner ≠ none := by rw [howner]; exact some_ne_none c
            cases hcloses : (behave x).closes with
            | false =>
              refine hsame ?_ (reapedBy_of_owner howner') (by simp [Followed, hfate, hcloses])
              rw [htriggered, hfires, if_pos rfl, hq, fpmEventFire_of_open howner hcloses]
            | true =>
              -- the callback frees the element that is followed next
              have hindex : 0 ≤ (s.mod.events x).index := by
                have hpos := hfires
                rw [← triggered_congr (h.event x hmem hfate) h.size] at hpos
                exact index_nonneg_of_triggered hpos
              have hfired : s.fpmEventFire pollModule x (behave x) =
                  if s.mod.triggered active (s.queue.item q) then
                    s.fpmEventFire pollModule (s.queue.item q) (behave (s.queue.item q))
                  else s := by
                rw [htriggered, hfires, hq, if_pos rfl]
              rw [pollFrom_of_usable hlive husable hfired,
                if_neg (h.fire_closes howner hfate hindex hholds hq hcloses)]
              refine ⟨_, false, rfl, iff_of_false Bool.false_ne_true fun hall => ?_⟩
              have hopen := hall.1
              rw [Followed, hfate] at hopen
              exact Bool.false_ne_true ((hopen howner' hfires).symm.trans hcloses)

theorem triggered_eq_false {p : Poll FdEvent}
    (h : ¬0 < active.countP fun slot => slot.revents != 0) : p.triggered active x = false := by
  have hzero : ∀ slot ∈ active, slot.revents = 0 := by
    simpa using countP_eq_zero.mp (Nat.eq_zero_of_not_pos h)
  unfold Poll.triggered
  split
  · rename_i slot hslot
    have hrevents := hzero slot (mem_of_getElem? hslot)
    simp [hrevents]
  · rfl

theorem WellFormed.exists_pollWait (h : WellFormed pollModule s es) (ready : Int → Nat)
    (behave : FdEvent → Behaviour) :
    ∃ s' safe, s.fpmEventPollWait (some ready) behave = some (s', safe) ∧
      (safe = true ↔ QueueFollowed s (Poll.poll ready s.mod.pollfds) behave es) := by
  rw [fpmEventPollWait]
  split
  · obtain ⟨ys, hys, hes⟩ := h.lists
    have hnone : (es.filter fun y => !gone pollModule s [] y) = es :=
      filter_eq_self.mpr fun y _ => by
        have hfate : fate [] y = none := fate_eq_none.mpr (by simp)
        simp [gone, hfate]
    rw [hys.length_live, hys.isDll.head_eq]
    have hall : s.queue.Holds ([] ++ ys) := hys
    exact exists_pollFrom h.follows hall (hes.trans hnone.symm) (Nat.le_refl _)
  · rename_i hzero
    refine ⟨s, true, rfl, iff_of_true rfl fun before x behind _ => ?_⟩
    have hreaped : before.flatMap
        (reapedBy (s.mod.triggered (Poll.poll ready s.mod.pollfds)) behave) = [] := by
      refine flatMap_eq_nil_iff.mpr fun y _ => ?_
      simp [reapedBy, triggered_eq_false hzero]
    rw [hreaped, Followed, fate_eq_none.mpr (by simp)]
    exact fun _ hfires => absurd ((triggered_eq_false hzero).symm.trans hfires) Bool.false_ne_true

end Poll

/-! ## The array is gone through -/

section Epoll

variable {s₀ s : FdLoop (Epoll FdEvent)} {behave : FdEvent → Behaviour} {batch : List FdEvent}

/-- No event belongs to a child that the callbacks of the events before it reap. -/
def BatchLeft (behave : FdEvent → Behaviour) (batch : List FdEvent) : Prop :=
  ∀ before x behind, batch = before ++ x :: behind →
    fate (before.flatMap (reapedBy (fun _ => true) behave)) x = none

/-- The events to come whose children are left are in the queue. -/
def InQueue (s : FdLoop (Epoll FdEvent)) (R : List Reaped) (batch : List FdEvent) : Prop :=
  ∃ xs, s.queue.Holds xs ∧ ∀ x ∈ batch, fate R x = none → x ∈ xs.map s.queue.item

theorem InQueue.removes (h : InQueue s R batch) {s' : FdLoop (Epoll FdEvent)} {R' : List Reaped}
    (hremoves : Removes epollModule s s' T)
    (hleft : ∀ x ∈ batch, fate R' x = none → fate R x = none ∧ x ∉ T) : InQueue s' R' batch := by
  obtain ⟨xs, hxs, hall⟩ := h
  refine ⟨_, hremoves.holds xs hxs, fun x hx hnone => ?_⟩
  obtain ⟨hnone, hT⟩ := hleft x hx hnone
  obtain ⟨y, hy, rfl⟩ := List.mem_map.mp (hall x hx hnone)
  rw [hremoves.item]
  exact mem_map_of_mem (mem_filter.mpr ⟨hy, by simpa using hT⟩)

theorem Follows.said (h : Follows epollModule s₀ s R (x :: batch)) (hx : x.owner = some c)
    (hnone : fate R x = none) (hnd : x ∉ batch) (hin : InQueue s R batch) (closes : Bool) :
    Follows epollModule s₀ (s.fpmStdioChildSaid epollModule x c closes) R batch ∧
      InQueue (s.fpmStdioChildSaid epollModule x c closes) R batch := by
  have hmem := mem_cons_self (a := x) (l := batch)
  have hchild : c ∈ s.children := (h.usable_iff hmem).mpr hnone c hx
  have hpiped := h.piped c hchild (h.owner x hmem c hx).1
  have hopen := h.isOpen x hmem hnone
  have hremoves : Removes epollModule s (s.fpmStdioChildSaid epollModule x c closes) _ :=
    hpiped.removes hx hopen
  have hT : ∀ y ∈ batch, y ∉ (if closes = true ∧ 0 ≤ (epollModule.event s.mod x).index then [x]
      else []) := by
    intro y hy hmem
    split at hmem
    · exact hnd (mem_singleton.mp hmem ▸ hy)
    · cases hmem
  refine ⟨⟨?_, ?_, ?_, ?_, fun c' hc' hlt => ?_, fun y hy => h.owner y (mem_cons_of_mem x hy),
    fun y hy hnone' => ?_, fun y hy hnone' => ?_, hremoves.size.trans h.size⟩,
    hin.removes hremoves fun y hy hnone' => ⟨hnone', hT y hy⟩⟩
  · rw [children_fpmStdioChildSaid]
    exact h.nodup
  · rw [children_fpmStdioChildSaid, hremoves.nextChild]
    exact h.lt
  · rw [hremoves.nextChild]
    exact h.nextChild
  · rw [children_fpmStdioChildSaid]
    exact h.mem_children
  · rw [children_fpmStdioChildSaid] at hc'
    exact (h.piped c' hc' hlt).fpmStdioChildSaid
  · rw [hremoves.event y (hT y hy), h.event y (mem_cons_of_mem x hy) hnone']
  · -- the other pipes are as they were
    have hy' := h.isOpen y (mem_cons_of_mem x hy) hnone'
    have hne : x ≠ y := fun heq => hnd (heq ▸ hy)
    cases y with
    | signal => trivial
    | listening wp => trivial
    | stdout c' =>
      show _ ≠ _
      rw [fds_fpmStdioChildSaid.1, hpiped.saidEvent hx hopen]
      split
      · rename_i hall
        have hcc : c' ≠ c := fun heq => hne (hall.2.trans (congrArg FdEvent.stdout heq.symm))
        rw [update_of_ne hcc]
        exact hy'
      · exact hy'
    | stderr c' =>
      show _ ≠ _
      rw [fds_fpmStdioChildSaid.2, hpiped.saidEvent hx hopen]
      split
      · rename_i hall
        have hcc : c' ≠ c := fun heq => hne (hall.2.trans (congrArg FdEvent.stderr heq.symm))
        rw [update_of_ne hcc]
        exact hy'
      · exact hy'

theorem Follows.fire (h : Follows epollModule s₀ s R (x :: batch)) (hnone : fate R x = none)
    (hnd : x ∉ batch) (hin : InQueue s R batch) (b : Behaviour)
    (hb : b = behave x) :
    Follows epollModule s₀ (s.fpmEventFire epollModule x b)
        (R ++ reapedBy (fun _ => true) behave x) batch ∧
      InQueue (s.fpmEventFire epollModule x b) (R ++ reapedBy (fun _ => true) behave x) batch := by
  subst hb
  have hother : x.owner = none →
      s.fpmEventFire epollModule x (behave x) = (behave x).actions.foldl (act epollModule) s →
      Follows epollModule s₀ (s.fpmEventFire epollModule x (behave x))
          (R ++ reapedBy (fun _ => true) behave x) batch ∧
        InQueue (s.fpmEventFire epollModule x (behave x))
          (R ++ reapedBy (fun _ => true) behave x) batch := by
    intro howner hfire
    rw [hfire, show reapedBy (fun _ => true) behave x = ChildAction.reaped (behave x).actions from
      if_pos ⟨howner, rfl⟩]
    refine (h.mono (subset_cons_self x batch)).actions
      (P := fun s R => InQueue s R batch) hin ?_ ?_ _
    · intro s R r h hin
      obtain ⟨T, hremoves, howner, -⟩ := h.exists_removes r
      refine hin.removes hremoves fun y hy hnone' => ?_
      rw [fate_concat, or_eq_none_iff] at hnone'
      exact ⟨hnone'.1, fun hT => by simp [howner y hT] at hnone'⟩
    · rintro s s' R h hmake ⟨xs, hxs, hall⟩
      obtain ⟨fs, hfs, hitem⟩ := hmake.holds xs hxs
      refine ⟨_, hfs, fun y hy hnone' => ?_⟩
      rw [map_append, map_congr_left hitem]
      exact mem_append_right _ (hall y hy hnone')
  have hsaid : ∀ c, x.owner = some c →
      s.fpmEventFire epollModule x (behave x) =
        s.fpmStdioChildSaid epollModule x c (behave x).closes →
      Follows epollModule s₀ (s.fpmEventFire epollModule x (behave x))
          (R ++ reapedBy (fun _ => true) behave x) batch ∧
        InQueue (s.fpmEventFire epollModule x (behave x))
          (R ++ reapedBy (fun _ => true) behave x) batch := by
    intro c hc hfire
    rw [hfire, show reapedBy (fun _ => true) behave x = [] from by simp [reapedBy, hc],
      append_nil]
    exact h.said hc hnone hnd hin _
  cases x with
  | signal => exact hother rfl rfl
  | listening wp => exact hother rfl rfl
  | stdout c => exact hsaid c rfl rfl
  | stderr c => exact hsaid c rfl rfl

theorem Follows.epollWait {ready : List (Option FdEvent)}
    (h : Follows epollModule s₀ s R (ready.filterMap id)) (hnd : (ready.filterMap id).Nodup)
    (hin : InQueue s R (ready.filterMap id)) :
    (fpmEventEpollWait behave ready s).2 = true ↔
      ∀ before x behind, ready.filterMap id = before ++ x :: behind →
        fate (R ++ before.flatMap (reapedBy (fun _ => true) behave)) x = none := by
  -- induction on what is ready
  induction ready generalizing R s with
  | nil => exact iff_of_true rfl fun before x behind heq => by simp at heq
  | cons ptr ready ih =>
    cases ptr with
    | none => exact ih h hnd hin
    | some x =>
      have hcons : (some x :: ready).filterMap id = x :: ready.filterMap id := rfl
      rw [hcons] at h hnd hin ⊢
      obtain ⟨hx, hnd⟩ := nodup_cons.mp hnd
      have hmem := mem_cons_self (a := x) (l := ready.filterMap id)
      rw [forall_split_cons, fpmEventEpollWait]
      simp only [flatMap_nil, append_nil, flatMap_cons, ← append_assoc]
      cases hfate : fate R x with
      | some r =>
        have husable : ¬s.Usable x := by
          rw [h.usable_iff hmem, hfate]
          exact some_ne_none r
        rw [if_neg fun hall => husable hall.2]
        exact iff_of_false Bool.false_ne_true fun hall => some_ne_none r hall.1
      | none =>
        obtain ⟨xs, hxs, hall⟩ := hin
        have hisset : EventLoop.fpmEventQueueIsset s.queue x = true :=
          (EventLoop.fpmEventQueueIsset_iff hxs).mpr (hall x hmem hfate)
        rw [if_pos ⟨hisset, (h.usable_iff hmem).mpr hfate⟩, and_iff_right rfl]
        obtain ⟨h', hin'⟩ := h.fire hfate hx
          ⟨xs, hxs, fun y hy => hall y (mem_cons_of_mem x hy)⟩ (behave x) rfl
        exact ih h' hnd hin'

theorem WellFormed.epollWait {ready : List (Option FdEvent)} (h : WellFormed epollModule s es)
    (hnd : (ready.filterMap id).Nodup) (hsub : ready.filterMap id ⊆ es) :
    (fpmEventEpollWait behave ready s).2 = true ↔ BatchLeft behave (ready.filterMap id) := by
  have hlists := h.lists
  obtain ⟨xs, hxs, hes⟩ := hlists
  have hin : InQueue s [] (ready.filterMap id) := ⟨xs, hxs, fun x hx _ => hes ▸ hsub hx⟩
  rw [Follows.epollWait (h.follows.mono hsub) hnd hin]
  exact Iff.rfl

end Epoll

/-- **Dispatch uses no removed event**, if and only if, with `poll`, each element of the queue may
be followed, and, with `epoll`, no event belongs to a child that has been reaped before it. -/
theorem dispatch_iff {p : FdLoop (Poll FdEvent)} {e : FdLoop (Epoll FdEvent)}
    {queued : List FdEvent} (hp : WellFormed pollModule p queued) (he : WellFormed epollModule e es)
    {batch : List (Option FdEvent)} (hnd : (batch.filterMap id).Nodup)
    (hsub : batch.filterMap id ⊆ es) (ready : Int → Nat) (behave : FdEvent → Behaviour) :
    (∃ p' safe, p.fpmEventPollWait (some ready) behave = some (p', safe) ∧
      (safe = true ↔ QueueFollowed p (Poll.poll ready p.mod.pollfds) behave queued)) ∧
    ((fpmEventEpollWait behave batch e).2 = true ↔ BatchLeft behave (batch.filterMap id)) :=
  ⟨hp.exists_pollWait ready behave, he.epollWait hnd hsub⟩

/-! ## One child -/

def oneChild (mod : σ) : FdLoop σ where
  mod := mod
  queue := ((HeapQueue.empty ⟨fun _ => none, fun _ => none⟩ fun _ => .signal).push .signal).push
    (.stdout 0)
  children := [0]
  fdStdout := fun _ => 5
  fdStderr := fun _ => -1
  nextChild := 1

def oneChildPoll : Poll FdEvent where
  pollfds := [⟨4, Poll.POLLIN, 0⟩, ⟨5, Poll.POLLIN, 0⟩]
  nextFreeSlot := 0
  events
    | .signal => ⟨4, 0⟩
    | _ => ⟨5, 1⟩

def oneChildEpoll : Epoll FdEvent where
  events
    | .signal => ⟨4, 4⟩
    | _ => ⟨5, 5⟩
  nepollfds := 2
  epollCtl := fun _ => true
  calls := 2

/-- The child closes its output, and the signals are read when it has exited. -/
def exits (closes : Bool) : FdEvent → Behaviour := fun _ => ⟨closes, [.exited ⟨0, true, true⟩]⟩

theorem wellFormed_oneChild (mod : σ) (hfd : (M.event mod (.stdout 0)).fd = 5) :
    WellFormed M (oneChild mod) [.stdout 0, .signal] where
  lists := by
    have hnil : (HeapQueue.empty ⟨fun _ => none, fun _ => none⟩ fun _ => FdEvent.signal).Lists [] :=
      ⟨[], HeapQueue.holds_empty _ _, rfl⟩
    exact (hnil.push not_mem_nil).push (by decide)
  nodup := nodup_singleton 0
  lt := by
    intro c hc
    obtain rfl := mem_singleton.mp hc
    exact Nat.one_pos
  piped := by
    intro c hc
    obtain rfl := mem_singleton.mp hc
    exact ⟨fun _ => hfd, fun h => absurd rfl h⟩
  owner := by
    intro x hx c hc
    rcases mem_cons.mp hx with rfl | hx
    · obtain rfl := some.inj hc
      exact mem_singleton_self 0
    · rw [mem_singleton.mp hx] at hc
      cases hc
  isOpen := by
    intro x hx
    rcases mem_cons.mp hx with rfl | hx
    · exact show (5 : Int) ≠ -1 by decide
    · rw [mem_singleton.mp hx]
      trivial

theorem dispatch_iff_oneChild :
    (∃ s' safe, (oneChild oneChildPoll).fpmEventPollWait (some fun _ => Poll.POLLIN) (exits false) =
        some (s', safe) ∧ (safe = true ↔ QueueFollowed (oneChild oneChildPoll)
          (Poll.poll (fun _ => Poll.POLLIN) oneChildPoll.pollfds) (exits false)
          [.stdout 0, .signal])) ∧
      ((fpmEventEpollWait (exits false) [some (.stdout 0), none, some .signal]
          (oneChild oneChildEpoll)).2 = true ↔ BatchLeft (exits false) [.stdout 0, .signal]) :=
  have hnd : ([some (.stdout 0), none, some .signal].filterMap id : List FdEvent).Nodup := by decide
  dispatch_iff (wellFormed_oneChild oneChildPoll rfl) (wellFormed_oneChild oneChildEpoll rfl) hnd
    (List.Subset.refl _) _ _

/-- The element of a pipe that is closed is followed, and an event of a child that has been reaped
is fired. -/
theorem not_dispatch :
    (∃ s', (oneChild oneChildPoll).fpmEventPollWait (some fun _ => Poll.POLLIN) (exits true) =
        some (s', false)) ∧
      (fpmEventEpollWait (exits true) [some .signal, some (.stdout 0)]
        (oneChild oneChildEpoll)).2 = false :=
  ⟨⟨_, rfl⟩, rfl⟩

end FdLoop

end Phpce
