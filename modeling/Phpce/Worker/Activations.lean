import Phpce.Lib.CStack
import Phpce.Worker.Outcome

/-!
# The C stack under a worker's callbacks

What the callbacks of the worker do to the C stack: the frames they enter, the pointers into
frames that they store, and where they jump and read through these pointers. A frame gets a number
when its function is called. Only functions that store a pointer to their frame have one here; the
`zend_try` of `php_request_shutdown` is that of `close_request`.

A bailout in code that `php_request_shutdown` runs goes to its `zend_try`, so for the stack it is
like code that completes.
-/

namespace Phpce

open Function (update)

/-- The pointers into the C stack that are kept for a context. `buf_ptr` and `req_ptr` are here
the frame that the last `setjmp` was called in, `EG(bailout)` the one of the innermost `zend_try`,
and `old_cwd` the one that it is allocated in. -/
structure StackPointers where
  bufPtr : Option Nat
  reqPtr : Option Nat
  bailout : Option Nat
  oldCwd : Option Nat
  deriving DecidableEq, Repr

/-- A `longjmp`, or a read of `old_cwd`. -/
inductive UseOf where
  | bufPtr
  | reqPtr
  | bailout
  | oldCwd
  deriving DecidableEq, Repr

/-- A use of a pointer into the stack, and whether the frame that it points into is active then. -/
structure StackUse where
  pointer : UseOf
  frame : Option Nat
  active : Bool
  deriving DecidableEq, Repr

inductive Control where
  | returned
  -- `longjmp` to a `setjmp` in an active frame
  | jump (frame : Nat)
  -- `longjmp` to anywhere else
  | wild
  -- `_zend_bailout` without a bailout address
  | exit
  -- A call through a null pointer
  | crash
  deriving DecidableEq, Repr

/-- The stack, the pointers into it, and the uses that the last callback made of them, the latest
first. -/
structure Activations where
  stack : CStack
  pointers : ContextPtr → StackPointers
  uses : List StackUse

namespace Activations

def init : Activations := ⟨.empty, fun _ => ⟨none, none, none, none⟩, []⟩

/-! ## Calls and jumps -/

def enter (s : Activations) : Activations := { s with stack := s.stack.enter }

def leave (s : Activations) : Activations := { s with stack := s.stack.leave }

def setPointers (s : Activations) (c : ContextPtr) (pointers : StackPointers) : Activations :=
  { s with pointers := update s.pointers c pointers }

/-- `longjmp` -/
def longjmp (s : Activations) (pointer : UseOf) (target : Option Nat) : Activations × Control :=
  match target with
  | some frame =>
      if frame ∈ s.stack.active then
        ({ s with
            stack := s.stack.unwindTo frame
            uses := ⟨pointer, frame, true⟩ :: s.uses }, .jump frame)
      else ({ s with uses := ⟨pointer, frame, false⟩ :: s.uses }, .wild)
  | none => ({ s with uses := ⟨pointer, none, false⟩ :: s.uses }, .wild)

/-- `_zend_bailout` -/
def zendBailout (s : Activations) (c : ContextPtr) : Activations × Control :=
  match (s.pointers c).bailout with
  | some frame => s.longjmp .bailout frame
  | none => (s, .exit)

/-- `yield_coroutine_context` -/
def yieldCoroutineContext (s : Activations) (c : ContextPtr) : Activations × Control :=
  s.longjmp .bufPtr (s.pointers c).bufPtr

/-- `free_old_cwd` reads the block in the frame. -/
def freeOldCwd (s : Activations) (frame : Nat) : Activations :=
  { s with uses := ⟨.oldCwd, frame, decide (frame ∈ s.stack.active)⟩ :: s.uses }

/-- The end of a function that returns when its last call does. -/
def thenReturn : Activations × Control → Activations × Control
  | (s, .returned) => (s.leave, .returned)
  | (s, control) => (s, control)

/-- The end of a function that returns also when a `longjmp` comes back to its `setjmp`. -/
def returnAt (frame : Nat) : Activations × Control → Activations × Control
  | (s, .returned) => (s.leave, .returned)
  | (s, .jump target) => if target = frame then (s.leave, .returned) else (s, .jump target)
  | (s, control) => (s, control)

/-! ## The functions of the worker -/

/-- `close_request`. Code run by `php_request_shutdown` may suspend, inside its `zend_try`. -/
def closeRequest (s : Activations) (c : ContextPtr) (shutdown : ShutdownRun) :
    Activations × Control :=
  let origBailout := (s.pointers c).bailout
  let s := s.enter.setPointers c { s.pointers c with bailout := some s.stack.next }
  match shutdown with
  | .yields => s.yieldCoroutineContext c
  | .completes =>
      ((s.setPointers c { s.pointers c with bailout := origBailout }).leave, .returned)

/-- `zend_execute_coro`, on a file that is left so. A yield comes back to its `setjmp`, and goes
on from there to `socket_read_cb`. -/
def zendExecuteCoro (s : Activations) (c : ContextPtr) (file : FileExit) : Activations × Control :=
  let frame := s.stack.next
  let s := s.enter.setPointers c { s.pointers c with bufPtr := some frame }
  match file with
  | .finished | .notCompiled | .handlerYielded => (s.leave, .returned)
  | .bailout => s.zendBailout c
  | .yielded =>
      match s.yieldCoroutineContext c with
      | (s, .jump target) =>
          if target = frame then s.longjmp .reqPtr (s.pointers c).reqPtr else (s, .jump target)
      | (s, control) => (s, control)

/-- `zend_execute_scripts_coro`. The user's exception handler runs when `zend_execute_coro` has
returned. -/
def zendExecuteScriptsCoro (s : Activations) (c : ContextPtr) :
    List FileExit → Activations × Control
  | [] => (s, .returned)
  | file :: files =>
      if file = .notCompiled then (s, .returned)
      else
        match s.zendExecuteCoro c file with
        | (s, .returned) =>
            if file = .handlerYielded then s.yieldCoroutineContext c
            else s.zendExecuteScriptsCoro c files
        | (s, control) => (s, control)

/-- The end of `php_execute_script_coro`, after its `zend_try`. -/
def zendEndTry (s : Activations) (c : ContextPtr) (frame : Nat) (origBailout : Option Nat) :
    Activations × Control :=
  let s := s.setPointers c { s.pointers c with bailout := origBailout }
  ((s.freeOldCwd frame).leave, .returned)

/-- `php_execute_script_coro`. `old_cwd` is allocated in its frame, and the files are run inside
its `zend_try`. -/
def phpExecuteScriptCoro (s : Activations) (c : ContextPtr) (files : List FileExit) :
    Activations × Control :=
  let frame := s.stack.next
  let origBailout := (s.pointers c).bailout
  let s := s.enter.setPointers c
    { s.pointers c with oldCwd := some frame, bailout := some frame }
  match s.zendExecuteScriptsCoro c files with
  | (s, .returned) => s.zendEndTry c frame origBailout
  | (s, .jump target) =>
      if target = frame then s.zendEndTry c frame origBailout else (s, .jump target)
  | (s, control) => (s, control)

/-- `socket_read_cb` -/
def socketReadCb (s : Activations) (c : ContextPtr) (path : RequestPath)
    (shutdown : ShutdownRun) : Activations × Control :=
  let frame := s.stack.next
  let s := s.enter
  match path with
  | .startupFailed => (s.leave, .returned)
  | .rejected => thenReturn (s.closeRequest c shutdown)
  | .executed files =>
      let s := s.setPointers c { s.pointers c with reqPtr := some frame }
      match s.phpExecuteScriptCoro c files with
      | (s, .returned) => thenReturn (s.closeRequest c shutdown)
      | (s, control) => returnAt frame (s, control)

/-- `event_cb`. `SG(coroutine_info).free_old_cwd` is set together with `old_cwd`. -/
def eventCb (s : Activations) (c : ContextPtr) (shutdown : ShutdownRun) : Activations × Control :=
  let s := s.enter
  match (s.pointers c).oldCwd with
  | some frame => thenReturn ((s.freeOldCwd frame).closeRequest c shutdown)
  | none => (s, .crash)

/-- `resume_coroutine_context`, when the client is there. It has a `setjmp` but no `zend_try`. -/
def resumeCoroutineContext (s : Activations) (c : ContextPtr) (exit : ResumeExit)
    (shutdown : ShutdownRun) : Activations × Control :=
  let frame := s.stack.next
  let s := s.enter.setPointers c { s.pointers c with bufPtr := some frame }
  match exit with
  | .yielded => returnAt frame (s.yieldCoroutineContext c)
  | .bailout => returnAt frame (s.zendBailout c)
  | .finished =>
      match (s.pointers c).oldCwd with
      | some oldCwd => returnAt frame ((s.freeOldCwd oldCwd).closeRequest c shutdown)
      | none => (s, .crash)

def callback (s : Activations) (w : Worker) : WorkerEvent → Activations × Control
  | .accept _ => (s, .returned)
  | .readable bev path shutdown =>
      match w.bevs.find? fun b => b.id = bev ∧ b.fdOpen with
      | some b => s.socketReadCb b.context path shutdown
      | none => (s, .returned)
  | .clientEof bev shutdown =>
      match w.bevs.find? fun b => b.id = bev ∧ b.fdOpen with
      | some b => s.eventCb b.context shutdown
      | none => (s, .returned)
  | .reply call exit shutdown =>
      match w.calls.find? fun k => k.id = call with
      | some k =>
          if (w.contexts k.context).fd = 0 then (s, .returned)
          else s.resumeCoroutineContext k.context exit shutdown
      | none => (s, .returned)

/-! ## Pointers into dead frames -/

variable {s s' : Activations} {c : ContextPtr} {pointer : UseOf} {target : Option Nat} {p r : Nat}

def Safe (s : Activations) : Prop := ∀ u ∈ s.uses, u.active = true

def Stale (stack : CStack) (target : Option Nat) : Prop := ∀ f, target = some f → stack.Dead f

theorem longjmp_stale (h : Stale s.stack target) :
    s.longjmp pointer target = ({ s with uses := ⟨pointer, target, false⟩ :: s.uses }, .wild) := by
  cases target with
  | none => rfl
  | some f => exact if_neg (h f rfl).notMem

theorem not_safe {u : StackUse} (hu : u.active = false) (hmem : u ∈ s.uses) : ¬s.Safe :=
  fun hsafe => Bool.noConfusion (hu.symm.trans (hsafe u hmem))

theorem safe_cons {u : StackUse} {uses : List StackUse} (hu : u.active = true)
    (h : s'.uses = u :: uses) (huses : s.uses = uses) : s'.Safe ↔ s.Safe := by
  simp [Safe, h, huses, hu]

/-! ## `close_request` -/

theorem closeRequest_completes :
    s.closeRequest c .completes = ({ s with stack := s.stack.enter.leave }, .returned) := by
  simp [closeRequest, setPointers, enter, leave]

theorem closeRequest_yields (h : Stale s.stack (s.pointers c).bufPtr) :
    ∃ s', s.closeRequest c .yields = (s', .wild) ∧ ¬s'.Safe := by
  have hstale : Stale s.stack.enter (s.pointers c).bufPtr := fun f hf => (h f hf).enter
  refine ⟨⟨s.stack.enter, update s.pointers c
    { s.pointers c with bailout := some s.stack.next },
    ⟨.bufPtr, (s.pointers c).bufPtr, false⟩ :: s.uses⟩, ?_, not_safe rfl List.mem_cons_self⟩
  simpa [closeRequest, yieldCoroutineContext, setPointers, enter] using longjmp_stale hstale

/-! ## The file loop -/

/-- What a list of files makes of the stack, under a `zend_try` in the frame `p` and the
`setjmp` of `socket_read_cb` in the frame `r`. -/
def leftBy (stack : CStack) (p r : Nat) : FileExit → Control × List Nat
  | .finished | .notCompiled => (.returned, stack.active)
  | .bailout => (.jump p, (stack.unwindTo p).active)
  | .yielded => (.jump r, (stack.unwindTo r).active)
  | .handlerYielded => (.wild, stack.active)

/-- From `s` to `s'`, `buf_ptr` of `c` is the only pointer that changes, to one into a frame that is
dead by then. -/
structure Ran (c : ContextPtr) (s s' : Activations) : Prop where
  next : s.stack.next ≤ s'.stack.next
  pointers : s'.pointers = update s.pointers c
    { s.pointers c with bufPtr := (s'.pointers c).bufPtr }
  stale : Stale s'.stack (s'.pointers c).bufPtr

theorem Ran.trans {s₁ s₂ s₃ : Activations} (h : Ran c s₁ s₂) (h' : Ran c s₂ s₃) :
    Ran c s₁ s₃ where
  next := Nat.le_trans h.next h'.next
  pointers := by
    rw [h'.pointers, h.pointers]
    simp
  stale := h'.stale

theorem leftBy_congr {stack stack' : CStack} (h : stack'.active = stack.active) (exit : FileExit) :
    leftBy stack' p r exit = leftBy stack p r exit := by
  cases exit <;> simp [leftBy, h]

section Files

variable (hbailout : (s.pointers c).bailout = some p) (hp : p ∈ s.stack.active)
  (hreq : (s.pointers c).reqPtr = some r) (hr : r ∈ s.stack.active)

theorem ran_setBufPtr {stack : CStack} {uses : List StackUse}
    (hnext : stack.next = s.stack.next + 1) (hdead : stack.Dead s.stack.next) :
    Ran c s ⟨stack, update s.pointers c
      { s.pointers c with bufPtr := some s.stack.next }, uses⟩ where
  next := by
    rw [hnext]
    exact Nat.le_succ _
  pointers := by simp
  stale f hf := by
    obtain rfl : s.stack.next = f := by simpa using hf
    exact hdead

theorem zendExecuteCoro_ends (s : Activations) (c : ContextPtr) (file : FileExit)
    (hyielded : file ≠ .yielded) (hbailout : file ≠ .bailout) :
    ∃ s', s.zendExecuteCoro c file = (s', .returned) ∧ Ran c s s' ∧
      s'.stack.active = s.stack.active ∧ s'.uses = s.uses := by
  have hran : Ran c s ⟨s.stack.enter.leave, update s.pointers c
      { s.pointers c with bufPtr := some s.stack.next }, s.uses⟩ :=
    ran_setBufPtr rfl (CStack.dead_leave rfl)
  cases file with
  | finished => exact ⟨_, rfl, hran, rfl, rfl⟩
  | notCompiled => exact ⟨_, rfl, hran, rfl, rfl⟩
  | handlerYielded => exact ⟨_, rfl, hran, rfl, rfl⟩
  | yielded => exact absurd rfl hyielded
  | bailout => exact absurd rfl hbailout

include hbailout hp in
theorem zendExecuteCoro_bailout :
    ∃ s', s.zendExecuteCoro c .bailout = (s', .jump p) ∧ Ran c s s' ∧
      s'.stack.active = (s.stack.unwindTo p).active ∧ s'.uses = ⟨.bailout, p, true⟩ :: s.uses := by
  have hmem : p ∈ s.stack.enter.active := List.mem_cons_of_mem _ hp
  refine ⟨_, ?_, ran_setBufPtr rfl (CStack.dead_unwindTo hp), CStack.unwindTo_enter hp, rfl⟩
  simp [zendExecuteCoro, zendBailout, setPointers, enter, hbailout, longjmp, hp]

include hreq hr in
theorem zendExecuteCoro_yielded :
    ∃ s', s.zendExecuteCoro c .yielded = (s', .jump r) ∧ Ran c s s' ∧
      s'.stack.active = (s.stack.unwindTo r).active ∧
      s'.uses = ⟨.reqPtr, r, true⟩ :: ⟨.bufPtr, s.stack.next, true⟩ :: s.uses := by
  -- the first jump is to the frame that is entered last
  have hstep : s.zendExecuteCoro c .yielded =
      (⟨s.stack.enter.unwindTo r, update s.pointers c
        { s.pointers c with bufPtr := some s.stack.next },
        ⟨.reqPtr, r, true⟩ :: ⟨.bufPtr, s.stack.next, true⟩ :: s.uses⟩, .jump r) := by
    simp [zendExecuteCoro, yieldCoroutineContext, setPointers, enter, longjmp, hreq, hr]
  exact ⟨_, hstep, ran_setBufPtr rfl (CStack.dead_unwindTo hr), CStack.unwindTo_enter hr, rfl⟩

/-- **The file loop.** It is left as the first file is that does not finish. The jumps out of it
are to active frames, but for that of an exception handler that suspends. -/
theorem zendExecuteScriptsCoro_spec (hbailout : (s.pointers c).bailout = some p)
    (hp : p ∈ s.stack.active) (hreq : (s.pointers c).reqPtr = some r) (hr : r ∈ s.stack.active)
    (hbuf : Stale s.stack (s.pointers c).bufPtr) (files : List FileExit) :
    ∃ s', s.zendExecuteScriptsCoro c files = (s', (leftBy s.stack p r (filesExit files)).1) ∧
      Ran c s s' ∧ s'.stack.active = (leftBy s.stack p r (filesExit files)).2 ∧
      (s'.Safe ↔ s.Safe ∧ filesExit files ≠ .handlerYielded) := by
  have hrefl : Ran c s s := ⟨Nat.le_refl _, by simp, hbuf⟩
  -- induction on the files
  induction files generalizing s with
  | nil => exact ⟨s, rfl, hrefl, rfl, by simp [filesExit]⟩
  | cons file files ih =>
    cases file with
    | notCompiled => exact ⟨s, rfl, hrefl, rfl, by simp [filesExit]⟩
    | bailout =>
      obtain ⟨s', heq, hran, hactive, huses⟩ := zendExecuteCoro_bailout hbailout hp
      refine ⟨s', ?_, hran, hactive, ?_⟩
      · simp [zendExecuteScriptsCoro, heq, filesExit, leftBy]
      · simp [filesExit, safe_cons rfl huses rfl]
    | yielded =>
      obtain ⟨s', heq, hran, hactive, huses⟩ := zendExecuteCoro_yielded hreq hr
      refine ⟨s', ?_, hran, hactive, ?_⟩
      · simp [zendExecuteScriptsCoro, heq, filesExit, leftBy]
      · simp [filesExit, Safe, huses]
    | handlerYielded =>
      obtain ⟨s', heq, hran, hactive, huses⟩ := zendExecuteCoro_ends s c .handlerYielded nofun nofun
      refine ⟨{ s' with uses := ⟨.bufPtr, (s'.pointers c).bufPtr, false⟩ :: s'.uses }, ?_,
        ⟨hran.next, hran.pointers, hran.stale⟩, hactive, ?_⟩
      · simp [zendExecuteScriptsCoro, heq, filesExit, leftBy, yieldCoroutineContext,
          longjmp_stale hran.stale]
      · simp [filesExit, Safe]
    | finished =>
      obtain ⟨s', heq, hran, hactive, huses⟩ := zendExecuteCoro_ends s c .finished nofun nofun
      have hkept : (s'.pointers c).bailout = (s.pointers c).bailout ∧
          (s'.pointers c).reqPtr = (s.pointers c).reqPtr := by
        rw [hran.pointers]
        simp
      obtain ⟨s₂, heq₂, hran₂, hactive₂, hsafe₂⟩ := ih (hkept.1.trans hbailout) (hactive ▸ hp)
        (hkept.2.trans hreq) (hactive ▸ hr) hran.stale ⟨Nat.le_refl _, by simp, hran.stale⟩
      have hsafe : s'.Safe ↔ s.Safe := by simp only [Safe, huses]
      refine ⟨s₂, ?_, hran.trans hran₂, ?_, ?_⟩
      · simp [zendExecuteScriptsCoro, heq, heq₂, filesExit, leftBy_congr hactive]
      · rw [hactive₂, leftBy_congr hactive]
        rfl
      · rw [hsafe₂, hsafe]
        rfl

end Files

end Activations

/-- A worker with the C stack under it, and how its last callback was left. -/
structure StackedWorker where
  worker : Worker
  activations : Activations
  control : Control

def StackedWorker.step (x : StackedWorker) (e : WorkerEvent) : Option StackedWorker :=
  if x.control = .returned then
    (workerSystem.step x.worker e).map fun worker =>
      let (s, control) := { x.activations with uses := [] }.callback x.worker e
      ⟨worker, s, control⟩
  else none

def StackedWorker.start (idxs : List Nat) (maxRequests : Nat) : StackedWorker :=
  ⟨Worker.init idxs maxRequests, .init, .returned⟩

def stackedSystem : EventSystem StackedWorker WorkerEvent where
  step := StackedWorker.step

end Phpce
