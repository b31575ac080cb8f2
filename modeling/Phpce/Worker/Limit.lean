import Phpce.Worker.View

/-!
# `pm.max_requests`

`close_request` counts the requests and says, by its result, that the last of them has been
closed. Of its three callers only `socket_read_cb` looks at that result and calls
`event_base_loopexit`.

* **`step_counts`** — what an event does to the counter: nothing, or it counts a request in
  `socket_read_cb`, or one in a callback that does not look at the limit.
* **`limit_honoured_iff`** — in a run, the loop is told to exit in time if and only if the last
  request allowed is closed by `socket_read_cb`.
* **`not_limit_honoured`** — a last request that is closed after a reply.
-/

namespace Phpce

namespace Worker

/-- The loop has been told to exit by the time `max_requests` requests have been closed. -/
def LimitHonoured (w : Worker) : Prop :=
  0 < w.maxRequests → w.maxRequests ≤ w.requests → .loopexit ∈ w.trace

def KeepsLimit (w : Worker) (e : WorkerEvent) : Prop :=
  ∀ w', workerSystem.step w e = some w' → LimitHonoured w'

/-- The event does not close the last request allowed for a client that leaves, or after a
reply. -/
def Limiting (w : Worker) : WorkerEvent → Prop
  | .accept _ => True
  | .readable _ _ _ => True
  | .clientEof _ shutdown => shutdown = .completes → w.requests + 1 ≠ w.maxRequests
  | .reply call exit shutdown =>
      ∀ k, (w.calls.find? fun k => k.id = call) = some k → (w.contexts k.context).fd ≠ 0 →
        exit = .finished → shutdown = .completes → w.requests + 1 ≠ w.maxRequests

/-- The loop is told to exit exactly when the limit is reached. -/
def LimitSync (w : Worker) : Prop :=
  .loopexit ∈ w.trace ↔ 0 < w.maxRequests ∧ w.maxRequests ≤ w.requests

variable {w w' w₁ : Worker} {c : ContextPtr} {e : WorkerEvent}

/-! ## The counter -/

/-- `w'` has closed `closed` more requests than `w`, and has told the loop to exit in addition
if `told` holds. -/
structure Counted (closed : Nat) (told : Prop) (w w' : Worker) : Prop where
  requests : w'.requests = w.requests + closed
  maxRequests : w'.maxRequests = w.maxRequests
  loopexit : .loopexit ∈ w'.trace ↔ .loopexit ∈ w.trace ∨ told

theorem Counted.of_trace (delta : List Effect) (hrequests : w'.requests = w.requests)
    (hmax : w'.maxRequests = w.maxRequests) (htrace : w'.trace = delta ++ w.trace)
    (hdelta : .loopexit ∉ delta) : Counted 0 False w w' where
  requests := hrequests
  maxRequests := hmax
  loopexit := by simp [htrace, hdelta]

theorem Counted.trans {closed : Nat} {told : Prop} (h : Counted 0 False w w₁)
    (h' : Counted closed told w₁ w') : Counted closed told w w' where
  requests := by rw [h'.requests, h.requests, Nat.add_zero]
  maxRequests := h'.maxRequests.trans h.maxRequests
  loopexit := by rw [h'.loopexit, h.loopexit, or_false]

theorem Counted.andThen {closed : Nat} {told : Prop} (h : Counted closed told w w₁)
    (h' : Counted 0 False w₁ w') : Counted closed told w w' where
  requests := by rw [h'.requests, h.requests, Nat.add_zero]
  maxRequests := h'.maxRequests.trans h.maxRequests
  loopexit := by rw [h'.loopexit, h.loopexit, or_false]

theorem counted_freeCoroutineContext (w : Worker) (c : ContextPtr) :
    Counted 0 False w (w.freeCoroutineContext c) := by
  unfold freeCoroutineContext
  dsimp only
  split
  · exact .of_trace [.buffereventFree _, .freeContext c] rfl rfl rfl (by simp)
  · exact .of_trace [.freeContext c] rfl rfl rfl (by simp)

theorem counted_zendExecuteScriptsCoro (w : Worker) (c : ContextPtr) (files : List FileExit) :
    Counted 0 False w (w.zendExecuteScriptsCoro c files).1 := by
  obtain ⟨u, op, next, serials, hfiles, hres⟩ := zendExecuteScriptsCoro_spec w c files
  have hu : Counted 0 False w u := by
    rw [hfiles.eq]
    exact .of_trace _ rfl rfl rfl (by simp)
  rcases hres with ⟨-, -, heq⟩ | ⟨-, heq, -⟩
  · rw [heq]
    exact hu
  · rw [heq]
    exact hu.trans (.of_trace [] rfl rfl rfl (by simp))

theorem counted_fastcgiRequestDone2 (w : Worker) (c : ContextPtr) :
    Counted 1 (0 < w.maxRequests ∧ w.requests + 1 = w.maxRequests) w
      (w.fastcgiRequestDone2 c .completes) := by
  by_cases hmax : 0 < w.maxRequests ∧ w.requests + 1 = w.maxRequests
  · have heq : w.fastcgiRequestDone2 c .completes =
        ({ w.emit (.closeRequest c) with requests := w.requests + 1 }.emit
          .loopexit).freeCoroutineContext c := by
      simp [fastcgiRequestDone2, closeRequest, emit, hmax.2, Nat.ne_of_gt hmax.1]
    rw [heq]
    refine Counted.andThen ?_ (counted_freeCoroutineContext _ c)
    exact ⟨rfl, rfl, by simp [emit, hmax]⟩
  · have heq : w.fastcgiRequestDone2 c .completes =
        ({ w.emit (.closeRequest c) with requests := w.requests + 1 } :
          Worker).freeCoroutineContext c := by
      have hmax' : w.maxRequests = 0 ∨ w.requests + 1 ≠ w.maxRequests := by omega
      rcases hmax' with hmax' | hmax' <;> simp [fastcgiRequestDone2, closeRequest, emit, hmax']
    rw [heq]
    refine Counted.andThen ?_ (counted_freeCoroutineContext _ c)
    exact ⟨rfl, rfl, by simp [emit, hmax]⟩

/-! ## One event -/

/-- What an event does to the counter. The last case is that of the callbacks which do not look
at the result of `close_request`. -/
inductive StepCounts (w : Worker) (e : WorkerEvent) (w' : Worker) : Prop where
  | quiet (counted : Counted 0 False w w') (limiting : w.Limiting e)
  | checked (counted : Counted 1 (0 < w.maxRequests ∧ w.requests + 1 = w.maxRequests) w w')
      (limiting : w.Limiting e)
  | unchecked (counted : Counted 1 False w w')
      (limiting : w.Limiting e ↔ w.requests + 1 ≠ w.maxRequests)

theorem socketReadCb_counts (b : Bufferevent) (bev : Nat) (path : RequestPath)
    (shutdown : ShutdownRun) :
    StepCounts w (.readable bev path shutdown) (w.socketReadCb b path shutdown) := by
  have hstart : ∀ request, Counted 0 False w (w.startRequest b.context request) :=
    fun _ => .of_trace [.requestStartup b.context] rfl rfl rfl (by simp)
  -- `fastcgi_request_done2`, from wherever it is reached
  have hdone : ∀ w₁, Counted 0 False w w₁ →
      StepCounts w (.readable bev path shutdown) (w₁.fastcgiRequestDone2 b.context shutdown) := by
    intro w₁ h
    cases shutdown with
    | yields =>
      exact .quiet (h.trans (.of_trace [.closeRequest b.context] rfl rfl rfl (by simp)))
        trivial
    | completes =>
      have hclose := counted_fastcgiRequestDone2 w₁ b.context
      rw [h.requests, h.maxRequests, Nat.add_zero] at hclose
      exact .checked (h.trans hclose) trivial
  unfold socketReadCb
  cases path with
  | startupFailed =>
    exact .quiet ((hstart _).trans (.of_trace [] rfl rfl rfl (by simp))) trivial
  | rejected => exact hdone _ (hstart _)
  | executed files =>
    have hrun := fun request =>
      (hstart request).trans (counted_zendExecuteScriptsCoro _ b.context files)
    dsimp only
    split
    · exact .quiet (hrun _) trivial
    · exact .quiet ((hrun _).trans (.of_trace [] rfl rfl rfl (by simp))) trivial
    · exact hdone _ (hrun _)

theorem eventCb_counts (b : Bufferevent) (bev : Nat) (shutdown : ShutdownRun) :
    StepCounts w (.clientEof bev shutdown) (w.eventCb b shutdown) := by
  cases shutdown with
  | yields =>
    exact .quiet (.of_trace [.closeRequest b.context, .destroyOpArray _] rfl rfl rfl
      (by simp)) (fun h => by cases h)
  | completes =>
    exact .unchecked ⟨rfl, rfl, by simp [eventCb, closeRequest, emit, setContext,
      checkoutCoroutineContext, buffereventFree]⟩ (by simp [Limiting])

theorem remoteReadCallback_counts {k : RemoteCall} {call : Nat} (exit : ResumeExit)
    (shutdown : ShutdownRun) (hk : (w.calls.find? fun k => k.id = call) = some k) :
    StepCounts w (.reply call exit shutdown) (w.remoteReadCallback k exit shutdown) := by
  -- only a resumed request that runs to its end is counted
  have hquiet : ∀ w', Counted 0 False w w' →
      ((w.contexts k.context).fd = 0 ∨ exit ≠ .finished ∨ shutdown ≠ .completes) →
      StepCounts w (.reply call exit shutdown) w' := by
    intro w' hw' hno
    refine .quiet hw' fun k' hk' hfd hexit hshutdown => ?_
    obtain rfl : k = k' := Option.some.inj (hk.symm.trans hk')
    rcases hno with hno | hno | hno
    · exact absurd hno hfd
    · exact absurd hexit hno
    · exact absurd hshutdown hno
  unfold remoteReadCallback resumeCoroutineContext
  dsimp only
  split
  · next hfd =>
    refine hquiet _ (Counted.trans ?_ (counted_freeCoroutineContext _ _)) (.inl hfd)
    exact .of_trace [] rfl rfl rfl (by simp)
  · next hfd =>
    cases exit with
    | yielded => exact hquiet _ (.of_trace [.resume k _] rfl rfl rfl (by simp)) (by simp)
    | bailout => exact hquiet _ (.of_trace [.resume k _] rfl rfl rfl (by simp)) (by simp)
    | finished =>
      cases shutdown with
      | yields =>
        exact hquiet _ (.of_trace [.closeRequest k.context, .destroyOpArray _,
          .resume k _] rfl rfl rfl (by simp)) (by simp)
      | completes =>
        refine .unchecked (Counted.andThen ?_ (counted_freeCoroutineContext _ k.context)) ?_
        · exact ⟨rfl, rfl, by simp [emit, completeCall, checkoutCoroutineContext]⟩
        · constructor
          · exact fun h => h k hk hfd rfl rfl
          · exact fun h _ _ _ _ _ => h

theorem doAccept_counts (fd : Int) : StepCounts w (.accept fd) (w.doAccept fd) := by
  refine .quiet ?_ trivial
  unfold doAccept
  split
  · exact .of_trace [] rfl rfl rfl (by simp)
  · split
    · exact .of_trace [] rfl rfl rfl (by simp)
    · exact .of_trace [] rfl rfl rfl (by simp)
    · exact .of_trace [.useContext _] rfl rfl rfl (by simp)

theorem step_counts (h : workerSystem.step w e = some w') : StepCounts w e w' := by
  have hrun : w.status = .running := by
    by_contra hne
    simp [workerSystem, step, hne] at h
  simp only [workerSystem, step, if_pos hrun] at h
  cases e with
  | accept fd =>
    obtain ⟨-, rfl⟩ : (w.Listening ∧ fd ≠ 0) ∧ w.doAccept fd = w' := by simpa using h
    exact doAccept_counts fd
  | readable bev path shutdown =>
    obtain ⟨b, -, rfl⟩ := Option.map_eq_some_iff.mp h
    exact socketReadCb_counts b bev path shutdown
  | clientEof bev shutdown =>
    obtain ⟨b, -, rfl⟩ := Option.map_eq_some_iff.mp h
    exact eventCb_counts b bev shutdown
  | reply call exit shutdown =>
    obtain ⟨k, hk, rfl⟩ := Option.map_eq_some_iff.mp h
    exact remoteReadCallback_counts exit shutdown hk

theorem limitSync_of_step (hs : LimitSync w) (h : workerSystem.step w e = some w')
    (hhon : LimitHonoured w') : LimitSync w' := by
  refine ⟨fun hexit => ?_, fun hreach => hhon hreach.1 hreach.2⟩
  have hs : .loopexit ∈ w.trace ↔ 0 < w.maxRequests ∧ w.maxRequests ≤ w.requests := hs
  cases step_counts h with
  | quiet hc _ =>
    rw [hc.loopexit, or_false, hs] at hexit
    rwa [hc.requests, hc.maxRequests, Nat.add_zero]
  | checked hc _ =>
    rw [hc.loopexit, hs] at hexit
    rw [hc.requests, hc.maxRequests]
    omega
  | unchecked hc _ =>
    rw [hc.loopexit, or_false, hs] at hexit
    rw [hc.requests, hc.maxRequests]
    omega

/-- **One event** keeps the limit if and only if it does not close the last request allowed in a
callback that does not look. -/
theorem limitHonoured_iff (hs : LimitSync w) (h : workerSystem.step w e = some w') :
    LimitHonoured w' ↔ w.Limiting e := by
  have hs : .loopexit ∈ w.trace ↔ 0 < w.maxRequests ∧ w.maxRequests ≤ w.requests := hs
  unfold LimitHonoured
  cases step_counts h with
  | quiet hc hlim =>
    rw [hc.requests, hc.maxRequests, hc.loopexit, or_false, hs, Nat.add_zero]
    exact ⟨fun _ => hlim, fun _ hmax hle => ⟨hmax, hle⟩⟩
  | checked hc hlim =>
    rw [hc.requests, hc.maxRequests, hc.loopexit, hs]
    refine ⟨fun _ => hlim, fun _ hmax hle => ?_⟩
    omega
  | unchecked hc hlim =>
    rw [hc.requests, hc.maxRequests, hc.loopexit, or_false, hs, hlim]
    omega

/-! ## Runs -/

theorem limitSync_init (idxs : List Nat) (maxRequests : Nat) :
    LimitSync (init idxs maxRequests) := by
  simp only [LimitSync, init, List.not_mem_nil, false_iff]
  omega

/-- **Exactly when the limit is honoured.** Each event of a run leads to a state in which the
loop has been told to exit if `max_requests` requests have been closed, if and only if no event
closes the last request allowed for a client that leaves, or after a reply. -/
theorem limit_honoured_iff (idxs : List Nat) (maxRequests : Nat) (es : List WorkerEvent)
    (w : Worker) :
    workerSystem.Run KeepsLimit (init idxs maxRequests) es w ↔
      workerSystem.Run Limiting (init idxs maxRequests) es w := by
  have hinit := limitSync_init idxs maxRequests
  constructor
  · intro h
    exact h.mono_of_invariant
      (fun _ _ _ hs hkeep hstep => limitSync_of_step hs hstep (hkeep _ hstep))
      (fun _ _ _ hs hkeep hstep => (limitHonoured_iff hs hstep).mp (hkeep _ hstep)) hinit
  · intro h
    exact h.mono_of_invariant
      (fun _ _ _ hs hlim hstep =>
        limitSync_of_step hs hstep ((limitHonoured_iff hs hstep).mpr hlim))
      (fun _ _ _ hs hlim hstep _ hstep' => (limitHonoured_iff hs hstep').mpr hlim) hinit

/-- **A last request that suspends**: it is closed after the reply, and the loop goes on. -/
theorem not_limit_honoured :
    ¬∀ (idxs : List Nat) (maxRequests : Nat) (es : List WorkerEvent) (w : Worker),
      idxs ≠ [] → workerSystem.FreeRun (init idxs maxRequests) es w → LimitHonoured w := by
  intro h
  have hrun : ∃ w, workerSystem.exec (init [0] 1)
      [.accept 5, .readable 0 (.executed [.yielded]) .completes,
        .reply 4 .finished .completes] = some w ∧
      w.maxRequests = 1 ∧ w.requests = 1 ∧ .loopexit ∉ w.trace :=
    ⟨_, rfl, rfl, rfl, by decide⟩
  obtain ⟨w, hexec, hmax, hcount, hexit⟩ := hrun
  exact hexit (h [0] 1 _ w (by simp) (EventSystem.run_of_exec hexec) (by omega) (by omega))

end Worker

end Phpce
