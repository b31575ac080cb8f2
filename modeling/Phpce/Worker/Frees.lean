import Phpce.Worker.Outcome

/-!
# The bufferevents that an event frees

A context's bufferevent is freed with the context, and a client's when it leaves. Nothing else
takes a bufferevent away.

* **`frees_of_step`** — what an event frees, in every state.
-/

namespace Phpce

namespace Worker

variable {w w' w₁ : Worker} {c : ContextPtr} {b : Bufferevent} {k : RemoteCall}

def freed (trace : List Effect) : List Nat :=
  trace.filterMap fun
    | .buffereventFree bev => bev
    | _ => none

/-- What `free_coroutine_context` frees. -/
def contextBev (w : Worker) (c : ContextPtr) : Option Nat :=
  if (w.contexts c).fd ≠ 0 then (w.contexts c).bev else none

def frees (w : Worker) : WorkerEvent → Option Nat
  | .accept _ => none
  | .readable bev path shutdown =>
      if path.closes && shutdown = .completes then
        (w.bevs.find? fun b => b.id = bev ∧ b.fdOpen).bind fun b => w.contextBev b.context
      else none
  | .clientEof bev shutdown =>
      if shutdown = .completes then
        (w.bevs.find? fun b => b.id = bev ∧ b.fdOpen).map (·.id)
      else none
  | .reply call exit shutdown =>
      match w.calls.find? fun k => k.id = call with
      | some k =>
          if exit = .finished ∧ shutdown = .completes then w.contextBev k.context else none
      | none => none

/-- Of the bufferevents of `w`, just this one is freed. -/
structure Frees (bev : Option Nat) (w w' : Worker) : Prop where
  bevs : w'.bevs = w.bevs.filter fun b => some b.id ≠ bev
  trace : freed w'.trace = bev.toList ++ freed w.trace

theorem Frees.trans {bev : Option Nat} (h : Frees none w w₁) (h' : Frees bev w₁ w') :
    Frees bev w w' where
  bevs := by simpa [h.bevs] using h'.bevs
  trace := by simpa [h.trace] using h'.trace

theorem frees_none (delta : List Effect) (hbevs : w'.bevs = w.bevs)
    (htrace : w'.trace = delta ++ w.trace) (hdelta : freed delta = []) : Frees none w w' where
  bevs := by simp [hbevs]
  trace := by
    rw [htrace, freed, List.filterMap_append]
    simpa [freed] using hdelta

theorem frees_freeCoroutineContext : Frees (w.contextBev c) w (w.freeCoroutineContext c) := by
  unfold freeCoroutineContext contextBev
  dsimp only
  split
  · refine ⟨rfl, ?_⟩
    cases (w.contexts c).bev <;> rfl
  · exact ⟨by simp, rfl⟩

theorem frees_done2_completes :
    Frees (w.contextBev c) w (w.fastcgiRequestDone2 c .completes) := by
  have hquiet : ∀ w₁ : Worker, w₁.bevs = w.bevs →
      (w₁.trace = [.closeRequest c] ++ w.trace ∨
        w₁.trace = [.loopexit, .closeRequest c] ++ w.trace) →
      w₁.contexts = w.contexts → Frees (w.contextBev c) w (w₁.freeCoroutineContext c) := by
    intro w₁ hbevs htrace hcontexts
    have hbev : w₁.contextBev c = w.contextBev c := by rw [contextBev, hcontexts, contextBev]
    have hfree := hbev ▸ frees_freeCoroutineContext (w := w₁) (c := c)
    rcases htrace with htrace | htrace
    · exact (frees_none _ hbevs htrace rfl).trans hfree
    · exact (frees_none _ hbevs htrace rfl).trans hfree
  simp only [fastcgiRequestDone2, closeRequest]
  split
  · exact hquiet _ rfl (.inl rfl) rfl
  · exact hquiet _ rfl (.inr rfl) rfl

theorem frees_zendExecuteScriptsCoro (w : Worker) (c : ContextPtr) (files : List FileExit) :
    Frees none w (w.zendExecuteScriptsCoro c files).1 ∧
      (w.zendExecuteScriptsCoro c files).1.contextBev c = w.contextBev c := by
  obtain ⟨u, op, next, serials, hrun, hres⟩ := zendExecuteScriptsCoro_spec w c files
  have hu : Frees none w u ∧ u.contextBev c = w.contextBev c := by
    have hdestroys : freed (serials.map fun s => .destroyOpArray (some ⟨c, s⟩)) = [] := by
      simp [freed, List.filterMap_map]
    rw [hrun.eq]
    exact ⟨frees_none _ rfl rfl hdestroys, by simp [contextBev]⟩
  rcases hres with ⟨-, -, heq⟩ | ⟨-, heq, -⟩
  · rw [heq]
    exact hu
  · rw [heq]
    refine ⟨⟨hu.1.bevs, hu.1.trace⟩, ?_⟩
    rw [← hu.2]
    simp [contextBev, coroHttpGet]

theorem frees_done2 (h : Frees none w w₁) (hbev : w₁.contextBev c = w.contextBev c)
    (shutdown : ShutdownRun) :
    Frees (if shutdown = .completes then w.contextBev c else none) w
      (w₁.fastcgiRequestDone2 c shutdown) := by
  cases shutdown with
  | yields => exact ⟨h.bevs, h.trace⟩
  | completes => exact h.trans (hbev ▸ frees_done2_completes)

theorem frees_socketReadCb {path : RequestPath} (hpath : path ≠ .startupFailed)
    (shutdown : ShutdownRun) :
    Frees (if path.closes && shutdown = .completes then w.contextBev b.context else none) w
      (w.socketReadCb b path shutdown) := by
  have hstart : Frees none w (w.requestStart b) :=
    frees_none [.requestStartup b.context] rfl rfl rfl
  have hbev : (w.requestStart b).contextBev b.context = w.contextBev b.context := by
    simp [contextBev, requestStart, startRequest, setContext, emit, checkoutCoroutineContext]
  cases path with
  | startupFailed => exact absurd rfl hpath
  | rejected =>
    rw [socketReadCb_rejected]
    simpa [RequestPath.closes, RequestPath.suspends] using frees_done2 hstart hbev shutdown
  | executed files =>
    obtain ⟨hloop, hloopBev⟩ := frees_zendExecuteScriptsCoro (w.requestStart b) b.context files
    have hscript := hstart.trans hloop
    by_cases hyielded : filesExit files = .yielded
    · rw [socketReadCb_executed, hyielded]
      simpa [RequestPath.suspends, RequestPath.closes, hyielded, scriptsResult] using hscript
    · by_cases hhandler : filesExit files = .handlerYielded
      · have hdead : Frees none w { ((w.requestStart b).zendExecuteScriptsCoro b.context files).1
            with status := .deadFrameJump } := ⟨hscript.bevs, hscript.trace⟩
        rw [socketReadCb_executed, hhandler]
        simpa [RequestPath.suspends, RequestPath.closes, hhandler, scriptsResult] using hdead
      · rw [socketReadCb_closes hyielded hhandler]
        simpa [RequestPath.suspends, RequestPath.closes, hyielded, hhandler] using
          frees_done2 hscript (hloopBev.trans hbev) shutdown

theorem frees_eventCb (shutdown : ShutdownRun) :
    Frees (if shutdown = .completes then some b.id else none) w (w.eventCb b shutdown) := by
  cases shutdown with
  | yields =>
    exact frees_none [.closeRequest b.context, .destroyOpArray _] rfl rfl rfl
  | completes => exact ⟨rfl, rfl⟩

theorem frees_remoteReadCallback (exit : ResumeExit) (shutdown : ShutdownRun) :
    Frees (if exit = .finished ∧ shutdown = .completes then w.contextBev k.context else none) w
      (w.remoteReadCallback k exit shutdown) := by
  obtain ⟨w₁, hw₁⟩ : ∃ w₁, w₁ = (w.checkoutCoroutineContext k.context).completeCall k := ⟨_, rfl⟩
  have hcomplete : Frees none w w₁ ∧ w₁.contexts = w.contexts := by
    rw [hw₁]
    exact ⟨frees_none [] rfl rfl rfl, rfl⟩
  have hcallback : w.remoteReadCallback k exit shutdown =
      w₁.resumeCoroutineContext k exit shutdown := by
    rw [hw₁]
    rfl
  have hbev : w₁.contextBev k.context = w.contextBev k.context := by
    rw [contextBev, hcomplete.2, contextBev]
  rw [hcallback, resumeCoroutineContext, hcomplete.2]
  by_cases hgone : (w.contexts k.context).fd = 0
  · have hnone : w.contextBev k.context = none := if_neg (not_not.mpr hgone)
    rw [if_pos hgone]
    simpa [hnone] using hcomplete.1.trans (hnone ▸ hbev ▸ frees_freeCoroutineContext)
  · rw [if_neg hgone]
    cases exit with
    | yielded =>
      exact hcomplete.1.trans (frees_none [.resume k _] rfl rfl rfl)
    | bailout =>
      exact hcomplete.1.trans (frees_none [.resume k _] rfl rfl rfl)
    | finished =>
      cases shutdown with
      | yields =>
        exact hcomplete.1.trans
          (frees_none [.closeRequest _, .destroyOpArray _, .resume k _] rfl rfl rfl)
      | completes =>
        obtain ⟨w₂, hw₂⟩ : ∃ w₂ : Worker, w₂ = { ((w₁.emit (.resume k (w.contexts k.context))).emit
          (.destroyOpArray (w₁.contexts k.context).opArray)).emit (.closeRequest k.context) with
            requests := w₁.requests + 1 } := ⟨_, rfl⟩
        have hclose : Frees none w₁ w₂ ∧ w₂.contextBev k.context = w.contextBev k.context := by
          rw [hw₂, ← hbev]
          exact ⟨frees_none [.closeRequest _, .destroyOpArray _, .resume k _] rfl rfl rfl, rfl⟩
        have hfree : Frees (w.contextBev k.context) w₂ (w₂.freeCoroutineContext k.context) :=
          hclose.2 ▸ frees_freeCoroutineContext
        have h := hcomplete.1.trans (hclose.1.trans hfree)
        rw [hw₂] at h
        exact h

/-- **What an event frees**, but for an event that opens a connection or ends the worker. -/
theorem frees_of_step {e : WorkerEvent} (hstep : workerSystem.step w e = some w')
    (haccept : ∀ fd, e ≠ .accept fd)
    (hstartup : ∀ bev shutdown, e ≠ .readable bev .startupFailed shutdown) :
    Frees (w.frees e) w w' := by
  obtain ⟨hrun, -⟩ := outcome_of_step hstep
  simp only [workerSystem, step, if_pos hrun] at hstep
  cases e with
  | accept fd => exact absurd rfl (haccept fd)
  | readable bev path shutdown =>
    obtain ⟨b, hb, rfl⟩ := Option.map_eq_some_iff.mp hstep
    simp only [frees, hb, Option.bind_some]
    refine frees_socketReadCb ?_ shutdown
    rintro rfl
    exact hstartup bev shutdown rfl
  | clientEof bev shutdown =>
    obtain ⟨b, hb, rfl⟩ := Option.map_eq_some_iff.mp hstep
    simp only [frees, hb, Option.map_some]
    exact frees_eventCb shutdown
  | reply call exit shutdown =>
    obtain ⟨k, hk, rfl⟩ := Option.map_eq_some_iff.mp hstep
    simp only [frees, hk]
    exact frees_remoteReadCallback exit shutdown

end Worker

end Phpce
