import Phpce.Worker.View

/-!
# What an event does to the calls and the counters

An event makes at most one remote call, closes at most one request, and may stop the worker at a
jump to a dead frame. Which of these it does can be read off the event.

* **`outcome_of_step`** — in every state, whether or not a request is disturbed.
-/

namespace Phpce

open List Option

/-- How the file loop is left: by the first of the files that does not finish. -/
def filesExit : List FileExit → FileExit
  | [] => .finished
  | .finished :: files => filesExit files
  | file :: _ => file

def RequestPath.suspends : RequestPath → Bool
  | .executed files => filesExit files = .yielded || filesExit files = .handlerYielded
  | _ => false

/-- The request comes to `fastcgi_request_done2`. -/
def RequestPath.closes : RequestPath → Bool
  | .startupFailed => false
  | path => !path.suspends

namespace Worker

def makesCall (w : Worker) : WorkerEvent → Option ContextPtr
  | .accept _ => none
  | .readable bev path shutdown =>
      if path.suspends || path.closes && shutdown = .yields then
        (w.bevs.find? fun b => b.id = bev ∧ b.fdOpen).map (·.context)
      else none
  | .clientEof bev shutdown =>
      if shutdown = .yields then
        (w.bevs.find? fun b => b.id = bev ∧ b.fdOpen).map (·.context)
      else none
  | .reply call exit shutdown =>
      match w.calls.find? fun k => k.id = call with
      | some k =>
          if (w.contexts k.context).fd ≠ 0 ∧
            (exit = .yielded ∨ exit = .finished ∧ shutdown = .yields) then some k.context
          else none
      | none => none

/-- The context on which the event runs `php_request_shutdown` to its end. -/
def shutsDown (w : Worker) : WorkerEvent → Option ContextPtr
  | .accept _ => none
  | .readable bev path shutdown =>
      if path.closes && shutdown = .completes then
        (w.bevs.find? fun b => b.id = bev ∧ b.fdOpen).map (·.context)
      else none
  | .clientEof bev shutdown =>
      if shutdown = .completes then
        (w.bevs.find? fun b => b.id = bev ∧ b.fdOpen).map (·.context)
      else none
  | .reply call exit shutdown =>
      match w.calls.find? fun k => k.id = call with
      | some k =>
          if (w.contexts k.context).fd ≠ 0 ∧ exit = .finished ∧ shutdown = .completes then
            some k.context
          else none
      | none => none

def jumpsDead (w : Worker) : WorkerEvent → Bool
  | .accept _ => false
  | .readable _ path shutdown =>
      match path with
      | .executed files => filesExit files = .handlerYielded || path.closes && shutdown = .yields
      | _ => path.closes && shutdown = .yields
  | .clientEof _ shutdown => shutdown = .yields
  | .reply call exit _ =>
      match w.calls.find? fun k => k.id = call with
      | some k => (w.contexts k.context).fd ≠ 0 && exit = .bailout
      | none => false

def received (w : Worker) : WorkerEvent → Worker
  | .reply call _ _ => { w with calls := w.calls.filter fun k => k.id ≠ call }
  | _ => w

variable {w w' w₁ : Worker} {c : ContextPtr} {b : Bufferevent} {k : RemoteCall}

/-- What happens between `w` and `w'`: at most a call, and at most a `php_request_shutdown`. -/
structure Outcome (makes shuts : Option ContextPtr) (dead : Prop) (w w' : Worker) : Prop where
  next : w.nextId ≤ w'.nextId
  requests : w'.requests = w.requests + shuts.toList.length
  calls : ∃ kept made, w'.calls = made ++ kept ∧ (∀ k ∈ kept, k ∈ w.calls) ∧
    made.map (·.context) = makes.toList ∧ ∀ k ∈ made, w.nextId ≤ k.id ∧ k.id < w'.nextId
  status : w'.status = .deadFrameJump ↔ dead

theorem Outcome.after {makes shuts : Option ContextPtr} {dead : Prop}
    (h : Outcome makes shuts dead w₁ w') (hnext : w.nextId ≤ w₁.nextId)
    (hrequests : w₁.requests = w.requests) (hcalls : ∀ k ∈ w₁.calls, k ∈ w.calls) :
    Outcome makes shuts dead w w' where
  next := Nat.le_trans hnext h.next
  requests := hrequests ▸ h.requests
  calls := by
    obtain ⟨kept, made, heq, hkept, hmade, hids⟩ := h.calls
    exact ⟨kept, made, heq, fun k hk => hcalls k (hkept k hk), hmade,
      fun k hk => ⟨Nat.le_trans hnext (hids k hk).1, (hids k hk).2⟩⟩
  status := h.status

theorem Outcome.congr {makes shuts : Option ContextPtr} {dead dead' : Prop}
    (h : Outcome makes shuts dead w w') (hdead : dead ↔ dead') : Outcome makes shuts dead' w w' :=
  ⟨h.next, h.requests, h.calls, h.status.trans hdead⟩

theorem Outcome.mem_calls {makes shuts : Option ContextPtr} {dead : Prop}
    (h : Outcome makes shuts dead w w') (hk : k ∈ w'.calls) :
    k ∈ w.calls ∨ makes = some k.context := by
  obtain ⟨kept, made, heq, hkept, hmade, -⟩ := h.calls
  rw [heq] at hk
  rcases mem_append.mp hk with hk | hk
  · have hmem : k.context ∈ makes.toList := hmade ▸ mem_map_of_mem hk
    exact .inr (mem_toList.mp hmem)
  · exact .inl (hkept k hk)

theorem Outcome.calls_cases {makes shuts : Option ContextPtr} {dead : Prop}
    (h : Outcome makes shuts dead w w') :
    (∀ k ∈ w'.calls, k ∈ w.calls) ∨ ∃ k kept, w'.calls = k :: kept ∧
      (∀ k ∈ kept, k ∈ w.calls) ∧ w.nextId ≤ k.id ∧ k.id < w'.nextId := by
  obtain ⟨kept, made, heq, hkept, hmade, hids⟩ := h.calls
  cases made with
  | nil => exact .inl fun k hk => hkept k (by simpa [heq] using hk)
  | cons k rest =>
    have hlength : (k :: rest).length ≤ 1 := by
      rw [← length_map (f := fun k : RemoteCall => k.context), hmade]
      cases makes <;> simp
    obtain rfl : rest = [] := length_eq_zero_iff.mp (by simpa using hlength)
    exact .inr ⟨k, kept, heq, hkept, hids k mem_cons_self⟩

theorem outcome_quiet (hnext : w.nextId ≤ w'.nextId) (hrequests : w'.requests = w.requests)
    (hcalls : ∀ k ∈ w'.calls, k ∈ w.calls) (hstatus : w'.status ≠ .deadFrameJump) :
    Outcome none none False w w' where
  next := hnext
  requests := hrequests
  calls := ⟨w'.calls, [], rfl, hcalls, rfl, nofun⟩
  status := iff_of_false hstatus id

theorem outcome_coroHttpGet (hstatus : w.status ≠ .deadFrameJump) :
    Outcome (some c) none False w (w.coroHttpGet c) where
  next := Nat.le_add_right _ _
  requests := rfl
  calls := by
    refine ⟨w.calls, [w.madeCall c], rfl, fun _ hk => hk, rfl, fun k hk => ?_⟩
    obtain rfl : k = w.madeCall c := mem_singleton.mp hk
    exact ⟨Nat.le_succ _, Nat.lt_succ_self _⟩
  status := iff_of_false hstatus id

theorem Outcome.deadFrameJump {makes shuts : Option ContextPtr} {dead : Prop}
    (h : Outcome makes shuts dead w w') :
    Outcome makes shuts True w { w' with status := .deadFrameJump } :=
  ⟨h.next, h.requests, h.calls, iff_of_true rfl trivial⟩

theorem outcome_freeCoroutineContext (w₁ : Worker) (shuts : Option ContextPtr)
    (hrequests : w₁.requests = w.requests + shuts.toList.length) (hnext : w₁.nextId = w.nextId)
    (hcalls : w₁.calls = w.calls) (hstatus : w₁.status ≠ .deadFrameJump) :
    Outcome none shuts False w (w₁.freeCoroutineContext c) := by
  have hfree : (w₁.freeCoroutineContext c).nextId = w₁.nextId ∧
      (w₁.freeCoroutineContext c).requests = w₁.requests ∧
      (w₁.freeCoroutineContext c).calls = w₁.calls ∧
      (w₁.freeCoroutineContext c).status = w₁.status := by
    unfold freeCoroutineContext
    dsimp only
    split <;> exact ⟨rfl, rfl, rfl, rfl⟩
  obtain ⟨hn, hr, hc, hs⟩ := hfree
  refine ⟨Nat.le_of_eq (hn.trans hnext).symm, hr.trans hrequests, ⟨w.calls, [], ?_, fun _ hk => hk,
    rfl, nofun⟩, iff_of_false (hs ▸ hstatus) id⟩
  rw [hc, hcalls]
  rfl

/-! ## The callbacks -/

theorem outcome_done2_yields (hstatus : w.status ≠ .deadFrameJump) :
    Outcome (some c) none True w (w.fastcgiRequestDone2 c .yields) := by
  have h := (outcome_coroHttpGet (w := w.emit (.closeRequest c)) (c := c) hstatus).deadFrameJump
  exact ⟨h.next, h.requests, h.calls, h.status⟩

theorem outcome_done2_completes (hstatus : w.status ≠ .deadFrameJump) :
    Outcome none (some c) False w (w.fastcgiRequestDone2 c .completes) := by
  simp only [fastcgiRequestDone2, closeRequest]
  split
  · exact outcome_freeCoroutineContext _ (some c) rfl rfl rfl hstatus
  · exact outcome_freeCoroutineContext _ (some c) rfl rfl rfl hstatus

def scriptsResult : FileExit → ScriptsResult
  | .finished => .success
  | .notCompiled => .failure
  | .yielded => .yielded
  | .bailout => .bailout
  | .handlerYielded => .deadFrame

theorem zendExecuteScriptsCoro_result (w : Worker) (c : ContextPtr) (files : List FileExit) :
    (w.zendExecuteScriptsCoro c files).2 = scriptsResult (filesExit files) := by
  -- induction on the files
  induction files generalizing w with
  | nil => rfl
  | cons file files ih =>
    cases file with
    | finished => exact ih _
    | yielded => rfl
    | bailout => rfl
    | notCompiled => rfl
    | handlerYielded => rfl

theorem outcome_zendExecuteScriptsCoro (hstatus : w.status ≠ .deadFrameJump)
    (files : List FileExit) :
    Outcome (if RequestPath.suspends (.executed files) then some c else none) none False w
      (w.zendExecuteScriptsCoro c files).1 := by
  have hresult := zendExecuteScriptsCoro_result w c files
  obtain ⟨u, op, next, serials, hrun, hres⟩ := zendExecuteScriptsCoro_spec w c files
  have hu : w.nextId ≤ u.nextId ∧ u.requests = w.requests ∧ u.calls = w.calls ∧
      u.status = w.status := by
    rw [hrun.eq]
    exact ⟨hrun.le, rfl, rfl, rfl⟩
  obtain ⟨hnext, hrequests, hcalls, hstatus'⟩ := hu
  rw [hresult] at hres
  rcases hres with ⟨hyielded, hdead, heq⟩ | ⟨hsuspends, heq, -⟩
  · have hnot : RequestPath.suspends (.executed files) = false := by
      cases hexit : filesExit files <;> simp_all [scriptsResult, RequestPath.suspends]
    rw [heq, hnot]
    exact outcome_quiet hnext hrequests (fun k hk => hcalls ▸ hk) (hstatus' ▸ hstatus)
  · have hsuspends : RequestPath.suspends (.executed files) = true := by
      cases hexit : filesExit files <;> simp_all [scriptsResult, RequestPath.suspends]
    rw [heq, hsuspends]
    exact (outcome_coroHttpGet (hstatus' ▸ hstatus)).after hnext hrequests
      (fun k hk => hcalls ▸ hk)

theorem outcome_done2 {dead : Prop} (h : Outcome none none False w w₁) (shutdown : ShutdownRun)
    (hdead : dead ↔ shutdown = .yields) :
    Outcome (if shutdown = .yields then some c else none)
      (if shutdown = .completes then some c else none) dead w
      (w₁.fastcgiRequestDone2 c shutdown) := by
  have hcalls : ∀ k ∈ w₁.calls, k ∈ w.calls := by
    obtain ⟨kept, made, heq, hkept, hmade, -⟩ := h.calls
    obtain rfl : made = [] := map_eq_nil_iff.mp hmade
    rw [heq]
    exact hkept
  have hstatus : w₁.status ≠ .deadFrameJump := h.status.mp
  cases shutdown with
  | yields =>
    exact ((outcome_done2_yields hstatus).after h.next h.requests hcalls).congr (by simp [hdead])
  | completes =>
    exact ((outcome_done2_completes hstatus).after h.next h.requests hcalls).congr
      (by simp [hdead])

/-- The start of the request that `socket_read_cb` reads. -/
def requestStart (w : Worker) (b : Bufferevent) : Worker :=
  w.startRequest b.context ⟨w.nextId, (w.contexts b.context).fd, b.id⟩

theorem socketReadCb_rejected (shutdown : ShutdownRun) : w.socketReadCb b .rejected shutdown =
    (w.requestStart b).fastcgiRequestDone2 b.context shutdown := rfl

theorem socketReadCb_executed (w : Worker) (b : Bufferevent) (files : List FileExit)
    (shutdown : ShutdownRun) :
    w.socketReadCb b (.executed files) shutdown =
      match scriptsResult (filesExit files) with
      | .yielded => ((w.requestStart b).zendExecuteScriptsCoro b.context files).1
      | .deadFrame => { ((w.requestStart b).zendExecuteScriptsCoro b.context files).1 with
          status := .deadFrameJump }
      | _ => ((w.requestStart b).zendExecuteScriptsCoro b.context files).1.fastcgiRequestDone2
          b.context shutdown := by
  rw [← zendExecuteScriptsCoro_result (w.requestStart b) b.context files]
  rfl

theorem socketReadCb_closes {files : List FileExit} (hyielded : filesExit files ≠ .yielded)
    (hhandler : filesExit files ≠ .handlerYielded) (shutdown : ShutdownRun) :
    w.socketReadCb b (.executed files) shutdown =
      ((w.requestStart b).zendExecuteScriptsCoro b.context files).1.fastcgiRequestDone2
        b.context shutdown := by
  rw [socketReadCb_executed]
  cases hexit : filesExit files <;> simp_all [scriptsResult]

theorem outcome_socketReadCb (hstatus : w.status ≠ .deadFrameJump) (path : RequestPath)
    (shutdown : ShutdownRun) :
    Outcome (if path.suspends || path.closes && shutdown = .yields then some b.context else none)
      (if path.closes && shutdown = .completes then some b.context else none)
      (w.jumpsDead (.readable b.id path shutdown) = true) w (w.socketReadCb b path shutdown) := by
  have hstart : Outcome none none False w (w.requestStart b) :=
    outcome_quiet (Nat.le_succ _) rfl (fun _ hk => hk) hstatus
  cases path with
  | startupFailed =>
    have h : Outcome none none False w (w.socketReadCb b .startupFailed shutdown) :=
      outcome_quiet (Nat.le_succ w.nextId) rfl (fun _ hk => hk) nofun
    simpa [RequestPath.suspends, RequestPath.closes, jumpsDead] using h
  | rejected =>
    have h := outcome_done2 (c := b.context) hstart shutdown Iff.rfl
    rw [socketReadCb_rejected]
    simpa [RequestPath.suspends, RequestPath.closes, jumpsDead] using h
  | executed files =>
    have hloop := (outcome_zendExecuteScriptsCoro (w := w.requestStart b) (c := b.context)
      hstart.status.mp files).after hstart.next hstart.requests fun _ hk => hk
    by_cases hyielded : filesExit files = .yielded
    · rw [socketReadCb_executed, hyielded]
      simpa [RequestPath.suspends, RequestPath.closes, jumpsDead, hyielded, scriptsResult]
        using hloop
    · by_cases hhandler : filesExit files = .handlerYielded
      · rw [socketReadCb_executed, hhandler]
        simp only [RequestPath.suspends, hhandler] at hloop
        simpa [RequestPath.suspends, RequestPath.closes, jumpsDead, hhandler, scriptsResult]
          using hloop.deadFrameJump
      · have hquiet : Outcome none none False w
            ((w.requestStart b).zendExecuteScriptsCoro b.context files).1 := by
          simpa [RequestPath.suspends, hyielded, hhandler] using hloop
        have h := outcome_done2 (c := b.context) hquiet shutdown Iff.rfl
        rw [socketReadCb_closes hyielded hhandler]
        simpa [RequestPath.suspends, RequestPath.closes, jumpsDead, hyielded, hhandler] using h

theorem outcome_eventCb (hstatus : w.status ≠ .deadFrameJump) (shutdown : ShutdownRun) :
    Outcome (if shutdown = .yields then some b.context else none)
      (if shutdown = .completes then some b.context else none) (shutdown = .yields) w
      (w.eventCb b shutdown) := by
  cases shutdown with
  | yields =>
    -- the worker before `php_request_shutdown`
    obtain ⟨w₁, hw₁⟩ : ∃ w₁, w₁ = (((w.checkoutCoroutineContext b.context).setContext b.context
      { w.contexts b.context with fd := 0 }).emit
        (.destroyOpArray (w.contexts b.context).opArray)).emit (.closeRequest b.context) := ⟨_, rfl⟩
    have hbefore : Outcome none none False w w₁ := by
      rw [hw₁]
      exact outcome_quiet (Nat.le_refl _) rfl (fun _ hk => hk) hstatus
    have hcallback : w.eventCb b .yields =
        { w₁.coroHttpGet b.context with status := .deadFrameJump } := by
      simp [hw₁, eventCb, closeRequest, setContext, checkoutCoroutineContext]
    have h : Outcome (some b.context) none False w (w₁.coroHttpGet b.context) :=
      (outcome_coroHttpGet hbefore.status.mp).after hbefore.next hbefore.requests
        (by rw [hw₁]; exact fun _ hk => hk)
    rw [hcallback]
    exact h.deadFrameJump.congr (by simp)
  | completes =>
    exact ⟨Nat.le_refl _, rfl, ⟨w.calls, [], rfl, fun _ hk => hk, rfl, by simp⟩,
      iff_of_false hstatus (by decide)⟩

theorem outcome_remoteReadCallback (hstatus : w.status ≠ .deadFrameJump) (exit : ResumeExit)
    (shutdown : ShutdownRun) :
    Outcome
      (if (w.contexts k.context).fd ≠ 0 ∧
        (exit = .yielded ∨ exit = .finished ∧ shutdown = .yields) then some k.context else none)
      (if (w.contexts k.context).fd ≠ 0 ∧ exit = .finished ∧ shutdown = .completes then
        some k.context else none)
      ((w.contexts k.context).fd ≠ 0 ∧ exit = .bailout)
      (w.received (.reply k.id exit shutdown)) (w.remoteReadCallback k exit shutdown) := by
  obtain ⟨w₁, hw₁⟩ : ∃ w₁, w₁ = (w.checkoutCoroutineContext k.context).completeCall k := ⟨_, rfl⟩
  have hcalls : ∀ k' ∈ w₁.calls, k' ∈ (w.received (.reply k.id exit shutdown)).calls := by
    rw [hw₁]
    exact fun _ hk => hk
  have hcomplete : Outcome none none False (w.received (.reply k.id exit shutdown)) w₁ := by
    refine outcome_quiet ?_ ?_ hcalls ?_ <;> rw [hw₁]
    · exact Nat.le_refl _
    · rfl
    · exact hstatus
  have hcallback : w.remoteReadCallback k exit shutdown =
      w₁.resumeCoroutineContext k exit shutdown := by
    rw [hw₁]
    rfl
  have hfd : (w₁.contexts k.context).fd = (w.contexts k.context).fd := by
    rw [hw₁]
    rfl
  have hstatus₁ : w₁.status ≠ .deadFrameJump := hcomplete.status.mp
  rw [hcallback, resumeCoroutineContext, hfd]
  by_cases hgone : (w.contexts k.context).fd = 0
  · have h := outcome_freeCoroutineContext (c := k.context) w₁ none rfl rfl rfl hstatus₁
    simpa [hgone] using h.after hcomplete.next hcomplete.requests hcalls
  · rw [if_neg hgone]
    cases exit with
    | yielded =>
      rw [if_pos ⟨hgone, .inl rfl⟩, if_neg (by simp)]
      have h := outcome_coroHttpGet (w := w₁.emit (.resume k (w₁.contexts k.context)))
        (c := k.context) hstatus₁
      exact (h.after hcomplete.next hcomplete.requests hcalls).congr (by simp)
    | bailout =>
      rw [if_neg (by simp), if_neg (by simp)]
      exact ⟨hcomplete.next, hcomplete.requests, ⟨w₁.calls, [], rfl, hcalls, rfl, nofun⟩,
        iff_of_true rfl ⟨hgone, rfl⟩⟩
    | finished =>
      cases shutdown with
      | yields =>
        rw [if_pos ⟨hgone, .inr ⟨rfl, rfl⟩⟩, if_neg (by simp)]
        have h := outcome_coroHttpGet (c := k.context)
          (w := ((w₁.emit (.resume k (w₁.contexts k.context))).emit (.destroyOpArray
            (w₁.contexts k.context).opArray)).emit (.closeRequest k.context)) hstatus₁
        exact (h.after hcomplete.next hcomplete.requests hcalls).congr (by simp)
      | completes =>
        rw [if_neg (by simp), if_pos ⟨hgone, rfl, rfl⟩]
        have h := outcome_freeCoroutineContext (w := w₁) (c := k.context)
          { ((w₁.emit (.resume k (w₁.contexts k.context))).emit
            (.destroyOpArray (w₁.contexts k.context).opArray)).emit (.closeRequest k.context) with
              requests := w₁.requests + 1 } (some k.context) rfl rfl rfl hstatus₁
        exact (h.after hcomplete.next hcomplete.requests hcalls).congr (by simp)

theorem outcome_doAccept (hstatus : w.status ≠ .deadFrameJump) (fd : Int) :
    Outcome none none False w (w.doAccept fd) := by
  unfold doAccept
  split
  · exact outcome_quiet (Nat.le_refl _) rfl (fun _ hk => hk) hstatus
  · split
    · exact outcome_quiet (Nat.le_refl _) rfl (fun _ hk => hk) nofun
    · exact outcome_quiet (Nat.le_refl _) rfl (fun _ hk => hk) nofun
    · exact outcome_quiet (Nat.le_succ _) rfl (fun _ hk => hk) hstatus

@[simp] theorem nextId_received (w : Worker) (e : WorkerEvent) :
    (w.received e).nextId = w.nextId := by
  cases e <;> rfl

theorem mem_received {e : WorkerEvent} (hk : k ∈ (w.received e).calls) : k ∈ w.calls := by
  cases e with
  | reply call exit shutdown => exact mem_of_mem_filter hk
  | _ => exact hk

/-- **What an event does** to the calls and the counters can be read off the event. -/
theorem outcome_of_step {e : WorkerEvent} (hstep : workerSystem.step w e = some w') :
    w.status = .running ∧
      Outcome (w.makesCall e) (w.shutsDown e) (w.jumpsDead e = true) (w.received e) w' := by
  have hrun : w.status = .running := by
    by_contra hne
    simp [workerSystem, step, hne] at hstep
  have hstatus : w.status ≠ .deadFrameJump := by
    rw [hrun]
    nofun
  refine ⟨hrun, ?_⟩
  simp only [workerSystem, step, if_pos hrun] at hstep
  cases e with
  | accept fd =>
    have hstep : (if w.Listening ∧ fd ≠ 0 then some (w.doAccept fd) else none) = some w' := hstep
    split at hstep
    · obtain rfl := some.inj hstep
      exact (outcome_doAccept hstatus fd).congr (by simp [jumpsDead])
    · cases hstep
  | readable bev path shutdown =>
    obtain ⟨b, hb, rfl⟩ := map_eq_some_iff.mp hstep
    simp only [makesCall, shutsDown, hb, map_some]
    exact outcome_socketReadCb hstatus path shutdown
  | clientEof bev shutdown =>
    obtain ⟨b, hb, rfl⟩ := map_eq_some_iff.mp hstep
    simp only [makesCall, shutsDown, jumpsDead, hb, map_some, decide_eq_true_eq]
    exact outcome_eventCb hstatus shutdown
  | reply call exit shutdown =>
    obtain ⟨k, hk, rfl⟩ := map_eq_some_iff.mp hstep
    have hid : k.id = call := by simpa using List.find?_some hk
    simp only [makesCall, shutsDown, jumpsDead, hk, Bool.and_eq_true, decide_eq_true_eq]
    exact hid ▸ outcome_remoteReadCallback hstatus exit shutdown

end Worker

end Phpce
