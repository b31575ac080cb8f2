import Phpce.Worker.Scoreboard

/-!
# The stage of a worker, and the requests that it works on

The master tells from the stage in the slot whether a child is idle and whether a request takes too
long. The stage is that of the hook that ran last, and the time that of the request that started
last.

* **`covered_of_run`** — while one request at a time is between its start and its end,
  `request_terminate_timeout` covers it.
* **`not_covered`** — a request that another one has outrun is never terminated.
* **`isIdle_iff`**, **`not_idleTruthful`** — between two events no worker shows as idle, so that the
  flag is right exactly while there is a request.
-/

namespace Phpce

open List Option

/-- The stage is one of those in which the master looks at the time. -/
def RequestStage.Timed (stage : RequestStage) : Prop :=
  stage = .readingHeaders ∨ stage = .info ∨ stage = .executing

namespace SlotWorker

variable {x x' : SlotWorker} {e : SlotEvent} {o : SlotOp} {idxs : List Nat} {maxRequests : Nat}
  {es : List SlotEvent}

/-! ## `request_terminate_timeout` -/

/-- The property: at its next check, the master finds out about each request that has not been
closed, when it was accepted `t` seconds ago. -/
def Covered (x : SlotWorker) : Prop :=
  ∀ t now, 0 < t → x.clock ≤ now → (∃ r ∈ x.live, r.accepted + t * 1000000 ≤ now) →
    x.proc.fpmRequestCheckTimedOut now t = true

/-- The condition on what a callback does: a request starts while there is no other, and ends while
there is no other; and no connection is closed under a request. -/
def OneRequest (x : SlotWorker) : SlotOp → Prop
  | .accepting | .readingHeaders _ _ | .finished => x.live = []
  | .closeRequest c | .abandon c => ∀ r ∈ x.live, some r = x.requestOf c
  | .connect _ | .info _ | .executing => True

instance (x : SlotWorker) : DecidablePred x.OneRequest
  | .accepting | .readingHeaders _ _ | .finished => inferInstanceAs (Decidable (x.live = []))
  | .closeRequest c | .abandon c =>
      inferInstanceAs (Decidable (∀ r ∈ x.live, some r = x.requestOf c))
  | .connect _ | .info _ | .executing => inferInstanceAs (Decidable True)

structure SlotOfRequest (x : SlotWorker) : Prop where
  stage : ∀ r ∈ x.live, x.proc.requestStage.Timed
  accepted : ∀ r ∈ x.live, x.proc.accepted = r.accepted

theorem slotOfRequest_of_live (h : x.live = []) : x.SlotOfRequest := by
  have hnone : ∀ r, r ∉ x.live := by simp [h]
  exact ⟨fun r hr => absurd hr (hnone r), fun r hr => absurd hr (hnone r)⟩

theorem SlotOfRequest.covered (h : x.SlotOfRequest) : x.Covered := by
  intro t now ht _ hlate
  obtain ⟨r, hr, hdue⟩ := hlate
  have hsecs : t ≤ (now - x.proc.accepted) / 1000000 := by
    rw [h.accepted r hr, Nat.le_div_iff_mul_le (by decide)]
    omega
  have hne : t ≠ 0 := by omega
  rcases h.stage r hr with hstage | hstage | hstage <;>
    simp [ScoreboardProc.fpmRequestCheckTimedOut, hstage, RequestStage.toNat, hne, hsecs]

theorem without_eq_nil {c : ContextPtr} (h : ∀ r ∈ x.live, some r = x.requestOf c) :
    x.without c = [] := by
  simpa [without] using h

theorem SlotOfRequest.op (h : x.SlotOfRequest) (hone : x.OneRequest o) :
    (x.op o).SlotOfRequest := by
  cases o with
  | connect c => exact ⟨h.stage, h.accepted⟩
  | accepting => exact slotOfRequest_of_live hone
  | readingHeaders c info =>
    have hlive : x.live = [] := hone
    constructor
    · intro r _
      exact .inl rfl
    · intro r hr
      have hr : r = ⟨x.nextRequest, x.clock, info⟩ := by simpa [SlotWorker.op, hlive] using hr
      rw [hr]
      rfl
  | info info => exact ⟨fun _ _ => .inr (.inl rfl), h.accepted⟩
  | executing => exact ⟨fun _ _ => .inr (.inr rfl), h.accepted⟩
  | closeRequest c => exact slotOfRequest_of_live (without_eq_nil hone)
  | finished => exact slotOfRequest_of_live hone
  | abandon c => exact slotOfRequest_of_live (without_eq_nil hone)

theorem SlotOfRequest.step (h : x.SlotOfRequest) (hguard : OpGuard OneRequest x e)
    (hstep : slotSystem.step x e = some x') : x'.SlotOfRequest := by
  rcases step_cases hstep with ⟨o, script, rfl, ho, rfl⟩ | ⟨worker, clock, script, -, -, rfl⟩
  · have hop := h.op (hguard o ho)
    exact ⟨hop.stage, hop.accepted⟩
  · exact ⟨h.stage, h.accepted⟩

/-- **While one request at a time is between its start and its end**, the master terminates a child
whose request takes too long. -/
theorem covered_of_run
    (hrun : slotSystem.Run (OpGuard OneRequest) (start idxs maxRequests) es x) : x.Covered := by
  have hslot : x.SlotOfRequest := by
    apply hrun.invariant (fun _ _ _ h hguard hstep => h.step hguard hstep)
    exact slotOfRequest_of_live rfl
  exact hslot.covered

/-- A request that is suspended, and has been there for five seconds. -/
theorem covered_of_run_suspended : ∃ x,
    slotSystem.Run (OpGuard OneRequest) (start [0] 0)
      [.callback (.accept 3) (getRequest "/"), .next,
        .callback (.readable 0 (.executed [.yielded]) .completes) (getRequest "/"),
        .next, .next, .next, .next, .skip, .elapse 5000000] x ∧
    x.live = [⟨0, 0, getRequest "/"⟩] ∧ x.proc.fpmRequestCheckTimedOut 5000000 5 = true := by
  have hexec : (slotSystem.execWhile (OpGuard OneRequest) (start [0] 0)
      [.callback (.accept 3) (getRequest "/"), .next,
        .callback (.readable 0 (.executed [.yielded]) .completes) (getRequest "/"),
        .next, .next, .next, .next, .skip, .elapse 5000000]).map (fun x => (x.live, x.clock)) =
      some ([⟨0, 0, getRequest "/"⟩], 5000000) := by decide
  obtain ⟨x, hexec, hx⟩ := map_eq_some_iff.mp hexec
  obtain ⟨hlive, hclock⟩ := Prod.mk.inj hx
  have hrun := EventSystem.run_of_execWhile hexec
  have hdue : ∃ r ∈ x.live, r.accepted + 5 * 1000000 ≤ 5000000 := by
    rw [hlive]
    exact ⟨_, mem_singleton.mpr rfl, by decide⟩
  exact ⟨x, hrun, hlive,
    covered_of_run hrun 5 5000000 (by decide) (Nat.le_of_eq hclock) hdue⟩

/-- **A request that another one has outrun** is never terminated: the stage is that of the one
which has ended. -/
theorem not_covered : ¬∀ (idxs : List Nat) (maxRequests : Nat) (es : List SlotEvent)
    (x : SlotWorker), slotSystem.FreeRun (start idxs maxRequests) es x → x.Covered := by
  intro h
  have hrun := EventSystem.run_of_exec (rfl : slotSystem.exec (start [0, 1] 0)
    [.callback (.accept 3) (getRequest "/"), .next,
      .callback (.readable 0 (.executed [.yielded]) .completes) (getRequest "/"),
      .next, .next, .next, .next, .skip,
      .callback (.accept 4) (getRequest "/"), .next,
      .callback (.readable 5 (.executed [.finished]) .completes) (getRequest "/ping"),
      .next, .next, .next, .next, .skip, .next, .skip] = some _)
  have hcheck := h _ _ _ _ hrun 5 5000000 (by decide) (by decide)
    ⟨⟨0, 0, getRequest "/"⟩, by decide, by decide⟩
  exact absurd hcheck (by decide)

/-! ## The idle flag -/

/-- The property of a state: the flag tells whether the worker has no request. -/
def IdleTruth (x : SlotWorker) : Prop := x.proc.fpmRequestIsIdle = true ↔ x.live = []

/-- The property of a run: the flag tells the truth between any two events, from the worker's first
one on. -/
def IdleTruthful (s : SlotWorker) (es : List SlotEvent) : Prop :=
  ∀ pre suf y, es = pre ++ suf → (∃ e info, .callback e info ∈ pre) →
    slotSystem.FreeRun s pre y → y.script = [] → y.IdleTruth

/-- None of the stages is `fpm_request_accepting`. -/
def Plain (script : List SlotStage) : Prop := ∀ stage ∈ script, stage.slotOp ≠ .accepting

theorem plain_nil : Plain [] := fun _ hstage => absurd hstage not_mem_nil

theorem Plain.tail {stage : SlotStage} {script : List SlotStage} (h : Plain (stage :: script)) :
    Plain script := fun stage' hmem => h stage' (mem_cons_of_mem _ hmem)

theorem plain_closeStages (c : ContextPtr) : Plain (closeStages c) := by
  intro stage hstage
  simp only [closeStages, mem_cons, not_mem_nil, or_false] at hstage
  rcases hstage with rfl | rfl <;> simp [SlotStage.slotOp]

theorem plain_slotStages_path (path : RequestPath) (c : ContextPtr) :
    Plain (path.slotStages c) := by
  intro stage hstage
  rcases mem_append.mp hstage with hfirst | hclose
  · cases path with
    | startupFailed =>
      rw [mem_singleton.mp hfirst]
      simp [SlotStage.slotOp]
    | rejected =>
      rw [mem_singleton.mp hfirst]
      simp [SlotStage.slotOp]
    | executed files =>
      simp only [mem_cons, not_mem_nil, or_false] at hfirst
      rcases hfirst with rfl | rfl <;> simp [SlotStage.slotOp]
  · split at hclose
    · exact plain_closeStages c stage hclose
    · exact absurd hclose not_mem_nil

/-- A callback that sets the stage to `accepting` sets it again at once. -/
inductive ReadsHeaders (x : SlotWorker) : Prop where
  | starts (c : ContextPtr) (info : Sapi.RequestInfo) (rest : List SlotStage)
      (hscript : x.script = .op .accepting :: .op (.readingHeaders c info) :: rest)
      (hplain : Plain rest)
  | goesOn (hplain : Plain x.script)
      (hstage : x.proc.requestStage = .accepting →
        ∃ c info rest, x.script = .op (.readingHeaders c info) :: rest)

theorem ReadsHeaders.stage_ne (h : x.ReadsHeaders) (hscript : x.script = []) :
    x.proc.requestStage ≠ .accepting := by
  intro haccepting
  cases h with
  | starts c info rest hstarts _ => simp [hscript] at hstarts
  | goesOn _ hstage =>
    obtain ⟨c, info, rest, hrest⟩ := hstage haccepting
    simp [hscript] at hrest

theorem slotStages_cases (w : Worker) (info : Sapi.RequestInfo) (e : WorkerEvent) :
    (∃ c rest, w.slotStages info e = .op .accepting :: .op (.readingHeaders c info) :: rest ∧
      Plain rest) ∨ Plain (w.slotStages info e) := by
  cases e with
  | accept fd =>
    right
    simp only [Worker.slotStages]
    split
    · exact plain_nil
    · split
      · intro stage hstage
        rw [mem_singleton.mp hstage]
        simp [SlotStage.slotOp]
      · exact plain_nil
  | readable bev path shutdown =>
    simp only [Worker.slotStages]
    split
    · rename_i b hb
      left
      refine ⟨b.context, _, rfl, fun stage hstage => ?_⟩
      rcases mem_cons.mp hstage with rfl | hpath
      · simp [SlotStage.slotOp]
      · exact plain_slotStages_path path b.context stage hpath
    · exact .inr plain_nil
  | clientEof bev shutdown =>
    right
    simp only [Worker.slotStages]
    split
    · exact plain_closeStages _
    · exact plain_nil
  | reply call exit shutdown =>
    right
    simp only [Worker.slotStages]
    split
    · split
      · exact plain_nil
      · intro stage hstage
        simp only [mem_cons] at hstage
        rcases hstage with rfl | rfl | rfl | hclose
        · simp [SlotStage.slotOp]
        · simp [SlotStage.slotOp]
        · simp [SlotStage.slotOp]
        · split at hclose
          · exact plain_closeStages _ stage hclose
          · exact absurd hclose not_mem_nil
    · exact plain_nil

theorem requestStage_op (hne : o ≠ .accepting)
    (haccepting : (x.op o).proc.requestStage = .accepting) :
    x.proc.requestStage = .accepting ∧ ∃ c, o = .connect c := by
  cases o with
  | connect c => exact ⟨haccepting, c, rfl⟩
  | accepting => exact absurd rfl hne
  | readingHeaders _ _ | info _ | executing | closeRequest _ | finished | abandon _ =>
    cases haccepting

theorem ReadsHeaders.next {stage : SlotStage} {script : List SlotStage} (h : x.ReadsHeaders)
    (hscript : x.script = stage :: script) :
    ReadsHeaders { x.op stage.slotOp with script := script } := by
  cases h with
  | starts c info rest hstarts hplain =>
    obtain ⟨rfl, rfl⟩ := List.cons.inj (hscript.symm.trans hstarts)
    apply ReadsHeaders.goesOn
    · intro stage hstage
      rcases mem_cons.mp hstage with rfl | hrest
      · simp [SlotStage.slotOp]
      · exact hplain stage hrest
    · exact fun _ => ⟨c, info, rest, rfl⟩
  | goesOn hplain hstage =>
    rw [hscript] at hplain hstage
    apply ReadsHeaders.goesOn
    · exact hplain.tail
    · intro haccepting
      have hne : stage.slotOp ≠ .accepting := hplain stage mem_cons_self
      obtain ⟨hbefore, c, hconnect⟩ := requestStage_op hne haccepting
      -- the stage is `accepting` before the start of a request only
      obtain ⟨c', info, rest, hhead⟩ := hstage hbefore
      rw [(List.cons.inj hhead).1] at hconnect
      cases hconnect

theorem ReadsHeaders.step (h : x.ReadsHeaders) (hstep : slotSystem.step x e = some x') :
    x'.ReadsHeaders := by
  cases e with
  | callback e info =>
    simp only [slotSystem, SlotWorker.step] at hstep
    split at hstep
    · rename_i hscript
      obtain ⟨worker, -, rfl⟩ := map_eq_some_iff.mp hstep
      rcases slotStages_cases x.worker info e with ⟨c, rest, hstarts, hplain⟩ | hplain
      · exact .starts c info rest hstarts hplain
      · exact .goesOn hplain fun haccepting => absurd haccepting (h.stage_ne hscript)
    · cases hstep
  | next =>
    simp only [slotSystem, SlotWorker.step] at hstep
    split at hstep
    · rename_i stage script hscript
      obtain rfl := some.inj hstep
      exact h.next hscript
    · cases hstep
  | skip =>
    simp only [slotSystem, SlotWorker.step] at hstep
    split at hstep
    · rename_i o script hscript
      obtain rfl := some.inj hstep
      cases h with
      | starts c info rest hstarts _ =>
        cases hscript.symm.trans hstarts
      | goesOn hplain hstage =>
        rw [hscript] at hplain hstage
        apply ReadsHeaders.goesOn
        · exact hplain.tail
        · intro haccepting
          obtain ⟨c, info, rest, hhead⟩ := hstage haccepting
          cases hhead
    · cases hstep
  | elapse n =>
    obtain rfl := some.inj hstep
    cases h with
    | starts c info rest hstarts hplain => exact .starts c info rest hstarts hplain
    | goesOn hplain hstage => exact .goesOn hplain hstage

theorem isIdle_eq_false (hrun : slotSystem.FreeRun (start idxs maxRequests) es x)
    (hscript : x.script = []) : x.proc.fpmRequestIsIdle = false := by
  have hreads : x.ReadsHeaders := by
    apply hrun.invariant (fun _ _ _ h _ hstep => h.step hstep)
    exact .goesOn plain_nil (fun h => by cases h)
  simpa [ScoreboardProc.fpmRequestIsIdle] using hreads.stage_ne hscript

theorem idleTruth_iff (hrun : slotSystem.FreeRun (start idxs maxRequests) es x)
    (hscript : x.script = []) : x.IdleTruth ↔ x.live ≠ [] := by
  simp [IdleTruth, isIdle_eq_false hrun hscript]

/-! The worker's first event accepts a connection, and there is no request behind it. -/

/-- Nothing is left to do but to give a context a connection. -/
structure Connecting (x : SlotWorker) : Prop where
  live : x.live = []
  script : ∀ stage ∈ x.script, ∃ c, stage = .op (.connect c)

structure Fresh (x : SlotWorker) : Prop where
  live : x.live = []
  script : x.script = []
  bevs : x.worker.bevs = []
  calls : x.worker.calls = []

theorem Connecting.step (h : x.Connecting) (hscript : x.script ≠ [])
    (hstep : slotSystem.step x e = some x') : x'.Connecting := by
  cases e with
  | callback e info =>
    simp [slotSystem, SlotWorker.step, hscript] at hstep
  | next =>
    simp only [slotSystem, SlotWorker.step] at hstep
    split at hstep
    · rename_i stage script hcons
      obtain rfl := some.inj hstep
      obtain ⟨c, rfl⟩ := h.script stage (by simp [hcons])
      exact ⟨h.live, fun stage hmem => h.script stage (by simp [hcons, hmem])⟩
    · cases hstep
  | skip =>
    simp only [slotSystem, SlotWorker.step] at hstep
    split at hstep
    · rename_i o script hcons
      obtain ⟨c, hc⟩ := h.script (.may o) (by simp [hcons])
      cases hc
    · cases hstep
  | elapse n =>
    obtain rfl := some.inj hstep
    exact ⟨h.live, h.script⟩

theorem Connecting.ends (hrun : slotSystem.FreeRun x es x') (h : x.Connecting)
    (hend : x'.script = []) : ∃ pre suf y, es = pre ++ suf ∧ slotSystem.FreeRun x pre y ∧
      y.script = [] ∧ y.live = [] := by
  -- induction on the run, up to the first state without a callback
  induction hrun with
  | nil x => exact ⟨[], [], x, rfl, .nil x, hend, h.live⟩
  | @cons x mid _ e es hguard hstep _ ih =>
    by_cases hscript : x.script = []
    · exact ⟨[], e :: es, x, rfl, .nil x, hscript, h.live⟩
    · obtain ⟨pre, suf, y, rfl, hpre, hy⟩ := ih (h.step hscript hstep) hend
      exact ⟨e :: pre, suf, y, rfl, .cons hguard hstep hpre, hy⟩

theorem Fresh.callback {e : WorkerEvent} {info : Sapi.RequestInfo} (h : x.Fresh)
    (hstep : slotSystem.step x (.callback e info) = some x') : x'.Connecting := by
  simp only [slotSystem, SlotWorker.step, h.script, if_true] at hstep
  obtain ⟨worker, hworker, rfl⟩ := map_eq_some_iff.mp hstep
  refine ⟨h.live, fun stage hstage => ?_⟩
  cases e with
  | accept fd =>
    simp only [Worker.slotStages] at hstage
    split at hstage
    · exact absurd hstage not_mem_nil
    · split at hstage
      · exact ⟨_, mem_singleton.mp hstage⟩
      · exact absurd hstage not_mem_nil
  | readable bev path shutdown => simp [Worker.slotStages, h.bevs] at hstage
  | clientEof bev shutdown => simp [Worker.slotStages, h.bevs] at hstage
  | reply call exit shutdown => simp [Worker.slotStages, h.calls] at hstage

theorem Fresh.reaches (hrun : slotSystem.FreeRun x es x') (h : x.Fresh)
    (hfirst : ∃ e info, .callback e info ∈ es) (hend : x'.script = []) :
    ∃ pre suf y, es = pre ++ suf ∧ (∃ e info, .callback e info ∈ pre) ∧
      slotSystem.FreeRun x pre y ∧ y.script = [] ∧ y.live = [] := by
  -- induction on the run, up to the first callback
  induction hrun with
  | nil x =>
    obtain ⟨e, info, hmem⟩ := hfirst
    exact absurd hmem not_mem_nil
  | @cons x mid _ e es hguard hstep hrest ih =>
    cases e with
    | callback e info =>
      obtain ⟨pre, suf, y, rfl, hpre, hy⟩ := (h.callback hstep).ends hrest hend
      exact ⟨.callback e info :: pre, suf, y, rfl, ⟨e, info, mem_cons_self⟩,
        .cons hguard hstep hpre, hy⟩
    | next => simp [slotSystem, SlotWorker.step, h.script] at hstep
    | skip => simp [slotSystem, SlotWorker.step, h.script] at hstep
    | elapse n =>
      obtain rfl := some.inj hstep
      have hlater : ∃ e info, .callback e info ∈ es := by
        obtain ⟨e, info, hmem⟩ := hfirst
        exact ⟨e, info, by simpa using hmem⟩
      obtain ⟨pre, suf, y, rfl, ⟨e, info, hmem⟩, hpre, hy⟩ :=
        ih ⟨h.live, h.script, h.bevs, h.calls⟩ hlater hend
      exact ⟨.elapse n :: pre, suf, y, rfl, ⟨e, info, mem_cons_of_mem _ hmem⟩,
        .cons hguard hstep hpre, hy⟩

/-- **The idle flag never tells the truth** for the whole of a run: behind the worker's first event
there is no request, and the worker does not show as idle. -/
theorem not_idleTruthful (hrun : slotSystem.FreeRun (start idxs maxRequests) es x)
    (hfirst : ∃ e info, .callback e info ∈ es) (hend : x.script = []) :
    ¬IdleTruthful (start idxs maxRequests) es := by
  intro htruth
  have hfresh : Fresh (start idxs maxRequests) := ⟨rfl, rfl, rfl, rfl⟩
  obtain ⟨pre, suf, y, heq, hcallback, hpre, hscript, hlive⟩ := hfresh.reaches hrun hfirst hend
  have hy := htruth pre suf y heq hcallback hpre hscript
  exact (idleTruth_iff hpre hscript).mp hy hlive

/-- A worker that has accepted a connection. -/
theorem not_idleTruthful_accept :
    ¬IdleTruthful (start [0] 0) [.callback (.accept 3) (getRequest "/"), .next] :=
  not_idleTruthful (EventSystem.run_of_exec (rfl : slotSystem.exec (start [0] 0)
      [.callback (.accept 3) (getRequest "/"), .next] = some _))
    ⟨_, _, mem_cons_self⟩ rfl

/-- **A worker that has served its request** and waits for the next one does not show as idle. -/
theorem not_idleTruth : ¬∀ (idxs : List Nat) (maxRequests : Nat) (es : List SlotEvent)
    (x : SlotWorker), slotSystem.FreeRun (start idxs maxRequests) es x →
      IdleTruthful (start idxs maxRequests) es := by
  intro h
  have hrun := EventSystem.run_of_exec (rfl : slotSystem.exec (start [0] 0)
    [.callback (.accept 3) (getRequest "/"), .next,
      .callback (.readable 0 (.executed [.finished]) .completes) (getRequest "/"),
      .next, .next, .next, .next, .skip, .next, .skip] = some _)
  have htruth := h _ _ _ _ hrun _ [] _ (append_nil _).symm ⟨_, _, mem_cons_self⟩ hrun rfl
  exact absurd (htruth.mpr rfl) (by decide)

end SlotWorker

end Phpce
