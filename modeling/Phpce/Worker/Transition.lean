import Phpce.Worker.Invariant

/-!
# What an event does to an undisturbed worker

`Transition` lists, once, everything an undisturbed event can do to the life of a context: which
stage it finds the context in, which one it leaves, what it does to the pool, and what it adds to
the trace. Each invariant of a run is then a case analysis over it.

* **`step_transition`** — every undisturbed event is one of the transitions.
* **`Inv.step`**, **`inv_of_run`** — the invariant of `Invariant.lean` is kept by one event, and
  so holds after every undisturbed run.
-/

namespace Phpce

namespace Worker

open List

variable {w w' w₁ w₂ : Worker} {c : ContextPtr} {b : Bufferevent} {k : RemoteCall}
  {S S' : PoolSpec} {n : Nat}

/-! ## Touching one context -/

/-- The effects of destroying the op arrays with the numbers `serials`, latest first. -/
def destroys (c : ContextPtr) (serials : List Nat) : List Effect :=
  serials.map fun s => .destroyOpArray (some ⟨c, s⟩)

/-- `w'` differs from `w` in the view of `c`, in the pool and in the counters, and its trace is
longer by `delta`. -/
structure Touched (c : ContextPtr) (delta : List Effect) (w w' : Worker) : Prop where
  elsewhere : SameElsewhere c w w'
  ids : w'.Ids
  next : w.nextId ≤ w'.nextId
  trace : w'.trace = delta ++ w.trace

theorem Touched.trans {delta delta' : List Effect} (h : Touched c delta w w₁)
    (h' : Touched c delta' w₁ w₂) : Touched c (delta' ++ delta) w w₂ where
  elsewhere := h.elsewhere.trans h'.elsewhere
  ids := h'.ids
  next := Nat.le_trans h.next h'.next
  trace := by rw [h'.trace, h.trace, append_assoc]

theorem Touched.withStatus {delta : List Effect} (h : Touched c delta w w₁)
    (status : WorkerStatus) : Touched c delta w { w₁ with status := status } :=
  ⟨h.elsewhere, ⟨h.ids.bevs, h.ids.bevsLt, h.ids.calls, h.ids.callsLt⟩, h.next, h.trace⟩

theorem touched_emit (hids : w.Ids) (e : Effect) : Touched c [e] w (w.emit e) :=
  ⟨fun _ _ => rfl, ⟨hids.bevs, hids.bevsLt, hids.calls, hids.callsLt⟩, Nat.le_refl _, rfl⟩

theorem touched_startRequest (hids : w.Ids) (request : FcgiRequest) :
    Touched c [.requestStartup c] w (w.startRequest c request) where
  elsewhere := sameElsewhere_setContext _
  ids := hids.of_sublist (List.Sublist.refl _) (List.Sublist.refl _) (Nat.le_succ _)
  next := Nat.le_succ _
  trace := rfl

theorem touched_coroHttpGet (hids : w.Ids) : Touched c [] w (w.coroHttpGet c) :=
  ⟨sameElsewhere_coroHttpGet, hids.coroHttpGet, by simp [coroHttpGet], rfl⟩

theorem FilesRun.touched {op : Option OpArray} {next : Nat} {serials : List Nat}
    (h : FilesRun c w w₁ op next serials) (hids : w.Ids) :
    Touched c (destroys c serials) w w₁ where
  elsewhere := h.sameElsewhere
  ids := h.ids hids
  next := by
    rw [h.eq]
    exact h.le
  trace := by
    rw [h.eq]
    rfl

/-! ## The releasing steps -/

theorem freeCoroutineContext_attached (hids : w.Ids) (hatt : (w.view c).Attached b) :
    Touched c [.buffereventFree (some b.id), .freeContext c] w (w.freeCoroutineContext c) ∧
      (w.freeCoroutineContext c).view c = { w.view c with bevs := [] } ∧
      (w.freeCoroutineContext c).pool = w.pool.freeCoroutineContext c ∧
      (w.freeCoroutineContext c).status = w.status ∧
      (w.freeCoroutineContext c).bevs.Sublist w.bevs := by
  obtain ⟨hbevs, hbev, hfd⟩ := hatt
  -- the pool's part leaves the views alone
  set w₁ : Worker := { w with
    pool := w.pool.freeCoroutineContext c
    trace := .freeContext c :: w.trace } with hw₁
  have heq : w.freeCoroutineContext c = w₁.buffereventFree (some b.id) := by
    have hbev' : (w.contexts c).bev = some b.id := hbev
    have hfd' : (w.contexts c).fd ≠ 0 := hfd
    simp only [freeCoroutineContext]
    rw [if_pos hfd', hbev']
  have hids₁ : w₁.Ids := ⟨hids.bevs, hids.bevsLt, hids.calls, hids.callsLt⟩
  have hbevs₁ : w₁.bevsOf c = [b] := hbevs
  rw [heq]
  refine ⟨⟨sameElsewhere_buffereventFree hids₁.bevs hbevs₁, hids₁.buffereventFree _,
    Nat.le_refl _, rfl⟩, ?_, rfl, rfl, filter_sublist⟩
  exact view_buffereventFree_self hbevs₁

theorem freeCoroutineContext_gone (hids : w.Ids) (hfd : (w.contexts c).fd = 0) :
    Touched c [.freeContext c] w (w.freeCoroutineContext c) ∧
      (w.freeCoroutineContext c).view c = w.view c ∧
      (w.freeCoroutineContext c).pool = w.pool.freeCoroutineContext c ∧
      (w.freeCoroutineContext c).status = w.status ∧
      (w.freeCoroutineContext c).bevs = w.bevs := by
  unfold freeCoroutineContext
  rw [if_neg (by simpa using hfd)]
  exact ⟨⟨fun _ _ => rfl, ⟨hids.bevs, hids.bevsLt, hids.calls, hids.callsLt⟩, Nat.le_refl _,
    rfl⟩, rfl, rfl, rfl, rfl⟩

theorem fastcgiRequestDone2_completes (hids : w.Ids) (hatt : (w.view c).Attached b) :
    ∃ exits : List Effect, (∀ e ∈ exits, e = .loopexit) ∧
      Touched c (.buffereventFree (some b.id) :: .freeContext c :: exits ++ [.closeRequest c]) w
        (w.fastcgiRequestDone2 c .completes) ∧
      (w.fastcgiRequestDone2 c .completes).view c = { w.view c with bevs := [] } ∧
      (w.fastcgiRequestDone2 c .completes).pool = w.pool.freeCoroutineContext c ∧
      (w.fastcgiRequestDone2 c .completes).status = w.status ∧
      (w.fastcgiRequestDone2 c .completes).bevs.Sublist w.bevs := by
  set w₁ : Worker := { w.emit (.closeRequest c) with requests := w.requests + 1 } with hw₁
  have hids₁ : w₁.Ids := ⟨hids.bevs, hids.bevsLt, hids.calls, hids.callsLt⟩
  have htouched₁ : Touched c [.closeRequest c] w w₁ :=
    ⟨fun _ _ => rfl, hids₁, Nat.le_refl _, rfl⟩
  have hatt₁ : (w₁.view c).Attached b := hatt
  by_cases hmax : w.maxRequests ≠ 0 ∧ w.requests + 1 = w.maxRequests
  · -- the limit: `event_base_loopexit` is called before the context is given back
    have heq : w.fastcgiRequestDone2 c .completes =
        (w₁.emit .loopexit).freeCoroutineContext c := by
      simp [fastcgiRequestDone2, closeRequest, hw₁, emit, hmax.1, hmax.2]
    have hloop : Touched c [.loopexit, .closeRequest c] w (w₁.emit .loopexit) :=
      htouched₁.trans (touched_emit hids₁ _)
    obtain ⟨hfree, hview, hpool, hstatus, hsub⟩ := freeCoroutineContext_attached hloop.ids hatt₁
    rw [heq]
    exact ⟨[.loopexit], by simp, hloop.trans hfree, hview, hpool, hstatus, hsub⟩
  · have heq : w.fastcgiRequestDone2 c .completes = w₁.freeCoroutineContext c := by
      have hmax' : w.maxRequests = 0 ∨ w.requests + 1 ≠ w.maxRequests := by tauto
      rcases hmax' with hmax' | hmax' <;>
        simp [fastcgiRequestDone2, closeRequest, hw₁, emit, hmax']
    obtain ⟨hfree, hview, hpool, hstatus, hsub⟩ := freeCoroutineContext_attached hids₁ hatt₁
    rw [heq]
    exact ⟨[], by simp, htouched₁.trans hfree, hview, hpool, hstatus, hsub⟩

/-! ## The transitions -/

/-- The transitions of a worker whose pool represents `S`. -/
inductive Transition (w : Worker) (S : PoolSpec) (n : Nat) :
    WorkerEvent → Worker → PoolSpec → Prop where
  -- `accept` fails
  | ignored {fd : Int} : Transition w S n (.accept fd) w S
  -- `use_coroutine_context` returns a null pointer
  | starved {fd : Int} {w' : Worker} (hpool : Refines w'.pool S n)
      (hview : ∀ c, w'.view c = w.view c) (hids : w'.Ids) (htrace : w'.trace = w.trace)
      (hbevs : w'.bevs = w.bevs) (hnext : w'.nextId = w.nextId)
      (hstatus : w'.status ≠ .running) : Transition w S n (.accept fd) w' S
  -- A client is connected to the first free context
  | accepted {fd : Int} {w' : Worker} {c : ContextPtr} {b : Bufferevent}
      (hpool : Refines w'.pool S.use n) (hc : S.free.head? = some c)
      (htouched : Touched c [.useContext c] w w') (hstatus : w'.status = .running)
      (hbevs : w'.bevs = b :: w.bevs) (hopen : b.fdOpen) (hatt : (w'.view c).Attached b)
      (hcalls : (w'.view c).calls = []) : Transition w S n (.accept fd) w' S.use
  -- A request runs to its end and its context is given back
  | served {b : Bufferevent} {path : RequestPath} {w' : Worker} {serials : List Nat}
      {exits : List Effect} (hb : b ∈ w.bevs) (hpool : Refines w'.pool (S.release b.context) n)
      (hserials : serials.Nodup) (hfresh : ∀ s ∈ serials, w.nextId ≤ s ∧ s < w'.nextId)
      (hexits : ∀ e ∈ exits, e = .loopexit)
      (htouched : Touched b.context (.buffereventFree (some b.id) :: .freeContext b.context ::
        exits ++ .closeRequest b.context :: destroys b.context serials ++
          [.requestStartup b.context]) w w')
      (hstatus : w'.status = .running) (hsub : w'.bevs.Sublist w.bevs)
      (hvacant : (w'.view b.context).Vacant) :
      Transition w S n (.readable b.id path .completes) w' (S.release b.context)
  -- A request is suspended, in a file or (with a jump to a dead frame) after one
  | suspended {b : Bufferevent} {path : RequestPath} {shutdown : ShutdownRun} {w' : Worker}
      {serials : List Nat} {s : Nat} (hb : b ∈ w.bevs) (hpool : Refines w'.pool S n)
      (hserials : serials.Nodup) (hfresh : ∀ s ∈ serials, w.nextId ≤ s ∧ s < w'.nextId)
      (htouched : Touched b.context
        (destroys b.context serials ++ [.requestStartup b.context]) w w')
      (hbevs : w'.bevs = w.bevs) (hsusp : (w'.view b.context).Suspended)
      (hop : (w'.contexts b.context).opArray = some ⟨b.context, s⟩) (hs : s ∉ serials)
      (hlo : w.nextId ≤ s) (hhi : s < w'.nextId) :
      Transition w S n (.readable b.id path shutdown) w' S
  -- Code run while a request is closed suspends, with no live frame to go to
  | closingLost {b : Bufferevent} {path : RequestPath} {w' : Worker} {serials : List Nat}
      (hb : b ∈ w.bevs) (hpool : Refines w'.pool S n) (hserials : serials.Nodup)
      (hfresh : ∀ s ∈ serials, w.nextId ≤ s ∧ s < w'.nextId)
      (htouched : Touched b.context (.closeRequest b.context :: destroys b.context serials ++
        [.requestStartup b.context]) w w')
      (hstatus : w'.status ≠ .running) (hbevs : w'.bevs = w.bevs)
      (hsusp : (w'.view b.context).Suspended) :
      Transition w S n (.readable b.id path .yields) w' S
  -- `php_request_startup` fails
  | startupFailed {b : Bufferevent} {shutdown : ShutdownRun} {w' : Worker} (hb : b ∈ w.bevs)
      (hpool : Refines w'.pool S n) (htouched : Touched b.context [.requestStartup b.context] w w')
      (hstatus : w'.status ≠ .running) (hconn : (w'.view b.context).Connected) :
      Transition w S n (.readable b.id .startupFailed shutdown) w' S
  -- A client leaves
  | clientLeft {b : Bufferevent} {w' : Worker} (hb : b ∈ w.bevs) (hpool : Refines w'.pool S n)
      (htouched : Touched b.context [.buffereventFree (some b.id), .closeRequest b.context,
        .destroyOpArray (w.contexts b.context).opArray] w w')
      (hstatus : w'.status = .running) (hsub : w'.bevs.Sublist w.bevs)
      (hbevs : (w'.view b.context).bevs = [])
      (hctx : w'.contexts b.context = { w.contexts b.context with fd := 0 })
      (hcalls : (w'.view b.context).calls = (w.view b.context).calls) :
      Transition w S n (.clientEof b.id .completes) w' S
  -- A late reply gives back the context of a client that has left
  | late {k : RemoteCall} {exit : ResumeExit} {shutdown : ShutdownRun} {w' : Worker}
      (hk : k ∈ w.calls) (hbefore : (w.view k.context).bevs = [])
      (hpool : Refines w'.pool (S.release k.context) n)
      (htouched : Touched k.context [.freeContext k.context] w w')
      (hstatus : w'.status = .running) (hsub : w'.bevs.Sublist w.bevs)
      (hvacant : (w'.view k.context).Vacant) :
      Transition w S n (.reply k.id exit shutdown) w' (S.release k.context)
  -- A resumed request suspends again
  | again {k : RemoteCall} {shutdown : ShutdownRun} {w' : Worker} (hk : k ∈ w.calls)
      (hbefore : (w.view k.context).Suspended) (hpool : Refines w'.pool S n)
      (htouched : Touched k.context [.resume k (w.contexts k.context)] w w')
      (hstatus : w'.status = .running) (hbevs : w'.bevs = w.bevs)
      (hsusp : (w'.view k.context).Suspended)
      (hop : (w'.contexts k.context).opArray = (w.contexts k.context).opArray) :
      Transition w S n (.reply k.id .yielded shutdown) w' S
  -- A resumed request bails out, with no live frame to go to
  | bailout {k : RemoteCall} {shutdown : ShutdownRun} {w' : Worker} (hk : k ∈ w.calls)
      (hbefore : (w.view k.context).Suspended) (hpool : Refines w'.pool S n)
      (htouched : Touched k.context [.resume k (w.contexts k.context)] w w')
      (hstatus : w'.status ≠ .running) (hbevs : w'.bevs = w.bevs)
      (hconn : (w'.view k.context).Connected) :
      Transition w S n (.reply k.id .bailout shutdown) w' S
  -- Code run while a resumed request is closed suspends, and `resume_coroutine_context` returns
  | closing {k : RemoteCall} {w' : Worker} (hk : k ∈ w.calls)
      (hbefore : (w.view k.context).Suspended) (hpool : Refines w'.pool S n)
      (htouched : Touched k.context [.closeRequest k.context,
        .destroyOpArray (w.contexts k.context).opArray, .resume k (w.contexts k.context)] w w')
      (hstatus : w'.status = .running) (hbevs : w'.bevs = w.bevs)
      (hsusp : (w'.view k.context).Suspended) :
      Transition w S n (.reply k.id .finished .yields) w' S
  -- A resumed request runs to its end and its context is given back
  | finished {k : RemoteCall} {b : Bufferevent} {w' : Worker} (hk : k ∈ w.calls)
      (hbefore : (w.view k.context).Suspended)
      (hpool : Refines w'.pool (S.release k.context) n)
      (htouched : Touched k.context [.buffereventFree (some b.id), .freeContext k.context,
        .closeRequest k.context, .destroyOpArray (w.contexts k.context).opArray,
        .resume k (w.contexts k.context)] w w')
      (hstatus : w'.status = .running) (hsub : w'.bevs.Sublist w.bevs)
      (hvacant : (w'.view k.context).Vacant) :
      Transition w S n (.reply k.id .finished .completes) w' (S.release k.context)

/-! ## `socket_read_cb` -/

theorem suspended_coroHttpGet (hatt : (w.view c).Attached b) (hcalls : (w.view c).calls = []) :
    ((w.coroHttpGet c).view c).Suspended := by
  have hcalls' : w.callsOf c = [] := hcalls
  rw [view_coroHttpGet_self, hcalls']
  exact ⟨⟨b, hatt⟩, _, rfl, rfl⟩

theorem Refines.checkout (h : Refines w.pool S n) :
    Refines (w.checkoutCoroutineContext c).pool S n :=
  ⟨h.pool, h.poolEnd, h.use, h.disjoint, h.cover, h.count⟩

theorem fastcgiRequestDone2_transition {serials : List Nat} (hb : b ∈ w.bevs)
    (hin : b.context ∈ S.inUse) (hpool : Refines w₂.pool S n)
    (hserials : serials.Nodup) (hfresh : ∀ s ∈ serials, w.nextId ≤ s ∧ s < w₂.nextId)
    (htouched : Touched b.context (destroys b.context serials ++ [.requestStartup b.context])
      w w₂)
    (hstatus : w₂.status = .running) (hbevs : w₂.bevs = w.bevs)
    (hatt : (w₂.view b.context).Attached b) (hcalls : (w₂.view b.context).calls = [])
    (path : RequestPath) (shutdown : ShutdownRun) :
    ∃ S', Transition w S n (.readable b.id path shutdown)
      (w₂.fastcgiRequestDone2 b.context shutdown) S' := by
  cases shutdown with
  | completes =>
    obtain ⟨exits, hexits, hdone, hview, hpool', hstatus', hsub⟩ :=
      fastcgiRequestDone2_completes htouched.ids hatt
    have hdelta := htouched.trans hdone
    refine ⟨_, .served hb ?_ hserials ?_ hexits ?_ (hstatus'.trans hstatus) (hbevs ▸ hsub) ?_⟩
    · rw [hpool']
      exact hpool.free_spec hin
    · intro s hs
      exact ⟨(hfresh s hs).1, Nat.lt_of_lt_of_le (hfresh s hs).2 hdone.next⟩
    · simpa using hdelta
    · rw [hview]
      exact ⟨rfl, hcalls⟩
  | yields =>
    have hclose : Touched b.context [.closeRequest b.context] w₂
        (w₂.emit (.closeRequest b.context)) := touched_emit htouched.ids _
    have hdelta := (htouched.trans hclose).trans (touched_coroHttpGet hclose.ids)
    have hsusp : (((w₂.emit (.closeRequest b.context)).coroHttpGet b.context).view
        b.context).Suspended := suspended_coroHttpGet hatt hcalls
    have htouched' : Touched b.context (.closeRequest b.context ::
        destroys b.context serials ++ [.requestStartup b.context]) w
        (w₂.fastcgiRequestDone2 b.context .yields) := hdelta.withStatus .deadFrameJump
    have hnext : w₂.nextId ≤ (w₂.fastcgiRequestDone2 b.context .yields).nextId :=
      Nat.le_add_right w₂.nextId 2
    refine ⟨S, .closingLost hb hpool hserials ?_ htouched'
      (by simp [fastcgiRequestDone2, closeRequest]) hbevs hsusp⟩
    intro s hs
    exact ⟨(hfresh s hs).1, Nat.lt_of_lt_of_le (hfresh s hs).2 hnext⟩

theorem socketReadCb_transition (h : Inv w S n) (hrun : w.status = .running) (hb : b ∈ w.bevs)
    (hidle : ¬w.SuspendedAt b.context) (path : RequestPath) (shutdown : ShutdownRun) :
    ∃ S', Transition w S n (.readable b.id path shutdown) (w.socketReadCb b path shutdown) S' := by
  obtain ⟨hin, hatt, -⟩ := h.view_of_bev hb
  have hcalls : (w.view b.context).calls = [] := by
    by_contra hne
    exact hidle (suspendedAt_iff.mpr hne)
  -- the request is put into the context and started
  set request : FcgiRequest := ⟨w.nextId, (w.contexts b.context).fd, b.id⟩ with hrequest
  set w₁ := w.startRequest b.context request with hw₁
  have htouched₁ : Touched b.context [.requestStartup b.context] w w₁ :=
    touched_startRequest h.ids request
  have hview₁ : w₁.view b.context =
      { w.view b.context with ctx := { w.contexts b.context with request := some request } } :=
    view_setContext_self _
  have hatt₁ : (w₁.view b.context).Attached b := by
    rw [hview₁]
    exact hatt
  have hcalls₁ : (w₁.view b.context).calls = [] := by
    rw [hview₁]
    exact hcalls
  have hpool₁ : Refines w₁.pool S n := Refines.checkout h.pool
  cases path with
  | startupFailed =>
    have hfinish : Touched b.context [] w₁ (w₁.fcgiFinishRequest request) :=
      ⟨sameElsewhere_fcgiFinishRequest htouched₁.ids hb rfl, htouched₁.ids.fcgiFinishRequest _,
        Nat.le_refl _, rfl⟩
    have hconn : ((w₁.fcgiFinishRequest request).view b.context).Connected := by
      obtain ⟨hbevs, hbev, hfd⟩ := hatt₁
      have hmap : (w₁.fcgiFinishRequest request).bevsOf b.context =
          (w₁.bevsOf b.context).map (closeDescriptor request) := bevsOf_fcgiFinishRequest request
      rw [show w₁.bevsOf b.context = [b] from hbevs] at hmap
      refine ⟨⟨closeDescriptor request b, hmap, ?_, hfd⟩, hcalls₁⟩
      rw [closeDescriptor_id]
      exact hbev
    exact ⟨S, .startupFailed hb hpool₁ ((htouched₁.trans hfinish).withStatus .moduleShutdown)
      (by simp [socketReadCb]) hconn⟩
  | rejected =>
    have htouched₁' : Touched b.context (destroys b.context [] ++ [.requestStartup b.context])
        w w₁ := htouched₁
    exact fastcgiRequestDone2_transition hb hin hpool₁ nodup_nil (by simp) htouched₁' hrun
      rfl hatt₁ hcalls₁ .rejected shutdown
  | executed files =>
    obtain ⟨u, op, next, serials, hfiles, hres⟩ := zendExecuteScriptsCoro_spec w₁ b.context files
    obtain ⟨hpool₂, hbevs₂, hstatus₂, hnext₂, hop₂⟩ := hfiles.frame
    have hle : w.nextId + 1 ≤ next := hfiles.le
    have hfresh₁ : ∀ s ∈ serials, w.nextId + 1 ≤ s ∧ s < next := hfiles.fresh
    have htouched₂ := htouched₁.trans (hfiles.touched htouched₁.ids)
    have hatt₂ : (u.view b.context).Attached b := by
      rw [hfiles.view_self]
      exact hatt₁
    have hcalls₂ : (u.view b.context).calls = [] := by
      rw [hfiles.view_self]
      exact hcalls₁
    rcases hres with ⟨hne, hne', hu⟩ | ⟨hyield, hu, s, hs, hnot, hlo, hhi⟩
    · -- no file suspended: the request is closed
      have heq : w.socketReadCb b (.executed files) shutdown =
          u.fastcgiRequestDone2 b.context shutdown := by
        simp only [socketReadCb, ← hrequest, ← hw₁]
        rw [hu]
      rw [heq]
      refine fastcgiRequestDone2_transition hb hin (hpool₂ ▸ hpool₁) hfiles.nodup ?_ htouched₂
        (hstatus₂.trans hrun) hbevs₂ hatt₂ hcalls₂ _ shutdown
      intro s hs
      have := hfresh₁ s hs
      rw [hnext₂]
      omega
    · -- the last file that ran is suspended
      have hsusp : ((u.coroHttpGet b.context).view b.context).Suspended :=
        suspended_coroHttpGet hatt₂ hcalls₂
      have htouched₃ := htouched₂.trans (touched_coroHttpGet htouched₂.ids)
      have hfields : ((u.coroHttpGet b.context).contexts b.context).opArray = op := by
        simpa [coroHttpGet] using hop₂
      have hnext₃ : (u.coroHttpGet b.context).nextId = next + 2 := by
        simp [coroHttpGet, hnext₂]
      have hlo' : w.nextId + 1 ≤ s := hlo
      have heq : ∃ status, w.socketReadCb b (.executed files) shutdown =
          { u.coroHttpGet b.context with status := status } := by
        rcases hyield with hyield | hyield
        · refine ⟨(u.coroHttpGet b.context).status, ?_⟩
          simp only [socketReadCb, ← hrequest, ← hw₁, hyield, hu]
        · refine ⟨.deadFrameJump, ?_⟩
          simp only [socketReadCb, ← hrequest, ← hw₁, hyield, hu]
      obtain ⟨status, heq⟩ := heq
      rw [heq]
      refine ⟨S, .suspended hb (hpool₂ ▸ hpool₁) hfiles.nodup ?_ (htouched₃.withStatus status)
        hbevs₂ hsusp (hfields.trans hs) hnot (by omega) ?_⟩
      · intro t ht
        have := hfresh₁ t ht
        have hnext : (u.coroHttpGet b.context).nextId = next + 2 := hnext₃
        show w.nextId ≤ t ∧ t < (u.coroHttpGet b.context).nextId
        omega
      · show s < (u.coroHttpGet b.context).nextId
        omega

/-! ## `event_cb` -/

theorem eventCb_transition (h : Inv w S n) (hrun : w.status = .running) (hb : b ∈ w.bevs) :
    Transition w S n (.clientEof b.id .completes) (w.eventCb b .completes) S := by
  obtain ⟨-, ⟨hbevs, -, -⟩, -⟩ := h.view_of_bev hb
  -- the state before `bufferevent_free`
  set w₁ : Worker := { w.checkoutCoroutineContext b.context with
    contexts := Function.update w.contexts b.context { w.contexts b.context with fd := 0 }
    requests := w.requests + 1
    trace := .closeRequest b.context :: .destroyOpArray (w.contexts b.context).opArray ::
      w.trace } with hw₁
  have heq : w.eventCb b .completes = w₁.buffereventFree (some b.id) := by
    simp [eventCb, closeRequest, emit, setContext, checkoutCoroutineContext, hw₁]
  have hids₁ : w₁.Ids := ⟨h.ids.bevs, h.ids.bevsLt, h.ids.calls, h.ids.callsLt⟩
  have hctx₁ : SameElsewhere b.context w w₁ :=
    sameElsewhere_setContext { w.contexts b.context with fd := 0 }
  have hview : (w₁.buffereventFree (some b.id)).view b.context =
      { w₁.view b.context with bevs := [] } := view_buffereventFree_self hbevs
  rw [heq]
  refine .clientLeft hb (Refines.checkout h.pool) ⟨?_, hids₁.buffereventFree _, Nat.le_refl _, rfl⟩
    hrun filter_sublist ?_ ?_ ?_
  · exact hctx₁.trans (sameElsewhere_buffereventFree hids₁.bevs hbevs)
  · rw [hview]
  · simp [hw₁, buffereventFree]
  · rw [hview]
    rfl

/-! ## Replies -/

theorem touched_completeCall (h : Inv w S n) (hk : k ∈ w.calls) :
    Touched k.context [] w ((w.checkoutCoroutineContext k.context).completeCall k) := by
  have hids : (w.checkoutCoroutineContext k.context).Ids :=
    ⟨h.ids.bevs, h.ids.bevsLt, h.ids.calls, h.ids.callsLt⟩
  obtain ⟨-, hcalls, -⟩ := h.view_of_call hk
  exact ⟨sameElsewhere_completeCall hids.calls hcalls, hids.completeCall, Nat.le_refl _, rfl⟩

theorem remoteReadCallback_transition (h : Inv w S n) (hrun : w.status = .running)
    (hk : k ∈ w.calls) (exit : ResumeExit) (shutdown : ShutdownRun) :
    ∃ S', Transition w S n (.reply k.id exit shutdown)
      (w.remoteReadCallback k exit shutdown) S' := by
  obtain ⟨hin, hcalls, hstage⟩ := h.view_of_call hk
  -- the call is complete
  set w₁ := (w.checkoutCoroutineContext k.context).completeCall k with hw₁
  have htouched₁ : Touched k.context [] w w₁ := touched_completeCall h hk
  have hview₁ : w₁.view k.context = { w.view k.context with calls := [] } :=
    view_completeCall_self hcalls
  have hpool₁ : Refines w₁.pool S n := Refines.checkout h.pool
  rcases hstage with ⟨⟨b, hatt⟩, hctx⟩ | ⟨hbevs, hctx⟩
  · -- the client is there: the request is resumed
    have hbefore : (w.view k.context).Suspended := ⟨⟨b, hatt⟩, k, hcalls, hctx⟩
    have hfd : (w₁.contexts k.context).fd ≠ 0 := hatt.2.2
    set w₂ := w₁.emit (.resume k (w₁.contexts k.context)) with hw₂
    have htouched₂ : Touched k.context [.resume k (w.contexts k.context)] w w₂ :=
      htouched₁.trans (touched_emit htouched₁.ids _)
    have hatt₂ : (w₂.view k.context).Attached b := by
      show (w₁.view k.context).Attached b
      rw [hview₁]
      exact hatt
    have hcalls₂ : (w₂.view k.context).calls = [] := by
      show (w₁.view k.context).calls = []
      rw [hview₁]
    cases exit with
    | yielded =>
      have heq : w.remoteReadCallback k .yielded shutdown = w₂.coroHttpGet k.context := by
        simp only [remoteReadCallback, resumeCoroutineContext, ← hw₁, if_neg hfd, ← hw₂]
      rw [heq]
      refine ⟨S, .again hk hbefore hpool₁ (htouched₂.trans (touched_coroHttpGet htouched₂.ids))
        hrun rfl (suspended_coroHttpGet hatt₂ hcalls₂) ?_⟩
      simp [coroHttpGet, hw₂, emit, hw₁, completeCall, checkoutCoroutineContext]
    | bailout =>
      have heq : w.remoteReadCallback k .bailout shutdown =
          { w₂ with status := .deadFrameJump } := by
        simp only [remoteReadCallback, resumeCoroutineContext, ← hw₁, if_neg hfd, ← hw₂]
      rw [heq]
      exact ⟨S, .bailout hk hbefore hpool₁ (htouched₂.withStatus _) (by simp) rfl
        ⟨⟨b, hatt₂⟩, hcalls₂⟩⟩
    | finished =>
      set op := (w.contexts k.context).opArray with hop
      have htouched₃ : Touched k.context [.closeRequest k.context, .destroyOpArray op,
          .resume k (w.contexts k.context)] w
          ((w₂.emit (.destroyOpArray op)).emit (.closeRequest k.context)) := by
        have hdestroy := htouched₂.trans (touched_emit htouched₂.ids (.destroyOpArray op))
        exact hdestroy.trans (touched_emit hdestroy.ids _)
      cases shutdown with
      | yields =>
        have heq : w.remoteReadCallback k .finished .yields =
            ((w₂.emit (.destroyOpArray op)).emit (.closeRequest k.context)).coroHttpGet
              k.context := by
          simp only [remoteReadCallback, resumeCoroutineContext, ← hw₁, if_neg hfd, ← hw₂,
            closeRequest]
          rfl
        rw [heq]
        exact ⟨S, .closing hk hbefore hpool₁
          (htouched₃.trans (touched_coroHttpGet htouched₃.ids)) hrun rfl
          (suspended_coroHttpGet hatt₂ hcalls₂)⟩
      | completes =>
        set w₃ : Worker := { (w₂.emit (.destroyOpArray op)).emit (.closeRequest k.context) with
          requests := w₂.requests + 1 } with hw₃
        have heq : w.remoteReadCallback k .finished .completes =
            w₃.freeCoroutineContext k.context := by
          simp only [remoteReadCallback, resumeCoroutineContext, ← hw₁, if_neg hfd, ← hw₂,
            closeRequest]
          rfl
        have htouched₄ : Touched k.context [.closeRequest k.context, .destroyOpArray op,
            .resume k (w.contexts k.context)] w w₃ :=
          ⟨htouched₃.elsewhere, ⟨htouched₃.ids.bevs, htouched₃.ids.bevsLt, htouched₃.ids.calls,
            htouched₃.ids.callsLt⟩, htouched₃.next, htouched₃.trace⟩
        obtain ⟨hfree, hview, hpool, hstatus, hsub⟩ :=
          freeCoroutineContext_attached htouched₄.ids (show (w₃.view k.context).Attached b from
            hatt₂)
        rw [heq]
        refine ⟨_, .finished hk hbefore ?_ (htouched₄.trans hfree) (hstatus.trans hrun) hsub ?_⟩
        · rw [hpool]
          exact hpool₁.free_spec hin
        · rw [hview]
          exact ⟨rfl, hcalls₂⟩
  · -- the client has left: the context is given back
    have hfd : (w₁.contexts k.context).fd = 0 := by
      show (w.contexts k.context).fd = 0
      rw [hctx]
    obtain ⟨hfree, hview, hpool, hstatus, hbevs'⟩ :=
      freeCoroutineContext_gone htouched₁.ids hfd
    have heq : w.remoteReadCallback k exit shutdown = w₁.freeCoroutineContext k.context := by
      simp only [remoteReadCallback, resumeCoroutineContext, ← hw₁, if_pos hfd]
    rw [heq]
    refine ⟨_, .late hk hbevs ?_ (htouched₁.trans hfree) (hstatus.trans hrun)
      (hbevs' ▸ List.Sublist.refl _) ?_⟩
    · rw [hpool]
      exact hpool₁.free_spec hin
    · rw [hview, hview₁]
      exact ⟨hbevs, rfl⟩

/-! ## `do_accept` -/

theorem doAccept_transition (h : Inv w S n) (hrun : w.status = .running) {fd : Int}
    (hfd : fd ≠ 0) : ∃ S', Transition w S n (.accept fd) (w.doAccept fd) S' := by
  unfold doAccept
  by_cases hneg : fd < 0
  · rw [if_pos hneg]
    exact ⟨S, .ignored⟩
  · rw [if_neg hneg]
    obtain ⟨P', huse, hpool⟩ := h.pool.use_spec
    rw [huse]
    cases hfree : S.free.head? with
    | none =>
      have hS : S.use = S := by
        unfold PoolSpec.use
        rw [List.head?_eq_none_iff.mp hfree]
      exact ⟨S, .starved (hS ▸ hpool) (fun _ => rfl)
        ⟨h.ids.bevs, h.ids.bevsLt, h.ids.calls, h.ids.callsLt⟩ rfl rfl rfl (by simp)⟩
    | some c =>
      -- a free context has neither a client nor a call
      have hc : c ∉ S.inUse := h.pool.notMem_inUse (mem_of_head? hfree)
      obtain ⟨hbevs, hcalls⟩ := (h.stages c).resolve_right fun hbusy => hc hbusy.1
      have hbevs' : w.bevsOf c = [] := hbevs
      set b : Bufferevent := ⟨w.nextId, c, fd, true⟩ with hb
      set w₁ : Worker := { w with
        pool := P'
        contexts := Function.update w.contexts c
          { w.contexts c with fd := fd, bev := some w.nextId }
        bevs := b :: w.bevs
        nextId := w.nextId + 1
        trace := .useContext c :: w.trace } with hw₁
      have hids : w₁.Ids := by
        refine ⟨?_, ?_, h.ids.calls, fun k hk => Nat.lt_succ_of_lt (h.ids.callsLt k hk)⟩
        · have hnew : w.nextId ∉ w.bevs.map (·.id) := by
            intro hmem
            obtain ⟨b', hb', hid⟩ := List.mem_map.mp hmem
            have := h.ids.bevsLt b' hb'
            omega
          rw [hw₁, map_cons, nodup_cons]
          exact ⟨hnew, h.ids.bevs⟩
        · intro b' hb'
          rcases mem_cons.mp hb' with rfl | hb'
          · exact Nat.lt_succ_self _
          · exact Nat.lt_succ_of_lt (h.ids.bevsLt b' hb')
      have helse : SameElsewhere c w w₁ := by
        intro c' hne
        have hbc : b.context ≠ c' := fun e => hne e.symm
        simp only [hw₁, view, bevsOf, callsOf, Function.update_of_ne hne, Owned.of_cons_ne hbc]
      have hatt : (w₁.view c).Attached b := by
        refine ⟨?_, by simp [view, hw₁, hb], by simpa [view, hw₁] using hfd⟩
        have hcons : w₁.bevsOf c = b :: w.bevsOf c :=
          Owned.of_cons_self (show b.context = c from rfl)
        rw [hbevs'] at hcons
        exact hcons
      exact ⟨S.use, .accepted hpool hfree ⟨helse, hids, Nat.le_succ _, rfl⟩ hrun rfl rfl hatt
        hcalls⟩

/-! ## One event, and a run of them -/

theorem step_transition {e : WorkerEvent} (h : Inv w S n) (hu : w.Undisturbed e)
    (hstep : workerSystem.step w e = some w') : ∃ S', Transition w S n e w' S' := by
  have hrun : w.status = .running := by
    by_contra hne
    simp [workerSystem, step, hne] at hstep
  simp only [workerSystem, step, if_pos hrun] at hstep
  cases e with
  | accept fd =>
    obtain ⟨⟨-, hfd⟩, rfl⟩ : (w.Listening ∧ fd ≠ 0) ∧ w.doAccept fd = w' := by simpa using hstep
    exact doAccept_transition h hrun hfd
  | readable bev path shutdown =>
    obtain ⟨b, hfind, rfl⟩ := Option.map_eq_some_iff.mp hstep
    have hb := mem_of_find?_eq_some hfind
    obtain ⟨rfl, -⟩ : b.id = bev ∧ b.fdOpen = true := by
      simpa using List.find?_some hfind
    exact socketReadCb_transition h hrun hb (hu b hb rfl) path shutdown
  | clientEof bev shutdown =>
    obtain rfl : shutdown = .completes := hu
    obtain ⟨b, hfind, rfl⟩ := Option.map_eq_some_iff.mp hstep
    have hb := mem_of_find?_eq_some hfind
    obtain ⟨rfl, -⟩ : b.id = bev ∧ b.fdOpen = true := by
      simpa using List.find?_some hfind
    exact ⟨S, eventCb_transition h hrun hb⟩
  | reply call exit shutdown =>
    obtain ⟨k, hfind, rfl⟩ := Option.map_eq_some_iff.mp hstep
    have hk := mem_of_find?_eq_some hfind
    obtain rfl : k.id = call := by simpa using List.find?_some hfind
    exact remoteReadCallback_transition h hrun hk exit shutdown

theorem neutral_destroys (serials : List Nat) : ∀ e ∈ destroys c serials, Neutral e := by
  intro e he
  obtain ⟨s, -, rfl⟩ := List.mem_map.mp he
  trivial

theorem use_inUse (hc : S.free.head? = some c) : S.use.inUse = insert c S.inUse := by
  unfold PoolSpec.use
  cases hfree : S.free with
  | nil => simp [hfree] at hc
  | cons d free =>
    obtain rfl : d = c := by simpa [hfree] using hc
    rfl

theorem Touched.inv_inUse {delta : List Effect} (ht : Touched c delta w w') (h : Inv w S n)
    (hpool : Refines w'.pool S n) (hin : c ∈ S.inUse) (hbusy : (w'.view c).Busy)
    (hledger : Ledger (delta ++ w.trace) S.inUse) : Inv w' S n := by
  refine h.update hpool ht.elsewhere (fun _ _ hc' => hc') (.inr ⟨hin, hbusy⟩) ht.ids ?_
  rw [ht.trace]
  exact hledger

theorem Touched.inv_release {delta : List Effect} (ht : Touched c delta w w') (h : Inv w S n)
    (hpool : Refines w'.pool (S.release c) n) (hvacant : (w'.view c).Vacant)
    (hledger : Ledger (delta ++ w.trace) (S.release c).inUse) : Inv w' (S.release c) n := by
  refine h.update hpool ht.elsewhere (fun c' hne hc' => ?_) (.inl hvacant) ht.ids ?_
  · exact Finset.mem_erase.mpr ⟨hne, hc'⟩
  · rw [ht.trace]
    exact hledger

theorem Transition.inv {e : WorkerEvent} (h : Inv w S n) (ht : Transition w S n e w' S') :
    Inv w' S' n := by
  cases ht with
  | ignored => exact h
  | starved hpool hview hids htrace hbevs hnext hstatus =>
    exact ⟨hpool, fun c => by rw [hview c]; exact h.stages c, hids, htrace ▸ h.ledger⟩
  | @accepted _ _ c b hpool hc htouched hstatus hbevs hopen hatt hcalls =>
    have hin := use_inUse hc
    have hfree : c ∉ S.inUse := h.pool.notMem_inUse (mem_of_head? hc)
    refine h.update hpool htouched.elsewhere ?_ (Or.inr ⟨?_, Or.inl ⟨⟨b, hatt⟩, hcalls⟩⟩)
      htouched.ids ?_
    · intro c' _ hc'
      rw [hin]
      exact Finset.mem_insert_of_mem hc'
    · rw [hin]
      exact Finset.mem_insert_self c _
    · rw [htouched.trace, hin]
      exact h.ledger.cons_use hfree
  | @served b _ _ serials exits hb hpool hserials hfresh hexits htouched hstatus hsub hvacant =>
    obtain ⟨hin, -⟩ := h.view_of_bev hb
    apply htouched.inv_release h hpool hvacant
    have hstart : Ledger (exits ++ .closeRequest b.context :: destroys b.context serials ++
        [.requestStartup b.context] ++ w.trace) S.inUse := by
      refine h.ledger.append_neutral fun e he => ?_
      simp only [mem_append, mem_cons] at he
      rcases he with (he | rfl | he) | rfl | he
      · rw [hexits e he]
        trivial
      · trivial
      · exact neutral_destroys serials e he
      · trivial
      · cases he
    simpa [PoolSpec.release] using (hstart.cons_free hin).cons_neutral
      (show Neutral (.buffereventFree (some b.id)) from trivial)
  | @suspended b _ _ _ serials s hb hpool hserials hfresh htouched hbevs hsusp hop hs hlo hhi =>
    obtain ⟨hin, -⟩ := h.view_of_bev hb
    apply htouched.inv_inUse h hpool hin (.inr (.inl hsusp))
    refine h.ledger.append_neutral fun e he => ?_
    rcases mem_append.mp he with he | he
    · exact neutral_destroys serials e he
    · rw [mem_singleton.mp he]
      trivial
  | @closingLost b _ _ serials hb hpool hserials hfresh htouched hstatus hbevs hsusp =>
    obtain ⟨hin, -⟩ := h.view_of_bev hb
    apply htouched.inv_inUse h hpool hin (.inr (.inl hsusp))
    refine h.ledger.append_neutral fun e he => ?_
    rcases mem_append.mp he with he | he
    · rcases mem_cons.mp he with rfl | he
      · trivial
      · exact neutral_destroys serials e he
    · rw [mem_singleton.mp he]
      trivial
  | startupFailed hb hpool htouched hstatus hconn =>
    obtain ⟨hin, -⟩ := h.view_of_bev hb
    exact htouched.inv_inUse h hpool hin (.inl hconn) (h.ledger.cons_neutral trivial)
  | @clientLeft b w' hb hpool htouched hstatus hsub hbevs hctx hcalls =>
    obtain ⟨hin, -, hstage⟩ := h.view_of_bev hb
    refine h.update hpool htouched.elsewhere (fun _ _ hc' => hc') ?_ htouched.ids ?_
    · -- the context of a suspended request is orphaned, one without a request is lost
      rcases hstage with hidle | ⟨-, k, hk, hheld⟩
      · exact Or.inl ⟨hbevs, hcalls.trans hidle⟩
      · refine Or.inr ⟨hin, Or.inr (Or.inr ⟨hbevs, ?_, k, hcalls.trans hk, ?_⟩)⟩
        · show (w'.contexts b.context).fd = 0
          rw [hctx]
        · show w'.contexts b.context = _
          rw [hctx, ← hheld]
          rfl
    · rw [htouched.trace]
      exact h.ledger.append_neutral (by simp [Neutral])
  | late hk hbefore hpool htouched hstatus hsub hvacant =>
    obtain ⟨hin, -⟩ := h.view_of_call hk
    exact htouched.inv_release h hpool hvacant (h.ledger.cons_free hin)
  | @again k _ _ hk hbefore hpool htouched hstatus hbevs hsusp hop =>
    obtain ⟨hin, -⟩ := h.view_of_call hk
    exact htouched.inv_inUse h hpool hin (.inr (.inl hsusp))
      (h.ledger.cons_resume (h.held_of_suspended hk hbefore))
  | @bailout k _ _ hk hbefore hpool htouched hstatus hbevs hconn =>
    obtain ⟨hin, -⟩ := h.view_of_call hk
    exact htouched.inv_inUse h hpool hin (.inl hconn)
      (h.ledger.cons_resume (h.held_of_suspended hk hbefore))
  | @closing k _ hk hbefore hpool htouched hstatus hbevs hsusp =>
    obtain ⟨hin, -⟩ := h.view_of_call hk
    apply htouched.inv_inUse h hpool hin (.inr (.inl hsusp))
    have hresume := h.ledger.cons_resume (h.held_of_suspended hk hbefore)
    show Ledger ([.closeRequest k.context, .destroyOpArray (w.contexts k.context).opArray] ++
      .resume k (w.contexts k.context) :: w.trace) S.inUse
    exact hresume.append_neutral (by simp [Neutral])
  | @finished k b _ hk hbefore hpool htouched hstatus hsub hvacant =>
    obtain ⟨hin, -⟩ := h.view_of_call hk
    apply htouched.inv_release h hpool hvacant
    have hresume := h.ledger.cons_resume (h.held_of_suspended hk hbefore)
    have hclosed := (hresume.cons_neutral (show Neutral (.destroyOpArray
      (w.contexts k.context).opArray) from trivial)).cons_neutral
        (show Neutral (.closeRequest k.context) from trivial)
    exact (hclosed.cons_free hin).cons_neutral trivial

theorem Inv.step {e : WorkerEvent} (h : Inv w S n) (hu : w.Undisturbed e)
    (hstep : workerSystem.step w e = some w') : ∃ S', Inv w' S' n := by
  obtain ⟨S', ht⟩ := step_transition h hu hstep
  exact ⟨S', ht.inv h⟩

theorem inv_init (idxs : List Nat) (maxRequests : Nat) :
    Inv (init idxs maxRequests) (PoolSpec.init idxs.length) idxs.length where
  pool :=
    have h := refines_initContexts idxs
    ⟨h.pool, h.poolEnd, h.use, h.disjoint, h.cover, h.count⟩
  stages _ := Or.inl ⟨rfl, rfl⟩
  ids := ⟨nodup_nil, by simp [init], nodup_nil, by simp [init]⟩
  ledger := ⟨fun c => by simp [init, PoolSpec.init], fun c => Trace.matched_nil, by simp [init]⟩

theorem inv_of_run {idxs : List Nat} {maxRequests : Nat} {es : List WorkerEvent}
    (hrun : workerSystem.Run Undisturbed (init idxs maxRequests) es w) :
    ∃ S, Inv w S idxs.length := by
  have hstep : ∀ w e w', (∃ S, Inv w S idxs.length) → Undisturbed w e →
      workerSystem.step w e = some w' → ∃ S, Inv w' S idxs.length := by
    rintro w e w' ⟨S, h⟩ hu hstep
    exact h.step hu hstep
  exact hrun.invariant hstep ⟨_, inv_init idxs maxRequests⟩

end Worker

end Phpce
