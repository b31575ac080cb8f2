import Phpce.Pool.Pointers
import Phpce.Tsrm.Coroutines
import Phpce.Worker.View

/-!
# The active entry of the resource manager

The worker together with `TSRM.c`. Every callback of the loop switches to the context it is about
before it runs code of that context, `checkout_coroutine_context`, and `do_accept` does so in
`use_coroutine_context`. The code it runs then may fetch, register and free resources.

* **`Worker.Within`** — the callbacks are about contexts made at the start, in every run.
* **`Threaded`** — the entry at index `i` is the one with the thread id `i`.
* **`active_entry`** — whenever code of a context runs, the active entry is that of the context,
  and the fast and the slow path of `ts_resource_ex` agree.
-/

namespace Phpce

open List Option

/-! ## Code of a context -/

def TsrmCall.phpLevel : TsrmCall → Bool
  | .tsResource _ | .tsAllocateId .. | .tsFreeId _ => true
  | _ => false

/-- `checkout_coroutine_context`, and the switch in `use_coroutine_context`. -/
def Tsrm.checkoutCoroutineContext (s : Tsrm) (threadId : Nat) : Tsrm :=
  let s := s.setForceThreadId threadId
  (s.tsrmSetInterpreterContext (s.getTsrmTlsEntry threadId)).2

def Worker.callbackContext (w : Worker) : WorkerEvent → Option ContextPtr
  | .accept fd => if fd < 0 then none else w.pool.useCoroutineContext.bind (·.1)
  | .readable bev _ _ | .clientEof bev _ =>
      (w.bevs.find? fun b => b.id = bev ∧ b.fdOpen).map (·.context)
  | .reply call _ _ => (w.calls.find? fun k => k.id = call).map (·.context)

/-- A worker and its resource manager. -/
structure Engine where
  worker : Worker
  tsrm : Tsrm

/-- What happens to an engine, with the calls that the code of the context makes. -/
inductive EngineEvent where
  -- A round of the loop `COROUTINE_INIT_START` of `main`
  | initRound (idx : Nat) (calls : List TsrmCall)
  | callback (e : WorkerEvent) (calls : List TsrmCall)
  -- `coro_http` is told of a header, a chunk or an error of a remote call
  | progress (call : Nat) (calls : List TsrmCall)

namespace Engine

/-- The number of the coroutine that the event switches to, and the calls made in it. -/
def switches (x : Engine) : EngineEvent → Option Nat × List TsrmCall
  | .initRound idx calls => (if idx < x.tsrm.tlsTable.length then some idx else none, calls)
  | .callback e calls => ((x.worker.callbackContext e).map x.worker.pool.threadId, calls)
  | .progress call calls =>
      (((x.worker.calls.find? fun k => k.id = call).map (·.context)).map x.worker.pool.threadId,
        calls)

def workerStep (x : Engine) : EngineEvent → Option Worker
  | .initRound _ _ => some x.worker
  | .callback e _ => workerSystem.step x.worker e
  | .progress _ _ => some x.worker

/-- An event. Without a switch there is no code to run. -/
def step (x : Engine) (e : EngineEvent) : Option Engine := do
  let worker ← x.workerStep e
  match x.switches e with
  | (some threadId, calls) =>
    if ∀ call ∈ calls, call.phpLevel then
      let tsrm ← tsrmSystem.exec (x.tsrm.checkoutCoroutineContext threadId) calls
      return ⟨worker, tsrm⟩
    else none
  | (none, calls) => if calls = [] then return ⟨worker, x.tsrm⟩ else none

/-- The engine of `main` with `n` coroutines, when their entries are made and the first is
active. -/
def start (n expectedResources : Nat) (pthreadSelf : ThreadT) (maxRequests : Nat) :
    Option Engine :=
  (Tsrm.createCoroutines n expectedResources pthreadSelf).map fun s =>
    ⟨Worker.init (List.range n) maxRequests, s.checkoutCoroutineContext 0⟩

end Engine

def engineSystem : EventSystem Engine EngineEvent where
  step := Engine.step

/-! ## The contexts of the callbacks -/

namespace Worker

variable {w w' : Worker} {c : ContextPtr} {b : Bufferevent} {k : RemoteCall} {n : Nat}

/-- The worker knows no contexts but those below `n`. -/
structure Within (n : Nat) (w : Worker) : Prop where
  pool : w.pool.Within n
  bevs : ∀ b ∈ w.bevs, b.context < n
  calls : ∀ k ∈ w.calls, k.context < n

theorem within_init (n maxRequests : Nat) : Within n (init (List.range n) maxRequests) := by
  have h := CoroutinePool.within_initContexts n
  exact ⟨⟨h.links, h.contextPool, h.contextPoolEnd, h.contextUse, h.threads⟩, nofun, nofun⟩

theorem Within.checkout (h : w.Within n) (c : ContextPtr) :
    (w.checkoutCoroutineContext c).Within n :=
  ⟨⟨h.pool.links, h.pool.contextPool, h.pool.contextPoolEnd, h.pool.contextUse, h.pool.threads⟩,
    h.bevs, h.calls⟩

theorem Within.buffereventFree (h : w.Within n) (bev : Option Nat) :
    (w.buffereventFree bev).Within n :=
  ⟨h.pool, fun b hb => h.bevs b (mem_of_mem_filter hb), h.calls⟩

theorem Within.freeCoroutineContext (h : w.Within n) (hc : c < n) :
    (w.freeCoroutineContext c).Within n := by
  have hfree : Within n { w with
      pool := w.pool.freeCoroutineContext c
      trace := .freeContext c :: w.trace } := ⟨h.pool.freeCoroutineContext hc, h.bevs, h.calls⟩
  unfold Worker.freeCoroutineContext
  dsimp only
  split
  · exact hfree.buffereventFree _
  · exact hfree

theorem Within.coroHttpGet (h : w.Within n) (hc : c < n) : (w.coroHttpGet c).Within n := by
  refine ⟨h.pool, h.bevs, fun k hk => ?_⟩
  rcases mem_cons.mp hk with rfl | hk
  · exact hc
  · exact h.calls k hk

theorem FilesRun.within {u : Worker} {op : Option OpArray} {next : Nat} {serials : List Nat}
    (hfiles : FilesRun c w u op next serials) (h : w.Within n) : u.Within n := by
  rw [hfiles.eq]
  exact ⟨h.pool, h.bevs, h.calls⟩

theorem Within.zendExecuteScriptsCoro (h : w.Within n) (hc : c < n) (files : List FileExit) :
    (w.zendExecuteScriptsCoro c files).1.Within n := by
  obtain ⟨u, op, next, serials, hfiles, hres⟩ := zendExecuteScriptsCoro_spec w c files
  rcases hres with ⟨-, -, hu⟩ | ⟨-, hu, -⟩
  · rw [hu]
    exact hfiles.within h
  · rw [hu]
    exact (hfiles.within h).coroHttpGet hc

theorem Within.fastcgiRequestDone2 (h : w.Within n) (hc : c < n) (shutdown : ShutdownRun) :
    (w.fastcgiRequestDone2 c shutdown).Within n := by
  cases shutdown with
  | yields =>
    have hcall := Within.coroHttpGet (w := w.emit (.closeRequest c)) ⟨h.pool, h.bevs, h.calls⟩ hc
    exact ⟨hcall.pool, hcall.bevs, hcall.calls⟩
  | completes =>
    simp only [Worker.fastcgiRequestDone2, closeRequest]
    refine Within.freeCoroutineContext ?_ hc
    split
    · exact ⟨h.pool, h.bevs, h.calls⟩
    · exact ⟨h.pool, h.bevs, h.calls⟩

theorem Within.socketReadCb (h : w.Within n) (hb : b ∈ w.bevs) (path : RequestPath)
    (shutdown : ShutdownRun) : (w.socketReadCb b path shutdown).Within n := by
  have hc := h.bevs b hb
  have hstart : ∀ request, (w.startRequest b.context request).Within n := fun _ =>
    ⟨(h.checkout b.context).pool, h.bevs, h.calls⟩
  unfold Worker.socketReadCb
  cases path with
  | startupFailed =>
    refine ⟨(h.checkout b.context).pool, fun b' hb' => ?_, h.calls⟩
    obtain ⟨b₀, hb₀, rfl⟩ := List.mem_map.mp hb'
    rw [closeDescriptor_context]
    exact h.bevs b₀ hb₀
  | rejected => exact (hstart _).fastcgiRequestDone2 hc shutdown
  | executed files =>
    have hrun := (hstart ⟨w.nextId, (w.contexts b.context).fd, b.id⟩).zendExecuteScriptsCoro hc
      files
    dsimp only
    split
    · exact hrun
    · exact ⟨hrun.pool, hrun.bevs, hrun.calls⟩
    · exact hrun.fastcgiRequestDone2 hc shutdown

theorem Within.eventCb (h : w.Within n) (hb : b ∈ w.bevs) (shutdown : ShutdownRun) :
    (w.eventCb b shutdown).Within n := by
  have hcheckout := h.checkout b.context
  cases shutdown with
  | yields =>
    refine ⟨hcheckout.pool, h.bevs, fun k hk => ?_⟩
    rcases mem_cons.mp hk with rfl | hk
    · exact h.bevs b hb
    · exact h.calls k hk
  | completes =>
    refine Within.buffereventFree ?_ _
    exact ⟨hcheckout.pool, h.bevs, h.calls⟩

theorem Within.remoteReadCallback (h : w.Within n) (hk : k ∈ w.calls) (exit : ResumeExit)
    (shutdown : ShutdownRun) : (w.remoteReadCallback k exit shutdown).Within n := by
  have hc := h.calls k hk
  have hdone : ((w.checkoutCoroutineContext k.context).completeCall k).Within n :=
    ⟨(h.checkout k.context).pool, h.bevs, fun k' hk' => h.calls k' (mem_of_mem_filter hk')⟩
  have hemit : ∀ {v : Worker} (e : Effect), v.Within n → (v.emit e).Within n :=
    fun _ hv => ⟨hv.pool, hv.bevs, hv.calls⟩
  unfold Worker.remoteReadCallback resumeCoroutineContext
  dsimp only
  split
  · exact hdone.freeCoroutineContext hc
  · cases exit with
    | yielded => exact (hemit _ hdone).coroHttpGet hc
    | bailout => exact ⟨hdone.pool, hdone.bevs, hdone.calls⟩
    | finished =>
      cases shutdown with
      | yields => exact (hemit _ (hemit _ (hemit _ hdone))).coroHttpGet hc
      | completes =>
        refine Within.freeCoroutineContext ?_ hc
        exact ⟨hdone.pool, hdone.bevs, hdone.calls⟩

theorem Within.doAccept (h : w.Within n) (fd : Int) : (w.doAccept fd).Within n := by
  unfold Worker.doAccept
  split
  · exact h
  · split
    · exact ⟨h.pool, h.bevs, h.calls⟩
    · rename_i pool huse
      exact ⟨(h.pool.useCoroutineContext huse).1, h.bevs, h.calls⟩
    · rename_i c pool huse
      obtain ⟨hpool, hc⟩ := h.pool.useCoroutineContext huse
      refine ⟨hpool, fun b hb => ?_, h.calls⟩
      rcases mem_cons.mp hb with rfl | hb
      · exact hc c rfl
      · exact h.bevs b hb

/-- **In every run**, disturbed or not, the callbacks are about contexts made at the start. -/
theorem Within.step {e : WorkerEvent} (h : w.Within n) (hstep : workerSystem.step w e = some w') :
    w'.Within n := by
  have hrun : w.status = .running := by
    by_contra hne
    simp [workerSystem, Worker.step, hne] at hstep
  simp only [workerSystem, Worker.step, if_pos hrun] at hstep
  cases e with
  | accept fd =>
    obtain ⟨-, rfl⟩ : (w.Listening ∧ fd ≠ 0) ∧ w.doAccept fd = w' := by simpa using hstep
    exact h.doAccept fd
  | readable bev path shutdown =>
    obtain ⟨b, hb, rfl⟩ := map_eq_some_iff.mp hstep
    exact h.socketReadCb (mem_of_find?_eq_some hb) path shutdown
  | clientEof bev shutdown =>
    obtain ⟨b, hb, rfl⟩ := map_eq_some_iff.mp hstep
    exact h.eventCb (mem_of_find?_eq_some hb) shutdown
  | reply call exit shutdown =>
    obtain ⟨k, hk, rfl⟩ := map_eq_some_iff.mp hstep
    exact h.remoteReadCallback (mem_of_find?_eq_some hk) exit shutdown

theorem Within.callbackContext {e : WorkerEvent} (h : w.Within n)
    (hc : w.callbackContext e = some c) : c < n := by
  cases e with
  | accept fd =>
    change (if fd < 0 then none else w.pool.useCoroutineContext.bind (·.1)) = some c at hc
    by_cases hfd : fd < 0
    · rw [if_pos hfd] at hc
      cases hc
    · rw [if_neg hfd] at hc
      obtain ⟨⟨result, pool⟩, huse, hresult⟩ := bind_eq_some_iff.mp hc
      exact (h.pool.useCoroutineContext huse).2 c hresult
  | readable bev path shutdown =>
    obtain ⟨b, hb, rfl⟩ := map_eq_some_iff.mp hc
    exact h.bevs b (mem_of_find?_eq_some hb)
  | clientEof bev shutdown =>
    obtain ⟨b, hb, rfl⟩ := map_eq_some_iff.mp hc
    exact h.bevs b (mem_of_find?_eq_some hb)
  | reply call exit shutdown =>
    obtain ⟨k, hk, rfl⟩ := map_eq_some_iff.mp hc
    exact h.calls k (mem_of_find?_eq_some hk)

end Worker

/-! ## The entries -/

namespace Tsrm

variable {s s' : Tsrm} {n i : Nat} {p : TlsEntryPtr}

/-- The entry at index `i` of the table is the only one there, and has the thread id `i`. -/
structure Threaded (n : Nat) (s : Tsrm) : Prop where
  sound : Sound s
  table : s.tlsTable = (List.range n).map ([·])
  threads : ∀ i < n, (s.entries i).threadId = i

/-- The entry of coroutine `i` is the active one. -/
structure Active (n i : Nat) (s : Tsrm) : Prop extends Threaded n s where
  lt : i < n
  tls : s.tls = some i
  force : s.forceThreadId = i

theorem Threaded.getTsrmTlsEntry (h : Threaded n s) (hi : i < n) :
    s.getTsrmTlsEntry i = some i := by
  rw [Tsrm.getTsrmTlsEntry, h.table, List.getElem?_map, List.getElem?_range hi]
  rfl

theorem Threaded.length_table (h : Threaded n s) : s.tlsTable.length = n := by
  rw [h.table, length_map, length_range]

theorem Threaded.checkout (h : Threaded n s) (hi : i < n) :
    Active n i (s.checkoutCoroutineContext i) where
  sound := ⟨⟨h.sound.types, h.sound.nodup, h.sound.fresh, h.sound.storage⟩, h.sound.ids⟩
  table := h.table
  threads := h.threads
  lt := hi
  tls := h.getTsrmTlsEntry hi
  force := rfl

theorem Active.tsResource_eq (h : Active n i s) (id : Nat) :
    s.tsResource id = s.tsResourceOf id s.tsrmThreadId := by
  have hself : s.tsrmThreadId = i := by
    have hforce : s.setForceThreadId i = s := by rw [setForceThreadId, ← h.force]
    rw [← tsrmThreadId_setForceThreadId s i, hforce]
  have hfind : s.findEntry i = some i := by
    have hhash : threadHashOf i s.tlsTable.length = i := by
      rw [threadHashOf, h.length_table, Nat.mod_eq_of_lt h.lt]
    rw [findEntry, hhash, h.table, List.getElem?_map, List.getElem?_range h.lt]
    simp [h.threads i h.lt]
  rw [tsResource, h.tls, hself, tsResourceOf, hfind]

theorem Active.phpLevel {call : TsrmCall} (h : Active n i s) (hcall : call.phpLevel)
    (hstep : tsrmSystem.step s call = some s') : Active n i s' := by
  have hsound := sound_step h.sound hstep
  -- what the calls leave alone
  have hkeep : ∀ {t : Tsrm}, Sound t → t.tlsTable = s.tlsTable →
      (∀ q, (t.entries q).threadId = (s.entries q).threadId) → t.tls = s.tls →
      t.forceThreadId = s.forceThreadId → Active n i t := by
    intro t ht htable hthreads htls hforce
    exact ⟨⟨ht, htable.trans h.table, fun j hj => (hthreads j).trans (h.threads j hj)⟩, h.lt,
      htls.trans h.tls, hforce.trans h.force⟩
  cases call with
  | tsResource id =>
    obtain ⟨⟨r, t⟩, hread, rfl⟩ := map_eq_some_iff.mp hstep
    rw [tsResource, h.tls] at hread
    obtain ⟨_, -, heq⟩ := map_eq_some_iff.mp hread
    obtain ⟨-, rfl⟩ := Prod.mk.inj heq
    exact h
  | tsAllocateId rsrcId size ctor dtor =>
    obtain ⟨⟨id, t⟩, hallocate, rfl⟩ := map_eq_some_iff.mp hstep
    unfold tsAllocateId at hallocate
    by_cases hknown : s.Known rsrcId
    · rw [rsrcIdSetIsnew_known hknown] at hallocate
      obtain ⟨-, type, block, rfl⟩ := constructCurrent_eq hallocate
      have heq := callCtor_eq s type block
      exact hkeep hsound (by rw [heq]) (fun q => by rw [heq]) (by rw [heq]) (by rw [heq])
    · rw [rsrcIdSetIsnew_new hknown] at hallocate
      dsimp only at hallocate
      rw [allocateForAll_eq h.sound.toLaid.remember] at hallocate
      obtain ⟨-, rfl⟩ := Prod.mk.inj (some.inj hallocate)
      refine hkeep hsound rfl (fun q => ?_) rfl rfl
      unfold addBlocks
      dsimp only
      split
      · rfl
      · rfl
  | tsFreeId id =>
    unfold tsrmSystem tsFreeId at hstep
    obtain ⟨type, -, hfree⟩ := bind_eq_some_iff.mp hstep
    obtain ⟨frees, calls, hfold⟩ := foldl_freeBlock (id - 1) type s.tlsTable.flatten s
    dsimp only at hfree
    rw [hfold] at hfree
    obtain rfl := some.inj hfree
    refine hkeep hsound rfl (fun q => ?_) rfl rfl
    dsimp only
    split
    · rfl
    · rfl
  | setForceThreadId threadId => cases hcall
  | setInterpreterContext idx => cases hcall
  | createTsrmTlsEntry idx => cases hcall

theorem Active.exec {calls : List TsrmCall} (h : Active n i s)
    (hcalls : ∀ call ∈ calls, call.phpLevel) (hexec : tsrmSystem.exec s calls = some s') :
    Active n i s' := by
  -- induction on the calls
  induction calls generalizing s with
  | nil =>
    obtain rfl := some.inj hexec
    exact h
  | cons call calls ih =>
    obtain ⟨t, hstep, hrest⟩ := bind_eq_some_iff.mp hexec
    exact ih (h.phpLevel (hcalls call mem_cons_self) hstep)
      (fun call' hcall' => hcalls call' (mem_cons_of_mem _ hcall')) hrest

theorem Created.threaded (h : Created n n s) : Threaded n s where
  sound := h.sound
  table := by
    rw [h.table, Nat.sub_self, replicate_zero, append_nil]
  threads i hi := by rw [h.threads i hi]

end Tsrm

/-! ## Runs -/

namespace Engine

variable {x x' : Engine} {e : EngineEvent} {n : Nat}

/-- The contexts of the worker and the entries of the manager have the same numbers. -/
structure Matched (n : Nat) (x : Engine) : Prop where
  worker : x.worker.Within n
  tsrm : x.tsrm.Threaded n

theorem Matched.switches {i : Nat} {calls : List TsrmCall} (h : Matched n x)
    (hswitch : x.switches e = (some i, calls)) : i < n := by
  obtain ⟨hi, -⟩ := Prod.mk.inj hswitch
  cases e with
  | initRound idx calls =>
    dsimp only at hi
    split at hi
    · rename_i hidx
      rw [h.tsrm.length_table] at hidx
      rwa [← some.inj hi]
    · cases hi
  | callback e calls =>
    obtain ⟨c, hc, rfl⟩ := map_eq_some_iff.mp hi
    have hlt := h.worker.callbackContext hc
    rwa [h.worker.pool.threads c hlt]
  | progress call calls =>
    obtain ⟨c, hc, rfl⟩ := map_eq_some_iff.mp hi
    obtain ⟨k, hk, rfl⟩ := map_eq_some_iff.mp hc
    have hlt := h.worker.calls k (mem_of_find?_eq_some hk)
    rwa [h.worker.pool.threads _ hlt]

theorem Matched.step (h : Matched n x) (hstep : engineSystem.step x e = some x') :
    Matched n x' := by
  obtain ⟨worker, hworker, hrest⟩ := bind_eq_some_iff.mp hstep
  have hwithin : worker.Within n := by
    cases e with
    | initRound idx calls => exact some.inj hworker ▸ h.worker
    | callback e calls => exact h.worker.step hworker
    | progress call calls => exact some.inj hworker ▸ h.worker
  cases hswitch : x.switches e with
  | mk target calls =>
    rw [hswitch] at hrest
    cases target with
    | some i =>
      dsimp only at hrest
      split at hrest
      · rename_i hcalls
        obtain ⟨tsrm, hexec, heq⟩ := bind_eq_some_iff.mp hrest
        obtain rfl := some.inj heq
        exact ⟨hwithin, ((h.tsrm.checkout (h.switches hswitch)).exec hcalls hexec).toThreaded⟩
      · cases hrest
    | none =>
      dsimp only at hrest
      split at hrest
      · obtain rfl := some.inj hrest
        exact ⟨hwithin, h.tsrm⟩
      · cases hrest

theorem matched_start (n expectedResources : Nat) (pthreadSelf : ThreadT) (maxRequests : Nat) :
    ∃ x, start n expectedResources pthreadSelf maxRequests = some x ∧ Matched n x := by
  obtain ⟨s, hexec, hcreated⟩ := Tsrm.created_range
    (Tsrm.created_tsrmStartup n expectedResources pthreadSelf) n (Nat.le_refl n)
  have hthreaded := hcreated.threaded
  refine ⟨⟨Worker.init (List.range n) maxRequests, s.checkoutCoroutineContext 0⟩, ?_,
    Worker.within_init n maxRequests, ?_⟩
  · rw [start, Tsrm.createCoroutines, hexec]
    rfl
  · exact ⟨⟨⟨hthreaded.sound.types, hthreaded.sound.nodup, hthreaded.sound.fresh,
      hthreaded.sound.storage⟩, hthreaded.sound.ids⟩, hthreaded.table, hthreaded.threads⟩

/-- The entry at `threadId` is the active one: the thread-local pointer, `force_thread_id` and the
thread id in the entry say so, and both paths of `ts_resource_ex` lead to it. -/
structure ActiveEntry (s : Tsrm) (threadId : Nat) : Prop where
  cache : ∃ p, s.tsrmGetLsCache = some p ∧ s.getTsrmTlsEntry threadId = some p ∧
    (s.entries p).threadId = threadId
  force : s.forceThreadId = threadId
  paths : ∀ id, s.tsResource id = s.tsResourceOf id s.tsrmThreadId

theorem activeEntry_of_active {s : Tsrm} {i : Nat} (h : s.Active n i) : ActiveEntry s i where
  cache := ⟨i, h.tls, h.getTsrmTlsEntry h.lt, h.threads i h.lt⟩
  force := h.force
  paths := h.tsResource_eq

/-- What holds whenever a callback of the engine runs code of a context: after the switch, and
after each call of that code, the entry of the coroutine is the active one. -/
def SwitchesActive (x : Engine) (e : EngineEvent) : Prop :=
  ∀ i calls, x.switches e = (some i, calls) →
    ∀ done left s, calls = done ++ left → (∀ call ∈ done, call.phpLevel) →
      tsrmSystem.exec (x.tsrm.checkoutCoroutineContext i) done = some s → ActiveEntry s i

theorem Matched.switchesActive (h : Matched n x) (e : EngineEvent) : x.SwitchesActive e := by
  intro i calls hswitch done left s _ hdone hexec
  exact activeEntry_of_active ((h.tsrm.checkout (h.switches hswitch)).exec hdone hexec)

/-- **The active entry is that of the running coroutine.** From the start with `n` coroutines on,
in whatever order the callbacks come, the code that a callback runs finds the entry of its own
context; two contexts in use have different numbers; and the entry at an index has it as its thread
id. -/
theorem active_entry (n expectedResources : Nat) (pthreadSelf : ThreadT) (maxRequests : Nat)
    (es : List EngineEvent) :
    ∃ x₀, start n expectedResources pthreadSelf maxRequests = some x₀ ∧
      engineSystem.Along SwitchesActive x₀ es ∧
      ∀ x, engineSystem.FreeRun x₀ es x →
        (∀ c c', x.worker.pool.links.OnChain x.worker.pool.contextUse c →
          x.worker.pool.links.OnChain x.worker.pool.contextUse c' →
          x.worker.pool.threadId c = x.worker.pool.threadId c' → c = c') ∧
        ∀ i < n, ∃ p, x.tsrm.getTsrmTlsEntry i = some p ∧ (x.tsrm.entries p).threadId = i := by
  obtain ⟨x₀, hstart, hmatched⟩ := matched_start n expectedResources pthreadSelf maxRequests
  refine ⟨x₀, hstart, ?_, fun x hrun => ?_⟩
  · exact EventSystem.Along.of_invariant (fun _ _ _ h hstep => Matched.step h hstep)
      (fun _ e h => h.switchesActive e) es hmatched
  · have h : Matched n x := hrun.invariant (fun _ _ _ h _ hstep => Matched.step h hstep) hmatched
    have hpool := h.worker.pool
    refine ⟨fun c c' hc hc' heq => ?_, fun i hi => ⟨i, h.tsrm.getTsrmTlsEntry hi,
      h.tsrm.threads i hi⟩⟩
    rwa [hpool.threads c (hpool.links.onChain hpool.contextUse hc),
      hpool.threads c' (hpool.links.onChain hpool.contextUse hc')] at heq

end Engine

end Phpce
