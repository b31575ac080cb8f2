import Phpce.Worker.Outcome

/-!
# The memory of a request and its remote calls

`coro_http_get` takes two blocks from the memory of its request, the `coro_http_param` and the
buffer for the response, and keeps a pointer to the frame for the result. The four callbacks of
the call use them. `php_request_shutdown` releases the memory of the request.

* **`not_released_of_run`** — while requests are closed only when they have no call outstanding,
  no callback uses released memory.
* **`released_after_eof`** — a reply after the client has left.
-/

namespace Phpce

open Function (update update_of_ne)

/-- Memory of the request that a context had after so many shutdowns. -/
structure Block where
  context : ContextPtr
  request : Nat
  deriving DecidableEq, Repr

inductive Access where
  | read
  | write
  | free
  deriving DecidableEq, Repr

/-- What a callback does to a block, and whether it has been released with its request. -/
structure BlockUse where
  access : Access
  block : Block
  released : Bool
  deriving DecidableEq, Repr

/-- The memory of the requests: how often `php_request_shutdown` has run to its end on a context,
the `coro_http_param` of each call, the two pointers in a context, and the uses in the last
callback, the latest first. -/
structure RequestMemory where
  shutdowns : ContextPtr → Nat
  params : Nat → Option Block
  tmpData : ContextPtr → Option Block
  returnValue : ContextPtr → Option Block
  uses : List BlockUse

namespace RequestMemory

def emalloc (m : RequestMemory) (c : ContextPtr) : Block := ⟨c, m.shutdowns c⟩

/-- Nothing is used through a null pointer. -/
def use (m : RequestMemory) (access : Access) : Option Block → RequestMemory
  | some block =>
      { m with
        uses := ⟨access, block, decide (block.request < m.shutdowns block.context)⟩ :: m.uses }
  | none => m

/-- `coro_http_get`, when the call `k` is made. -/
def coroHttpGet (m : RequestMemory) (k : RemoteCall) : RequestMemory :=
  { m with
    params := update m.params k.id (m.emalloc k.context)
    tmpData := update m.tmpData k.context (m.emalloc k.context)
    returnValue := update m.returnValue k.context (m.emalloc k.context) }

/-- `free_request` -/
def freeRequest (m : RequestMemory) (k : RemoteCall) : RequestMemory :=
  (m.use .read (m.params k.id)).use .free (m.params k.id)

/-- `ReadHeaderDoneCallback` -/
def readHeaderDoneCallback (m : RequestMemory) (k : RemoteCall) : RequestMemory :=
  m.use .read (m.params k.id)

/-- `ReadChunkCallback`: the chunk is added to the buffer. -/
def readChunkCallback (m : RequestMemory) (k : RemoteCall) : RequestMemory :=
  (m.use .read (m.params k.id)).use .write (m.tmpData k.context)

/-- `RemoteRequestErrorCallback`: the message is added to the buffer. -/
def remoteRequestErrorCallback (m : RequestMemory) (k : RemoteCall) : RequestMemory :=
  (m.use .read (m.params k.id)).use .write (m.tmpData k.context)

/-- `RemoteReadCallback`, up to where it resumes the context. -/
def remoteReadCallback (m : RequestMemory) (k : RemoteCall) : RequestMemory :=
  let m := m.use .read (m.params k.id)
  let m := m.use .read (m.tmpData k.context)
  let m := m.use .write (m.returnValue k.context)
  let m := m.use .free (m.tmpData k.context)
  { m with tmpData := update m.tmpData k.context none }.freeRequest k

/-- The end of `php_request_shutdown`. -/
def phpRequestShutdown (m : RequestMemory) (c : ContextPtr) : RequestMemory :=
  { m with shutdowns := update m.shutdowns c (m.shutdowns c + 1) }

def received (m : RequestMemory) (w : Worker) : WorkerEvent → RequestMemory
  | .reply call _ _ =>
      match w.calls.find? fun k => k.id = call with
      | some k => m.remoteReadCallback k
      | none => m
  | _ => m

/-- The callback of an event that takes the worker from `w` to `w'`: its own part, the end of the
request that it closes, and the call that it makes. -/
def callback (m : RequestMemory) (w w' : Worker) (e : WorkerEvent) : RequestMemory :=
  let m := m.received w e
  let m := match w.shutsDown e with
    | some c => m.phpRequestShutdown c
    | none => m
  match w'.calls.find? fun k => w.nextId ≤ k.id with
  | some k => m.coroHttpGet k
  | none => m

end RequestMemory

structure Remote where
  worker : Worker
  memory : RequestMemory

/-- An event of the worker, or what `evhttp` tells about a call before it completes. -/
inductive RemoteEvent where
  | worker (e : WorkerEvent)
  | header (call : Nat)
  | chunk (call : Nat)
  | requestError (call : Nat)
  deriving DecidableEq, Repr

namespace Remote

def progress (x : Remote) (call : Nat) (callback : RequestMemory → RemoteCall → RequestMemory) :
    Option Remote :=
  if x.worker.status = .running then
    (x.worker.calls.find? fun k => k.id = call).map fun k =>
      { x with memory := callback { x.memory with uses := [] } k }
  else none

def step (x : Remote) : RemoteEvent → Option Remote
  | .worker e =>
      (workerSystem.step x.worker e).map fun worker =>
        ⟨worker, { x.memory with uses := [] }.callback x.worker worker e⟩
  | .header call => x.progress call .readHeaderDoneCallback
  | .chunk call => x.progress call .readChunkCallback
  | .requestError call => x.progress call .remoteRequestErrorCallback

def start (idxs : List Nat) (maxRequests : Nat) : Remote :=
  ⟨Worker.init idxs maxRequests, ⟨fun _ => 0, fun _ => none, fun _ => none, fun _ => none, []⟩⟩

end Remote

def remoteSystem : EventSystem Remote RemoteEvent where
  step := Remote.step

/-! ## Released memory -/

namespace RequestMemory

variable {m m' : RequestMemory} {c : ContextPtr} {k k' : RemoteCall} {access : Access}
  {block : Option Block}

/-- What the callbacks of the call use belongs to the request that its context has now. -/
structure Fresh (m : RequestMemory) (k : RemoteCall) : Prop where
  param : m.params k.id = some (m.emalloc k.context)
  tmpData : ∀ b ∈ m.tmpData k.context, b = m.emalloc k.context
  returnValue : ∀ b ∈ m.returnValue k.context, b = m.emalloc k.context

def NotReleased (m : RequestMemory) : Prop := ∀ u ∈ m.uses, u.released = false

@[simp] theorem shutdowns_use : (m.use access block).shutdowns = m.shutdowns := by
  cases block <;> rfl

@[simp] theorem params_use : (m.use access block).params = m.params := by
  cases block <;> rfl

@[simp] theorem tmpData_use : (m.use access block).tmpData = m.tmpData := by
  cases block <;> rfl

@[simp] theorem returnValue_use : (m.use access block).returnValue = m.returnValue := by
  cases block <;> rfl

def Current (m : RequestMemory) (b : Block) : Prop := b.request = m.shutdowns b.context

@[simp] theorem current_use {b : Block} : (m.use access block).Current b ↔ m.Current b := by
  rw [Current, shutdowns_use, Current]

theorem NotReleased.use (h : m.NotReleased) (access : Access) (hblock : ∀ b ∈ block, m.Current b) :
    (m.use access block).NotReleased := by
  cases block with
  | none => exact h
  | some b =>
    have hb : b.request = m.shutdowns b.context := hblock b rfl
    intro u hu
    rcases List.mem_cons.mp hu with rfl | hu
    · simp [hb]
    · exact h u hu

theorem Fresh.current (h : m.Fresh k) : (∀ b ∈ m.params k.id, m.Current b) ∧
    (∀ b ∈ m.tmpData k.context, m.Current b) ∧ ∀ b ∈ m.returnValue k.context, m.Current b := by
  refine ⟨fun b hb => ?_, fun b hb => ?_, fun b hb => ?_⟩
  · obtain rfl : m.emalloc k.context = b := Option.some.inj (h.param.symm.trans hb)
    rfl
  · rw [h.tmpData b hb]
    rfl
  · rw [h.returnValue b hb]
    rfl

theorem Fresh.use (h : m.Fresh k) : (m.use access block).Fresh k where
  param := by simpa [emalloc] using h.param
  tmpData := by simpa [emalloc] using h.tmpData
  returnValue := by simpa [emalloc] using h.returnValue

theorem Fresh.header (h : m.Fresh k) (hm : m.NotReleased) :
    (m.readHeaderDoneCallback k).NotReleased :=
  hm.use .read h.current.1

theorem Fresh.chunk (h : m.Fresh k) (hm : m.NotReleased) : (m.readChunkCallback k).NotReleased :=
  (hm.use .read h.current.1).use .write (by simpa using h.current.2.1)

theorem Fresh.requestError (h : m.Fresh k) (hm : m.NotReleased) :
    (m.remoteRequestErrorCallback k).NotReleased :=
  (hm.use .read h.current.1).use .write (by simpa using h.current.2.1)

theorem notReleased_withTmpData {tmpData : ContextPtr → Option Block} :
    NotReleased { m with tmpData := tmpData } ↔ m.NotReleased := Iff.rfl

theorem Fresh.read (h : m.Fresh k) (hm : m.NotReleased) :
    (m.remoteReadCallback k).NotReleased := by
  obtain ⟨hparam, htmpData, hreturnValue⟩ := h.current
  -- `free_request` comes last
  refine NotReleased.use (NotReleased.use (notReleased_withTmpData.mpr ?_) .read ?_) .free ?_
  · have hread : ((m.use .read (m.params k.id)).use .read (m.tmpData k.context)).NotReleased :=
      (hm.use .read hparam).use .read (by simpa)
    have hresult := hread.use .write (by simpa using hreturnValue)
    have hfree : (RequestMemory.use _ .free (m.tmpData k.context)).NotReleased :=
      hresult.use .free (by simpa)
    simpa using hfree
  · simpa [Current] using hparam
  · simpa [Current] using hparam

@[simp] theorem shutdowns_remoteReadCallback :
    (m.remoteReadCallback k).shutdowns = m.shutdowns := by
  simp [remoteReadCallback, freeRequest]

@[simp] theorem params_remoteReadCallback : (m.remoteReadCallback k).params = m.params := by
  simp [remoteReadCallback, freeRequest]

@[simp] theorem tmpData_remoteReadCallback :
    (m.remoteReadCallback k).tmpData = update m.tmpData k.context none := by
  simp [remoteReadCallback, freeRequest]

@[simp] theorem returnValue_remoteReadCallback :
    (m.remoteReadCallback k).returnValue = m.returnValue := by
  simp [remoteReadCallback, freeRequest]

theorem Fresh.remoteReadCallback (h : m.Fresh k') : (m.remoteReadCallback k).Fresh k' where
  param := by simpa [emalloc] using h.param
  tmpData b hb := by
    by_cases hc : k'.context = k.context
    · simp [hc] at hb
    · simpa [emalloc] using h.tmpData b (by simpa [update_of_ne hc] using hb)
  returnValue := by simpa [emalloc] using h.returnValue

theorem Fresh.phpRequestShutdown (h : m.Fresh k') (hc : k'.context ≠ c) :
    (m.phpRequestShutdown c).Fresh k' := by
  have hemalloc : (m.phpRequestShutdown c).emalloc k'.context = m.emalloc k'.context := by
    simp [emalloc, RequestMemory.phpRequestShutdown, update_of_ne hc]
  refine ⟨?_, ?_, ?_⟩ <;> rw [hemalloc]
  · exact h.param
  · exact h.tmpData
  · exact h.returnValue

theorem Fresh.coroHttpGet (h : m.Fresh k') (hid : k'.id ≠ k.id) : (m.coroHttpGet k).Fresh k' where
  param := by
    simpa [RequestMemory.coroHttpGet, update_of_ne hid, emalloc] using h.param
  tmpData b hb := by
    by_cases hc : k'.context = k.context
    · simpa [RequestMemory.coroHttpGet, hc, eq_comm, emalloc] using hb
    · exact h.tmpData b (by simpa [RequestMemory.coroHttpGet, update_of_ne hc] using hb)
  returnValue b hb := by
    by_cases hc : k'.context = k.context
    · simpa [RequestMemory.coroHttpGet, hc, eq_comm, emalloc] using hb
    · exact h.returnValue b
        (by simpa [RequestMemory.coroHttpGet, update_of_ne hc] using hb)

theorem fresh_coroHttpGet : (m.coroHttpGet k).Fresh k where
  param := by simp [coroHttpGet, emalloc]
  tmpData b hb := by simpa [coroHttpGet, eq_comm, emalloc] using hb
  returnValue b hb := by simpa [coroHttpGet, eq_comm, emalloc] using hb

end RequestMemory

/-! ## Runs -/

def WorkerEvent.completes : WorkerEvent → Nat → Bool
  | .reply call _ _, id => call = id
  | _, _ => false

namespace Remote

open RequestMemory

variable {x x' : Remote} {e : WorkerEvent} {c : ContextPtr} {k : RemoteCall}

/-- The event runs `php_request_shutdown` to its end only on a context that has no call outstanding
but the one that the event completes. -/
def ClosesIdle (x : Remote) : RemoteEvent → Prop
  | .worker e => ∀ k ∈ x.worker.calls, x.worker.shutsDown e = some k.context →
      e.completes k.id = true
  | _ => True

instance (x : Remote) : (e : RemoteEvent) → Decidable (ClosesIdle x e)
  | .worker e => inferInstanceAs (Decidable (∀ k ∈ x.worker.calls,
      x.worker.shutsDown e = some k.context → e.completes k.id = true))
  | .header _ | .chunk _ | .requestError _ => inferInstanceAs (Decidable True)

/-- The invariant: what the outstanding calls have belongs to the requests that are open. -/
structure Inv (x : Remote) : Prop where
  ids : ∀ k ∈ x.worker.calls, k.id < x.worker.nextId
  fresh : ∀ k ∈ x.worker.calls, x.memory.Fresh k

theorem inv_start (idxs : List Nat) (maxRequests : Nat) : Inv (start idxs maxRequests) :=
  ⟨nofun, nofun⟩

theorem Inv.progress {call : Nat} {callback : RequestMemory → RemoteCall → RequestMemory}
    (h : Inv x) (hstep : x.progress call callback = some x')
    (hsafe : ∀ m k, Fresh m k → m.NotReleased → (callback m k).NotReleased)
    (hkeeps : ∀ m k k', Fresh m k' → Fresh (callback m k) k') :
    Inv x' ∧ x'.memory.NotReleased := by
  unfold Remote.progress at hstep
  split at hstep
  · obtain ⟨k, hk, rfl⟩ := Option.map_eq_some_iff.mp hstep
    have hfresh : ∀ k ∈ x.worker.calls, Fresh { x.memory with uses := [] } k := fun k hk =>
      ⟨(h.fresh k hk).param, (h.fresh k hk).tmpData, (h.fresh k hk).returnValue⟩
    exact ⟨⟨h.ids, fun k' hk' => hkeeps _ _ _ (hfresh k' hk')⟩,
      hsafe _ _ (hfresh k (List.mem_of_find?_eq_some hk)) nofun⟩
  · cases hstep

theorem received_spec {m : RequestMemory} {w : Worker} (hm : m.NotReleased)
    (hfresh : ∀ k ∈ w.calls, m.Fresh k) (e : WorkerEvent) :
    (m.received w e).NotReleased ∧ ∀ k ∈ w.calls, (m.received w e).Fresh k := by
  cases e with
  | reply call exit shutdown =>
    cases hk : w.calls.find? fun k => k.id = call with
    | none =>
      simp only [RequestMemory.received, hk]
      exact ⟨hm, hfresh⟩
    | some k =>
      simp only [RequestMemory.received, hk]
      exact ⟨(hfresh k (List.mem_of_find?_eq_some hk)).read hm,
        fun k' hk' => (hfresh k' hk').remoteReadCallback⟩
  | accept fd => exact ⟨hm, hfresh⟩
  | readable bev path shutdown => exact ⟨hm, hfresh⟩
  | clientEof bev shutdown => exact ⟨hm, hfresh⟩

theorem ne_of_shutsDown {w : Worker} {e : WorkerEvent}
    (hguard : ∀ k ∈ w.calls, w.shutsDown e = some k.context → e.completes k.id = true)
    (hk : k ∈ (w.received e).calls) (hc : w.shutsDown e = some c) : k.context ≠ c := by
  rintro rfl
  have hcompletes := hguard k (Worker.mem_received hk) hc
  cases e with
  | reply call exit shutdown =>
    have hne : k.id ≠ call := by simpa using (List.mem_filter.mp hk).2
    exact hne (by simpa [WorkerEvent.completes, eq_comm] using hcompletes)
  | accept fd => cases hcompletes
  | readable bev path shutdown => cases hcompletes
  | clientEof bev shutdown => cases hcompletes

theorem inv_step {e : RemoteEvent} (h : Inv x) (hguard : ClosesIdle x e)
    (hstep : remoteSystem.step x e = some x') : Inv x' ∧ x'.memory.NotReleased := by
  cases e with
  | header call => exact h.progress hstep (fun _ _ => Fresh.header) fun _ _ _ hk => hk.use
  | chunk call => exact h.progress hstep (fun _ _ => Fresh.chunk) fun _ _ _ hk => hk.use.use
  | requestError call =>
    exact h.progress hstep (fun _ _ => Fresh.requestError) fun _ _ _ hk => hk.use.use
  | worker e =>
    obtain ⟨w', hw, rfl⟩ := Option.map_eq_some_iff.mp hstep
    obtain ⟨-, hout⟩ := Worker.outcome_of_step hw
    have hnext : x.worker.nextId ≤ w'.nextId := by simpa using hout.next
    obtain ⟨hm₁, hfresh₁⟩ := received_spec (m := { x.memory with uses := [] }) (w := x.worker)
      nofun (fun k hk => ⟨(h.fresh k hk).param, (h.fresh k hk).tmpData,
        (h.fresh k hk).returnValue⟩) e
    obtain ⟨m₂, hm₂⟩ : ∃ m₂, m₂ = match x.worker.shutsDown e with
      | some c => (RequestMemory.received { x.memory with uses := [] } x.worker
          e).phpRequestShutdown c
      | none => RequestMemory.received { x.memory with uses := [] } x.worker e := ⟨_, rfl⟩
    -- after the end of the request
    have hclosed : m₂.NotReleased ∧ ∀ k ∈ (x.worker.received e).calls, m₂.Fresh k := by
      cases hc : x.worker.shutsDown e with
      | none =>
        rw [hc] at hm₂
        rw [hm₂]
        exact ⟨hm₁, fun k hk => hfresh₁ k (Worker.mem_received hk)⟩
      | some c =>
        rw [hc] at hm₂
        rw [hm₂]
        exact ⟨hm₁, fun k hk => (hfresh₁ k (Worker.mem_received hk)).phpRequestShutdown
          (ne_of_shutsDown hguard hk hc)⟩
    have hcallback : RequestMemory.callback { x.memory with uses := [] } x.worker w' e =
        match w'.calls.find? fun k => x.worker.nextId ≤ k.id with
        | some k => m₂.coroHttpGet k
        | none => m₂ := by
      rw [hm₂]
      rfl
    have hlt : ∀ k ∈ (x.worker.received e).calls, k.id < x.worker.nextId := fun k hk =>
      h.ids k (Worker.mem_received hk)
    rw [hcallback]
    rcases hout.calls_cases with hkept | ⟨k, kept, heq, hkept, hle, hltnew⟩
    · have hnone : (w'.calls.find? fun k => x.worker.nextId ≤ k.id) = none := by
        refine List.find?_eq_none.mpr fun k hk => ?_
        simpa using hlt k (hkept k hk)
      rw [hnone]
      exact ⟨⟨fun k hk => Nat.lt_of_lt_of_le (hlt k (hkept k hk)) hnext,
        fun k hk => hclosed.2 k (hkept k hk)⟩, hclosed.1⟩
    · have hsome : (w'.calls.find? fun k => x.worker.nextId ≤ k.id) = some k := by
        rw [heq, List.find?_cons_of_pos (by simpa using hle)]
      rw [hsome]
      refine ⟨⟨fun k' hk' => ?_, fun k' hk' => ?_⟩, hclosed.1⟩
      · rcases List.mem_cons.mp (heq ▸ hk') with rfl | hk'
        · exact hltnew
        · exact Nat.lt_of_lt_of_le (hlt k' (hkept k' hk')) hnext
      · rcases List.mem_cons.mp (heq ▸ hk') with rfl | hk'
        · exact fresh_coroHttpGet
        · refine (hclosed.2 k' (hkept k' hk')).coroHttpGet ?_
          have hnew : x.worker.nextId ≤ k.id := by simpa using hle
          exact Nat.ne_of_lt (Nat.lt_of_lt_of_le (hlt k' (hkept k' hk')) hnew)

/-- **While requests close idle**, no callback uses released memory. -/
theorem not_released_of_run {idxs : List Nat} {maxRequests : Nat} {es : List RemoteEvent}
    (hrun : remoteSystem.Run ClosesIdle (start idxs maxRequests) es x) : x.memory.NotReleased := by
  have hinv : Inv x ∧ x.memory.NotReleased :=
    hrun.invariant (fun _ _ _ h hguard hstep => inv_step h.1 hguard hstep)
      ⟨inv_start idxs maxRequests, nofun⟩
  exact hinv.2

/-- A request that suspends and is resumed to its end by a reply with a header and a chunk. -/
theorem not_released_of_run_reply : ∃ x, remoteSystem.Run ClosesIdle (start [0] 0)
      [.worker (.accept 5), .worker (.readable 0 (.executed [.yielded]) .completes), .header 4,
        .chunk 4, .worker (.reply 4 .finished .completes)] x ∧
    x.memory.shutdowns 0 = 1 ∧ x.memory.uses.length = 6 ∧ x.memory.NotReleased := by
  have hrun : ∃ x, remoteSystem.Run ClosesIdle (start [0] 0)
      [.worker (.accept 5), .worker (.readable 0 (.executed [.yielded]) .completes), .header 4,
        .chunk 4, .worker (.reply 4 .finished .completes)] x ∧
      x.memory.shutdowns 0 = 1 ∧ x.memory.uses.length = 6 := by
    refine ⟨_, .cons ?_ rfl <| .cons ?_ rfl <| .cons trivial rfl <| .cons trivial rfl <|
      .cons ?_ rfl <| .nil _, rfl, rfl⟩
    · decide
    · decide
    · decide
  obtain ⟨x, hrun, hshutdowns, huses⟩ := hrun
  exact ⟨x, hrun, hshutdowns, huses, not_released_of_run hrun⟩

/-- **A reply after the client has left**: all that it uses was released with the request. -/
theorem released_after_eof : ¬∀ (idxs : List Nat) (maxRequests : Nat) (es : List RemoteEvent)
    (x : Remote), remoteSystem.FreeRun (start idxs maxRequests) es x → x.memory.NotReleased := by
  intro h
  have hrun := EventSystem.run_of_exec (rfl : remoteSystem.exec (start [0] 0)
    [.worker (.accept 5), .worker (.readable 0 (.executed [.yielded]) .completes),
      .worker (.clientEof 0 .completes), .worker (.reply 4 .finished .completes)] = some _)
  have hread := h _ _ _ _ hrun ⟨.free, ⟨0, 0⟩, true⟩ (by decide)
  cases hread

end Remote

end Phpce
