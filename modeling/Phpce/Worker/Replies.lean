import Phpce.Worker.Transition

/-!
# Whose request a reply resumes

From the moment a request is suspended until its reply, nothing else may replace what its
context holds, and the context may not go back to the pool.

* **`replies_exact_of_undisturbed`** — so it is along every undisturbed run.
* **`not_replies_exact`** — and not along every run: `socket_read_cb` stays registered for the
  client of a suspended request, and the next bytes of that client start another request on the
  same context.
-/

namespace Phpce

namespace Worker

/-- Every outstanding call finds its own request, frame, op array and connection in its context,
which is in use; no context was given back that had not been taken; and every request that was
resumed was the one that had made the call. -/
structure RepliesExact (w : Worker) : Prop where
  held : ∀ k ∈ w.calls, (w.contexts k.context).request = k.issuer.request ∧
    (w.contexts k.context).prevExecuteData = k.issuer.prevExecuteData ∧
    (w.contexts k.context).opArray = k.issuer.opArray ∧
    (w.contexts k.context).bev = k.issuer.bev
  inUse : ∀ k ∈ w.calls, w.pool.links.OnChain w.pool.contextUse k.context ∧
    ¬w.pool.links.OnChain w.pool.contextPool k.context
  released : ∀ c, Trace.Matched (.useContext c) (.freeContext c) w.trace
  resumed : ∀ call held, .resume call held ∈ w.trace →
    held.request = call.issuer.request ∧ held.prevExecuteData = call.issuer.prevExecuteData ∧
      held.opArray = call.issuer.opArray ∧ held.bev = call.issuer.bev

theorem Inv.repliesExact {w : Worker} {S : PoolSpec} {n : Nat} (h : Inv w S n) :
    RepliesExact w where
  held k hk := by
    obtain ⟨-, -, ⟨-, hheld⟩ | ⟨-, hheld⟩⟩ := h.view_of_call hk
    · rw [hheld]
      exact ⟨rfl, rfl, rfl, rfl⟩
    · rw [hheld]
      exact ⟨rfl, rfl, rfl, rfl⟩
  inUse k hk := by
    obtain ⟨hin, -⟩ := h.view_of_call hk
    rw [h.pool.onChain_use, h.pool.onChain_pool]
    exact ⟨hin, fun hfree => h.pool.notMem_inUse hfree hin⟩
  released := h.ledger.matched
  resumed call held hmem := by
    rw [h.ledger.resumes call held hmem]
    exact ⟨rfl, rfl, rfl, rfl⟩

/-- **A reply resumes exactly the request that issued it**, in every state of every run in which
no client's descriptor becomes readable while a request of that client is suspended, and no code
run for a client that has left makes a remote call. -/
theorem replies_exact_of_undisturbed (idxs : List Nat) (maxRequests : Nat)
    {es : List WorkerEvent} {w : Worker}
    (hrun : workerSystem.Run Undisturbed (init idxs maxRequests) es w) : RepliesExact w := by
  obtain ⟨S, hinv⟩ := inv_of_run hrun
  exact hinv.repliesExact

/-- A client connects, its request suspends, the client leaves and the reply comes late. -/
def lateReplyRun : List WorkerEvent :=
  [.accept 5, .readable 0 (.executed [.yielded]) .completes, .clientEof 0 .completes,
    .reply 4 .finished .completes]

theorem replies_exact_of_undisturbed_late :
    ∃ w, workerSystem.Run Undisturbed (init [0] 0) lateReplyRun w ∧ RepliesExact w := by
  have hrun : ∃ w, workerSystem.Run Undisturbed (init [0] 0) lateReplyRun w := by
    refine ⟨_, .cons trivial rfl <| .cons ?_ rfl <| .cons rfl rfl <| .cons trivial rfl <|
      .nil _⟩
    rintro b - - ⟨k, hk, -⟩
    cases hk
  obtain ⟨w, hw⟩ := hrun
  exact ⟨w, hw, replies_exact_of_undisturbed [0] 0 hw⟩

/-- **More bytes of the client of a suspended request start another request on its context**,
which runs to its end and gives the context back while the call is outstanding. -/
theorem not_replies_exact :
    ¬∀ (idxs : List Nat) (maxRequests : Nat) (es : List WorkerEvent) (w : Worker),
      idxs ≠ [] → workerSystem.FreeRun (init idxs maxRequests) es w → RepliesExact w := by
  intro h
  have hrun : ∃ w, workerSystem.exec (init [0] 0)
      [.accept 5, .readable 0 (.executed [.yielded]) .completes,
        .readable 0 (.executed [.finished]) .completes] = some w ∧
      w.calls.map (fun k => (k.context, k.issuer.request)) = [(0, some ⟨1, 5, 0⟩)] ∧
      (w.contexts 0).request = some ⟨5, 5, 0⟩ := ⟨_, rfl, rfl, rfl⟩
  obtain ⟨w, hexec, hcalls, hrequest⟩ := hrun
  have hexact := h [0] 0 _ w (by simp) (EventSystem.run_of_exec hexec)
  -- the outstanding call was made by request 1, and its context holds request 5
  obtain ⟨k, hk, hkeq⟩ := List.mem_map.mp (hcalls ▸ List.mem_singleton_self _ :
    (0, some (⟨1, 5, 0⟩ : FcgiRequest)) ∈ w.calls.map fun k => (k.context, k.issuer.request))
  obtain ⟨hctx, hissuer⟩ := Prod.mk.inj hkeq
  have hheld := (hexact.held k hk).1
  rw [hctx, hissuer, hrequest] at hheld
  exact absurd hheld (by decide)

end Worker

end Phpce
