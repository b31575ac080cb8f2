import Mathlib.Data.Finset.Card
import Phpce.Worker.Transition

/-!
# No context is lost

A context is kept when it is free, or in use by a client that is connected, or in use by a call
whose reply will give it back.

* **`contexts_kept_of_retaining`** — every context is kept along every run in which a client
  leaves only while its request is suspended (and no request start fails, and no suspended
  request is disturbed); with no client and no call left, all contexts are free.
* **`not_contexts_kept`** — `event_cb` counts on a reply to give the context back. A client that
  leaves before it has sent a request takes its context with it.
-/

namespace Phpce

namespace Worker

/-- The context `c` is free, or in use with a live bufferevent, or in use with an outstanding
call whose completion finds the client gone and gives the context back. -/
def Kept (w : Worker) (c : ContextPtr) : Prop :=
  w.pool.links.OnChain w.pool.contextPool c ∨
    w.pool.links.OnChain w.pool.contextUse c ∧
      ((∃ b ∈ w.bevs, b.context = c ∧ (w.contexts c).bev = some b.id ∧ b.fdOpen) ∨
        (w.contexts c).fd = 0 ∧ ∃ k ∈ w.calls, k.context = c)

/-- Each of the `n` contexts is kept, and all are free when no client is connected and no call
is outstanding. -/
def ContextsKept (w : Worker) (n : Nat) : Prop :=
  (∀ c < n, w.Kept c) ∧
    ((∀ b ∈ w.bevs, ¬b.fdOpen) → w.calls = [] → w.pool.contextCount = n)

/-- The event does not cost the worker a context: no suspended request is disturbed, no request
start fails, and a client leaves only while its request is suspended. -/
def Retaining (w : Worker) : WorkerEvent → Prop
  | .accept _ => True
  | .readable bev path _ =>
      (∀ b ∈ w.bevs, b.id = bev → ¬w.SuspendedAt b.context) ∧ path ≠ .startupFailed
  | .clientEof bev shutdown =>
      (∀ b ∈ w.bevs, b.id = bev → w.SuspendedAt b.context) ∧ shutdown = .completes
  | .reply _ _ _ => True

variable {w w' : Worker} {c : ContextPtr} {b : Bufferevent} {S S' : PoolSpec} {n : Nat}
  {e : WorkerEvent}

theorem Retaining.undisturbed (h : w.Retaining e) : w.Undisturbed e := by
  cases e with
  | accept fd => trivial
  | readable bev path shutdown => exact h.1
  | clientEof bev shutdown => exact h.2
  | reply call exit shutdown => trivial

/-- No context in use is without a client and a call, and no client's descriptor is closed under
its bufferevent. -/
structure NoneLost (w : Worker) (S : PoolSpec) : Prop where
  busy : ∀ c ∈ S.inUse, (w.view c).Busy
  fdOpen : ∀ b ∈ w.bevs, b.fdOpen

/-! ## One event -/

theorem NoneLost.update (h : NoneLost w S) (helse : SameElsewhere c w w')
    (hin : ∀ c' ∈ S'.inUse, c' = c ∨ c' ∈ S.inUse) (hself : c ∈ S'.inUse → (w'.view c).Busy)
    (hopen : ∀ b ∈ w'.bevs, b.fdOpen) : NoneLost w' S' where
  busy c' hc' := by
    by_cases hcc : c' = c
    · subst hcc
      exact hself hc'
    · rw [helse c' hcc]
      exact h.busy c' ((hin c' hc').resolve_left hcc)
  fdOpen := hopen

theorem NoneLost.release {delta : List Effect} (h : NoneLost w S)
    (htouched : Touched c delta w w') (hsub : w'.bevs.Sublist w.bevs) :
    NoneLost w' (S.release c) := by
  refine h.update htouched.elsewhere ?_ ?_ fun b hb => h.fdOpen b (hsub.subset hb)
  · intro c' hc'
    exact Or.inr (Finset.mem_of_mem_erase hc')
  · intro hc
    exact absurd hc (Finset.notMem_erase c S.inUse)

theorem NoneLost.keep {delta : List Effect} (h : NoneLost w S)
    (htouched : Touched c delta w w') (hbevs : w'.bevs.Sublist w.bevs)
    (hbusy : (w'.view c).Busy) : NoneLost w' S :=
  h.update htouched.elsewhere (fun _ hc' => Or.inr hc') (fun _ => hbusy)
    fun b hb => h.fdOpen b (hbevs.subset hb)

theorem Transition.noneLost (hinv : Inv w S n) (h : NoneLost w S) (hguard : w.Retaining e)
    (ht : Transition w S n e w' S') : NoneLost w' S' := by
  cases ht with
  | ignored => exact h
  | starved hpool hview hids htrace hbevs hnext hstatus =>
    exact ⟨fun c hc => by rw [hview c]; exact h.busy c hc, hbevs ▸ h.fdOpen⟩
  | @accepted _ _ c b hpool hc htouched hstatus hbevs hopen hatt hcalls =>
    refine h.update htouched.elsewhere ?_ (fun _ => Or.inl ⟨⟨b, hatt⟩, hcalls⟩) ?_
    · intro c' hc'
      rw [use_inUse hc] at hc'
      exact Finset.mem_insert.mp hc'
    · intro b' hb'
      rcases List.mem_cons.mp (hbevs ▸ hb') with rfl | hb'
      · exact hopen
      · exact h.fdOpen b' hb'
  | served hb hpool hserials hfresh hexits htouched hstatus hsub hvacant =>
    exact h.release htouched hsub
  | suspended hb hpool hserials hfresh htouched hbevs hsusp hop hs hlo hhi =>
    exact h.keep htouched (hbevs ▸ List.Sublist.refl _) (Or.inr (Or.inl hsusp))
  | closingLost hb hpool hserials hfresh htouched hstatus hbevs hsusp =>
    exact h.keep htouched (hbevs ▸ List.Sublist.refl _) (Or.inr (Or.inl hsusp))
  | startupFailed hb hpool htouched hstatus hconn => exact absurd rfl hguard.2
  | @clientLeft b w' hb hpool htouched hstatus hsub hbevs hctx hcalls =>
    -- the client's request is suspended, so a reply will come
    have hsusp := suspendedAt_iff.mp (hguard.1 b hb rfl)
    obtain ⟨-, -, hstage⟩ := hinv.view_of_bev hb
    obtain ⟨-, k, hk, hheld⟩ := hstage.resolve_left hsusp
    refine h.keep htouched hsub (Or.inr (Or.inr ⟨hbevs, ?_, k, hcalls.trans hk, ?_⟩))
    · show (w'.contexts b.context).fd = 0
      rw [hctx]
    · show w'.contexts b.context = _
      rw [hctx, ← hheld]
      rfl
  | late hk hbefore hpool htouched hstatus hsub hvacant => exact h.release htouched hsub
  | again hk hbefore hpool htouched hstatus hbevs hsusp hop =>
    exact h.keep htouched (hbevs ▸ List.Sublist.refl _) (Or.inr (Or.inl hsusp))
  | bailout hk hbefore hpool htouched hstatus hbevs hconn =>
    exact h.keep htouched (hbevs ▸ List.Sublist.refl _) (Or.inl hconn)
  | closing hk hbefore hpool htouched hstatus hbevs hsusp =>
    exact h.keep htouched (hbevs ▸ List.Sublist.refl _) (Or.inr (Or.inl hsusp))
  | finished hk hbefore hpool htouched hstatus hsub hvacant => exact h.release htouched hsub

/-! ## Reading the property off -/

theorem NoneLost.kept (hinv : Inv w S n) (h : NoneLost w S) (hc : c < n) : w.Kept c := by
  rcases hinv.pool.mem_free_or_inUse.mp hc with hfree | hin
  · exact Or.inl (hinv.pool.onChain_pool.mpr hfree)
  refine Or.inr ⟨hinv.pool.onChain_use.mpr hin, ?_⟩
  have hclient : ∀ b, (w.view c).Attached b →
      ∃ b ∈ w.bevs, b.context = c ∧ (w.contexts c).bev = some b.id ∧ b.fdOpen := by
    rintro b ⟨hbevs, hbev, -⟩
    have hmem : b ∈ w.bevsOf c := by simp [show w.bevsOf c = [b] from hbevs]
    obtain ⟨hb, hbc⟩ := Owned.mem_of.mp hmem
    exact ⟨b, hb, hbc, hbev, h.fdOpen b hb⟩
  rcases h.busy c hin with ⟨⟨b, hb⟩, -⟩ | ⟨⟨b, hb⟩, -⟩ | ⟨-, hfd, k, hk, -⟩
  · exact Or.inl (hclient b hb)
  · exact Or.inl (hclient b hb)
  · have hmem : k ∈ w.callsOf c := by simp [show w.callsOf c = [k] from hk]
    obtain ⟨hk', hkc⟩ := Owned.mem_of.mp hmem
    exact Or.inr ⟨hfd, k, hk', hkc⟩

theorem NoneLost.all_free (hinv : Inv w S n) (h : NoneLost w S)
    (hclosed : ∀ b ∈ w.bevs, ¬b.fdOpen) (hcalls : w.calls = []) : w.pool.contextCount = n := by
  have hbevs : w.bevs = [] :=
    List.eq_nil_iff_forall_not_mem.mpr fun b hb => hclosed b hb (h.fdOpen b hb)
  have hempty : S.inUse = ∅ := by
    refine Finset.eq_empty_of_forall_notMem fun c hc => ?_
    have hbevsOf : (w.view c).bevs = [] := by simp [view, bevsOf, hbevs, Owned.of]
    have hcallsOf : (w.view c).calls = [] := by simp [view, callsOf, hcalls, Owned.of]
    rcases h.busy c hc with ⟨⟨b, hb⟩, -⟩ | ⟨⟨b, hb⟩, -⟩ | ⟨-, -, k, hk, -⟩
    · simp [hb.1] at hbevsOf
    · simp [hb.1] at hbevsOf
    · simp [hk] at hcallsOf
  have hcover := hinv.pool.cover
  rw [hempty, Finset.union_empty] at hcover
  rw [hinv.pool.count, ← List.toFinset_card_of_nodup hinv.pool.pool.nodup, hcover,
    Finset.card_range]

/-- **No context is lost** in any run in which a client leaves only while its request is
suspended, no code run for it makes a remote call, no suspended request is disturbed by its
client, and no `php_request_startup` fails. -/
theorem contexts_kept_of_retaining (idxs : List Nat) (maxRequests : Nat)
    {es : List WorkerEvent} {w : Worker}
    (hrun : workerSystem.Run Retaining (init idxs maxRequests) es w) :
    ContextsKept w idxs.length := by
  have hstep : ∀ w e w', (∃ S, Inv w S idxs.length ∧ NoneLost w S) → Retaining w e →
      workerSystem.step w e = some w' → ∃ S, Inv w' S idxs.length ∧ NoneLost w' S := by
    rintro w e w' ⟨S, hinv, hkept⟩ hguard hstep
    obtain ⟨S', ht⟩ := step_transition hinv hguard.undisturbed hstep
    exact ⟨S', ht.inv hinv, ht.noneLost hinv hkept hguard⟩
  have hinit : NoneLost (init idxs maxRequests) (PoolSpec.init idxs.length) :=
    ⟨by simp [PoolSpec.init], by simp [init]⟩
  obtain ⟨S, hinv, hkept⟩ := hrun.invariant hstep ⟨_, inv_init idxs maxRequests, hinit⟩
  exact ⟨fun c hc => hkept.kept hinv hc, hkept.all_free hinv⟩

/-- One context, a request that suspends, a client that leaves meanwhile, a late reply, and the
next client. -/
theorem contexts_kept_of_retaining_late :
    ∃ w, workerSystem.Run Retaining (init [0] 0)
      [.accept 5, .readable 0 (.executed [.finished, .yielded]) .completes,
        .clientEof 0 .completes, .reply 5 .finished .completes, .accept 5] w ∧
      ContextsKept w 1 := by
  have hrun : ∃ w, workerSystem.Run Retaining (init [0] 0)
      [.accept 5, .readable 0 (.executed [.finished, .yielded]) .completes,
        .clientEof 0 .completes, .reply 5 .finished .completes, .accept 5] w := by
    refine ⟨_, .cons trivial rfl <| .cons ⟨?_, by simp⟩ rfl <| .cons ⟨?_, rfl⟩ rfl <|
      .cons trivial rfl <| .cons trivial rfl <| .nil _⟩
    · rintro b - - ⟨k, hk, -⟩
      cases hk
    · intro b hb _
      obtain rfl := List.mem_singleton.mp hb
      exact ⟨_, List.mem_singleton_self _, rfl⟩
  obtain ⟨w, hw⟩ := hrun
  exact ⟨w, hw, contexts_kept_of_retaining [0] 0 hw⟩

/-- **A client that leaves before it has sent a request costs its context**: after a first
client that is served, a second one connects and leaves. No client is connected then and no call
is outstanding, and the only context is not free. -/
theorem not_contexts_kept :
    ¬∀ (idxs : List Nat) (maxRequests : Nat) (es : List WorkerEvent) (w : Worker),
      idxs ≠ [] → workerSystem.FreeRun (init idxs maxRequests) es w →
        ContextsKept w idxs.length := by
  intro h
  have hrun : ∃ w, workerSystem.exec (init [0] 0)
      [.accept 5, .readable 0 (.executed [.finished]) .completes, .accept 5,
        .clientEof 3 .completes] = some w ∧
      w.bevs = [] ∧ w.calls = [] ∧ w.pool.contextCount = 0 := ⟨_, rfl, rfl, rfl, rfl⟩
  obtain ⟨w, hexec, hbevs, hcalls, hcount⟩ := hrun
  obtain ⟨-, hfree⟩ := h [0] 0 _ w (by simp) (EventSystem.run_of_exec hexec)
  have hcount' := hfree (by simp [hbevs]) hcalls
  rw [hcount] at hcount'
  exact absurd hcount' (by decide)

end Worker

end Phpce
