import Phpce.Lib.Trace
import Phpce.Pool.Refinement
import Phpce.Worker.View

/-!
# The invariant of an undisturbed worker

An event disturbs a suspended request when its client's descriptor becomes readable again, or
when the code run for a client that has left makes a remote call. Along runs without such an
event every context is vacant, connected, suspended or orphaned, and each outstanding call finds
in its context what its request left there.

* **`Ledger`** — what the trace says about the contexts in use.
* **`Inv`** — the invariant, over the views of the contexts and the specification of the pool.
* **`Inv.update`** — the frame rule: a callback answers for the view of its own context.
* **`Inv.view_of_bev`**, **`Inv.view_of_call`** — the stage of the context that a client's or a
  call's callback finds.
-/

namespace Phpce

namespace Worker

open List

def Undisturbed (w : Worker) : WorkerEvent → Prop
  | .accept _ => True
  | .readable bev _ _ => ∀ b ∈ w.bevs, b.id = bev → ¬w.SuspendedAt b.context
  | .clientEof _ shutdown => shutdown = .completes
  | .reply _ _ _ => True

/-! ## The ledger of a trace -/

/-- What the trace says about the contexts in use: each was taken once more than it was given
back, the others as often, every one given back had been taken, and every resumption found the
context as its call had left it. -/
structure Ledger (trace : List Effect) (inUse : Finset ContextPtr) : Prop where
  balance : ∀ c, trace.count (.useContext c) =
    trace.count (.freeContext c) + if c ∈ inUse then 1 else 0
  matched : ∀ c, Trace.Matched (.useContext c) (.freeContext c) trace
  resumes : ∀ call held, .resume call held ∈ trace → held = call.issuer

/-- An effect that is neither a use nor a release of a context nor a resumption. -/
def Neutral : Effect → Prop
  | .useContext _ | .freeContext _ | .resume _ _ => False
  | _ => True

variable {w w' : Worker} {c : ContextPtr} {b : Bufferevent} {k : RemoteCall} {e : Effect}
  {trace : List Effect} {inUse : Finset ContextPtr} {S : PoolSpec} {n : Nat}

theorem Ledger.cons_neutral (h : Ledger trace inUse) (he : Neutral e) :
    Ledger (e :: trace) inUse where
  balance c := by
    have huse : e ≠ .useContext c := by rintro rfl; exact he
    have hfree : e ≠ .freeContext c := by rintro rfl; exact he
    rw [count_cons_of_ne huse, count_cons_of_ne hfree]
    exact h.balance c
  matched c := (h.matched c).cons_ne (by rintro rfl; exact he)
  resumes call held hmem := by
    rcases mem_cons.mp hmem with rfl | hmem
    · exact he.elim
    · exact h.resumes call held hmem

theorem Ledger.append_neutral {effects : List Effect} (h : Ledger trace inUse)
    (he : ∀ e ∈ effects, Neutral e) : Ledger (effects ++ trace) inUse := by
  induction effects with
  | nil => exact h
  | cons e effects ih =>
    have hrest := ih fun e' he' => he e' (mem_cons_of_mem e he')
    exact hrest.cons_neutral (he e (by simp))

theorem Ledger.cons_use (h : Ledger trace inUse) (hc : c ∉ inUse) :
    Ledger (.useContext c :: trace) (insert c inUse) where
  balance c' := by
    by_cases hcc : c' = c
    · subst hcc
      have := h.balance c'
      rw [if_neg hc] at this
      simp [this]
    · have hne : Effect.useContext c ≠ .useContext c' := fun e => hcc (by cases e; rfl)
      rw [count_cons_of_ne hne, count_cons_of_ne (by simp), h.balance c']
      simp [hcc]
  matched c' := (h.matched c').cons_ne (by simp)
  resumes call held hmem := h.resumes call held (by simpa using hmem)

theorem Ledger.cons_free (h : Ledger trace inUse) (hc : c ∈ inUse) :
    Ledger (.freeContext c :: trace) (inUse.erase c) where
  balance c' := by
    by_cases hcc : c' = c
    · subst hcc
      have := h.balance c'
      rw [if_pos hc] at this
      simp [this]
    · have hne : Effect.freeContext c ≠ .freeContext c' := fun e => hcc (by cases e; rfl)
      rw [count_cons_of_ne hne, count_cons_of_ne (by simp), h.balance c']
      simp [hcc]
  matched c' := by
    by_cases hcc : c' = c
    · subst hcc
      have := h.balance c'
      rw [if_pos hc] at this
      exact (h.matched c').cons_self this
    · exact (h.matched c').cons_ne fun e => hcc (by cases e; rfl)
  resumes call held hmem := h.resumes call held (by simpa using hmem)

theorem Ledger.cons_resume {held : CoroutineContext} (h : Ledger trace inUse)
    (hheld : held = k.issuer) : Ledger (.resume k held :: trace) inUse where
  balance c := by
    rw [count_cons_of_ne (by simp), count_cons_of_ne (by simp)]
    exact h.balance c
  matched c := (h.matched c).cons_ne (by simp)
  resumes call held' hmem := by
    rcases mem_cons.mp hmem with heq | hmem
    · obtain ⟨rfl, rfl⟩ : call = k ∧ held' = held := by simpa using heq
      exact hheld
    · exact h.resumes call held' hmem

/-! ## The invariant -/

/-- The invariant of an undisturbed worker with `n` contexts, whose pool represents `S`. -/
structure Inv (w : Worker) (S : PoolSpec) (n : Nat) : Prop where
  pool : Refines w.pool S n
  stages : ∀ c, (w.view c).Vacant ∨ c ∈ S.inUse ∧ (w.view c).Busy
  ids : w.Ids
  ledger : Ledger w.trace S.inUse

theorem Inv.update {S' : PoolSpec} (h : Inv w S n) (hpool : Refines w'.pool S' n)
    (helse : SameElsewhere c w w') (hin : ∀ c', c' ≠ c → c' ∈ S.inUse → c' ∈ S'.inUse)
    (hself : (w'.view c).Vacant ∨ c ∈ S'.inUse ∧ (w'.view c).Busy)
    (hids : w'.Ids) (hledger : Ledger w'.trace S'.inUse) : Inv w' S' n where
  pool := hpool
  stages c' := by
    by_cases hcc : c' = c
    · exact hcc ▸ hself
    · rw [helse c' hcc]
      exact (h.stages c').imp_right fun hbusy => ⟨hin c' hcc hbusy.1, hbusy.2⟩
  ids := hids
  ledger := hledger

theorem Inv.inUse_of_busy (h : Inv w S n) (hc : ¬(w.view c).Vacant) :
    c ∈ S.inUse ∧ (w.view c).Busy :=
  (h.stages c).resolve_left hc

theorem Inv.view_of_bev (h : Inv w S n) (hb : b ∈ w.bevs) :
    b.context ∈ S.inUse ∧ (w.view b.context).Attached b ∧
      ((w.view b.context).calls = [] ∨ (w.view b.context).Suspended) := by
  have hmem : b ∈ w.bevsOf b.context := Owned.mem_of.mpr ⟨hb, rfl⟩
  have hnot : ¬(w.view b.context).Vacant := by
    rintro ⟨hbevs, -⟩
    rw [show w.bevsOf b.context = [] from hbevs] at hmem
    cases hmem
  -- `b` is the only bufferevent of its context
  have hthis : ∀ b', (w.view b.context).Attached b' → b' = b := by
    intro b' hb'
    rw [show w.bevsOf b.context = [b'] from hb'.1] at hmem
    exact (mem_singleton.mp hmem).symm
  obtain ⟨hin, hbusy⟩ := h.inUse_of_busy hnot
  rcases hbusy with ⟨⟨b', hb'⟩, hcalls⟩ | hsusp | ⟨hbevs, -⟩
  · exact ⟨hin, hthis b' hb' ▸ hb', Or.inl hcalls⟩
  · obtain ⟨b', hb'⟩ := hsusp.1
    exact ⟨hin, hthis b' hb' ▸ hb', Or.inr hsusp⟩
  · rw [show w.bevsOf b.context = [] from hbevs] at hmem
    cases hmem

theorem Inv.view_of_call (h : Inv w S n) (hk : k ∈ w.calls) :
    k.context ∈ S.inUse ∧ (w.view k.context).calls = [k] ∧
      (((∃ b, (w.view k.context).Attached b) ∧ w.contexts k.context = k.issuer) ∨
        ((w.view k.context).bevs = [] ∧
          w.contexts k.context = { k.issuer with fd := 0 })) := by
  have hmem : k ∈ w.callsOf k.context := Owned.mem_of.mpr ⟨hk, rfl⟩
  have hnot : (w.view k.context).calls ≠ [] := by
    intro hcalls
    rw [show w.callsOf k.context = [] from hcalls] at hmem
    cases hmem
  have hthis : ∀ k', (w.view k.context).calls = [k'] → k' = k := by
    intro k' hk'
    rw [show w.callsOf k.context = [k'] from hk'] at hmem
    exact (mem_singleton.mp hmem).symm
  obtain ⟨hin, hbusy⟩ := h.inUse_of_busy fun hvac => hnot hvac.2
  rcases hbusy with ⟨-, hcalls⟩ | ⟨hatt, k', hk', hctx⟩ | ⟨hbevs, -, k', hk', hctx⟩
  · exact absurd hcalls hnot
  · obtain rfl := hthis k' hk'
    exact ⟨hin, hk', Or.inl ⟨hatt, hctx⟩⟩
  · obtain rfl := hthis k' hk'
    exact ⟨hin, hk', Or.inr ⟨hbevs, hctx⟩⟩

theorem Inv.held_of_suspended (h : Inv w S n) (hk : k ∈ w.calls)
    (hsusp : (w.view k.context).Suspended) : w.contexts k.context = k.issuer := by
  obtain ⟨-, hcalls, -⟩ := h.view_of_call hk
  obtain ⟨-, k', hk', hheld⟩ := hsusp
  obtain rfl : k = k' := by simpa using hcalls.symm.trans hk'
  exact hheld

end Worker

end Phpce
