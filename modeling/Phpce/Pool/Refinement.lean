import Mathlib.Data.Finset.Range
import Mathlib.Data.Finset.Lattice.Lemmas
import Mathlib.Data.Finset.Erase
import Mathlib.Data.Finset.Disjoint
import Phpce.Lib.Run
import Phpce.Pool.Chains

/-!
# The context pool is a queue and a set

`PoolSpec` says what the pool is for: a queue of free contexts and a set of contexts in use.
Taking a context dequeues it, giving one back enqueues it. `Refines P S n` relates the
pointers of `CoroutinePool` to a state of the specification.

* **`Refines.use_spec`**, **`Refines.free_spec`** — one operation of the source against one of the
  specification, with the same result.
* **`pool_refines_queue_and_set`** — every sequence of operations, from the worker's start.
* **`pool_hands_out_in_order`** — contexts are handed out in the order in which they got free.
-/

namespace Phpce

open CoroutinePool List

/-! ## The specification -/

structure PoolSpec where
  free : List ContextPtr
  inUse : Finset ContextPtr

namespace PoolSpec

/-- `n` free contexts, the latest one made in front. -/
def init (n : Nat) : PoolSpec := ⟨(List.range n).reverse, ∅⟩

/-- Dequeue a free context, if there is one, and mark it as used. -/
def use (S : PoolSpec) : PoolSpec :=
  match S.free with
  | [] => S
  | c :: free => ⟨free, insert c S.inUse⟩

def release (S : PoolSpec) (c : ContextPtr) : PoolSpec :=
  ⟨S.free ++ [c], S.inUse.erase c⟩

end PoolSpec

inductive PoolOp where
  | use (result : Option ContextPtr)
  | free (context : ContextPtr)
  deriving DecidableEq, Repr

def poolSystem : EventSystem CoroutinePool PoolOp where
  step P
    | .use result =>
        match P.useCoroutineContext with
        | some (returned, P') => if returned = result then some P' else none
        | none => none
    | .free context => some (P.freeCoroutineContext context)

/-- The specification: the front of the queue is what is taken, and only a context in use is
given back. -/
def specSystem : EventSystem PoolSpec PoolOp where
  step S
    | .use result => if result = S.free.head? then some S.use else none
    | .free context => if context ∈ S.inUse then some (S.release context) else none

/-- The caller's side of the contract: `free_coroutine_context` is called on contexts that are
in use. -/
def FreesUsed (P : CoroutinePool) : PoolOp → Prop
  | .use _ => True
  | .free context => P.links.OnChain P.contextUse context

/-! ## The refinement relation -/

/-- The pool `P` of `n` contexts represents `S`: the free chain is the queue, its last context
is `global_coroutine_context_pool_end`, the other chain is the set, each context is in exactly
one of them, and `context_count` is the length of the queue. -/
structure Refines (P : CoroutinePool) (S : PoolSpec) (n : Nat) : Prop where
  pool : P.links.IsDll P.contextPool S.free
  poolEnd : P.contextPoolEnd = S.free.getLast?
  use : ∃ used, P.links.IsDll P.contextUse used ∧ used.toFinset = S.inUse
  disjoint : Disjoint S.free.toFinset S.inUse
  cover : S.free.toFinset ∪ S.inUse = Finset.range n
  count : P.contextCount = S.free.length

variable {P P' : CoroutinePool} {S : PoolSpec} {n : Nat} {c : ContextPtr}

theorem Refines.chains (h : Refines P S n) :
    ∃ used, Chains P S.free used ∧ used.toFinset = S.inUse := by
  obtain ⟨used, hused, hset⟩ := h.use
  refine ⟨used, ⟨h.pool, h.poolEnd, hused, ?_, h.count⟩, hset⟩
  intro x hx hx'
  have hmem : x ∈ S.inUse := hset ▸ mem_toFinset.mpr hx'
  exact Finset.disjoint_left.mp h.disjoint (mem_toFinset.mpr hx) hmem

theorem Refines.of_chains {used : List ContextPtr} (h : Chains P S.free used)
    (hset : used.toFinset = S.inUse) (hcover : S.free.toFinset ∪ S.inUse = Finset.range n) :
    Refines P S n := by
  refine ⟨h.pool, h.poolEnd, ⟨used, h.use, hset⟩, ?_, hcover, h.count⟩
  rw [← hset, Finset.disjoint_left]
  intro x hx hx'
  exact h.disjoint (mem_toFinset.mp hx) (mem_toFinset.mp hx')

theorem Refines.onChain_use (h : Refines P S n) :
    P.links.OnChain P.contextUse c ↔ c ∈ S.inUse := by
  obtain ⟨used, hused, hset⟩ := h.use
  rw [hused.onChain_iff, ← hset, mem_toFinset]

theorem Refines.onChain_pool (h : Refines P S n) :
    P.links.OnChain P.contextPool c ↔ c ∈ S.free := h.pool.onChain_iff

theorem Refines.mem_free_or_inUse (h : Refines P S n) :
    c < n ↔ c ∈ S.free ∨ c ∈ S.inUse := by
  rw [← Finset.mem_range, ← h.cover, Finset.mem_union, mem_toFinset]

theorem Refines.notMem_inUse (h : Refines P S n) (hc : c ∈ S.free) : c ∉ S.inUse :=
  Finset.disjoint_left.mp h.disjoint (mem_toFinset.mpr hc)

theorem Refines.next_iff_prev (h : Refines P S n) {a b : ContextPtr}
    (hab : a ∈ S.free ∧ b ∈ S.free ∨ a ∈ S.inUse ∧ b ∈ S.inUse) :
    P.links.next a = some b ↔ P.links.prev b = some a := by
  rcases hab with ⟨ha, hb⟩ | ⟨ha, hb⟩
  · exact h.pool.next_iff_prev ha hb
  · obtain ⟨used, hused, hset⟩ := h.use
    rw [← hset, mem_toFinset] at ha hb
    exact hused.next_iff_prev ha hb

theorem refines_initContexts (idxs : List Nat) :
    Refines (initContexts idxs) (PoolSpec.init idxs.length) idxs.length := by
  refine Refines.of_chains (chains_initContexts idxs).1 rfl ?_
  ext x
  simp [PoolSpec.init]

/-! ## One operation -/

/-- **`use_coroutine_context` is a dequeue.** It never goes through a null pointer, it returns
the front of the queue, and the pool it leaves represents the rest. -/
theorem Refines.use_spec (h : Refines P S n) :
    ∃ P', P.useCoroutineContext = some (S.free.head?, P') ∧ Refines P' S.use n := by
  obtain ⟨used, hchains, hset⟩ := h.chains
  have hcover := h.cover
  unfold PoolSpec.use
  cases hfree : S.free with
  | nil =>
    rw [hfree] at hchains
    refine ⟨_, hchains.use_nil, Refines.of_chains ?_ hset hcover⟩
    rw [hfree]
    exact hchains.asserEventStop
  | cons c free =>
    rw [hfree] at hchains hcover
    refine ⟨_, hchains.use_cons, Refines.of_chains hchains.afterUse ?_ ?_⟩
    · simp [hset]
    · rw [← hcover]
      simp

/-- **`free_coroutine_context` is an enqueue** when it is called on a context in use. -/
theorem Refines.free_spec (h : Refines P S n) (hc : c ∈ S.inUse) :
    Refines (P.freeCoroutineContext c) (S.release c) n := by
  obtain ⟨used, hchains, hset⟩ := h.chains
  have hmem : c ∈ used := by rwa [← hset, mem_toFinset] at hc
  obtain ⟨as, bs, rfl⟩ := append_of_mem hmem
  have hnd := hchains.use.nodup
  simp only [nodup_append, nodup_cons, mem_cons] at hnd
  obtain ⟨-, ⟨hcbs, -⟩, hdisj⟩ := hnd
  have hcas : c ∉ as := fun hx => hdisj c hx c (Or.inl rfl) rfl
  refine Refines.of_chains hchains.freeCoroutineContext ?_ ?_
  · -- what is left of the list of contexts in use is the set without `c`
    ext x
    rw [PoolSpec.release, Finset.mem_erase, ← hset]
    simp only [mem_toFinset, mem_append, mem_cons]
    constructor
    · rintro (hx | hx)
      · exact ⟨fun e => hcas (e ▸ hx), Or.inl hx⟩
      · exact ⟨fun e => hcbs (e ▸ hx), Or.inr (Or.inr hx)⟩
    · rintro ⟨hne, hx | rfl | hx⟩
      · exact Or.inl hx
      · exact absurd rfl hne
      · exact Or.inr hx
  · rw [← h.cover]
    ext x
    simp only [PoolSpec.release, toFinset_append, Finset.mem_union, mem_toFinset,
      mem_singleton, Finset.mem_erase]
    by_cases hx : x = c
    · simp [hx, hc]
    · simp [hx]

/-! ## Every sequence of operations -/

theorem Refines.step_simulates {op : PoolOp} (h : Refines P S n) (hguard : FreesUsed P op)
    (hstep : poolSystem.step P op = some P') :
    ∃ S', specSystem.step S op = some S' ∧ Refines P' S' n := by
  cases op with
  | use result =>
    obtain ⟨P'', huse, hrefines⟩ := h.use_spec
    have hP : (if S.free.head? = result then some P'' else none) = some P' := by
      simpa only [poolSystem, huse] using hstep
    split at hP
    · rename_i hresult
      obtain rfl : P'' = P' := by simpa using hP
      exact ⟨S.use, if_pos hresult.symm, hrefines⟩
    · cases hP
  | free c =>
    have hc : c ∈ S.inUse := h.onChain_use.mp hguard
    obtain rfl : P.freeCoroutineContext c = P' := by simpa [poolSystem] using hstep
    exact ⟨S.release c, if_pos hc, h.free_spec hc⟩

/-- **The context pool refines a queue plus a set.** Whatever sequence of
`use_coroutine_context` calls and of `free_coroutine_context` calls on contexts in use leads
from the worker's start to the pool `P`, the same calls with the same results lead the
specification to a state that `P` represents. In that state `next` and `prev` are mutually
inverse on each chain, and the next `use_coroutine_context` goes through no null pointer. -/
theorem pool_refines_queue_and_set (idxs : List Nat) {ops : List PoolOp} {P : CoroutinePool}
    (hrun : poolSystem.Run FreesUsed (initContexts idxs) ops P) :
    ∃ S, specSystem.FreeRun (PoolSpec.init idxs.length) ops S ∧ Refines P S idxs.length ∧
      (∀ a b, a ∈ S.free ∧ b ∈ S.free ∨ a ∈ S.inUse ∧ b ∈ S.inUse →
        (P.links.next a = some b ↔ P.links.prev b = some a)) ∧
      ∃ P', P.useCoroutineContext = some (S.free.head?, P') := by
  have hsim : ∀ P op P' S, Refines P S idxs.length → FreesUsed P op →
      poolSystem.step P op = some P' →
      ∃ S', specSystem.step S op = some S' ∧ Refines P' S' idxs.length :=
    fun _ _ _ _ h hguard hstep => h.step_simulates hguard hstep
  obtain ⟨S, hspec, hrefines⟩ := hrun.simulate hsim (refines_initContexts idxs)
  obtain ⟨P', huse, -⟩ := hrefines.use_spec
  exact ⟨S, hspec, hrefines, fun _ _ => hrefines.next_iff_prev, P', huse⟩

/-- Two contexts taken and given back out of order: the first one given back is the first one
in the queue. -/
theorem pool_refines_queue_and_set_two :
    ∃ P S, poolSystem.Run FreesUsed (initContexts [7, 8])
        [.use (some 1), .use (some 0), .use none, .free 1, .free 0, .use (some 1)] P ∧
      specSystem.FreeRun (PoolSpec.init 2)
        [.use (some 1), .use (some 0), .use none, .free 1, .free 0, .use (some 1)] S ∧
      Refines P S 2 := by
  have hrun : ∃ P, poolSystem.Run FreesUsed (initContexts [7, 8])
      [.use (some 1), .use (some 0), .use none, .free 1, .free 0, .use (some 1)] P :=
    ⟨_, .cons trivial rfl <| .cons trivial rfl <| .cons trivial rfl <|
      .cons ⟨1, rfl⟩ rfl <| .cons ⟨0, rfl⟩ rfl <| .cons trivial rfl <| .nil _⟩
  obtain ⟨P, hP⟩ := hrun
  obtain ⟨S, hS, hrefines, -⟩ := pool_refines_queue_and_set [7, 8] hP
  exact ⟨P, S, hP, hS, hrefines⟩

/-! ## First in, first out -/

def PoolOp.taken : PoolOp → Option ContextPtr
  | .use result => result
  | .free _ => none

def PoolOp.givenBack : PoolOp → Option ContextPtr
  | .use _ => none
  | .free context => some context

theorem PoolSpec.in_order {S S' : PoolSpec} {ops : List PoolOp} (h : specSystem.FreeRun S ops S') :
    S.free ++ ops.filterMap PoolOp.givenBack = ops.filterMap PoolOp.taken ++ S'.free := by
  induction h with
  | nil => exact append_nil _
  | @cons S S₁ S' op ops _ hstep _ ih =>
    cases op with
    | use result =>
      obtain ⟨rfl, hS⟩ : result = S.free.head? ∧ S.use = S₁ := by
        simpa [specSystem] using hstep
      rw [← hS, PoolSpec.use] at ih
      cases hfree : S.free with
      | nil =>
        rw [hfree] at ih
        dsimp only at ih
        rwa [hfree] at ih
      | cons c free =>
        rw [hfree] at ih
        exact congrArg (c :: ·) ih
    | free c =>
      obtain ⟨-, hS⟩ : c ∈ S.inUse ∧ S.release c = S₁ := by simpa [specSystem] using hstep
      rw [← hS, PoolSpec.release, append_assoc] at ih
      exact ih

/-- **First in, first out.** The contexts in the order in which they were made or given back, the
first ones turned round, are those handed out in their order and then those of the free chain. -/
theorem pool_hands_out_in_order (idxs : List Nat) {ops : List PoolOp} {P : CoroutinePool}
    (hrun : poolSystem.Run FreesUsed (initContexts idxs) ops P) :
    ∃ free, P.links.IsDll P.contextPool free ∧
      (List.range idxs.length).reverse ++ ops.filterMap PoolOp.givenBack =
        ops.filterMap PoolOp.taken ++ free := by
  obtain ⟨S, hspec, hrefines⟩ := hrun.simulate (fun _ _ _ _ h hguard hstep =>
    Refines.step_simulates h hguard hstep) (refines_initContexts idxs)
  exact ⟨S.free, hrefines.pool, PoolSpec.in_order hspec⟩

theorem pool_hands_out_in_order_two :
    ∃ (P : CoroutinePool) (free : List ContextPtr), P.links.IsDll P.contextPool free ∧
      [1, 0] ++ [0, 1] = [1, 0, 0] ++ free := by
  have hrun : ∃ P, poolSystem.Run FreesUsed (initContexts [7, 8])
      [.use (some 1), .use (some 0), .free 0, .free 1, .use (some 0)] P :=
    ⟨_, .cons trivial rfl <| .cons trivial rfl <| .cons ⟨0, rfl⟩ rfl <| .cons ⟨0, rfl⟩ rfl <|
      .cons trivial rfl (.nil _)⟩
  obtain ⟨P, hP⟩ := hrun
  exact ⟨P, pool_hands_out_in_order [7, 8] hP⟩

end Phpce
