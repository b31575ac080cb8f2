import Mathlib.Data.List.Induction
import Phpce.Pool.Basic

/-!
# What the pool operations do to the two chains

`Chains P free used` says that the chain from `global_coroutine_context_pool` is the doubly
linked list `free`, with its last context in `global_coroutine_context_pool_end`, that the
chain from `global_coroutine_context_use` is the doubly linked list `used`, and that
`context_count` is the length of the first.

* **`chains_initContexts`** — the start: all contexts free, the latest one in front.
* **`Chains.use_cons`**, **`Chains.use_nil`** — `use_coroutine_context` moves the front of
  the pool, or returns a null pointer when there is none.
* **`Chains.freeCoroutineContext`** — `free_coroutine_context` moves a context in use, from
  wherever it stands in its list, to the back of the pool.
-/

namespace Phpce

namespace CoroutinePool

open List

structure Chains (P : CoroutinePool) (free used : List ContextPtr) : Prop where
  pool : P.links.IsDll P.contextPool free
  poolEnd : P.contextPoolEnd = free.getLast?
  use : P.links.IsDll P.contextUse used
  disjoint : free.Disjoint used
  count : P.contextCount = free.length

variable {P : CoroutinePool} {free used as bs : List ContextPtr} {c : ContextPtr}

/-! ## The listener's flag is outside the lists -/

@[simp] theorem asserEventStop_links : P.asserEventStop.links = P.links := by
  unfold asserEventStop; split <;> rfl

@[simp] theorem asserEventStop_contextPool : P.asserEventStop.contextPool = P.contextPool := by
  unfold asserEventStop; split <;> rfl

@[simp] theorem asserEventStop_contextPoolEnd :
    P.asserEventStop.contextPoolEnd = P.contextPoolEnd := by
  unfold asserEventStop; split <;> rfl

@[simp] theorem asserEventStop_contextUse : P.asserEventStop.contextUse = P.contextUse := by
  unfold asserEventStop; split <;> rfl

@[simp] theorem asserEventStop_contextCount :
    P.asserEventStop.contextCount = P.contextCount := by
  unfold asserEventStop; split <;> rfl

@[simp] theorem asserEventContinue_links : P.asserEventContinue.links = P.links := by
  unfold asserEventContinue; split <;> rfl

@[simp] theorem asserEventContinue_contextPool :
    P.asserEventContinue.contextPool = P.contextPool := by
  unfold asserEventContinue; split <;> rfl

@[simp] theorem asserEventContinue_contextPoolEnd :
    P.asserEventContinue.contextPoolEnd = P.contextPoolEnd := by
  unfold asserEventContinue; split <;> rfl

@[simp] theorem asserEventContinue_contextUse :
    P.asserEventContinue.contextUse = P.contextUse := by
  unfold asserEventContinue; split <;> rfl

@[simp] theorem asserEventContinue_contextCount :
    P.asserEventContinue.contextCount = P.contextCount := by
  unfold asserEventContinue; split <;> rfl

theorem Chains.asserEventStop (h : Chains P free used) : Chains P.asserEventStop free used where
  pool := by simpa using h.pool
  poolEnd := by simpa using h.poolEnd
  use := by simpa using h.use
  disjoint := h.disjoint
  count := by simpa using h.count

theorem Chains.asserEventContinue (h : Chains P free used) :
    Chains P.asserEventContinue free used where
  pool := by simpa using h.pool
  poolEnd := by simpa using h.poolEnd
  use := by simpa using h.use
  disjoint := h.disjoint
  count := by simpa using h.count

/-! ## The start -/

theorem chains_initCoroutineStatic : Chains initCoroutineStatic [] [] :=
  ⟨Links.isDll_nil_iff.mpr rfl, rfl, Links.isDll_nil_iff.mpr rfl, by simp, rfl⟩

theorem Chains.initCoroutineContext (h : Chains P free []) (hfresh : P.mallocs ∉ free)
    (idx : Nat) : Chains (P.initCoroutineContext idx) (P.mallocs :: free) [] := by
  have huse : P.contextUse = none := h.use.head_eq
  have hend := h.poolEnd
  have hhead := h.pool.head_eq
  unfold CoroutinePool.initCoroutineContext
  dsimp only
  cases free with
  | nil =>
    rw [show P.contextPool = none from hhead]
    dsimp only
    refine ⟨⟨by simp, rfl, ?_⟩, rfl, Links.isDll_nil_iff.mpr huse, by simp, ?_⟩
    · exact ⟨by simp, by simp, trivial⟩
    · simpa using h.count
  | cons pool rest =>
    have hne : P.mallocs ≠ pool := fun e => hfresh (by simp [e])
    rw [show P.contextPool = some pool from hhead]
    dsimp only
    split
    all_goals
      refine ⟨?_, ?_, Links.isDll_nil_iff.mpr huse, by simp, by simpa using h.count⟩
      · refine h.pool.pushFront hfresh ?_ ?_ ?_ ?_ ?_
        · simp [Links.setPrev, Links.setNext, Function.update_of_ne hne]
        · simp [Links.setPrev, Links.setNext, hhead]
        · simp [Links.setPrev, Links.setNext, hhead]
        · intro y hy
          have hy' : y ≠ P.mallocs := fun e => hfresh (e ▸ hy)
          simp [Links.setPrev, Links.setNext, Function.update_of_ne hy']
        · intro y hy hny
          have hy' : y ≠ P.mallocs := fun e => hfresh (e ▸ hy)
          have hyp : y ≠ pool := fun e => hny (by rw [hhead, e]; rfl)
          simp [Links.setPrev, Links.setNext, Function.update_of_ne hy',
            Function.update_of_ne hyp]
      · rw [List.getLast?_cons_cons]
        simpa using hend

/-- **The start.** After the worker's `init_coroutine_context` calls every context is free and none
is in use. -/
theorem chains_initContexts (idxs : List Nat) :
    Chains (initContexts idxs) (List.range idxs.length).reverse [] ∧
      (initContexts idxs).mallocs = idxs.length := by
  -- induction on the calls, latest first
  induction idxs using List.reverseRecOn with
  | nil => exact ⟨chains_initCoroutineStatic, rfl⟩
  | append_singleton idxs idx ih =>
    obtain ⟨hchains, hmallocs⟩ := ih
    have hstep : initContexts (idxs ++ [idx]) = (initContexts idxs).initCoroutineContext idx := by
      simp [initContexts]
    have hfresh : (initContexts idxs).mallocs ∉ (List.range idxs.length).reverse := by
      simp [hmallocs]
    rw [hstep]
    constructor
    · have h := hchains.initCoroutineContext hfresh idx
      rw [hmallocs] at h
      simpa [range_succ] using h
    · unfold CoroutinePool.initCoroutineContext
      dsimp only
      split
      · simp [hmallocs]
      · split <;> simp [hmallocs]

/-! ## `free_coroutine_context` -/

theorem unlinkContext_next (P : CoroutinePool) (c y : ContextPtr) :
    (P.unlinkContext c).links.next y =
      if y = c then none
      else if P.links.prev c = some y then P.links.next c else P.links.next y := by
  unfold unlinkContext
  split
  · rename_i prev next hprev hnext
    simp only [Links.setNext_next, Links.setPrev_next, hprev, hnext]
    grind
  · rename_i prev hprev hnext
    simp only [Links.setNext_next, Links.setPrev_next, hprev, hnext]
    grind
  · rename_i next hprev hnext
    simp only [Links.setNext_next, Links.setPrev_next, hprev]
    grind
  · rename_i hprev hnext
    simp only [hprev]
    grind

theorem unlinkContext_prev (P : CoroutinePool) (c y : ContextPtr) :
    (P.unlinkContext c).links.prev y =
      if y = c then none
      else if P.links.next c = some y then P.links.prev c else P.links.prev y := by
  unfold unlinkContext
  split
  · rename_i prev next hprev hnext
    simp only [Links.setPrev_prev, Links.setNext_prev, hprev, hnext]
    grind
  · rename_i prev hprev hnext
    simp only [Links.setPrev_prev, Links.setNext_prev, hnext]
    grind
  · rename_i next hprev hnext
    simp only [Links.setPrev_prev, Links.setNext_prev, hprev, hnext]
    grind
  · rename_i hprev hnext
    simp only [hnext]
    grind

theorem unlinkContext_contextUse (P : CoroutinePool) (c : ContextPtr) :
    (P.unlinkContext c).contextUse =
      if P.links.prev c = none then P.links.next c else P.contextUse := by
  unfold unlinkContext
  cases P.links.prev c <;> cases P.links.next c <;> rfl

/-- What unlinking the context `c`, which stands between `as` and `bs`, does to the memory: its
neighbours are linked to each other, its own links are null, and the list of contexts in use
starts at the first context that is left. -/
theorem unlinkContext_spec (h : P.links.IsDll P.contextUse (as ++ c :: bs)) :
    let P' := P.unlinkContext c
    P'.links.IsDll P'.contextUse (as ++ bs) ∧ P'.links.next c = none ∧ P'.links.prev c = none ∧
      ∀ y, y ∉ as ++ c :: bs →
        P'.links.next y = P.links.next y ∧ P'.links.prev y = P.links.prev y := by
  obtain ⟨hprev, hnext⟩ := h.links_at
  have hne : ∀ y ∈ as ++ bs, y ≠ c := by
    rintro y hy rfl
    exact (nodup_cons.mp (nodup_middle.mp h.nodup)).1 hy
  dsimp only
  refine ⟨h.unlink (unlinkContext_contextUse P c) (fun y hy => ?_) (fun y hy => ?_), ?_, ?_,
    fun y hy => ?_⟩
  · rw [unlinkContext_next, if_neg (hne y hy)]
  · rw [unlinkContext_prev, if_neg (hne y hy)]
  · rw [unlinkContext_next, if_pos rfl]
  · rw [unlinkContext_prev, if_pos rfl]
  · -- the neighbours are in the list
    have hyc : y ≠ c := fun hyc => hy (by simp [hyc])
    have hlast : as.getLast? ≠ some y := fun hlast =>
      hy (mem_append_left _ (mem_of_getLast? hlast))
    have hhead : bs.head? ≠ some y := fun hhead =>
      hy (mem_append_right _ (mem_cons_of_mem _ (mem_of_head? hhead)))
    rw [unlinkContext_next, unlinkContext_prev, if_neg hyc, if_neg hyc, hprev, hnext, if_neg hlast,
      if_neg hhead]
    exact ⟨rfl, rfl⟩

theorem appendContext_spec (h : P.links.IsDll P.contextPool free)
    (hend : P.contextPoolEnd = free.getLast?) (hc : c ∉ free) (hnext : P.links.next c = none) :
    let P' := P.appendContext c
    P'.links.IsDll P'.contextPool (free ++ [c]) ∧ P'.contextPoolEnd = some c ∧
      ∀ y, y ∉ free → y ≠ c →
        P'.links.next y = P.links.next y ∧ P'.links.prev y = P.links.prev y := by
  have hhead := h.head_eq
  unfold appendContext
  rcases eq_nil_or_concat free with rfl | ⟨free', last, rfl⟩
  · rw [show P.contextPoolEnd = none from hend]
    refine ⟨⟨by simp, rfl, by simp, by simp, trivial⟩, rfl, ?_⟩
    intro y _ hyc
    simp [Links.setNext_next_ne _ _ hyc, Links.setPrev_prev_ne _ _ hyc]
  · rw [concat_eq_append] at *
    have hlc : last ≠ c := fun e => hc (by simp [e])
    have hsome : P.contextPool = P.contextPool.or (some c) := by
      rw [hhead]
      cases free' <;> rfl
    rw [show P.contextPoolEnd = some last from by simpa using hend]
    dsimp only
    split
    all_goals
      dsimp only
      rw [hsome]
      refine ⟨h.pushBack hc ?_ ?_ ?_ ?_ ?_, rfl, ?_⟩
      · simp [Links.setNext_next_ne _ _ hlc.symm, hnext]
      · simp
      · intro e he
        obtain rfl : last = e := by simpa using he
        simp [Links.setNext_next_ne _ _ hlc]
      · intro y hy
        have hyc : y ≠ c := fun e => hc (e ▸ hy)
        simp [Links.setPrev_prev_ne _ _ hyc]
      · intro y hy hyl
        have hyc : y ≠ c := fun e => hc (e ▸ hy)
        have hyl' : y ≠ last := fun e => hyl (by simp [e])
        simp [Links.setNext_next_ne _ _ hyc, Links.setNext_next_ne _ _ hyl']
      · intro y hy hyc
        simp only [mem_append, mem_singleton, not_or] at hy
        simp [Links.setNext_next_ne _ _ hyc, Links.setNext_next_ne _ _ hy.2,
          Links.setPrev_prev_ne _ _ hyc]

@[simp] theorem unlinkContext_contextPool : (P.unlinkContext c).contextPool = P.contextPool := by
  unfold unlinkContext; split <;> rfl

@[simp] theorem unlinkContext_contextPoolEnd :
    (P.unlinkContext c).contextPoolEnd = P.contextPoolEnd := by
  unfold unlinkContext; split <;> rfl

@[simp] theorem unlinkContext_contextCount :
    (P.unlinkContext c).contextCount = P.contextCount := by
  unfold unlinkContext; split <;> rfl

@[simp] theorem appendContext_contextUse : (P.appendContext c).contextUse = P.contextUse := by
  unfold appendContext
  split
  · rfl
  · split <;> rfl

@[simp] theorem appendContext_contextCount :
    (P.appendContext c).contextCount = P.contextCount := by
  unfold appendContext
  split
  · rfl
  · split <;> rfl

/-- **`free_coroutine_context`** moves a context in use, wherever it stands in its list, to the
back of the pool. -/
theorem Chains.freeCoroutineContext (h : Chains P free (as ++ c :: bs)) :
    Chains (P.freeCoroutineContext c) (free ++ [c]) (as ++ bs) := by
  obtain ⟨huse, hnext, -, hout⟩ := unlinkContext_spec h.use
  have hdisj := h.disjoint
  have hc : c ∉ free := fun hc => hdisj hc (by simp)
  -- the first half leaves the pool alone
  have hfree : ∀ y ∈ free, y ∉ as ++ c :: bs := fun y hy hy' => hdisj hy hy'
  have hpool : (P.unlinkContext c).links.IsDll (P.unlinkContext c).contextPool free := by
    rw [unlinkContext_contextPool]
    exact h.pool.frame (fun y hy => (hout y (hfree y hy)).1) fun y hy => (hout y (hfree y hy)).2
  obtain ⟨hpool', hend', hout'⟩ := appendContext_spec hpool (by simpa using h.poolEnd) hc hnext
  -- the second half leaves the contexts in use alone
  have hnd := h.use.nodup
  simp only [nodup_append, nodup_cons, mem_cons] at hnd
  obtain ⟨-, ⟨hcbs, -⟩, hasbs⟩ := hnd
  have hused : ∀ y ∈ as ++ bs, y ∉ free ∧ y ≠ c := by
    intro y hy
    refine ⟨fun hyf => hdisj hyf ?_, ?_⟩
    · rcases mem_append.mp hy with hy | hy <;> simp [hy]
    · rintro rfl
      rcases mem_append.mp hy with hy | hy
      · exact hasbs y hy y (Or.inl rfl) rfl
      · exact hcbs hy
  have huse' := huse.frame (fun y hy => (hout' y (hused y hy).1 (hused y hy).2).1)
    fun y hy => (hout' y (hused y hy).1 (hused y hy).2).2
  refine Chains.asserEventContinue ⟨hpool', ?_, ?_, ?_, ?_⟩
  · simpa [countUp] using hend'
  · simpa [countUp] using huse'
  · intro y hyf hyu
    rcases mem_append.mp hyf with hyf | hyf
    · exact (hused y hyu).1 hyf
    · exact (hused y hyu).2 (by simpa using hyf)
  · simpa [countUp] using h.count

/-! ## `use_coroutine_context` -/

theorem popContext_spec (h : P.links.IsDll P.contextPool (c :: free))
    (hend : P.contextPoolEnd = (c :: free).getLast?) :
    let P' := P.popContext c
    P'.links.IsDll P'.contextPool free ∧ P'.contextPoolEnd = free.getLast? ∧
      ∀ y, y ∉ free →
        P'.links.next y = P.links.next y ∧ P'.links.prev y = P.links.prev y := by
  have hnext : P.links.next c = free.head? := by
    have hsplit : P.links.IsDll P.contextPool ([] ++ c :: free) := h
    exact hsplit.links_at.2
  unfold popContext
  rw [hnext]
  cases free with
  | nil => exact ⟨Links.isDll_nil_iff.mpr rfl, rfl, fun _ _ => ⟨rfl, rfl⟩⟩
  | cons n free =>
    refine ⟨h.popFront (by simp) (fun _ _ => rfl) ?_, by simpa using hend, ?_⟩
    · intro y _ hyn
      have hyn' : y ≠ n := fun e => hyn (by simp [e])
      simp [Links.setPrev_prev_ne _ _ hyn']
    · intro y hy
      simp only [mem_cons, not_or] at hy
      simp [Links.setPrev_prev_ne _ _ hy.1]

theorem pushUse_spec (h : P.links.IsDll P.contextUse used) (hc : c ∉ used) :
    let P' := P.pushUse c
    P'.links.IsDll P'.contextUse (c :: used) ∧
      ∀ y, y ∉ c :: used →
        P'.links.next y = P.links.next y ∧ P'.links.prev y = P.links.prev y := by
  have hhead := h.head_eq
  unfold pushUse
  cases used with
  | nil =>
    rw [show P.contextUse = none from hhead]
    refine ⟨⟨by simp, rfl, by simp, by simp, trivial⟩, ?_⟩
    intro y hy
    have hyc : y ≠ c := by simpa using hy
    simp [Links.setNext_next_ne _ _ hyc, Links.setPrev_prev_ne _ _ hyc]
  | cons use used =>
    rw [show P.contextUse = some use from hhead]
    have hcu : c ≠ use := fun e => hc (by simp [e])
    refine ⟨h.pushFront hc ?_ ?_ ?_ ?_ ?_, ?_⟩
    · simp [Links.setPrev_prev_ne _ _ hcu]
    · simp [hhead]
    · simp [hhead]
    · intro y hy
      have hyc : y ≠ c := fun e => hc (e ▸ hy)
      simp [Links.setNext_next_ne _ _ hyc]
    · intro y hy hyu
      have hyc : y ≠ c := fun e => hc (e ▸ hy)
      have hyu' : y ≠ use := fun e => hyu (by simp [hhead, e])
      simp [Links.setPrev_prev_ne _ _ hyu', Links.setPrev_prev_ne _ _ hyc]
    · intro y hy
      simp only [mem_cons, not_or] at hy
      simp [Links.setNext_next_ne _ _ hy.1, Links.setPrev_prev_ne _ _ hy.2.1,
        Links.setPrev_prev_ne _ _ hy.1]

@[simp] theorem popContext_contextUse : (P.popContext c).contextUse = P.contextUse := by
  unfold popContext; split <;> rfl

@[simp] theorem popContext_contextCount : (P.popContext c).contextCount = P.contextCount := by
  unfold popContext; split <;> rfl

@[simp] theorem pushUse_contextPool : (P.pushUse c).contextPool = P.contextPool := by
  unfold pushUse; split <;> rfl

@[simp] theorem pushUse_contextPoolEnd : (P.pushUse c).contextPoolEnd = P.contextPoolEnd := by
  unfold pushUse; split <;> rfl

@[simp] theorem pushUse_contextCount : (P.pushUse c).contextCount = P.contextCount := by
  unfold pushUse; split <;> rfl

def afterUse (P : CoroutinePool) (c : ContextPtr) : CoroutinePool :=
  (((P.popContext c).pushUse c).switchTo c).asserEventStop

theorem Chains.afterUse (h : Chains P (c :: free) used) :
    Chains (P.afterUse c) free (c :: used) := by
  obtain ⟨hpool, hend, hout⟩ := popContext_spec h.pool h.poolEnd
  have hdisj := disjoint_cons_left.mp h.disjoint
  have hnd := nodup_cons.mp h.pool.nodup
  -- taking the front leaves the contexts in use alone
  have hused : ∀ y ∈ used, y ∉ free := fun y hy hyf => hdisj.2 hyf hy
  have huse : (P.popContext c).links.IsDll (P.popContext c).contextUse used := by
    rw [popContext_contextUse]
    exact h.use.frame (fun y hy => (hout y (hused y hy)).1) fun y hy => (hout y (hused y hy)).2
  obtain ⟨huse', hout'⟩ := pushUse_spec huse hdisj.1
  -- and linking it in leaves the rest of the pool alone
  have hfree : ∀ y ∈ free, y ∉ c :: used := by
    intro y hy hyu
    rcases mem_cons.mp hyu with rfl | hyu
    · exact hnd.1 hy
    · exact hused y hyu hy
  have hpool' := hpool.frame (fun y hy => (hout' y (hfree y hy)).1)
    fun y hy => (hout' y (hfree y hy)).2
  refine Chains.asserEventStop ⟨?_, ?_, huse', ?_, ?_⟩
  · simpa [switchTo] using hpool'
  · simpa [switchTo] using hend
  · exact fun y hyf hyu => hfree y hyf hyu
  · simp [switchTo, h.count]

/-- **`use_coroutine_context` on a pool with free contexts** returns its front. -/
theorem Chains.use_cons (h : Chains P (c :: free) used) :
    P.useCoroutineContext = some (some c, P.afterUse c) := by
  unfold useCoroutineContext
  rw [if_pos (by simp [h.count]), show P.contextPool = some c from h.pool.head_eq]
  rfl

theorem Chains.use_nil (h : Chains P [] used) :
    P.useCoroutineContext = some (none, P.asserEventStop) := by
  unfold useCoroutineContext
  rw [if_neg (by simp [h.count])]

end CoroutinePool

end Phpce
