import Phpce.Pool.Chains

/-!
# The pool holds no pointers but those of its contexts

Also where contexts are given back twice and the lists of the pool are no longer what they should
be, every pointer in them is one of the contexts made at the start, and each of these has a number
of its own.

* **`Within.useCoroutineContext`**, **`Within.freeCoroutineContext`** — the operations.
* **`within_initContexts`** — the start.
-/

namespace Phpce

namespace CoroutinePool

variable {P P' : CoroutinePool} {n : Nat} {c : ContextPtr}

/-- The pointers of the pool are below `n`, and the context `c` has the number `c`. -/
structure Within (n : Nat) (P : CoroutinePool) : Prop where
  links : P.links.All (· < n)
  contextPool : ∀ c ∈ P.contextPool, c < n
  contextPoolEnd : ∀ c ∈ P.contextPoolEnd, c < n
  contextUse : ∀ c ∈ P.contextUse, c < n
  threads : ∀ c < n, P.threadId c = c

theorem lt_of_mem_some (hc : c < n) : ∀ c' ∈ some c, c' < n := by
  intro c' hc'
  rwa [← Option.some.inj hc']

theorem lt_of_mem_none : ∀ c' ∈ (none : Option ContextPtr), c' < n := nofun

theorem Within.asserEventStop (h : P.Within n) : P.asserEventStop.Within n := by
  unfold CoroutinePool.asserEventStop
  split
  · exact ⟨h.links, h.contextPool, h.contextPoolEnd, h.contextUse, h.threads⟩
  · exact h

theorem Within.asserEventContinue (h : P.Within n) : P.asserEventContinue.Within n := by
  unfold CoroutinePool.asserEventContinue
  split
  · exact ⟨h.links, h.contextPool, h.contextPoolEnd, h.contextUse, h.threads⟩
  · exact h

theorem Within.unlinkContext (h : P.Within n) (c : ContextPtr) : (P.unlinkContext c).Within n := by
  unfold CoroutinePool.unlinkContext
  split
  · rename_i prev next hprev hnext
    have hlt := lt_of_mem_some (h.links.prev c prev hprev)
    have hlt' := lt_of_mem_some (h.links.next c next hnext)
    exact ⟨(((h.links.setNext hlt').setPrev hlt).setPrev lt_of_mem_none).setNext lt_of_mem_none,
      h.contextPool, h.contextPoolEnd, h.contextUse, h.threads⟩
  · exact ⟨(h.links.setNext lt_of_mem_none).setPrev lt_of_mem_none, h.contextPool,
      h.contextPoolEnd, h.contextUse, h.threads⟩
  · rename_i next hprev hnext
    exact ⟨(h.links.setPrev lt_of_mem_none).setNext lt_of_mem_none, h.contextPool,
      h.contextPoolEnd, lt_of_mem_some (h.links.next c next hnext), h.threads⟩
  · exact ⟨h.links, h.contextPool, h.contextPoolEnd, lt_of_mem_none, h.threads⟩

theorem Within.appendContext (h : P.Within n) (hc : c < n) : (P.appendContext c).Within n := by
  have hsome := lt_of_mem_some hc
  unfold CoroutinePool.appendContext
  split
  · exact ⟨(h.links.setPrev lt_of_mem_none).setNext lt_of_mem_none, hsome, hsome, h.contextUse,
      h.threads⟩
  · rename_i last hlast
    have hlt := lt_of_mem_some (h.contextPoolEnd last hlast)
    split
    · exact ⟨(h.links.setNext hsome).setPrev hlt, h.contextPool, hsome, h.contextUse, h.threads⟩
    · exact ⟨((h.links.setPrev hlt).setNext hsome).setNext lt_of_mem_none, h.contextPool, hsome,
        h.contextUse, h.threads⟩

theorem Within.freeCoroutineContext (h : P.Within n) (hc : c < n) :
    (P.freeCoroutineContext c).Within n := by
  have happend := (h.unlinkContext c).appendContext hc
  have hcount : ((P.unlinkContext c).appendContext c).countUp.Within n :=
    ⟨happend.links, happend.contextPool, happend.contextPoolEnd, happend.contextUse,
      happend.threads⟩
  exact hcount.asserEventContinue

theorem Within.popContext (h : P.Within n) (c : ContextPtr) : (P.popContext c).Within n := by
  unfold CoroutinePool.popContext
  split
  · rename_i next hnext
    exact ⟨h.links.setPrev lt_of_mem_none, lt_of_mem_some (h.links.next c next hnext),
      h.contextPoolEnd, h.contextUse, h.threads⟩
  · exact ⟨h.links, lt_of_mem_none, lt_of_mem_none, h.contextUse, h.threads⟩

theorem Within.pushUse (h : P.Within n) (hc : c < n) : (P.pushUse c).Within n := by
  have hsome := lt_of_mem_some hc
  unfold CoroutinePool.pushUse
  split
  · rename_i use huse
    have hlt := lt_of_mem_some (h.contextUse use huse)
    exact ⟨((h.links.setNext hlt).setPrev lt_of_mem_none).setPrev hsome, h.contextPool,
      h.contextPoolEnd, hsome, h.threads⟩
  · exact ⟨(h.links.setNext lt_of_mem_none).setPrev lt_of_mem_none, h.contextPool,
      h.contextPoolEnd, hsome, h.threads⟩

theorem Within.useCoroutineContext (h : P.Within n) {result : Option ContextPtr}
    (huse : P.useCoroutineContext = some (result, P')) :
    P'.Within n ∧ ∀ c ∈ result, c < n := by
  unfold CoroutinePool.useCoroutineContext at huse
  split at huse
  · split at huse
    · rename_i c hpool
      obtain ⟨rfl, rfl⟩ := Prod.mk.inj (Option.some.inj huse)
      have hc : c < n := h.contextPool c hpool
      have hpush := (h.popContext c).pushUse hc
      have hswitch : (((P.popContext c).pushUse c).switchTo c).Within n :=
        ⟨hpush.links, hpush.contextPool, hpush.contextPoolEnd, hpush.contextUse, hpush.threads⟩
      exact ⟨hswitch.asserEventStop, lt_of_mem_some hc⟩
    · cases huse
  · obtain ⟨rfl, rfl⟩ := Prod.mk.inj (Option.some.inj huse)
    exact ⟨h.asserEventStop, lt_of_mem_none⟩

theorem Within.initCoroutineContext (h : P.Within n) (hmallocs : P.mallocs = n) :
    (P.initCoroutineContext n).Within (n + 1) := by
  have hlinks : P.links.All (· < n + 1) :=
    ⟨fun x y hy => Nat.lt_succ_of_lt (h.links.next x y hy),
      fun x y hy => Nat.lt_succ_of_lt (h.links.prev x y hy)⟩
  have hend : ∀ c ∈ P.contextPoolEnd, c < n + 1 :=
    fun c hc => Nat.lt_succ_of_lt (h.contextPoolEnd c hc)
  have huse : ∀ c ∈ P.contextUse, c < n + 1 := fun c hc => Nat.lt_succ_of_lt (h.contextUse c hc)
  have hsome := lt_of_mem_some (Nat.lt_succ_self n)
  have hnew := (hlinks.setNext (x := n) lt_of_mem_none).setPrev (x := n) lt_of_mem_none
  have hthreads : ∀ c < n + 1, Function.update P.threadId n n c = c := by
    intro c hc
    by_cases hcn : c = n
    · rw [hcn, Function.update_self]
    · rw [Function.update_of_ne hcn]
      exact h.threads c (by omega)
  unfold CoroutinePool.initCoroutineContext
  dsimp only
  rw [hmallocs]
  split
  · exact ⟨hnew, hsome, hsome, huse, hthreads⟩
  · rename_i pool hpool
    have hlt := lt_of_mem_some (Nat.lt_succ_of_lt (h.contextPool pool hpool))
    split
    · exact ⟨(hnew.setNext hlt).setPrev hsome, hsome, hend, huse, hthreads⟩
    · exact ⟨(hnew.setPrev hsome).setNext hlt, hsome, hend, huse, hthreads⟩

theorem within_initContexts (n : Nat) : (initContexts (List.range n)).Within n := by
  -- induction on the number of contexts
  induction n with
  | zero =>
    exact ⟨⟨nofun, nofun⟩, lt_of_mem_none, lt_of_mem_none, lt_of_mem_none, nofun⟩
  | succ n ih =>
    have hmallocs := (chains_initContexts (List.range n)).2
    rw [List.length_range] at hmallocs
    have hstep : initContexts (List.range (n + 1)) =
        (initContexts (List.range n)).initCoroutineContext n := by
      rw [initContexts, List.range_succ, List.foldl_append]
      rfl
    rw [hstep]
    exact ih.initCoroutineContext hmallocs

end CoroutinePool

end Phpce
