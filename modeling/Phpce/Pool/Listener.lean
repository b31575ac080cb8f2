import Mathlib.Data.List.Chain
import Phpce.Pool.Chains

/-!
# The listener's flag, the counter and the registration

`listener_event_stop`, `context_count` and libevent's registration of `listener_event` are three
copies of one fact. `ListenerSync` says that they agree and that the calls on the listener
alternate.

* **`ListenerSync.useCoroutineContext`**, **`ListenerSync.freeCoroutineContext`** — both pool
  operations keep them in step, on any pool and for any context: neither looks at the lists.
-/

namespace Phpce

namespace CoroutinePool

/-- The flag is set exactly when no context is counted as free, the listener is registered
exactly when the flag is not set, and it is never added or deleted twice in a row. -/
structure ListenerSync (P : CoroutinePool) : Prop where
  flag : P.listenerEventStop = true ↔ P.contextCount = 0
  registered : P.listenerCalls.head? =
    some (if P.listenerEventStop then .eventDel else .eventAdd)
  alternate : P.listenerCalls.IsChain (· ≠ ·)

variable {P P' : CoroutinePool} {c : ContextPtr}

theorem listenerSync_asserEventStop (hflag : P.listenerEventStop = true → P.contextCount = 0)
    (hregistered : P.listenerCalls.head? =
      some (if P.listenerEventStop then .eventDel else .eventAdd))
    (halternate : P.listenerCalls.IsChain (· ≠ ·)) : ListenerSync P.asserEventStop := by
  unfold asserEventStop
  cases hstop : P.listenerEventStop with
  | true =>
    simp only [Bool.not_true, Bool.false_and, Bool.false_eq_true, if_false]
    exact ⟨⟨fun _ => hflag hstop, fun _ => hstop⟩, hregistered, halternate⟩
  | false =>
    rw [hstop] at hregistered
    by_cases hcount : P.contextCount = 0
    · -- the last free context is gone: the listener is deleted
      simp only [hcount, Bool.not_false, Bool.true_and, Nat.lt_one_iff, decide_true, if_true]
      refine ⟨by simp, rfl, ?_⟩
      rw [List.isChain_cons]
      refine ⟨fun y hy => ?_, halternate⟩
      rw [hregistered] at hy
      obtain rfl : ListenerCall.eventAdd = y := by simpa using hy
      simp
    · simp only [hcount, Bool.not_false, Bool.true_and, Nat.lt_one_iff, decide_false,
        Bool.false_eq_true, if_false]
      exact ⟨by simp [hstop, hcount], by rw [hstop]; exact hregistered, halternate⟩

theorem listenerSync_asserEventContinue (hpos : 0 < P.contextCount)
    (hregistered : P.listenerCalls.head? =
      some (if P.listenerEventStop then .eventDel else .eventAdd))
    (halternate : P.listenerCalls.IsChain (· ≠ ·)) : ListenerSync P.asserEventContinue := by
  unfold asserEventContinue
  cases hstop : P.listenerEventStop with
  | true =>
    -- the first context is back: the listener is added again
    rw [hstop] at hregistered
    simp only [hpos, Bool.true_and, decide_true, if_true]
    refine ⟨by simp; omega, rfl, ?_⟩
    rw [List.isChain_cons]
    refine ⟨fun y hy => ?_, halternate⟩
    rw [hregistered] at hy
    obtain rfl : ListenerCall.eventDel = y := by simpa using hy
    simp
  | false =>
    simp only [Bool.false_and, Bool.false_eq_true, if_false]
    exact ⟨by simp [hstop]; omega, hregistered, halternate⟩

structure SameListener (P P' : CoroutinePool) : Prop where
  count : P'.contextCount = P.contextCount
  stop : P'.listenerEventStop = P.listenerEventStop
  calls : P'.listenerCalls = P.listenerCalls

theorem sameListener_unlinkContext : SameListener P (P.unlinkContext c) := by
  unfold unlinkContext
  split <;> exact ⟨rfl, rfl, rfl⟩

theorem sameListener_appendContext : SameListener P (P.appendContext c) := by
  unfold appendContext
  split
  · exact ⟨rfl, rfl, rfl⟩
  · split <;> exact ⟨rfl, rfl, rfl⟩

theorem sameListener_popContext : SameListener P (P.popContext c) := by
  unfold popContext
  split <;> exact ⟨rfl, rfl, rfl⟩

theorem sameListener_pushUse : SameListener P (P.pushUse c) := by
  unfold pushUse
  split <;> exact ⟨rfl, rfl, rfl⟩

theorem SameListener.trans {P'' : CoroutinePool} (h : SameListener P P')
    (h' : SameListener P' P'') : SameListener P P'' :=
  ⟨h'.count.trans h.count, h'.stop.trans h.stop, h'.calls.trans h.calls⟩

/-- **`free_coroutine_context` keeps the three in step**, whatever the context is. -/
theorem ListenerSync.freeCoroutineContext (h : ListenerSync P) (c : ContextPtr) :
    ListenerSync (P.freeCoroutineContext c) := by
  have hsame : SameListener P ((P.unlinkContext c).appendContext c) :=
    sameListener_unlinkContext.trans sameListener_appendContext
  refine listenerSync_asserEventContinue (Nat.succ_pos _) ?_ ?_
  · simpa [countUp, hsame.stop, hsame.calls] using h.registered
  · simpa [countUp, hsame.calls] using h.alternate

/-- **`use_coroutine_context` keeps the three in step** whenever it comes back. -/
theorem ListenerSync.useCoroutineContext (h : ListenerSync P) {result : Option ContextPtr}
    (huse : P.useCoroutineContext = some (result, P')) : ListenerSync P' := by
  unfold CoroutinePool.useCoroutineContext at huse
  split at huse
  · rename_i hpos
    split at huse
    · rename_i front hpool
      obtain ⟨-, rfl⟩ : some front = result ∧
          (((P.popContext front).pushUse front).switchTo front).asserEventStop = P' := by
        simpa using huse
      have hsame : SameListener P ((P.popContext front).pushUse front) :=
        sameListener_popContext.trans sameListener_pushUse
      have hstop : P.listenerEventStop = false := by
        by_contra hne
        have := h.flag.mp (by simpa using hne)
        omega
      refine listenerSync_asserEventStop ?_ ?_ ?_
      · simp [switchTo, hsame.stop, hstop]
      · simpa [switchTo, hsame.stop, hsame.calls] using h.registered
      · simpa [switchTo, hsame.calls] using h.alternate
    · cases huse
  · obtain ⟨-, rfl⟩ : none = result ∧ P.asserEventStop = P' := by simpa using huse
    exact listenerSync_asserEventStop h.flag.mp h.registered h.alternate

end CoroutinePool

end Phpce
