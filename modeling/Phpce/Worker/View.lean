import Phpce.Lib.Owned
import Phpce.Worker.Basic

/-!
# One context's part of a worker

`w.view c` is what a worker holds for the context `c`: its fields, its bufferevents and its
outstanding calls. A callback touches the view of one context only; the lemmas here say what
each small step does to the view of its own context and that it leaves the others alone.

* **`zendExecuteScriptsCoro_spec`** — the file loop as a whole: what it may store, the
  op arrays it destroys, and the one call it leaves outstanding when a file suspends.
-/

namespace Phpce

open List

structure View where
  ctx : CoroutineContext
  bevs : List Bufferevent
  calls : List RemoteCall

namespace View

/-- Nothing is open and nothing outstanding. -/
def Vacant (v : View) : Prop := v.bevs = [] ∧ v.calls = []

/-- The context has the bufferevent `b` and no other. -/
def Attached (v : View) (b : Bufferevent) : Prop :=
  v.bevs = [b] ∧ v.ctx.bev = some b.id ∧ v.ctx.fd ≠ 0

def Connected (v : View) : Prop := (∃ b, v.Attached b) ∧ v.calls = []

/-- A request waits for its call, and the context holds what it held when it was suspended. -/
def Suspended (v : View) : Prop :=
  (∃ b, v.Attached b) ∧ ∃ k, v.calls = [k] ∧ v.ctx = k.issuer

/-- The client is gone and the call of its request is outstanding. -/
def Orphaned (v : View) : Prop :=
  v.bevs = [] ∧ v.ctx.fd = 0 ∧ ∃ k, v.calls = [k] ∧ v.ctx = { k.issuer with fd := 0 }

/-- The context has a client or a call or both. -/
def Busy (v : View) : Prop := v.Connected ∨ v.Suspended ∨ v.Orphaned

end View

namespace Worker

variable {w : Worker} {c c' : ContextPtr} {b : Bufferevent} {k : RemoteCall} {e : Effect}

def bevsOf (w : Worker) (c : ContextPtr) : List Bufferevent :=
  Owned.of Bufferevent.context c w.bevs

def callsOf (w : Worker) (c : ContextPtr) : List RemoteCall :=
  Owned.of RemoteCall.context c w.calls

def view (w : Worker) (c : ContextPtr) : View := ⟨w.contexts c, w.bevsOf c, w.callsOf c⟩

/-- A request on the context `c` is suspended, or was when its client left. -/
def SuspendedAt (w : Worker) (c : ContextPtr) : Prop := ∃ k ∈ w.calls, k.context = c

theorem suspendedAt_iff : w.SuspendedAt c ↔ (w.view c).calls ≠ [] := by
  constructor
  · rintro ⟨k, hk, hc⟩ hnil
    have hmem : k ∈ w.callsOf c := Owned.mem_of.mpr ⟨hk, hc⟩
    rw [show w.callsOf c = [] from hnil] at hmem
    cases hmem
  · intro h
    obtain ⟨k, hk⟩ := exists_mem_of_ne_nil _ h
    obtain ⟨hmem, hc⟩ := Owned.mem_of.mp hk
    exact ⟨k, hmem, hc⟩

/-- The worker `w'` differs from `w` in the view of `c` at most. -/
def SameElsewhere (c : ContextPtr) (w w' : Worker) : Prop :=
  ∀ c', c' ≠ c → w'.view c' = w.view c'

theorem SameElsewhere.trans {w₁ w₂ w₃ : Worker} (h : SameElsewhere c w₁ w₂)
    (h' : SameElsewhere c w₂ w₃) : SameElsewhere c w₁ w₃ :=
  fun c' hne => (h' c' hne).trans (h c' hne)

/-! ## Small steps -/

theorem view_setContext_self (ctx : CoroutineContext) :
    (w.setContext c ctx).view c = { w.view c with ctx := ctx } := by
  simp [view, setContext, bevsOf, callsOf]

theorem sameElsewhere_setContext (ctx : CoroutineContext) :
    SameElsewhere c w (w.setContext c ctx) := by
  intro c' hne
  simp [view, setContext, bevsOf, callsOf, Function.update_of_ne hne]

def suspendedContext (w : Worker) (c : ContextPtr) : CoroutineContext :=
  { w.contexts c with prevExecuteData := some w.nextId }

def madeCall (w : Worker) (c : ContextPtr) : RemoteCall :=
  ⟨w.nextId + 1, c, w.suspendedContext c⟩

theorem view_coroHttpGet_self :
    (w.coroHttpGet c).view c =
      ⟨w.suspendedContext c, w.bevsOf c, w.madeCall c :: w.callsOf c⟩ := by
  simp [view, coroHttpGet, bevsOf, callsOf, suspendedContext, madeCall, Owned.of_cons_self]

theorem sameElsewhere_coroHttpGet : SameElsewhere c w (w.coroHttpGet c) := by
  intro c' hne
  simp only [view, coroHttpGet, bevsOf, callsOf, Function.update_of_ne hne]
  rw [Owned.of_cons_ne (by simpa using hne.symm)]

theorem view_buffereventFree_self (h : w.bevsOf c = [b]) :
    (w.buffereventFree (some b.id)).view c = { w.view c with bevs := [] } := by
  have hnone : Owned.of Bufferevent.context c (w.bevs.filter fun b' => b'.id ≠ b.id) = [] :=
    Owned.of_remove_self h
  simp only [view, buffereventFree, bevsOf, callsOf, View.mk.injEq, true_and, and_true]
  simpa using hnone

theorem sameElsewhere_buffereventFree (hnd : (w.bevs.map (·.id)).Nodup)
    (h : w.bevsOf c = [b]) : SameElsewhere c w (w.buffereventFree (some b.id)) := by
  intro c' hne
  have hb : b ∈ w.bevsOf c := by simp [h]
  obtain ⟨hmem, hc⟩ := Owned.mem_of.mp hb
  have hother : Owned.of Bufferevent.context c' (w.bevs.filter fun b' => b'.id ≠ b.id) =
      Owned.of Bufferevent.context c' w.bevs :=
    Owned.of_remove_ne hnd hmem fun e => hne (e.symm.trans hc)
  simp only [view, buffereventFree, bevsOf, callsOf, View.mk.injEq, true_and, and_true]
  simpa using hother

theorem view_completeCall_self (h : w.callsOf c = [k]) :
    (w.completeCall k).view c = { w.view c with calls := [] } := by
  simp only [view, completeCall, bevsOf, callsOf, View.mk.injEq, true_and]
  exact Owned.of_remove_self h

theorem sameElsewhere_completeCall (hnd : (w.calls.map (·.id)).Nodup)
    (h : w.callsOf c = [k]) : SameElsewhere c w (w.completeCall k) := by
  intro c' hne
  have hk : k ∈ w.callsOf c := by simp [h]
  obtain ⟨hmem, hc⟩ := Owned.mem_of.mp hk
  simp only [view, completeCall, bevsOf, callsOf, View.mk.injEq, true_and]
  exact Owned.of_remove_ne hnd hmem fun e => hne (e.symm.trans hc)

/-! ## Numbers -/

/-- Bufferevents and calls are told apart by their numbers, and new ones get new numbers. -/
structure Ids (w : Worker) : Prop where
  bevs : (w.bevs.map (·.id)).Nodup
  bevsLt : ∀ b ∈ w.bevs, b.id < w.nextId
  calls : (w.calls.map (·.id)).Nodup
  callsLt : ∀ k ∈ w.calls, k.id < w.nextId

theorem Ids.of_sublist {w' : Worker} (h : w.Ids) (hbevs : w'.bevs.Sublist w.bevs)
    (hcalls : w'.calls.Sublist w.calls) (hnext : w.nextId ≤ w'.nextId) : w'.Ids where
  bevs := h.bevs.sublist (hbevs.map _)
  bevsLt b hb := Nat.lt_of_lt_of_le (h.bevsLt b (hbevs.subset hb)) hnext
  calls := h.calls.sublist (hcalls.map _)
  callsLt k hk := Nat.lt_of_lt_of_le (h.callsLt k (hcalls.subset hk)) hnext

theorem Ids.coroHttpGet (h : w.Ids) : (w.coroHttpGet c).Ids where
  bevs := h.bevs
  bevsLt b hb := Nat.lt_trans (h.bevsLt b hb) (by simp [Worker.coroHttpGet])
  calls := by
    have hnew : w.nextId + 1 ∉ w.calls.map (·.id) := by
      intro hmem
      obtain ⟨k, hk, hid⟩ := List.mem_map.mp hmem
      have := h.callsLt k hk
      omega
    simpa [Worker.coroHttpGet] using ⟨by simpa using hnew, h.calls⟩
  callsLt k hk := by
    rcases mem_cons.mp hk with rfl | hk
    · simp [Worker.coroHttpGet]
    · exact Nat.lt_trans (h.callsLt k hk) (by simp [Worker.coroHttpGet])

theorem Ids.buffereventFree (h : w.Ids) (bev : Option Nat) : (w.buffereventFree bev).Ids :=
  h.of_sublist filter_sublist (List.Sublist.refl _) (Nat.le_refl _)

theorem Ids.completeCall (h : w.Ids) : (w.completeCall k).Ids :=
  h.of_sublist (List.Sublist.refl _) filter_sublist (Nat.le_refl _)

/-! ## Closing a descriptor -/

@[simp] theorem closeDescriptor_id (r : FcgiRequest) (b : Bufferevent) :
    (closeDescriptor r b).id = b.id := by
  unfold closeDescriptor; split <;> rfl

@[simp] theorem closeDescriptor_context (r : FcgiRequest) (b : Bufferevent) :
    (closeDescriptor r b).context = b.context := by
  unfold closeDescriptor; split <;> rfl

theorem bevsOf_fcgiFinishRequest (r : FcgiRequest) :
    (w.fcgiFinishRequest r).bevsOf c = (w.bevsOf c).map (closeDescriptor r) := by
  simp [bevsOf, Owned.of, fcgiFinishRequest, filter_map, Function.comp_def]

theorem sameElsewhere_fcgiFinishRequest {r : FcgiRequest} (hids : w.Ids) (hb : b ∈ w.bevs)
    (hr : r.bev = b.id) : SameElsewhere b.context w (w.fcgiFinishRequest r) := by
  intro c' hne
  have hsame : (w.bevsOf c').map (closeDescriptor r) = w.bevsOf c' := by
    refine (map_congr_left fun b' hb' => ?_).trans (List.map_id _)
    obtain ⟨hmem, hc'⟩ := Owned.mem_of.mp hb'
    have hid : b'.id ≠ r.bev := by
      intro heq
      have : b' = b := Owned.eq_of_key_eq hids.bevs hmem hb (heq.trans hr)
      exact hne (this ▸ hc'.symm)
    simp [closeDescriptor, hid]
  simp only [view, bevsOf_fcgiFinishRequest, hsame]
  rfl

theorem Ids.fcgiFinishRequest (h : w.Ids) (r : FcgiRequest) : (w.fcgiFinishRequest r).Ids where
  bevs := by
    have hid : (fun b => (closeDescriptor r b).id) = Bufferevent.id :=
      funext (closeDescriptor_id r)
    simpa [Worker.fcgiFinishRequest, Function.comp_def, hid] using h.bevs
  bevsLt b hb := by
    obtain ⟨b₀, hb₀, rfl⟩ := List.mem_map.mp hb
    rw [closeDescriptor_id]
    exact h.bevsLt b₀ hb₀
  calls := h.calls
  callsLt := h.callsLt

/-! ## The file loop -/

/-- What compiling, running and destroying files on the context `c` does: the context holds
the op array `op`, the numbers up to `next` are taken, and the op arrays with the numbers
`serials` are destroyed. -/
structure FilesRun (c : ContextPtr) (w u : Worker) (op : Option OpArray) (next : Nat)
    (serials : List Nat) : Prop where
  eq : u = { w with
    contexts := Function.update w.contexts c { w.contexts c with opArray := op }
    nextId := next
    trace := serials.map (fun s => .destroyOpArray (some ⟨c, s⟩)) ++ w.trace }
  le : w.nextId ≤ next
  nodup : serials.Nodup
  fresh : ∀ s ∈ serials, w.nextId ≤ s ∧ s < next

theorem filesRun_nil : FilesRun c w w (w.contexts c).opArray w.nextId [] where
  eq := by simp
  le := Nat.le_refl _
  nodup := nodup_nil
  fresh := by simp

theorem filesRun_storeOpArray :
    FilesRun c w (w.storeOpArray c) (some ⟨c, w.nextId⟩) (w.nextId + 1) [] where
  eq := rfl
  le := Nat.le_succ _
  nodup := nodup_nil
  fresh := by simp

theorem FilesRun.cons {u : Worker} {op : Option OpArray} {next : Nat} {serials : List Nat}
    (h : FilesRun c ((w.storeOpArray c).emit (.destroyOpArray (some ⟨c, w.nextId⟩))) u op next
      serials) : FilesRun c w u op next (serials ++ [w.nextId]) := by
  have hle : w.nextId + 1 ≤ next := h.le
  have hfresh : ∀ s ∈ serials, w.nextId + 1 ≤ s ∧ s < next := h.fresh
  refine ⟨?_, by omega, ?_, ?_⟩
  · rw [h.eq]
    simp [emit, storeOpArray]
  · rw [nodup_append]
    refine ⟨h.nodup, by simp, ?_⟩
    intro s hs t ht
    have := hfresh s hs
    rw [mem_singleton.mp ht]
    omega
  · intro s hs
    rcases mem_append.mp hs with hs | hs
    · have := hfresh s hs
      omega
    · rw [mem_singleton.mp hs]
      omega

/-- **The file loop.** It compiles, runs and destroys files; when a file suspends, the loop ends
with the call of that file outstanding and its op array in the context, not destroyed. -/
theorem zendExecuteScriptsCoro_spec (w : Worker) (c : ContextPtr) (files : List FileExit) :
    ∃ u op next serials, FilesRun c w u op next serials ∧
      (((w.zendExecuteScriptsCoro c files).2 ≠ .yielded ∧
          (w.zendExecuteScriptsCoro c files).2 ≠ .deadFrame ∧
          (w.zendExecuteScriptsCoro c files).1 = u) ∨
        (((w.zendExecuteScriptsCoro c files).2 = .yielded ∨
            (w.zendExecuteScriptsCoro c files).2 = .deadFrame) ∧
          (w.zendExecuteScriptsCoro c files).1 = u.coroHttpGet c ∧
          ∃ s, op = some ⟨c, s⟩ ∧ s ∉ serials ∧ w.nextId ≤ s ∧ s < next)) := by
  -- induction on the files
  induction files generalizing w with
  | nil => exact ⟨w, _, _, _, filesRun_nil, Or.inl (by simp [zendExecuteScriptsCoro])⟩
  | cons exit files ih =>
    cases exit with
    | notCompiled => exact ⟨w, _, _, _, filesRun_nil, Or.inl (by simp [zendExecuteScriptsCoro])⟩
    | bailout =>
      exact ⟨_, _, _, _, filesRun_storeOpArray, Or.inl (by simp [zendExecuteScriptsCoro])⟩
    | yielded =>
      exact ⟨_, _, _, _, filesRun_storeOpArray,
        Or.inr ⟨by simp [zendExecuteScriptsCoro], by simp [zendExecuteScriptsCoro],
          w.nextId, rfl, by simp, Nat.le_refl _, by omega⟩⟩
    | handlerYielded =>
      exact ⟨_, _, _, _, filesRun_storeOpArray,
        Or.inr ⟨by simp [zendExecuteScriptsCoro], by simp [zendExecuteScriptsCoro],
          w.nextId, rfl, by simp, Nat.le_refl _, by omega⟩⟩
    | finished =>
      have hop : ((w.storeOpArray c).contexts c).opArray = some ⟨c, w.nextId⟩ := by
        simp [storeOpArray]
      simp only [zendExecuteScriptsCoro, hop]
      obtain ⟨u, op, next, serials, hrun, hres⟩ :=
        ih ((w.storeOpArray c).emit (.destroyOpArray (some ⟨c, w.nextId⟩)))
      refine ⟨u, op, next, _, hrun.cons, ?_⟩
      rcases hres with hres | ⟨hres, hu, s, hs, hnot, hle, hlt⟩
      · exact Or.inl hres
      · have hle' : w.nextId + 1 ≤ s := hle
        refine Or.inr ⟨hres, hu, s, hs, ?_, by omega, hlt⟩
        simp only [mem_append, mem_singleton, not_or]
        exact ⟨hnot, by omega⟩

theorem FilesRun.sameElsewhere {u : Worker} {op : Option OpArray} {next : Nat}
    {serials : List Nat} (h : FilesRun c w u op next serials) : SameElsewhere c w u := by
  intro c' hne
  rw [h.eq]
  simp [view, bevsOf, callsOf, Function.update_of_ne hne]

theorem FilesRun.view_self {u : Worker} {op : Option OpArray} {next : Nat}
    {serials : List Nat} (h : FilesRun c w u op next serials) :
    u.view c = { w.view c with ctx := { w.contexts c with opArray := op } } := by
  rw [h.eq]
  simp [view, bevsOf, callsOf]

theorem FilesRun.frame {u : Worker} {op : Option OpArray} {next : Nat} {serials : List Nat}
    (h : FilesRun c w u op next serials) : u.pool = w.pool ∧ u.bevs = w.bevs ∧
      u.status = w.status ∧ u.nextId = next ∧ (u.contexts c).opArray = op := by
  rw [h.eq]
  simp

theorem FilesRun.ids {u : Worker} {op : Option OpArray} {next : Nat} {serials : List Nat}
    (h : FilesRun c w u op next serials) (hids : w.Ids) : u.Ids := by
  refine hids.of_sublist ?_ ?_ ?_
  · rw [h.eq]
  · rw [h.eq]
  · rw [h.eq]
    exact h.le

end Worker

end Phpce
