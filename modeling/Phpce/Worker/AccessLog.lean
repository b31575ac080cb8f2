import Phpce.Worker.Scoreboard

/-!
# Whose line the access log gets

`close_request` logs what the slot holds. The accepted time is that of the request that started
last, and each string that of the last request to have had it when it started or was resumed.

* **`attributed_of_run`** — in a run where each request that is closed is the one that has started
  last, and was the last to give each of its data, every line is that of its request.
* **`not_attributed`** — a suspended request whose client goes away is logged with the data of the
  one that came in between.
-/

namespace Phpce

open Bytes

/-- What `fpm_request_info` puts into an array that `fpm_request_reading_headers` has emptied. -/
def slotString (size : Nat) (src : Option Bytes) : Bytes := strlcpy size (src.getD [])

theorem strlcpy_nil (size : Nat) : strlcpy size [] = [] := List.take_nil

namespace LogLine

/-- The property of a line: the slot holds the data of the request, and the time since it was
accepted. -/
structure OfRequest (l : LogLine) (r : WorkerRequest) : Prop where
  requestMethod : l.proc.requestMethod = slotString 16 r.info.requestMethod
  requestUri : l.proc.requestUri = slotString 128 r.info.requestUri
  queryString : l.proc.queryString = slotString 512 r.info.queryString
  scriptFilename : l.proc.scriptFilename = slotString 256 r.info.pathTranslated
  accepted : l.proc.accepted = r.accepted
  duration : l.proc.duration = l.proc.tv - r.accepted

end LogLine

namespace SlotWorker

variable {x x' : SlotWorker} {e : SlotEvent} {o : SlotOp}

def Attributed (x : SlotWorker) : Prop :=
  ∀ l ∈ x.log, ∀ r ∈ l.request, l.OfRequest r

/-! ## What the slot holds -/

/-- The value that the requests have given last, since one of them has started. -/
def latest (x : SlotWorker) (field : Sapi.RequestInfo → Option Bytes) : Option Bytes :=
  x.infos.findSome? field

/-- The invariant: the slot is that of the last start, with what has been given since. -/
structure SlotOfLatest (x : SlotWorker) : Prop where
  requestMethod : x.proc.requestMethod = slotString 16 (x.latest (·.requestMethod))
  requestUri : x.proc.requestUri = slotString 128 (x.latest (·.requestUri))
  queryString : x.proc.queryString = slotString 512 (x.latest (·.queryString))
  scriptFilename : x.proc.scriptFilename = slotString 256 (x.latest (·.pathTranslated))
  accepted : ∀ r ∈ x.lastStarted, x.proc.accepted = r.accepted

theorem strlcpyIf_latest {size : Nat} {dst : Bytes} {field : Sapi.RequestInfo → Option Bytes}
    (h : dst = slotString size (x.latest field)) (info : Sapi.RequestInfo) :
    strlcpyIf size dst (field info) = slotString size ((info :: x.infos).findSome? field) := by
  cases hfield : field info with
  | none =>
    rw [List.findSome?_cons, hfield]
    exact h
  | some src =>
    rw [List.findSome?_cons, hfield]
    rfl

theorem SlotOfLatest.op (h : x.SlotOfLatest) (o : SlotOp) : (x.op o).SlotOfLatest := by
  cases o with
  | readingHeaders c info =>
    have hempty (size : Nat) : [] = slotString size none := (strlcpy_nil size).symm
    refine ⟨hempty 16, hempty 128, hempty 512, hempty 256, fun r hr => ?_⟩
    rw [← Option.some.inj hr]
    rfl
  | info info =>
    exact ⟨strlcpyIf_latest h.requestMethod info, strlcpyIf_latest h.requestUri info,
      strlcpyIf_latest h.queryString info, strlcpyIf_latest h.scriptFilename info, h.accepted⟩
  | connect _ | accepting | executing | closeRequest _ | finished | abandon _ =>
    exact ⟨h.requestMethod, h.requestUri, h.queryString, h.scriptFilename, h.accepted⟩

/-! ## The lines -/

/-- The condition on what a callback does: the request that is closed is the one that has started
last, and of the data that have been given since, the last ones are its own. -/
def ClosesLatest (x : SlotWorker) : SlotOp → Prop
  | .closeRequest c => ∀ r ∈ x.requestOf c, x.lastStarted = some r ∧
      x.latest (·.requestMethod) = r.info.requestMethod ∧
      x.latest (·.requestUri) = r.info.requestUri ∧
      x.latest (·.queryString) = r.info.queryString ∧
      x.latest (·.pathTranslated) = r.info.pathTranslated
  | _ => True

instance (x : SlotWorker) : DecidablePred x.ClosesLatest
  | .closeRequest c => inferInstanceAs (Decidable (∀ r ∈ x.requestOf c, x.lastStarted = some r ∧
      x.latest (·.requestMethod) = r.info.requestMethod ∧
      x.latest (·.requestUri) = r.info.requestUri ∧
      x.latest (·.queryString) = r.info.queryString ∧
      x.latest (·.pathTranslated) = r.info.pathTranslated))
  | .connect _ | .accepting | .readingHeaders _ _ | .info _ | .executing | .finished
  | .abandon _ => inferInstanceAs (Decidable True)

theorem SlotOfLatest.ofRequest (h : x.SlotOfLatest) {c : ContextPtr} {r : WorkerRequest}
    (hcloses : x.ClosesLatest (.closeRequest c)) (hr : r ∈ x.requestOf c) :
    LogLine.OfRequest ⟨x.requestOf c, x.proc.fpmRequestEnd x.clock⟩ r := by
  obtain ⟨hstarted, hmethod, huri, hquery, hscript⟩ := hcloses r hr
  have haccepted : x.proc.accepted = r.accepted := h.accepted r hstarted
  constructor
  · rw [← hmethod]
    exact h.requestMethod
  · rw [← huri]
    exact h.requestUri
  · rw [← hquery]
    exact h.queryString
  · rw [← hscript]
    exact h.scriptFilename
  · exact haccepted
  · rw [← haccepted]
    rfl

theorem Attributed.op (h : x.Attributed) (hslot : x.SlotOfLatest) (hcloses : x.ClosesLatest o) :
    (x.op o).Attributed := by
  cases o with
  | closeRequest c =>
    intro l hl r hr
    rcases List.mem_cons.mp hl with rfl | hold
    · exact hslot.ofRequest hcloses hr
    · exact h l hold r hr
  | connect _ | accepting | readingHeaders _ _ | info _ | executing | finished | abandon _ =>
    exact h

theorem attributed_step (h : x.SlotOfLatest ∧ x.Attributed) (hguard : OpGuard ClosesLatest x e)
    (hstep : slotSystem.step x e = some x') : x'.SlotOfLatest ∧ x'.Attributed := by
  obtain ⟨hslot, hlog⟩ := h
  rcases step_cases hstep with ⟨o, script, rfl, ho, rfl⟩ | ⟨worker, clock, script, -, -, rfl⟩
  · have hop := hslot.op o
    refine ⟨⟨hop.requestMethod, hop.requestUri, hop.queryString, hop.scriptFilename, hop.accepted⟩,
      ?_⟩
    exact hlog.op hslot (hguard o ho)
  · exact ⟨⟨hslot.requestMethod, hslot.requestUri, hslot.queryString, hslot.scriptFilename,
      hslot.accepted⟩, hlog⟩

/-- **While each request that is closed is the last one to have started and to have given its
data**, the lines of the access log are those of their requests. -/
theorem attributed_of_run {idxs : List Nat} {maxRequests : Nat} {es : List SlotEvent}
    (hrun : slotSystem.Run (OpGuard ClosesLatest) (start idxs maxRequests) es x) :
    x.Attributed := by
  have hstart : SlotOfLatest (start idxs maxRequests) ∧ Attributed (start idxs maxRequests) := by
    have hempty (size : Nat) : [] = slotString size none := (strlcpy_nil size).symm
    refine ⟨⟨hempty 16, hempty 128, hempty 512, hempty 256, fun r hr => ?_⟩, fun l hl => ?_⟩
    · cases hr
    · exact absurd hl List.not_mem_nil
  have hend := hrun.invariant (fun _ _ _ h hguard hstep => attributed_step h hguard hstep) hstart
  exact hend.2

/-- A request that starts and ends while another one is suspended. -/
theorem attributed_of_run_inner : ∃ x,
    slotSystem.Run (OpGuard ClosesLatest) (start [0, 1] 0)
      [.callback (.accept 3) (getRequest "/"), .next,
        .callback (.readable 0 (.executed [.yielded]) .completes) (getRequest "/"),
        .next, .next, .next, .next, .skip,
        .callback (.accept 4) (getRequest "/"), .next, .elapse 70,
        .callback (.readable 5 (.executed [.finished]) .completes) (getRequest "/b"),
        .next, .next, .next, .next, .skip, .elapse 30, .next, .skip] x ∧
    x.log.map (fun l => (l.request, l.proc.duration)) = [(some ⟨1, 70, getRequest "/b"⟩, 30)] ∧
    x.Attributed := by
  have hexec : (slotSystem.execWhile (OpGuard ClosesLatest) (start [0, 1] 0)
      [.callback (.accept 3) (getRequest "/"), .next,
        .callback (.readable 0 (.executed [.yielded]) .completes) (getRequest "/"),
        .next, .next, .next, .next, .skip,
        .callback (.accept 4) (getRequest "/"), .next, .elapse 70,
        .callback (.readable 5 (.executed [.finished]) .completes) (getRequest "/b"),
        .next, .next, .next, .next, .skip, .elapse 30, .next, .skip]).map
        (fun x => x.log.map fun l => (l.request, l.proc.duration)) =
      some [(some ⟨1, 70, getRequest "/b"⟩, 30)] := by decide
  obtain ⟨x, hexec, hlog⟩ := Option.map_eq_some_iff.mp hexec
  have hrun := EventSystem.run_of_execWhile hexec
  exact ⟨x, hrun, hlog, attributed_of_run hrun⟩

/-- **A suspended request whose client goes away** is logged with the script of the request that has
started and ended since. -/
theorem not_attributed : ¬∀ (idxs : List Nat) (maxRequests : Nat) (es : List SlotEvent)
    (x : SlotWorker), slotSystem.FreeRun (start idxs maxRequests) es x → x.Attributed := by
  intro h
  have hrun := EventSystem.run_of_exec (rfl : slotSystem.exec (start [0, 1] 0)
    [.callback (.accept 3) (getRequest "/"), .next,
      .callback (.readable 0 (.executed [.yielded]) .completes) (getRequest "/a"),
      .next, .next, .next, .next, .skip,
      .callback (.accept 4) (getRequest "/"), .next,
      .callback (.readable 5 (.executed [.finished]) .completes) (getRequest "/b"),
      .next, .next, .next, .next, .skip, .next, .skip,
      .callback (.clientEof 0 .completes) (getRequest "/"), .next, .skip] = some _)
  have hline := (h _ _ _ _ hrun) _ List.mem_cons_self ⟨0, 0, getRequest "/a"⟩ rfl
  exact absurd hline.scriptFilename (by decide)

end SlotWorker

end Phpce
