import Phpce.Lib.FdTable
import Phpce.Worker.Frees
import Phpce.Worker.Invariant

/-!
# The descriptors of the clients

Two things own the descriptor of a client: the bufferevent, which closes it when it is freed, and
the `fcgi_request`, for which `fcgi_close` closes it unless the connection is to be kept. What is
opened between the two closes gets the number.

* **`closed_once_of_run`** — while `fcgi_close` finds `keep` set wherever it is called, every
  descriptor that `accept` returned is closed once, and no close hits another's number.
* **`not_closed_once`** — a script that calls `fastcgi_finish_request` without `FCGI_KEEP_CONN` and
  then opens a file: the file is closed with the bufferevent.
-/

namespace Phpce

open List Option
open Function (update update_of_ne update_self)

/-- Who holds a descriptor: the process since its start, a client, the body of a coroutine's
request, or PHP code and the libraries. -/
inductive Holder where
  | reserved
  | connection (bev : Nat)
  | body (c : ContextPtr)
  | file
  deriving DecidableEq, Repr

/-- A call of `close`: whose descriptor the caller means, and whose it is. -/
structure Close where
  target : Holder
  hit : Option Holder
  deriving DecidableEq, Repr

/-- What `fcgi_close` reads of an `fcgi_request`, and the client that it came from. -/
structure ServerRequest where
  bev : Nat
  fd : Int
  keep : Bool
  deriving DecidableEq, Repr

/-- The kernel's table and the fields that hold descriptors. `request` is a coroutine's
`SG(server_context)`, which is also `context->request`. The latest close is the first. -/
structure Descriptors where
  kernel : FdTable Holder
  -- The number that `accept` returned for each client
  fds : Nat → Int
  accepted : List Nat
  sapiStarted : ContextPtr → Bool
  request : ContextPtr → Option ServerRequest
  requestBodyFd : ContextPtr → Int
  closes : List Close

/-- What code does to descriptors while a callback runs it. -/
inductive CodeAction where
  | openFile
  | closeFile (fd : Nat)
  -- The first read of a body that is in a file
  | readBody
  -- A read or a write of the connection fails
  | transferFails
  | fastcgiFinishRequest
  deriving DecidableEq, Repr

namespace Descriptors

/-- `close` of a number. A negative one is no descriptor. -/
def close (d : Descriptors) (target : Holder) (fd : Int) : Descriptors :=
  if fd < 0 then d
  else
    { d with
      kernel := d.kernel.close fd.toNat
      closes := ⟨target, d.kernel.holder fd.toNat⟩ :: d.closes }

def openFile (d : Descriptors) : Descriptors := { d with kernel := d.kernel.install .file }

def closeFile (d : Descriptors) (fd : Nat) : Descriptors :=
  if d.kernel.holder fd = some .file then { d with kernel := d.kernel.close fd } else d

def setRequest (d : Descriptors) (c : ContextPtr) (r : ServerRequest) : Descriptors :=
  { d with request := update d.request c (some r) }

/-- `fcgi_close` -/
def fcgiClose (d : Descriptors) (c : ContextPtr) (r : ServerRequest) (force : Bool) :
    Descriptors :=
  if (force || !r.keep) && 0 ≤ r.fd then
    (d.close (.connection r.bev) r.fd).setRequest c { r with fd := -1 }
  else d

/-- `fcgi_finish_request`, and `fastcgi_finish_request` of a script, on the coroutine's request. -/
def fcgiFinishRequest (d : Descriptors) (c : ContextPtr) (force : Bool) : Descriptors :=
  match d.request c with
  | some r => if 0 ≤ r.fd then d.fcgiClose c r force else d
  | none => d

/-- `fcgi_request_set_keep(request, 0)`, which is also what a transfer that fails does. -/
def clearKeep (d : Descriptors) (c : ContextPtr) : Descriptors :=
  match d.request c with
  | some r => d.setRequest c { r with keep := false }
  | none => d

/-- `sapi_cgi_read_post`, where `REQUEST_BODY_FILE` is set. -/
def readBody (d : Descriptors) (c : ContextPtr) : Descriptors :=
  if d.requestBodyFd c = -1 then
    { d with
      kernel := d.kernel.install (.body c)
      requestBodyFd := update d.requestBodyFd c d.kernel.lowestFree }
  else d

def act (d : Descriptors) (c : ContextPtr) : CodeAction → Descriptors
  | .openFile => d.openFile
  | .closeFile fd => d.closeFile fd
  | .readBody => d.readBody c
  | .transferFails => d.clearKeep c
  | .fastcgiFinishRequest => d.fcgiFinishRequest c false

def run (d : Descriptors) (c : ContextPtr) : List CodeAction → Descriptors
  | [] => d
  | a :: actions => (d.act c a).run c actions

/-! ## The callbacks -/

/-- `do_accept`. A null context is no coroutine. -/
def doAccept (d : Descriptors) (w : Worker) (fd : Int) : Descriptors :=
  if fd < 0 then d
  else
    let d := { d with
      kernel := d.kernel.install (.connection w.nextId)
      fds := update d.fds w.nextId fd
      accepted := w.nextId :: d.accepted }
    match w.pool.useCoroutineContext with
    | some (some c, _) => { d with sapiStarted := update d.sapiStarted c false }
    | _ => d

/-- `socket_read_cb`, up to the end of `php_request_startup`. -/
def startRequest (d : Descriptors) (w : Worker) (b : Bufferevent) (keep : Bool) : Descriptors :=
  { d with
    request := update d.request b.context
      (some ⟨b.id, (w.contexts b.context).fd, keep⟩)
    requestBodyFd := update d.requestBodyFd b.context (-1)
    sapiStarted := update d.sapiStarted b.context true }

/-- A callback up to where it runs code. -/
def begin (d : Descriptors) (w : Worker) (keep : Bool) : WorkerEvent → Descriptors
  | .accept fd => d.doAccept w fd
  | .readable bev path _ =>
      match w.bevs.find? fun b => b.id = bev ∧ b.fdOpen with
      | some b =>
          if path = .startupFailed then
            (d.startRequest w b keep).fcgiFinishRequest b.context true
          else d.startRequest w b keep
      | none => d
  | .clientEof _ _ | .reply _ _ _ => d

/-- `close_request`, up to `php_request_shutdown`. -/
def closeBody (d : Descriptors) (c : ContextPtr) : Descriptors :=
  { d.close (.body c) (d.requestBodyFd c) with
    requestBodyFd := update d.requestBodyFd c (-2) }

/-- `sapi_deactivate`, by way of `sapi_cgi_deactivate`. -/
def sapiDeactivate (d : Descriptors) (c : ContextPtr) : Descriptors :=
  { if d.sapiStarted c then d.fcgiFinishRequest c false else d with
    sapiStarted := update d.sapiStarted c false }

/-- The end of `close_request`. The context's request may be a null pointer. -/
def countRequest (d : Descriptors) (w : Worker) (c : ContextPtr) : Option Descriptors :=
  if w.maxRequests ≠ 0 ∧ w.requests + 1 = w.maxRequests then
    (d.request c).map fun _ => (d.clearKeep c).fcgiFinishRequest c false
  else some d

/-- `bufferevent_free`, with `BEV_OPT_CLOSE_ON_FREE`. -/
def buffereventFree (d : Descriptors) : Option Nat → Descriptors
  | some bev => d.close (.connection bev) (d.fds bev)
  | none => d

end Descriptors

namespace Worker

def calledBack (w : Worker) : WorkerEvent → Option ContextPtr
  | .accept _ => none
  | .readable bev _ _ | .clientEof bev _ =>
      (w.bevs.find? fun b => b.id = bev ∧ b.fdOpen).map (·.context)
  | .reply call _ _ => (w.calls.find? fun k => k.id = call).map (·.context)

/-- The callback runs code before it comes to `close_request`. -/
def runsCode (w : Worker) : WorkerEvent → Bool
  | .readable _ path _ => path ≠ .startupFailed
  | .reply call _ _ =>
      match w.calls.find? fun k => k.id = call with
      | some k => (w.contexts k.context).fd ≠ 0
      | none => false
  | .accept _ | .clientEof _ _ => false

/-- The callback comes to `close_request`. -/
def closesRequest (w : Worker) : WorkerEvent → Bool
  | .readable _ path _ => path.closes
  | .clientEof _ _ => true
  | .reply call exit _ =>
      match w.calls.find? fun k => k.id = call with
      | some k => (w.contexts k.context).fd ≠ 0 && exit = .finished
      | none => false
  | .accept _ => false

end Worker

structure Connections where
  worker : Worker
  descriptors : Descriptors

/-- An event of the worker, with the `FCGI_KEEP_CONN` of the request that it reads and what the
code does before `close_request` and in it; or a file that is opened or closed between events. -/
inductive DescriptorEvent where
  | worker (e : WorkerEvent) (keep : Bool) (actions late : List CodeAction)
  | openFile
  | closeFile (fd : Nat)
  deriving DecidableEq, Repr

namespace Connections

/-- The kernel lets the event happen: `accept` returns the lowest free number, and a client's
callbacks are called while its descriptor is open. No code does anything that is not run. -/
def Enabled (x : Connections) (e : WorkerEvent) (actions late : List CodeAction) : Prop :=
  (x.worker.runsCode e = false → actions = []) ∧
    (x.worker.closesRequest e = false → late = []) ∧
    match e with
    | .accept fd => fd < 0 ∨ fd = x.descriptors.kernel.lowestFree
    | .readable bev _ _ | .clientEof bev _ =>
        x.descriptors.kernel.holder (x.descriptors.fds bev).toNat = some (.connection bev)
    | .reply _ _ _ => True

instance (x : Connections) (e : WorkerEvent) (actions late : List CodeAction) :
    Decidable (x.Enabled e actions late) := by
  unfold Enabled
  cases e <;> dsimp only <;> infer_instance

def afterCode (x : Connections) (e : WorkerEvent) (keep : Bool)
    (actions late : List CodeAction) : Descriptors :=
  let d := x.descriptors.begin x.worker keep e
  match x.worker.calledBack e with
  | some c =>
      let d := d.run c actions
      if x.worker.closesRequest e then (d.closeBody c).run c late else d
  | none => d

/-- The callback of an event that takes the worker to `w'`. -/
def callback (x : Connections) (w' : Worker) (e : WorkerEvent) (keep : Bool)
    (actions late : List CodeAction) : Connections :=
  let d := x.afterCode e keep actions late
  match x.worker.shutsDown e with
  | some c =>
      match (d.sapiDeactivate c).countRequest x.worker c with
      | some d => ⟨w', d.buffereventFree (x.worker.frees e)⟩
      | none => ⟨{ x.worker with status := .nullDereference }, d.sapiDeactivate c⟩
  | none => ⟨w', d.buffereventFree (x.worker.frees e)⟩

def step (x : Connections) : DescriptorEvent → Option Connections
  | .worker e keep actions late =>
      if x.Enabled e actions late then
        (workerSystem.step x.worker e).map fun w' => x.callback w' e keep actions late
      else none
  | .openFile => some { x with descriptors := x.descriptors.openFile }
  | .closeFile fd => some { x with descriptors := x.descriptors.closeFile fd }

/-- The start of a worker. The numbers below `reserved` are open; 0 is the listening socket. The
globals of a coroutine are zeroed. -/
def start (idxs : List Nat) (maxRequests reserved : Nat) : Connections where
  worker := Worker.init idxs maxRequests
  descriptors :=
    { kernel := FdTable.initial reserved .reserved
      fds := fun _ => 0
      accepted := []
      sapiStarted := fun _ => false
      request := fun _ => none
      requestBodyFd := fun _ => 0
      closes := [] }

end Connections

def connectionSystem : EventSystem Connections DescriptorEvent where
  step := Connections.step

/-! ## Code that leaves the clients' descriptors alone -/

namespace Descriptors

variable {d d' d₁ : Descriptors} {c : ContextPtr} {fd : Nat} {h : Holder}

def closed (d : Descriptors) (bev : Nat) : Nat :=
  d.closes.countP fun close => close.target = .connection bev

/-- The number of an open body belongs to the body, and 0 to the listening socket. -/
structure Bodies (d : Descriptors) : Prop where
  listening : d.kernel.holder 0 = some .reserved
  held : ∀ c, 0 < d.requestBodyFd c →
    d.kernel.holder (d.requestBodyFd c).toNat = some (.body c)

/-- From `d` to `d'` only bodies and files are closed, each by its own number. -/
structure Spares (d d' : Descriptors) : Prop where
  fds : d'.fds = d.fds
  accepted : d'.accepted = d.accepted
  connections : ∀ fd bev, d.kernel.holder fd = some (.connection bev) →
    d'.kernel.holder fd = some (.connection bev)
  closes : ∃ delta, d'.closes = delta ++ d.closes ∧
    ∀ close ∈ delta, ∃ c, close = ⟨.body c, some (.body c)⟩
  bodies : d'.Bodies

theorem Bodies.spares_refl (hd : d.Bodies) : Spares d d :=
  ⟨rfl, rfl, fun _ _ h => h, ⟨[], rfl, nofun⟩, hd⟩

theorem Spares.trans (h : Spares d d₁) (h' : Spares d₁ d') : Spares d d' where
  fds := h'.fds.trans h.fds
  accepted := h'.accepted.trans h.accepted
  connections fd bev hfd := h'.connections fd bev (h.connections fd bev hfd)
  closes := by
    obtain ⟨delta, heq, hdelta⟩ := h.closes
    obtain ⟨delta', heq', hdelta'⟩ := h'.closes
    refine ⟨delta' ++ delta, by rw [heq', heq, append_assoc], fun close hclose => ?_⟩
    rcases mem_append.mp hclose with hclose | hclose
    · exact hdelta' close hclose
    · exact hdelta close hclose
  bodies := h'.bodies

theorem Spares.closed (h : Spares d d') (bev : Nat) : d'.closed bev = d.closed bev := by
  obtain ⟨delta, heq, hdelta⟩ := h.closes
  have hnone : delta.countP (fun close => close.target = .connection bev) = 0 := by
    refine countP_eq_zero.mpr fun close hclose => ?_
    obtain ⟨c, rfl⟩ := hdelta close hclose
    simp
  rw [Descriptors.closed, heq, countP_append, hnone, Nat.zero_add, Descriptors.closed]

theorem Bodies.install (hd : d.Bodies) (h : Holder) :
    Spares d { d with kernel := d.kernel.install h } :=
  ⟨rfl, rfl, fun _ _ hfd => FdTable.holder_install hfd _, ⟨[], rfl, nofun⟩,
    FdTable.holder_install hd.listening _, fun c hc => FdTable.holder_install (hd.held c hc) _⟩

theorem closeFile_fields (d : Descriptors) (fd : Nat) :
    (d.closeFile fd).closes = d.closes ∧ (d.closeFile fd).accepted = d.accepted ∧
      (d.closeFile fd).request = d.request ∧ (d.closeFile fd).sapiStarted = d.sapiStarted ∧
      (d.closeFile fd).requestBodyFd = d.requestBodyFd := by
  unfold closeFile
  split <;> exact ⟨rfl, rfl, rfl, rfl, rfl⟩

theorem Bodies.closeFile (hd : d.Bodies) (fd : Nat) : Spares d (d.closeFile fd) := by
  unfold Descriptors.closeFile
  split
  · rename_i hfile
    have hkept : ∀ fd' h, h ≠ .file → d.kernel.holder fd' = some h →
        (d.kernel.close fd).holder fd' = some h := by
      intro fd' h hne hfd
      refine FdTable.holder_close hfd ?_
      rintro rfl
      exact hne (some.inj (hfd.symm.trans hfile))
    exact ⟨rfl, rfl, fun _ _ => hkept _ _ nofun, ⟨[], rfl, nofun⟩, hkept _ _ nofun hd.listening,
      fun c hc => hkept _ _ nofun (hd.held c hc)⟩
  · exact hd.spares_refl

theorem Bodies.clearKeep (hd : d.Bodies) (c : ContextPtr) : Spares d (d.clearKeep c) := by
  unfold Descriptors.clearKeep
  split
  · exact ⟨rfl, rfl, fun _ _ h => h, ⟨[], rfl, nofun⟩, hd.listening, hd.held⟩
  · exact hd.spares_refl

theorem Bodies.lowestFree_ne (hd : d.Bodies) : d.kernel.lowestFree ≠ 0 := by
  intro hzero
  have hfree := FdTable.holder_lowestFree (t := d.kernel)
  rw [hzero, hd.listening] at hfree
  cases hfree

theorem Bodies.readBody (hd : d.Bodies) (c : ContextPtr) : Spares d (d.readBody c) := by
  unfold Descriptors.readBody
  split
  · obtain ⟨-, -, hconnections, -, hbodies⟩ := hd.install (.body c)
    refine ⟨rfl, rfl, hconnections, ⟨[], rfl, nofun⟩, hbodies.listening, fun c' hc' => ?_⟩
    by_cases hcc : c' = c
    · subst hcc
      simpa using FdTable.holder_install_self (t := d.kernel)
    · simp only [update_of_ne hcc] at hc' ⊢
      exact hbodies.held c' hc'
  · exact hd.spares_refl

theorem fcgiFinishRequest_keep (hkeep : ∀ r ∈ d.request c, r.keep = true) :
    d.fcgiFinishRequest c false = d := by
  unfold fcgiFinishRequest
  split
  · rename_i r hr
    simp [fcgiClose, hkeep r hr]
  · rfl

end Descriptors

/-- `keep` is set wherever the code calls `fastcgi_finish_request`. -/
def Keeps : Bool → List CodeAction → Prop
  | _, [] => True
  | _, .transferFails :: actions => Keeps false actions
  | keep, .fastcgiFinishRequest :: actions => keep = true ∧ Keeps keep actions
  | keep, .openFile :: actions | keep, .closeFile _ :: actions | keep, .readBody :: actions =>
      Keeps keep actions

instance : (keep : Bool) → (actions : List CodeAction) → Decidable (Keeps keep actions)
  | _, [] => inferInstanceAs (Decidable True)
  | _, .transferFails :: actions => instDecidableKeeps false actions
  | keep, .fastcgiFinishRequest :: actions =>
      have := instDecidableKeeps keep actions
      inferInstanceAs (Decidable (keep = true ∧ Keeps keep actions))
  | keep, .openFile :: actions | keep, .closeFile _ :: actions | keep, .readBody :: actions =>
      instDecidableKeeps keep actions

/-- `keep` when the code has been run. -/
def keepAfter (keep : Bool) (actions : List CodeAction) : Bool :=
  keep && !actions.contains .transferFails

theorem keepAfter_cons (keep : Bool) (a : CodeAction) (actions : List CodeAction) :
    keepAfter keep (a :: actions) = keepAfter (keepAfter keep [a]) actions := by
  cases keep <;> cases a <;> simp [keepAfter]

theorem keepAfter_append (keep : Bool) (actions late : List CodeAction) :
    keepAfter keep (actions ++ late) = keepAfter (keepAfter keep actions) late := by
  simp [keepAfter, Bool.and_assoc]

theorem keeps_append {keep : Bool} {actions late : List CodeAction} :
    Keeps keep (actions ++ late) ↔ Keeps keep actions ∧ Keeps (keepAfter keep actions) late := by
  -- induction on the code
  induction actions generalizing keep with
  | nil => simp [Keeps, keepAfter]
  | cons a actions ih =>
    rw [keepAfter_cons]
    cases a <;> cases keep <;> simp [Keeps, ih, keepAfter]

namespace Descriptors

variable {d d' d₁ : Descriptors} {c : ContextPtr}

/-- Code that leaves the clients' descriptors alone: what it does to the coroutine's fields. -/
structure RunsOn (c : ContextPtr) (actions : List CodeAction) (d d' : Descriptors) : Prop where
  spares : Spares d d'
  request : d'.request c =
    (d.request c).map fun r => { r with keep := keepAfter r.keep actions }
  sapiStarted : d'.sapiStarted = d.sapiStarted
  requestBodyFd : d.requestBodyFd c ≠ 0 → d'.requestBodyFd c ≠ 0

theorem act_runsOn (hd : d.Bodies) (a : CodeAction)
    (hkeeps : ∀ r ∈ d.request c, Keeps r.keep [a]) : RunsOn c [a] d (d.act c a) := by
  have hsame : ∀ {d' : Descriptors}, Spares d d' → d'.request = d.request →
      d'.sapiStarted = d.sapiStarted → (d.requestBodyFd c ≠ 0 → d'.requestBodyFd c ≠ 0) →
      a ≠ .transferFails → RunsOn c [a] d d' := by
    intro d' hspares hrequest hstarted hbody hne
    refine ⟨hspares, ?_, hstarted, hbody⟩
    rw [hrequest]
    cases d.request c with
    | none => rfl
    | some r => simp [keepAfter, hne.symm]
  cases a with
  | openFile => exact hsame (hd.install .file) rfl rfl id nofun
  | closeFile fd =>
    obtain ⟨-, -, hrequest, hstarted, hbody⟩ := closeFile_fields d fd
    exact hsame (hd.closeFile fd) hrequest hstarted (fun hne => hbody ▸ hne) nofun
  | readBody =>
    refine hsame (hd.readBody c) ?_ ?_ ?_ nofun <;> simp only [act, readBody] <;> split
    · rfl
    · rfl
    · rfl
    · rfl
    · exact fun _ => by simpa using hd.lowestFree_ne
    · exact id
  | transferFails =>
    refine ⟨hd.clearKeep c, ?_, ?_, ?_⟩ <;> simp only [act, clearKeep] <;>
      cases hr : d.request c <;> simp_all [setRequest, keepAfter]
  | fastcgiFinishRequest =>
    have heq : d.fcgiFinishRequest c false = d :=
      fcgiFinishRequest_keep fun r hr => (hkeeps r hr).1
    refine hsame ?_ ?_ ?_ ?_ nofun <;> rw [act, heq]
    · exact hd.spares_refl
    · exact id

theorem run_runsOn (hd : d.Bodies) (actions : List CodeAction)
    (hkeeps : ∀ r ∈ d.request c, Keeps r.keep actions) :
    RunsOn c actions d (d.run c actions) := by
  -- induction on the code
  induction actions generalizing d with
  | nil =>
    refine ⟨hd.spares_refl, ?_, rfl, id⟩
    cases hr : d.request c <;> simp [run, hr, keepAfter]
  | cons a actions ih =>
    have hsplit : ∀ r ∈ d.request c, Keeps r.keep [a] ∧ Keeps (keepAfter r.keep [a]) actions :=
      fun r hr => keeps_append.mp (hkeeps r hr)
    have hact := act_runsOn hd a fun r hr => (hsplit r hr).1
    have hrest := ih hact.spares.bodies (by
      rw [hact.request]
      rintro r' hr'
      obtain ⟨r, hr, rfl⟩ := map_eq_some_iff.mp hr'
      exact (hsplit r hr).2)
    refine ⟨hact.spares.trans hrest.spares, ?_, hrest.sapiStarted.trans hact.sapiStarted,
      fun h => hrest.requestBodyFd (hact.requestBodyFd h)⟩
    rw [run, hrest.request, hact.request, Option.map_map]
    refine congrArg (fun f => Option.map f (d.request c)) (funext fun r => ?_)
    simp [keepAfter_cons r.keep a actions]

theorem Bodies.closeBody (hd : d.Bodies) (hserved : d.requestBodyFd c ≠ 0) :
    Spares d (d.closeBody c) := by
  by_cases hneg : d.requestBodyFd c < 0
  · have heq : d.close (.body c) (d.requestBodyFd c) = d := if_pos hneg
    refine ⟨by rw [Descriptors.closeBody, heq], by rw [Descriptors.closeBody, heq],
      by rw [Descriptors.closeBody, heq]; exact fun _ _ h => h,
      ⟨[], by rw [Descriptors.closeBody, heq]; rfl, nofun⟩, ?_⟩
    rw [Descriptors.closeBody, heq]
    refine ⟨hd.listening, fun c' hc' => ?_⟩
    by_cases hcc : c' = c
    · simp [hcc] at hc'
    · simp only [update_of_ne hcc] at hc' ⊢
      exact hd.held c' hc'
  · have hopen := hd.held c (by omega)
    have heq : d.close (.body c) (d.requestBodyFd c) = { d with
        kernel := d.kernel.close (d.requestBodyFd c).toNat
        closes := ⟨.body c, some (.body c)⟩ :: d.closes } := by
      rw [← hopen]
      exact if_neg hneg
    have hkept : ∀ fd h, h ≠ .body c → d.kernel.holder fd = some h →
        (d.kernel.close (d.requestBodyFd c).toNat).holder fd = some h := by
      intro fd h hne hfd
      refine FdTable.holder_close hfd ?_
      rintro rfl
      exact hne (some.inj (hfd.symm.trans hopen))
    rw [Descriptors.closeBody, heq]
    refine ⟨rfl, rfl, fun _ _ => hkept _ _ nofun, ⟨[_], rfl, fun close hclose => ?_⟩,
      hkept _ _ nofun hd.listening, fun c' hc' => ?_⟩
    · exact ⟨c, mem_singleton.mp hclose⟩
    · by_cases hcc : c' = c
      · simp [hcc] at hc'
      · simp only [update_of_ne hcc] at hc' ⊢
        exact hkept _ _ (by simpa using hcc) (hd.held c' hc')

theorem request_closeBody : (d.closeBody c).request = d.request := by
  unfold closeBody close
  split <;> rfl

theorem sapiStarted_closeBody : (d.closeBody c).sapiStarted = d.sapiStarted := by
  unfold closeBody close
  split <;> rfl

theorem Bodies.sapiDeactivate (hd : d.Bodies)
    (hkeep : d.sapiStarted c = true → ∀ r ∈ d.request c, r.keep = true) :
    Spares d (d.sapiDeactivate c) := by
  have heq : (if d.sapiStarted c then d.fcgiFinishRequest c false else d) = d := by
    split
    · exact fcgiFinishRequest_keep (hkeep ‹_›)
    · rfl
  rw [Descriptors.sapiDeactivate, heq]
  exact ⟨rfl, rfl, fun _ _ h => h, ⟨[], rfl, nofun⟩, hd.listening, hd.held⟩

end Descriptors

/-! ## The invariant -/

namespace Worker

variable {w : Worker} {c : ContextPtr}

theorem calledBack_of_shutsDown {e : WorkerEvent} (hc : w.shutsDown e = some c) :
    w.calledBack e = some c ∧ w.closesRequest e = true := by
  cases e with
  | accept fd => cases hc
  | readable bev path shutdown =>
    simp only [shutsDown, ite_none_right_eq_some, Bool.and_eq_true] at hc
    exact ⟨hc.2, hc.1.1⟩
  | clientEof bev shutdown =>
    simp only [shutsDown, ite_none_right_eq_some] at hc
    exact ⟨hc.2, rfl⟩
  | reply call exit shutdown =>
    cases hk : w.calls.find? fun k => k.id = call with
    | none => simp [shutsDown, hk] at hc
    | some k =>
      simp only [shutsDown, hk, ite_none_right_eq_some] at hc
      obtain ⟨⟨hfd, hexit, -⟩, hcontext⟩ := hc
      exact ⟨by simpa [calledBack, hk] using hcontext, by simp [closesRequest, hk, hfd, hexit]⟩

end Worker

namespace Connections

open Descriptors

variable {x x' : Connections} {w' : Worker} {d : Descriptors} {bev : Nat}

/-- The property: each close is of the caller's own descriptor, no client is closed twice, and
one whose bufferevent is gone has been closed. The kernel closes those of a worker that has died. -/
structure ClosedOnce (x : Connections) : Prop where
  own : ∀ close ∈ x.descriptors.closes, close.hit = some close.target
  once : ∀ bev ∈ x.descriptors.accepted, x.descriptors.closed bev ≤ 1
  ends : x.worker.status ≠ .nullDereference → ∀ bev ∈ x.descriptors.accepted,
    x.descriptors.closed bev = 1 ∨ bev ∈ x.worker.bevs.map (·.id)

/-- The invariant of a running worker: a bufferevent's descriptor is open and its own. -/
structure Inv (x : Connections) : Prop where
  bodies : x.descriptors.Bodies
  own : ∀ close ∈ x.descriptors.closes, close.hit = some close.target
  known : ∀ bev, x.descriptors.closed bev ≠ 0 → bev ∈ x.descriptors.accepted
  fresh : ∀ bev ∈ x.descriptors.accepted, bev < x.worker.nextId
  fds : ∀ b ∈ x.worker.bevs, x.descriptors.fds b.id = b.fd ∧ 0 ≤ b.fd
  opened : ∀ b ∈ x.worker.bevs, b.id ∈ x.descriptors.accepted ∧ x.descriptors.closed b.id = 0 ∧
    x.descriptors.kernel.holder b.fd.toNat = some (.connection b.id)
  gone : ∀ bev ∈ x.descriptors.accepted,
    x.descriptors.closed bev = 1 ∨ bev ∈ x.worker.bevs.map (·.id)

theorem Inv.closedOnce (h : Inv x) : ClosedOnce x where
  own := h.own
  once bev hbev := by
    rcases h.gone bev hbev with hclosed | hmem
    · exact Nat.le_of_eq hclosed
    · obtain ⟨b, hb, rfl⟩ := List.mem_map.mp hmem
      rw [(h.opened b hb).2.1]
      exact Nat.zero_le 1
  ends _ := h.gone

theorem inv_start (idxs : List Nat) (maxRequests : Nat) {reserved : Nat} (h : 0 < reserved) :
    Inv (start idxs maxRequests reserved) where
  bodies := ⟨if_pos h, fun _ hc => absurd hc (Int.lt_irrefl 0)⟩
  own := nofun
  known _ h := absurd rfl h
  fresh := nofun
  fds := nofun
  opened := nofun
  gone := nofun

theorem Inv.spares (h : Inv x) (hspares : Spares x.descriptors d) : Inv ⟨x.worker, d⟩ where
  bodies := hspares.bodies
  own close hclose := by
    obtain ⟨delta, heq, hdelta⟩ := hspares.closes
    rcases mem_append.mp (heq ▸ hclose) with hclose | hclose
    · obtain ⟨c, rfl⟩ := hdelta close hclose
      rfl
    · exact h.own close hclose
  known bev hbev := hspares.accepted ▸ h.known bev (hspares.closed bev ▸ hbev)
  fresh bev hbev := h.fresh bev (hspares.accepted ▸ hbev)
  fds b hb := hspares.fds ▸ h.fds b hb
  opened b hb := by
    obtain ⟨haccepted, hclosed, hholder⟩ := h.opened b hb
    exact ⟨hspares.accepted ▸ haccepted, (hspares.closed b.id).trans hclosed,
      hspares.connections _ _ hholder⟩
  gone bev hbev := by
    rw [hspares.closed bev]
    exact h.gone bev (hspares.accepted ▸ hbev)

theorem closed_close {d : Descriptors} {h : Holder} {fd : Int} (hfd : 0 ≤ fd) (bev : Nat) :
    (d.close h fd).closed bev = d.closed bev + if h = .connection bev then 1 else 0 := by
  rw [Descriptors.close, if_neg (by omega), Descriptors.closed, countP_cons]
  simp [Descriptors.closed]

theorem Inv.free (h : Inv x) {bev : Option Nat} (hfrees : Worker.Frees bev x.worker w')
    (hnext : x.worker.nextId ≤ w'.nextId) (hbev : ∀ id ∈ bev, id ∈ x.worker.bevs.map (·.id)) :
    Inv ⟨w', x.descriptors.buffereventFree bev⟩ := by
  have hsub : ∀ b ∈ w'.bevs, b ∈ x.worker.bevs ∧ some b.id ≠ bev := fun b hb => by
    simpa [hfrees.bevs] using hb
  cases bev with
  | none =>
    have hbevs : w'.bevs = x.worker.bevs := by simpa using hfrees.bevs
    exact ⟨h.bodies, h.own, h.known, fun bev hbev => Nat.lt_of_lt_of_le (h.fresh bev hbev) hnext,
      hbevs ▸ h.fds, hbevs ▸ h.opened, hbevs ▸ h.gone⟩
  | some bev =>
    obtain ⟨b, hb, rfl⟩ := List.mem_map.mp (hbev bev rfl)
    obtain ⟨hfd, hnonneg⟩ := h.fds b hb
    obtain ⟨haccepted, hclosed, hholder⟩ := h.opened b hb
    -- the other numbers keep their holders
    have hkept : ∀ fd h, h ≠ .connection b.id → x.descriptors.kernel.holder fd = some h →
        (x.descriptors.kernel.close b.fd.toNat).holder fd = some h := by
      intro fd h hne hfd
      refine FdTable.holder_close hfd ?_
      rintro rfl
      exact hne (some.inj (hfd.symm.trans hholder))
    have hcount : ∀ bev, (x.descriptors.buffereventFree (some b.id)).closed bev =
        x.descriptors.closed bev + if b.id = bev then 1 else 0 := by
      intro bev
      rw [buffereventFree, hfd, closed_close hnonneg]
      simp
    have heq : x.descriptors.buffereventFree (some b.id) = { x.descriptors with
        kernel := x.descriptors.kernel.close b.fd.toNat
        closes := ⟨.connection b.id, some (.connection b.id)⟩ :: x.descriptors.closes } := by
      rw [buffereventFree, hfd, ← hholder]
      exact if_neg (by omega)
    have hother : ∀ b' ∈ w'.bevs, b'.id ≠ b.id := fun b' hb' hid => (hsub b' hb').2 (by rw [hid])
    refine ⟨?_, ?_, ?_, ?_, ?_, ?_, ?_⟩
    · rw [heq]
      exact ⟨hkept _ _ nofun h.bodies.listening, fun c hc => hkept _ _ nofun (h.bodies.held c hc)⟩
    · rw [heq]
      rintro close hclose
      rcases mem_cons.mp hclose with rfl | hclose
      · rfl
      · exact h.own close hclose
    · intro bev hbev
      rw [hcount] at hbev
      rw [heq]
      by_cases hid : b.id = bev
      · exact hid ▸ haccepted
      · exact h.known bev (by simpa [hid] using hbev)
    · intro bev hbev
      rw [heq] at hbev
      exact Nat.lt_of_lt_of_le (h.fresh bev hbev) hnext
    · intro b' hb'
      rw [heq]
      exact h.fds b' (hsub b' hb').1
    · intro b' hb'
      obtain ⟨haccepted', hclosed', hholder'⟩ := h.opened b' (hsub b' hb').1
      have hne := hother b' hb'
      refine ⟨by rw [heq]; exact haccepted', ?_, ?_⟩
      · rw [hcount, if_neg hne.symm, hclosed']
      · rw [heq]
        exact hkept _ _ (by simpa using hne) hholder'
    · intro bev hbev
      rw [heq] at hbev
      rw [hcount]
      by_cases hid : b.id = bev
      · subst hid
        exact .inl (by simp [hclosed])
      · rw [if_neg hid, Nat.add_zero]
        refine (h.gone bev hbev).imp_right fun hmem => ?_
        obtain ⟨b', hb', rfl⟩ := List.mem_map.mp hmem
        refine List.mem_map.mpr ⟨b', ?_, rfl⟩
        rw [hfrees.bevs]
        simpa [hb'] using fun h => hid h.symm

/-! ## Runs -/

/-- The condition on an event: `keep` is set wherever the code calls `fastcgi_finish_request` and
when the request is closed, which is not the last that the worker serves. A client that leaves has
sent a request to its coroutine, or an earlier client has. A bufferevent that is freed is still
there, and a request that cannot start has the descriptor of its own client. -/
structure Kept (x : Connections) (e : WorkerEvent) (keep : Bool) (actions late : List CodeAction) :
    Prop where
  code : ∀ c ∈ x.worker.calledBack e, ∀ r ∈ (x.descriptors.begin x.worker keep e).request c,
    Keeps r.keep (actions ++ late)
  closing : ∀ c ∈ x.worker.shutsDown e,
    (x.descriptors.begin x.worker keep e).sapiStarted c = true →
      ∀ r ∈ (x.descriptors.begin x.worker keep e).request c,
        keepAfter r.keep (actions ++ late) = true
  counted : x.worker.shutsDown e = none ∨ x.worker.maxRequests = 0 ∨
    x.worker.requests + 1 ≠ x.worker.maxRequests
  served : x.worker.closesRequest e = true → ∀ c ∈ x.worker.calledBack e,
    (x.descriptors.begin x.worker keep e).requestBodyFd c ≠ 0
  freed : ∀ bev ∈ x.worker.frees e, bev ∈ x.worker.bevs.map (·.id)
  startup : ∀ bev shutdown, e = .readable bev .startupFailed shutdown →
    ∀ b ∈ x.worker.bevs, b.id = bev → (x.worker.contexts b.context).fd = b.fd

def KeptOpen (x : Connections) : DescriptorEvent → Prop
  | .worker e keep actions late => x.Kept e keep actions late
  | .openFile | .closeFile _ => True

theorem spares_startRequest {b : Bufferevent} {keep : Bool} {w : Worker} (hd : d.Bodies) :
    Spares d (d.startRequest w b keep) := by
  refine ⟨rfl, rfl, fun _ _ h => h, ⟨[], rfl, nofun⟩, hd.listening, fun c hc => ?_⟩
  by_cases hcc : c = b.context
  · simp [Descriptors.startRequest, hcc] at hc
  · simp only [Descriptors.startRequest, update_of_ne hcc] at hc ⊢
    exact hd.held c hc

theorem spares_begin {e : WorkerEvent} {keep : Bool} {w : Worker} (hd : d.Bodies)
    (haccept : ∀ fd, e ≠ .accept fd)
    (hstartup : ∀ bev shutdown, e ≠ .readable bev .startupFailed shutdown) :
    Spares d (d.begin w keep e) := by
  cases e with
  | accept fd => exact absurd rfl (haccept fd)
  | readable bev path shutdown =>
    have hpath : path ≠ .startupFailed := by
      rintro rfl
      exact hstartup bev shutdown rfl
    simp only [begin, if_neg hpath]
    split
    · exact spares_startRequest hd
    · exact hd.spares_refl
  | clientEof bev shutdown => exact hd.spares_refl
  | reply call exit shutdown => exact hd.spares_refl

theorem spares_afterCode {e : WorkerEvent} {keep : Bool} {actions late : List CodeAction}
    (hbegin : Spares x.descriptors (x.descriptors.begin x.worker keep e))
    (hkept : x.Kept e keep actions late) :
    Spares x.descriptors (x.afterCode e keep actions late) ∧
      ∀ c ∈ x.worker.shutsDown e, (x.afterCode e keep actions late).sapiStarted c = true →
        ∀ r ∈ (x.afterCode e keep actions late).request c, r.keep = true := by
  have hclosed := fun c (hc : x.worker.shutsDown e = some c) => Worker.calledBack_of_shutsDown hc
  obtain ⟨d, hd⟩ : ∃ d, d = x.descriptors.begin x.worker keep e := ⟨_, rfl⟩
  have hcode := hkept.code
  have hclosing := hkept.closing
  have hserved := hkept.served
  rw [← hd] at hbegin hcode hclosing hserved
  unfold afterCode
  rw [← hd]
  cases hc : x.worker.calledBack e with
  | none =>
    refine ⟨hbegin, fun c hshuts => ?_⟩
    rw [(hclosed c hshuts).1] at hc
    cases hc
  | some c =>
    dsimp only
    have hrun := run_runsOn hbegin.bodies actions fun r hr =>
      (keeps_append.mp (hcode c hc r hr)).1
    by_cases hcloses : x.worker.closesRequest e = true
    · rw [if_pos hcloses]
      have hbody := hrun.spares.bodies.closeBody (hrun.requestBodyFd (hserved hcloses c hc))
      have hrequest : ((d.run c actions).closeBody c).request c =
          (d.request c).map fun r => { r with keep := keepAfter r.keep actions } := by
        rw [request_closeBody, hrun.request]
      have hrest := run_runsOn hbody.bodies late (by
        rw [hrequest]
        intro r' hr'
        obtain ⟨r, hr, rfl⟩ := map_eq_some_iff.mp hr'
        exact (keeps_append.mp (hcode c hc r hr)).2)
      refine ⟨hbegin.trans (hrun.spares.trans (hbody.trans hrest.spares)),
        fun c' hshuts hstarted r' hr' => ?_⟩
      obtain rfl : c = c' := some.inj (hc.symm.trans (hclosed c' hshuts).1)
      rw [hrest.sapiStarted, sapiStarted_closeBody, hrun.sapiStarted] at hstarted
      rw [hrest.request, hrequest, Option.map_map] at hr'
      obtain ⟨r, hr, rfl⟩ := map_eq_some_iff.mp hr'
      exact (keepAfter_append ..).symm.trans (hclosing c hshuts hstarted r hr)
    · rw [if_neg hcloses]
      refine ⟨hbegin.trans hrun.spares, fun c' hshuts => ?_⟩
      exact absurd (hclosed c' hshuts).2 hcloses

theorem Inv.callback {e : WorkerEvent} {keep : Bool} {actions late : List CodeAction}
    (h : Inv x) (hstep : workerSystem.step x.worker e = some w')
    (haccept : ∀ fd, e ≠ .accept fd)
    (hstartup : ∀ bev shutdown, e ≠ .readable bev .startupFailed shutdown)
    (hkept : x.Kept e keep actions late) : Inv (x.callback w' e keep actions late) := by
  have hnext : x.worker.nextId ≤ w'.nextId := by
    simpa using (Worker.outcome_of_step hstep).2.next
  have hfrees := Worker.frees_of_step hstep haccept hstartup
  obtain ⟨hspares, hkeep⟩ :=
    spares_afterCode (spares_begin h.bodies haccept hstartup) hkept
  obtain ⟨d, hd⟩ : ∃ d, d = x.afterCode e keep actions late := ⟨_, rfl⟩
  rw [← hd] at hspares hkeep
  simp only [Connections.callback, ← hd]
  cases hc : x.worker.shutsDown e with
  | none => exact (h.spares hspares).free hfrees hnext hkept.freed
  | some c =>
    have hdeactivate := hspares.trans (hspares.bodies.sapiDeactivate (hkeep c hc))
    have hcount : (d.sapiDeactivate c).countRequest x.worker c = some (d.sapiDeactivate c) := by
      refine if_neg ?_
      rintro ⟨hmax, hlast⟩
      rcases hkept.counted with hnone | hzero | hne
      · rw [hc] at hnone
        cases hnone
      · exact hmax hzero
      · exact hne hlast
    simp only [hcount]
    exact (h.spares hdeactivate).free hfrees hnext hkept.freed

theorem doAccept_spec (d : Descriptors) (w : Worker) {fd : Int} (hfd : 0 ≤ fd) :
    (d.doAccept w fd).kernel = d.kernel.install (.connection w.nextId) ∧
      (d.doAccept w fd).fds = update d.fds w.nextId fd ∧
      (d.doAccept w fd).accepted = w.nextId :: d.accepted ∧
      (d.doAccept w fd).requestBodyFd = d.requestBodyFd ∧
      (d.doAccept w fd).closes = d.closes := by
  unfold Descriptors.doAccept
  rw [if_neg (by omega)]
  dsimp only
  split <;> exact ⟨rfl, rfl, rfl, rfl, rfl⟩

theorem Inv.doAccept {fd : Int} (h : Inv x)
    (hfd : fd < 0 ∨ fd = x.descriptors.kernel.lowestFree) :
    ClosedOnce ⟨x.worker.doAccept fd, x.descriptors.doAccept x.worker fd⟩ ∧
      ((x.worker.doAccept fd).status = .running →
        Inv ⟨x.worker.doAccept fd, x.descriptors.doAccept x.worker fd⟩) := by
  rcases hfd with hneg | rfl
  · have hw : x.worker.doAccept fd = x.worker := if_pos hneg
    have hd : x.descriptors.doAccept x.worker fd = x.descriptors := if_pos hneg
    rw [hw, hd]
    exact ⟨h.closedOnce, fun _ => h⟩
  · have hnonneg : (0 : Int) ≤ x.descriptors.kernel.lowestFree := by omega
    obtain ⟨hkernel, hfds, haccepted, hbody, hcloses⟩ :=
      doAccept_spec x.descriptors x.worker hnonneg
    obtain ⟨fd, hfd⟩ : ∃ fd, fd = x.descriptors.kernel.lowestFree := ⟨_, rfl⟩
    rw [← hfd] at hnonneg hkernel hfds haccepted hbody hcloses ⊢
    obtain ⟨d, hd⟩ : ∃ d, d = x.descriptors.doAccept x.worker fd := ⟨_, rfl⟩
    rw [← hd] at hkernel hfds haccepted hbody hcloses ⊢
    have hclosed : ∀ bev, d.closed bev = x.descriptors.closed bev := fun bev => by
      rw [closed, hcloses, closed]
    have hnew : x.descriptors.closed x.worker.nextId = 0 := by
      by_contra hne
      exact Nat.lt_irrefl _ (h.fresh _ (h.known _ hne))
    have hown : ∀ close ∈ d.closes, close.hit = some close.target := hcloses ▸ h.own
    have hcrash : ∀ w' : Worker, w'.status = .nullDereference →
        ClosedOnce ⟨w', d⟩ ∧ (w'.status = .running → Inv ⟨w', d⟩) := by
      refine fun w' hstatus => ⟨⟨hown, fun bev hbev => ?_, fun h => absurd hstatus h⟩, fun h => ?_⟩
      · rw [haccepted] at hbev
        rw [hclosed]
        rcases mem_cons.mp hbev with rfl | hbev
        · omega
        · exact h.closedOnce.once bev hbev
      · rw [hstatus] at h
        cases h
    unfold Worker.doAccept
    rw [if_neg (by omega)]
    split
    · exact hcrash _ rfl
    · exact hcrash _ rfl
    · rename_i c pool hpool
      -- the numbers that were held still are
      have hheld : ∀ fd h, x.descriptors.kernel.holder fd = some h →
          d.kernel.holder fd = some h := fun fd h hfd =>
        hkernel ▸ FdTable.holder_install hfd _
      have hinv : Inv ⟨{ x.worker with
          pool := pool
          contexts := update x.worker.contexts c
            { x.worker.contexts c with fd := fd, bev := some x.worker.nextId }
          bevs := ⟨x.worker.nextId, c, fd, true⟩ :: x.worker.bevs
          nextId := x.worker.nextId + 1
          trace := .useContext c :: x.worker.trace }, d⟩ := by
        refine ⟨⟨hheld _ _ h.bodies.listening, fun c hc => ?_⟩, hown, fun bev hbev => ?_,
          fun bev hbev => ?_, fun b hb => ?_, fun b hb => ?_, fun bev hbev => ?_⟩
        · rw [hbody] at hc ⊢
          exact hheld _ _ (h.bodies.held c hc)
        · rw [haccepted]
          exact mem_cons_of_mem _ (h.known bev (hclosed bev ▸ hbev))
        · rcases mem_cons.mp (haccepted ▸ hbev) with rfl | hbev
          · exact Nat.lt_succ_self _
          · exact Nat.lt_succ_of_lt (h.fresh bev hbev)
        · rw [hfds]
          rcases mem_cons.mp hb with rfl | hb
          · exact ⟨update_self .., hnonneg⟩
          · rw [update_of_ne (Nat.ne_of_lt (h.fresh _ (h.opened b hb).1))]
            exact h.fds b hb
        · rw [haccepted, hclosed]
          rcases mem_cons.mp hb with rfl | hb
          · refine ⟨mem_cons_self, hnew, ?_⟩
            rw [hkernel]
            simpa [hfd] using FdTable.holder_install_self (t := x.descriptors.kernel)
          · obtain ⟨hmem, hclosed, hholder⟩ := h.opened b hb
            exact ⟨mem_cons_of_mem _ hmem, hclosed, hheld _ _ hholder⟩
        · rw [hclosed]
          rcases mem_cons.mp (haccepted ▸ hbev) with rfl | hbev
          · exact .inr mem_cons_self
          · exact (h.gone bev hbev).imp_right (mem_cons_of_mem _)
      exact ⟨hinv.closedOnce, fun _ => hinv⟩

theorem Inv.startupFailed {b : Bufferevent} {keep : Bool} {shutdown : ShutdownRun} (h : Inv x)
    (hb : b ∈ x.worker.bevs) (hfd : (x.worker.contexts b.context).fd = b.fd) :
    ClosedOnce ⟨x.worker.socketReadCb b .startupFailed shutdown,
      (x.descriptors.startRequest x.worker b keep).fcgiFinishRequest b.context true⟩ := by
  obtain ⟨-, hnonneg⟩ := h.fds b hb
  have hfd₀ : ¬b.fd < 0 := by omega
  obtain ⟨-, hclosed, hholder⟩ := h.opened b hb
  obtain ⟨d, hd⟩ : ∃ d, d = (x.descriptors.startRequest x.worker b keep).fcgiFinishRequest
    b.context true := ⟨_, rfl⟩
  have hcloses : d.closes =
      ⟨.connection b.id, some (.connection b.id)⟩ :: x.descriptors.closes := by
    simp [hd, Descriptors.startRequest, Descriptors.fcgiFinishRequest, fcgiClose,
      Descriptors.close, setRequest, hfd, hfd₀, hnonneg, hholder]
  have haccepted' : d.accepted = x.descriptors.accepted := by
    simp [hd, Descriptors.startRequest, Descriptors.fcgiFinishRequest, fcgiClose,
      Descriptors.close, setRequest, hfd, hfd₀, hnonneg]
  have hcount : ∀ bev, d.closed bev =
      x.descriptors.closed bev + if b.id = bev then 1 else 0 := by
    intro bev
    rw [closed, hcloses, countP_cons]
    simp [closed]
  have hbevs : (x.worker.socketReadCb b .startupFailed shutdown).bevs.map (·.id) =
      x.worker.bevs.map (·.id) := by
    simp only [Worker.socketReadCb, Worker.fcgiFinishRequest, List.map_map]
    refine map_congr_left fun b' _ => ?_
    simp only [Function.comp, Worker.closeDescriptor]
    split <;> rfl
  rw [← hd]
  refine ⟨?_, fun bev hbev => ?_, fun _ bev hbev => ?_⟩
  · rw [hcloses]
    intro close hclose
    rcases mem_cons.mp hclose with rfl | hclose
    · rfl
    · exact h.own close hclose
  · rw [hcount]
    by_cases hid : b.id = bev
    · subst hid
      simp [hclosed]
    · simpa [hid] using h.closedOnce.once bev (haccepted' ▸ hbev)
  · rw [hcount, hbevs]
    by_cases hid : b.id = bev
    · subst hid
      exact .inl (by simp [hclosed])
    · simpa [hid] using h.gone bev (haccepted' ▸ hbev)

theorem callback_startupFailed {b : Bufferevent} {keep : Bool} {shutdown : ShutdownRun}
    {late : List CodeAction}
    (hb : (x.worker.bevs.find? fun b => b.id = bev ∧ b.fdOpen) = some b) :
    x.callback w' (.readable bev .startupFailed shutdown) keep [] late =
      ⟨w', (x.descriptors.startRequest x.worker b keep).fcgiFinishRequest b.context true⟩ := by
  have hbegin : x.descriptors.begin x.worker keep (.readable bev .startupFailed shutdown) =
      (x.descriptors.startRequest x.worker b keep).fcgiFinishRequest b.context true := by
    simp only [begin, hb, if_pos]
  have hback : x.worker.calledBack (.readable bev .startupFailed shutdown) = some b.context := by
    simp only [Worker.calledBack, hb, map_some]
  simp [callback, afterCode, hbegin, hback, run, Worker.closesRequest, RequestPath.closes,
    Worker.shutsDown, Worker.frees, buffereventFree]

theorem closedOnce_step {ev : DescriptorEvent} (h : ClosedOnce x)
    (hinv : x.worker.status = .running → Inv x) (hkept : x.KeptOpen ev)
    (hstep : connectionSystem.step x ev = some x') :
    ClosedOnce x' ∧ (x'.worker.status = .running → Inv x') := by
  cases ev with
  | openFile =>
    obtain rfl := some.inj hstep
    exact ⟨⟨h.own, h.once, h.ends⟩,
      fun hrun => (hinv hrun).spares ((hinv hrun).bodies.install .file)⟩
  | closeFile fd =>
    obtain rfl := some.inj hstep
    obtain ⟨hcloses, haccepted, -⟩ := closeFile_fields x.descriptors fd
    have hclosed : ∀ bev, (x.descriptors.closeFile fd).closed bev = x.descriptors.closed bev :=
      fun bev => by rw [closed, hcloses, closed]
    refine ⟨⟨hcloses ▸ h.own, ?_, ?_⟩,
      fun hrun => (hinv hrun).spares ((hinv hrun).bodies.closeFile fd)⟩
    · simpa only [hclosed, haccepted] using h.once
    · simpa only [hclosed, haccepted] using h.ends
  | worker e keep actions late =>
    have hkept : x.Kept e keep actions late := hkept
    have hstep : (if x.Enabled e actions late then (workerSystem.step x.worker e).map fun w' =>
      x.callback w' e keep actions late else none) = some x' := hstep
    split at hstep
    · rename_i henabled
      obtain ⟨w', hw, rfl⟩ := map_eq_some_iff.mp hstep
      have hrun := (Worker.outcome_of_step hw).1
      have hinv := hinv hrun
      have hother : (∀ fd, e ≠ .accept fd) →
          (∀ bev shutdown, e ≠ .readable bev .startupFailed shutdown) →
          ClosedOnce (x.callback w' e keep actions late) ∧
            ((x.callback w' e keep actions late).worker.status = .running →
              Inv (x.callback w' e keep actions late)) := fun haccept hstartup =>
        have hnew := hinv.callback hw haccept hstartup hkept
        ⟨hnew.closedOnce, fun _ => hnew⟩
      simp only [workerSystem, Worker.step, if_pos hrun] at hw
      cases e with
      | accept fd =>
        have hw : (if x.worker.Listening ∧ fd ≠ 0 then some (x.worker.doAccept fd) else none) =
          some w' := hw
        split at hw
        · obtain rfl := some.inj hw
          exact hinv.doAccept henabled.2.2
        · cases hw
      | readable bev path shutdown =>
        by_cases hpath : path = .startupFailed
        · subst hpath
          obtain ⟨b, hb, rfl⟩ := map_eq_some_iff.mp hw
          obtain ⟨hmem, hid⟩ : b ∈ x.worker.bevs ∧ b.id = bev := by
            have hthis : b.id = bev ∧ b.fdOpen = true := by simpa using List.find?_some hb
            exact ⟨mem_of_find?_eq_some hb, hthis.1⟩
          obtain rfl : actions = [] := henabled.1 rfl
          rw [callback_startupFailed hb]
          exact ⟨hinv.startupFailed hmem (hkept.startup bev shutdown rfl b hmem hid),
            fun hrun => by cases hrun⟩
        · exact hother (by simp) fun bev' shutdown' heq => hpath (by cases heq; rfl)
      | clientEof bev shutdown => exact hother (by simp) (by simp)
      | reply call exit shutdown => exact hother (by simp) (by simp)
    · cases hstep

/-- **While connections are kept open** wherever `fcgi_close` is called, each is closed once, by its
bufferevent. -/
theorem closed_once_of_run {idxs : List Nat} {maxRequests reserved : Nat}
    {es : List DescriptorEvent} (hreserved : 0 < reserved)
    (hrun : connectionSystem.Run KeptOpen (start idxs maxRequests reserved) es x) :
    ClosedOnce x := by
  have hinv : ClosedOnce x ∧ (x.worker.status = .running → Inv x) :=
    hrun.invariant (fun _ _ _ h hguard hstep => closedOnce_step h.1 h.2 hguard hstep)
      ⟨(inv_start idxs maxRequests hreserved).closedOnce,
        fun _ => inv_start idxs maxRequests hreserved⟩
  exact hinv.1

/-- A request with `FCGI_KEEP_CONN` and a body, which yields, calls `fastcgi_finish_request` when it
is resumed, and ends. -/
theorem closed_once_of_run_keep : ∃ x, connectionSystem.Run KeptOpen (start [0] 0 3)
      [.worker (.accept 3) false [] [],
        .worker (.readable 0 (.executed [.yielded]) .completes) true [.readBody, .openFile] [],
        .worker (.reply 4 .finished .completes) true [.fastcgiFinishRequest] [.openFile]] x ∧
    x.descriptors.closes.length = 2 ∧ ClosedOnce x := by
  have hrun : ∃ x, connectionSystem.Run KeptOpen (start [0] 0 3)
      [.worker (.accept 3) false [] [],
        .worker (.readable 0 (.executed [.yielded]) .completes) true [.readBody, .openFile] [],
        .worker (.reply 4 .finished .completes) true [.fastcgiFinishRequest] [.openFile]] x ∧
      x.descriptors.closes.length = 2 := by
    refine ⟨_, .cons ?_ rfl <| .cons ?_ rfl <| .cons ?_ rfl <| .nil _, rfl⟩
    · exact ⟨by decide, by decide, by decide, by decide, by decide, nofun⟩
    · exact ⟨by decide, by decide, by decide, by decide, by decide, nofun⟩
    · exact ⟨by decide, by decide, by decide, by decide, by decide, nofun⟩
  obtain ⟨x, hrun, hcloses⟩ := hrun
  exact ⟨x, hrun, hcloses, closed_once_of_run (by decide) hrun⟩

/-- **Without `FCGI_KEEP_CONN`** the descriptor is closed by `fastcgi_finish_request`, and then with
the bufferevent: that close hits the file that the script has opened in between. -/
theorem not_closed_once : ¬∀ (idxs : List Nat) (maxRequests reserved : Nat)
    (es : List DescriptorEvent) (x : Connections), 0 < reserved →
      connectionSystem.FreeRun (start idxs maxRequests reserved) es x → ClosedOnce x := by
  intro h
  have hrun := EventSystem.run_of_exec (rfl : connectionSystem.exec (start [0] 0 3)
    [.worker (.accept 3) false [] [],
      .worker (.readable 0 (.executed [.finished]) .completes) false
        [.fastcgiFinishRequest, .openFile] []] = some _)
  have hown := (h _ _ _ _ _ (by decide) hrun).own ⟨.connection 0, some .file⟩ (by decide)
  cases hown

end Connections

end Phpce
