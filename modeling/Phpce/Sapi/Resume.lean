import Mathlib.Logic.Function.Basic
import Phpce.Lib.Run
import Phpce.Sapi.RequestInfo

/-!
# What a script finds in `SG(sapi_headers)` after a remote call

`resume_coroutine_context` calls `init_request` on the request it resumes, and with it
`init_request_info`, as `socket_read_cb` does for a new one. Every coroutine has its own globals;
the slot of the process in the scoreboard is one for all.

* **`status_kept_iff`** — the resumes of a run hand back the headers that were there at the yields
  if and only if each of them finds the response code that `init_request_info` gives.
* **`not_status_kept`** — a script that sets 404 before a remote call sends 200 after it.
-/

namespace Phpce

namespace Sapi

open Bytes Fcgi Option

/-! ## The scoreboard hooks -/

inductive RequestStage where
  | accepting
  | readingHeaders
  | info
  | executing
  | finished
  deriving DecidableEq, Repr

/-- The fields of `fpm_scoreboard_proc_s` that the hooks write. -/
structure Proc where
  requestStage : RequestStage
  requestUri : Bytes
  requestMethod : Bytes
  queryString : Bytes
  authUser : Bytes
  contentLength : Int
  scriptFilename : Bytes
  deriving DecidableEq, Repr

/-- `if (src) strlcpy(dst, src, size)`. -/
def strlcpy (dst : Bytes) (size : Nat) : Option Bytes → Bytes
  | none => dst
  | some src => src.take (size - 1)

def fpmRequestInfo (info : RequestInfo) (proc : Proc) : Proc where
  requestStage := .info
  requestUri := strlcpy proc.requestUri 128 info.requestUri
  requestMethod := strlcpy proc.requestMethod 16 info.requestMethod
  queryString := strlcpy proc.queryString 512 info.queryString
  authUser := strlcpy proc.authUser 32 info.authUser
  contentLength := info.contentLength
  scriptFilename := strlcpy proc.scriptFilename 256 info.pathTranslated

def fpmRequestExecuting (proc : Proc) : Proc := { proc with requestStage := .executing }

def fpmRequestEnd (proc : Proc) : Proc := { proc with requestStage := .finished }

/-! ## A coroutine -/

/-- Where a coroutine is: its context is at rest, its script runs, waits for a reply, or has just
been handed control by `resume_coroutine_context`. -/
inductive Phase where
  | idle
  | running
  | suspended
  | handed
  deriving DecidableEq, Repr

/-- A context with the globals of its thread. `atYield` is what `SG(sapi_headers)` was when
`yield_coroutine_context` was last called. -/
structure Coroutine where
  sg : SapiGlobals
  phase : Phase
  -- `context->fd` is not `NULL`
  connected : Bool
  atYield : SapiHeaders
  deriving DecidableEq, Repr

def initRequest (host : Host) (sg : SapiGlobals) (proc : Proc) : Option (SapiGlobals × Proc) :=
  (initRequestInfo host sg).map fun sg => (sg, fpmRequestInfo sg.requestInfo proc)

/-- `sapi_activate`, which leaves the response code alone. -/
def sapiActivate (sg : SapiGlobals) : SapiGlobals :=
  { sg with
    requestInfo := { sg.requestInfo with protoNum := 1000 }
    sapiHeaders := { sg.sapiHeaders with headers := [], httpStatusLine := none } }

def sapiDeactivate (sg : SapiGlobals) : SapiGlobals :=
  { sg with sapiHeaders := { sg.sapiHeaders with headers := [], httpStatusLine := none } }

def closeRequest (sg : SapiGlobals) (proc : Proc) : SapiGlobals × Proc :=
  (sapiDeactivate { sg with requestInfo := { sg.requestInfo with pathTranslated := none } },
    fpmRequestEnd proc)

/-- How far `socket_read_cb` gets with a request. -/
inductive ReadOutcome where
  | startupFailed
  | rejected
  | executes
  deriving DecidableEq, Repr

inductive Action where
  -- `do_accept` gives the context to a new connection
  | accept
  -- `socket_read_cb`, with the environment that `fcgi_read_request` has parsed
  | read (host : Host) (env : Env) (outcome : ReadOutcome)
  -- The script sets the status or the headers
  | script (headers : SapiHeaders)
  -- `yield_coroutine_context`
  | yield
  -- The remote side has replied: `resume_coroutine_context`
  | reply (host : Host)
  -- The script ends: `close_request` and `free_coroutine_context`
  | finish
  /-- `event_cb`: the client has left. -/
  | leave

def socketReadCb (c : Coroutine) (proc : Proc) (host : Host) (env : Env) (outcome : ReadOutcome) :
    Option (Coroutine × Proc) :=
  (initRequest host { c.sg with env := env } proc).map fun (sg, proc) =>
    match outcome with
    | .startupFailed => ({ c with sg := sg, phase := .idle }, proc)
    | .rejected =>
      let (sg, proc) := closeRequest (sapiActivate sg) proc
      ({ c with sg := sg, phase := .idle, connected := false }, proc)
    | .executes => ({ c with sg := sapiActivate sg, phase := .running }, fpmRequestExecuting proc)

def resumeCoroutineContext (c : Coroutine) (proc : Proc) (host : Host) :
    Option (Coroutine × Proc) :=
  if c.connected then
    (initRequest host c.sg proc).map fun (sg, proc) =>
      ({ c with sg := sg, phase := .handed }, fpmRequestExecuting proc)
  else some ({ c with phase := .idle }, proc)

def Coroutine.step (c : Coroutine) (proc : Proc) : Action → Option (Coroutine × Proc)
  | .accept =>
    if c.phase = .idle ∧ c.connected = false then some ({ c with connected := true }, proc)
    else none
  | .read host env outcome =>
    if (c.phase = .idle ∨ c.phase = .suspended) ∧ c.connected = true then
      socketReadCb c proc host env outcome
    else none
  | .script headers =>
    if c.phase = .running ∨ c.phase = .handed then
      some ({ c with sg := { c.sg with sapiHeaders := headers }, phase := .running }, proc)
    else none
  | .yield =>
    if c.phase = .running ∨ c.phase = .handed then
      some ({ c with phase := .suspended, atYield := c.sg.sapiHeaders }, proc)
    else none
  | .reply host =>
    if c.phase = .suspended then resumeCoroutineContext c proc host else none
  | .finish =>
    if c.phase = .running ∨ c.phase = .handed then
      let (sg, proc) := closeRequest c.sg proc
      some ({ c with sg := sg, phase := .idle, connected := false }, proc)
    else none
  | .leave =>
    if (c.phase = .idle ∨ c.phase = .suspended) ∧ c.connected = true then
      let (sg, proc) := closeRequest c.sg proc
      some ({ c with sg := sg, connected := false }, proc)
    else none

/-! ## The worker's coroutines -/

/-- All coroutines, the slot of the process, and the coroutine whose script runs: while one does,
the event loop runs no callback. -/
structure Coroutines where
  coroutine : Nat → Coroutine
  proc : Proc
  active : Option Nat

def Action.byScript : Action → Bool
  | .script _ | .yield | .finish => true
  | _ => false

def coroutinesSystem : EventSystem Coroutines (Nat × Action) where
  step s e :=
    if s.active = if e.2.byScript then some e.1 else none then
      ((s.coroutine e.1).step s.proc e.2).map fun (c, proc) =>
        { coroutine := Function.update s.coroutine e.1 c
          proc := proc
          active := if c.phase = .running ∨ c.phase = .handed then some e.1 else none }
    else none

def initCoroutines (sg : SapiGlobals) (proc : Proc) : Coroutines where
  coroutine _ := ⟨sg, .idle, false, sg.sapiHeaders⟩
  proc := proc
  active := none

/-- The script that has just been handed control finds the status and the headers of its yield. -/
def HandedAsYielded (c : Coroutine) : Prop :=
  c.phase = .handed → c.sg.sapiHeaders = c.atYield

/-- The step leads to a state in which every script just handed control finds the status and the
headers of its yield. -/
def KeepsStatus (s : Coroutines) (e : Nat × Action) : Prop :=
  ∀ s', coroutinesSystem.step s e = some s' → ∀ i, HandedAsYielded (s'.coroutine i)

def FindsDefaultCode (host : Host) (c : Coroutine) : Prop :=
  NoInputFile host c.sg.env ∧ c.atYield.httpResponseCode = 404 ∨
    ¬NoInputFile host c.sg.env ∧ c.atYield.httpResponseCode = 200

/-- Where the step resumes a script whose client is there, the script had left the default code. -/
def ResumesDefaultCode (s : Coroutines) (e : Nat × Action) : Prop :=
  ∀ host, e.2 = .reply host → (s.coroutine e.1).connected = true →
    FindsDefaultCode host (s.coroutine e.1)

/-! ## One step of one coroutine -/

section Step

variable {c c' : Coroutine} {proc proc' : Proc} {a : Action}

/-- While a script waits for a reply, nothing else sets its status. -/
def SuspendedAsYielded (c : Coroutine) : Prop :=
  c.phase = .suspended → c.connected = true → c.sg.sapiHeaders = c.atYield

theorem phase_socketReadCb {host : Host} {env : Env} {outcome : ReadOutcome}
    (h : socketReadCb c proc host env outcome = some (c', proc')) :
    c'.phase = .idle ∨ c'.phase = .running := by
  obtain ⟨⟨sg, proc₁⟩, -, heq⟩ := map_eq_some_iff.mp h
  cases outcome with
  | startupFailed => exact .inl (congrArg (fun r => r.1.phase) heq).symm
  | rejected => exact .inl (congrArg (fun r => r.1.phase) heq).symm
  | executes => exact .inr (congrArg (fun r => r.1.phase) heq).symm

theorem resumeCoroutineContext_spec {host : Host}
    (h : resumeCoroutineContext c proc host = some (c', proc')) :
    (c.connected = false ∧ c'.phase = .idle) ∨
      (c.connected = true ∧ c'.phase = .handed ∧ c'.atYield = c.atYield ∧
        (NoInputFile host c.sg.env ∧
            c'.sg.sapiHeaders = { c.sg.sapiHeaders with httpResponseCode := 404 } ∨
          ¬NoInputFile host c.sg.env ∧
            c'.sg.sapiHeaders = { c.sg.sapiHeaders with httpResponseCode := 200 })) := by
  unfold resumeCoroutineContext at h
  cases hclient : c.connected with
  | false =>
    rw [hclient, if_neg (by simp)] at h
    obtain ⟨rfl, -⟩ := Prod.mk.inj (some.inj h)
    exact .inl ⟨rfl, rfl⟩
  | true =>
    rw [hclient, if_pos rfl] at h
    obtain ⟨⟨sg, proc₁⟩, hinit, heq⟩ := map_eq_some_iff.mp h
    obtain ⟨rfl, -⟩ := Prod.mk.inj heq
    obtain ⟨sg', hinfo, heq'⟩ := map_eq_some_iff.mp hinit
    obtain ⟨rfl, -⟩ := Prod.mk.inj heq'
    exact .inr ⟨rfl, rfl, rfl, initRequestInfo_sapiHeaders hinfo⟩

theorem phase_step (h : c.step proc a = some (c', proc')) :
    (c'.phase = .handed → ∃ host, a = .reply host) ∧
      (c'.phase = .suspended → a = .yield ∨ a = .leave ∧ c'.connected = false) := by
  cases a with
  | accept =>
    obtain ⟨⟨hidle, -⟩, hc⟩ := ite_none_right_eq_some.mp h
    obtain ⟨rfl, -⟩ := Prod.mk.inj (some.inj hc)
    exact ⟨fun hp => by simp [hidle] at hp, fun hp => by simp [hidle] at hp⟩
  | read host env outcome =>
    obtain ⟨-, hc⟩ := ite_none_right_eq_some.mp h
    rcases phase_socketReadCb hc with hphase | hphase
    · exact ⟨fun hp => by simp [hphase] at hp, fun hp => by simp [hphase] at hp⟩
    · exact ⟨fun hp => by simp [hphase] at hp, fun hp => by simp [hphase] at hp⟩
  | script headers =>
    obtain ⟨-, hc⟩ := ite_none_right_eq_some.mp h
    obtain ⟨rfl, -⟩ := Prod.mk.inj (some.inj hc)
    exact ⟨nofun, nofun⟩
  | yield => exact ⟨fun hp => (by
      obtain ⟨-, hc⟩ := ite_none_right_eq_some.mp h
      obtain ⟨rfl, -⟩ := Prod.mk.inj (some.inj hc)
      cases hp), fun _ => .inl rfl⟩
  | reply host =>
    refine ⟨fun _ => ⟨host, rfl⟩, fun hp => ?_⟩
    obtain ⟨-, hc⟩ := ite_none_right_eq_some.mp h
    rcases resumeCoroutineContext_spec hc with ⟨-, hphase⟩ | ⟨-, hphase, -⟩
    · simp [hphase] at hp
    · simp [hphase] at hp
  | finish =>
    obtain ⟨-, hc⟩ := ite_none_right_eq_some.mp h
    obtain ⟨rfl, -⟩ := Prod.mk.inj (some.inj hc)
    exact ⟨nofun, nofun⟩
  | leave =>
    obtain ⟨⟨hrest, -⟩, hc⟩ := ite_none_right_eq_some.mp h
    obtain ⟨rfl, -⟩ := Prod.mk.inj (some.inj hc)
    refine ⟨fun hp => ?_, fun _ => .inr ⟨rfl, rfl⟩⟩
    rcases hrest with hidle | hsuspended
    · exact absurd (hidle.symm.trans hp) (by decide)
    · exact absurd (hsuspended.symm.trans hp) (by decide)

theorem suspendedAsYielded_step (h : c.step proc a = some (c', proc')) :
    SuspendedAsYielded c' := by
  intro hsuspended hclient
  rcases (phase_step h).2 hsuspended with rfl | ⟨-, hleft⟩
  · obtain ⟨-, hc⟩ := ite_none_right_eq_some.mp h
    obtain ⟨rfl, -⟩ := Prod.mk.inj (some.inj hc)
    rfl
  · rw [hclient] at hleft
    cases hleft

/-- **One reply**: the script finds the status of its yield if and only if that has the default
code. -/
theorem handedAsYielded_reply {host : Host} (hc : SuspendedAsYielded c)
    (h : c.step proc (.reply host) = some (c', proc')) :
    HandedAsYielded c' ↔ (c.connected = true → FindsDefaultCode host c) := by
  obtain ⟨hsuspended, hresume⟩ := ite_none_right_eq_some.mp h
  rcases resumeCoroutineContext_spec hresume with ⟨hclient, hphase⟩ | ⟨hclient, hphase, hat, hsg⟩
  · exact ⟨fun _ hc' => by simp [hclient] at hc', fun _ hc' => by simp [hphase] at hc'⟩
  · have hyield := hc hsuspended hclient
    have hcode : ∀ code, { c.atYield with httpResponseCode := code } = c.atYield ↔
        c.atYield.httpResponseCode = code := by
      intro code
      refine ⟨fun heq => (congrArg SapiHeaders.httpResponseCode heq).symm, ?_⟩
      rintro rfl
      rfl
    have hkept : HandedAsYielded c' ↔ c'.sg.sapiHeaders = c.atYield := by
      rw [HandedAsYielded, hat]
      exact ⟨fun hk => hk hphase, fun hk _ => hk⟩
    rw [hkept, FindsDefaultCode]
    rcases hsg with ⟨hno, hheaders⟩ | ⟨hno, hheaders⟩
    · rw [hheaders, hyield, hcode]
      exact ⟨fun h _ => .inl ⟨hno, h⟩,
        fun h => (h hclient).elim And.right fun h' => absurd hno h'.1⟩
    · rw [hheaders, hyield, hcode]
      exact ⟨fun h _ => .inr ⟨hno, h⟩,
        fun h => (h hclient).elim (fun h' => absurd h'.1 hno) And.right⟩

end Step

/-! ## Runs -/

section Runs

variable {s s' : Coroutines} {e : Nat × Action}

theorem coroutinesSystem_step (h : coroutinesSystem.step s e = some s') :
    ∃ c proc, (s.coroutine e.1).step s.proc e.2 = some (c, proc) ∧
      s'.coroutine = Function.update s.coroutine e.1 c := by
  obtain ⟨-, hstep⟩ := ite_none_right_eq_some.mp h
  obtain ⟨⟨c, proc⟩, hc, rfl⟩ := map_eq_some_iff.mp hstep
  exact ⟨c, proc, hc, rfl⟩

theorem forall_coroutine_step {P : Coroutine → Prop} (hs : ∀ i, P (s.coroutine i))
    {c : Coroutine} (hc : P c) (hupdate : s'.coroutine = Function.update s.coroutine e.1 c) :
    ∀ i, P (s'.coroutine i) := by
  intro i
  rw [hupdate]
  by_cases hi : i = e.1
  · subst hi
    rwa [Function.update_self]
  · rw [Function.update_of_ne hi]
    exact hs i

/-- Between its yield and its reply a script keeps its status, and a script just handed control has
the status of its yield. -/
structure StatusInv (s : Coroutines) : Prop where
  suspended : ∀ i, SuspendedAsYielded (s.coroutine i)
  handed : ∀ i, HandedAsYielded (s.coroutine i)

theorem statusInv_step (hs : StatusInv s) (hkeeps : KeepsStatus s e)
    (h : coroutinesSystem.step s e = some s') : StatusInv s' where
  suspended := by
    obtain ⟨c, proc, hc, hupdate⟩ := coroutinesSystem_step h
    exact forall_coroutine_step hs.suspended (suspendedAsYielded_step hc) hupdate
  handed := hkeeps s' h

/-- **One step**: it keeps the status if and only if, should it resume a script, that script had
left the default code. -/
theorem keepsStatus_iff (hs : StatusInv s) (h : coroutinesSystem.step s e = some s') :
    KeepsStatus s e ↔ ResumesDefaultCode s e := by
  obtain ⟨c, proc, hc, hupdate⟩ := coroutinesSystem_step h
  have htouched : KeepsStatus s e ↔ HandedAsYielded c := by
    constructor
    · intro hkeeps
      have hi := hkeeps s' h e.1
      rwa [hupdate, Function.update_self] at hi
    · intro hhanded s'' h''
      obtain rfl := some.inj (h.symm.trans h'')
      exact forall_coroutine_step hs.handed hhanded hupdate
  rw [htouched]
  constructor
  · intro hhanded host ha
    rw [ha] at hc
    exact (handedAsYielded_reply (hs.suspended e.1) hc).mp hhanded
  · intro hdefault hphase
    obtain ⟨host, ha⟩ := (phase_step hc).1 hphase
    rw [ha] at hc
    exact (handedAsYielded_reply (hs.suspended e.1) hc).mpr (hdefault host ha) hphase

theorem statusInv_init (sg : SapiGlobals) (proc : Proc) : StatusInv (initCoroutines sg proc) where
  suspended _ := nofun
  handed _ := nofun

/-- **Exactly when suspension is invisible to the status.** In a run of any number of coroutines
with any number of yields, every script that is handed control finds the response code, the status
line and the headers of its yield, if and only if every script resumed had left the code that
`init_request_info` gives: 404 where there is no input file, 200 elsewhere. -/
theorem status_kept_iff (sg : SapiGlobals) (proc : Proc) (es : List (Nat × Action))
    (s : Coroutines) :
    coroutinesSystem.Run KeepsStatus (initCoroutines sg proc) es s ↔
      coroutinesSystem.Run ResumesDefaultCode (initCoroutines sg proc) es s := by
  constructor
  · intro h
    exact h.mono_of_invariant (fun _ _ _ => statusInv_step)
      (fun _ _ _ hs hkeeps hstep => (keepsStatus_iff hs hstep).mp hkeeps) (statusInv_init sg proc)
  · intro h
    exact h.mono_of_invariant
      (fun _ _ _ hs hdefault hstep =>
        statusInv_step hs ((keepsStatus_iff hs hstep).mpr hdefault) hstep)
      (fun _ _ _ hs hdefault hstep => (keepsStatus_iff hs hstep).mpr hdefault)
      (statusInv_init sg proc)

end Runs

def plainHost : Host where
  fixPathinfo := true
  discardPath := false
  docRoot := none
  realpath _ := true
  isRegular _ := true
  base64Decode _ := none

/-- A script answers 404, makes a remote call and gets the reply. -/
def notFoundRun : List (Nat × Action) :=
  [(0, .accept),
    (0, .read plainHost (fcgiPutenv [] "SCRIPT_FILENAME" (some (ascii "/a.php"))) .executes),
    (0, .script ⟨[], 404, some (ascii "HTTP/1.1 404 Not Found")⟩),
    (0, .yield),
    (0, .reply plainHost)]

/-- **A status set before a remote call is lost**: the script resumes with the code 200. -/
theorem not_status_kept :
    ¬∀ (sg : SapiGlobals) (proc : Proc) (es : List (Nat × Action)) (s : Coroutines),
      coroutinesSystem.FreeRun (initCoroutines sg proc) es s →
        ∀ i, HandedAsYielded (s.coroutine i) := by
  intro h
  let sg : SapiGlobals :=
    ⟨[], ⟨none, none, 1000, none, none, none, 0, none, none, none⟩, ⟨[], 200, none⟩, []⟩
  let proc : Proc := ⟨.accepting, [], [], [], [], 0, []⟩
  have hrun : (coroutinesSystem.exec (initCoroutines sg proc) notFoundRun).any (fun s =>
      (s.coroutine 0).phase = .handed ∧ (s.coroutine 0).sg.sapiHeaders.httpResponseCode = 200 ∧
        (s.coroutine 0).atYield.httpResponseCode = 404) = true := by decide
  obtain ⟨s, hexec, hs⟩ := (any_eq_true _ _).mp hrun
  obtain ⟨hphase, hcode, hyield⟩ := of_decide_eq_true hs
  have hkept := h sg proc notFoundRun s (EventSystem.run_of_exec hexec) 0 hphase
  rw [hkept, hyield] at hcode
  exact absurd hcode (by decide)

end Sapi

end Phpce
