import Mathlib.Data.Nat.Find
import Phpce.Fcgi.Output

/-!
# A response on a non-blocking socket

`safe_write` of `main/fastcgi.c` calls `write(2)` until everything is written, and may end up with a
part of it; `fcgi_flush` and `fcgi_write` then give up what is in the buffer. The results of the
calls are a schedule, as the kernel chooses it.

* **`safeWriteLoop_spec`** — `safe_write` writes everything, or a call reports that the socket is
  full and something is missing.
* **`fcgiWrite_follows`** — up to the first failure, `fcgi_write` does what it does on a descriptor
  that takes everything.
* **`delivered_iff`** — a response arrives exactly where no call reports `EAGAIN`.
-/

namespace Phpce

namespace Fcgi

open Bytes Buffer List

/-! ## `write(2)` -/

/-- The result of a call. `wrote n`: `n` bytes, or all that there are. -/
inductive WriteResult where
  | wrote (n : Nat)
  | eintr
  | eagain
  | error
  deriving DecidableEq, Repr

/-- What the calls on one socket give, one after the other. A signal does not interrupt them
forever. -/
structure Schedule where
  result : Nat → WriteResult
  wrote_pos : ∀ i n, result i = .wrote n → 0 < n
  answers : ∀ i, ∃ j, i ≤ j ∧ result j ≠ .eintr

namespace Schedule

/-- The first call from `i` on that is not interrupted. -/
def answer (σ : Schedule) (i : Nat) : Nat := Nat.find (σ.answers i)

def Connected (σ : Schedule) : Prop := ∀ i, σ.result i ≠ .error

/-- None of the calls from `i` to `j` finds the socket full. -/
def Clean (σ : Schedule) (i j : Nat) : Prop := ∀ k, i ≤ k → k < j → σ.result k ≠ .eagain

variable {σ : Schedule} {i j k : Nat}

theorem le_answer (σ : Schedule) (i : Nat) : i ≤ σ.answer i := (Nat.find_spec (σ.answers i)).1

theorem result_answer (σ : Schedule) (i : Nat) : σ.result (σ.answer i) ≠ .eintr :=
  (Nat.find_spec (σ.answers i)).2

theorem result_of_lt_answer (hle : i ≤ k) (hlt : k < σ.answer i) : σ.result k = .eintr := by
  by_contra hne
  exact Nat.find_min (σ.answers i) hlt ⟨hle, hne⟩

theorem Clean.refl (σ : Schedule) (i : Nat) : σ.Clean i i :=
  fun _ hle hlt => absurd hlt (Nat.not_lt.mpr hle)

theorem clean_split (hij : i ≤ j) (hjk : j ≤ k) :
    σ.Clean i k ↔ σ.Clean i j ∧ σ.Clean j k := by
  constructor
  · exact fun h => ⟨fun l hle hlt => h l hle (by omega), fun l hle hlt => h l (by omega) hlt⟩
  · intro h l hle hlt
    rcases Nat.lt_or_ge l j with hl | hl
    · exact h.1 l hle hl
    · exact h.2 l hl hlt

theorem clean_answer (σ : Schedule) (i : Nat) :
    σ.Clean i (σ.answer i + 1) ↔ σ.result (σ.answer i) ≠ .eagain := by
  refine ⟨fun h => h _ (σ.le_answer i) (Nat.lt_succ_self _), fun h k hle hlt => ?_⟩
  rcases Nat.lt_or_ge k (σ.answer i) with hk | hk
  · rw [result_of_lt_answer hle hk]
    decide
  · rwa [show k = σ.answer i from by omega]

end Schedule

/-! ## `safe_write` -/

/-- The loop of `safe_write`, with `rest` to be written and `calls` calls made: whether it writes
everything, the calls then made, and what they write. An interrupted call is made again. -/
def safeWriteLoop (σ : Schedule) : Nat → Nat → Bytes → Bool × Nat × Bytes
  | 0, calls, rest => (rest.isEmpty, calls, [])
  | fuel + 1, calls, rest =>
    -- a call with nothing to write gives 0
    if rest = [] then (true, calls, [])
    else
      let call := σ.answer calls
      match σ.result call with
      | .wrote n =>
        let (ok, calls, sent) := safeWriteLoop σ fuel (call + 1) (rest.drop n)
        (ok, calls, rest.take n ++ sent)
      | _ => (false, call + 1, [])

/-- **`safe_write` writes everything, or finds the socket full** and leaves something out. -/
theorem safeWriteLoop_spec {σ : Schedule} (hconn : σ.Connected) (fuel calls : Nat) (rest : Bytes)
    (hfuel : rest.length ≤ fuel) {ok : Bool} {calls' : Nat} {sent : Bytes}
    (h : safeWriteLoop σ fuel calls rest = (ok, calls', sent)) :
    calls ≤ calls' ∧ (ok = true ↔ σ.Clean calls calls') ∧ (ok = true → sent = rest) ∧
      (ok = false → sent.length < rest.length) := by
  -- induction on the fuel, of which every answered call uses one and at least a byte of the rest
  induction fuel generalizing calls rest ok calls' sent with
  | zero =>
    have hnil : rest = [] := length_eq_zero_iff.mp (Nat.le_zero.mp hfuel)
    subst hnil
    cases h
    exact ⟨Nat.le_refl _, ⟨fun _ => .refl σ _, fun _ => rfl⟩, fun _ => rfl,
      fun h => Bool.noConfusion h⟩
  | succ fuel ih =>
    rw [safeWriteLoop] at h
    by_cases hnil : rest = []
    · rw [if_pos hnil] at h
      cases h
      exact ⟨Nat.le_refl _, ⟨fun _ => .refl σ _, fun _ => rfl⟩, fun _ => hnil.symm,
        fun h => Bool.noConfusion h⟩
    · have hpos : 0 < rest.length := length_pos_iff.mpr hnil
      have hle := σ.le_answer calls
      rw [if_neg hnil] at h
      simp only at h
      cases hresult : σ.result (σ.answer calls) with
      | wrote n =>
        have hn := σ.wrote_pos _ n hresult
        rw [hresult] at h
        simp only at h
        generalize hrest : safeWriteLoop σ fuel (σ.answer calls + 1) (rest.drop n) = result at h
        obtain ⟨ok', calls'', sent'⟩ := result
        simp only [Prod.mk.injEq] at h
        obtain ⟨rfl, rfl, rfl⟩ := h
        obtain ⟨hcalls, hclean, hall, hshort⟩ := ih (σ.answer calls + 1) (rest.drop n)
          (by rw [length_drop]; omega) hrest
        have hanswer : σ.Clean calls (σ.answer calls + 1) :=
          (σ.clean_answer calls).mpr (by rw [hresult]; simp)
        refine ⟨by omega, ?_, ?_, ?_⟩
        · rw [hclean, Schedule.clean_split (show calls ≤ σ.answer calls + 1 by omega) hcalls]
          exact ⟨fun h => ⟨hanswer, h⟩, fun h => h.2⟩
        · intro hok
          rw [hall hok, take_append_drop]
        · intro hok
          have hlt := hshort hok
          rw [length_drop] at hlt
          rw [length_append, length_take]
          omega
      | eintr => exact absurd hresult (σ.result_answer calls)
      | error => exact absurd hresult (hconn _)
      | eagain =>
        rw [hresult] at h
        cases h
        refine ⟨by omega, ⟨fun h => Bool.noConfusion h, fun h => ?_⟩, fun h => Bool.noConfusion h,
          fun _ => hpos⟩
        exact absurd hresult ((σ.clean_answer calls).mp h)

/-! ## The writer -/

/-- What `safe_write` is called with: records out of the buffer, the last of which may lack its
content, or the content of one. -/
inductive Block where
  | records (data : Bytes)
  | content (data : Bytes)
  deriving DecidableEq, Repr

def Block.data : Block → Bytes
  | .records data => data
  | .content data => data

/-- The fields of `fcgi_request` that a response uses. `out.written` is what `safe_write` has been
called with, `sent` what `write(2)` has taken of it in `calls` calls, and `handed` the blocks that
have come to an open descriptor. -/
structure Response where
  out : Output
  keep : Bool
  fdOpen : Bool
  calls : Nat
  sent : Bytes
  handed : List Block

/-- The request as read, before anything is written. -/
def Response.init (id : Nat) (outBuf : Nat → UInt8) (keep : Bool) : Response :=
  ⟨Output.init id outBuf, keep, true, 0, [], []⟩

namespace Output

theorem closePacket_written (req : Output) : req.closePacket.written = req.written := by
  unfold closePacket
  split
  · exact fcgiMakeHeader_written
  · rfl

theorem switchType_written (req : Output) (type : FcgiRequestType) :
    (req.switchType type).written = req.written := by
  unfold switchType
  split
  · split
    · exact closePacket_written req
    · rfl
  · rfl

theorem openIfClosed_written (req : Output) (type : FcgiRequestType) :
    (req.openIfClosed type).written = req.written := by
  unfold openIfClosed
  split <;> rfl

theorem sealed_written (req : Output) (fin : Bool) : (req.sealed fin).written = req.written := by
  rw [← closePacket_written req]
  cases fin with
  | false => rfl
  | true => exact fcgiMakeHeader_written

end Output

def andThen (r : Bool × Response) (next : Response → Bool × Response) : Bool × Response :=
  if r.1 then next r.2 else r

namespace Response

variable (σ : Schedule)

/-- `safe_write(...) == count` -/
def safeWrite (req : Response) (block : Block) : Bool × Response :=
  let req := { req with out := req.out.safeWrite block.data }
  if req.fdOpen then
    let (ok, calls, sent) := safeWriteLoop σ block.data.length req.calls block.data
    (ok, { req with calls := calls, sent := req.sent ++ sent, handed := req.handed ++ [block] })
  else (false, req)

/-- `fcgi_flush`. Whether or not it succeeds, the buffer is empty afterwards. -/
def fcgiFlush (req : Response) (fin : Bool) : Bool × Response :=
  let r := { req with out := req.out.sealed fin }.safeWrite σ (.records (req.out.pending fin))
  (r.1, { r.2 with out.outPos := 0, keep := r.2.keep && r.1 })

def writeDirect (req : Response) (type : FcgiRequestType) (data : Bytes) : Bool × Response :=
  let out := (req.out.openPacket type).fcgiMakeHeader req.out.outPos type.code data.length
  andThen ({ req with out := { out with outHdr := none } }.fcgiFlush σ false) fun req =>
    let r := req.safeWrite σ (.content data)
    (r.1, { r.2 with keep := r.2.keep && r.1 })

def writeLarge (type : FcgiRequestType) : Nat → Response → Bytes → (Bool × Response) × Bytes
  | 0, req, str => ((true, req), str)
  | fuel + 1, req, str =>
    if 0xffff < str.length then
      let r := req.writeDirect σ type (str.take 0xfff8)
      if r.1 then writeLarge type fuel r.2 (str.drop 0xfff8) else (r, str)
    else ((true, req), str)

/-- `fcgi_write` of a string that is not empty, and whether it succeeds. -/
def writeString (req : Response) (type : FcgiRequestType) (str : Bytes) : Bool × Response :=
  let req : Response := { req with out := req.out.switchType type }
  let limit : Int := req.out.limit
  if str.length < limit then
    (true, { req with out := (req.out.openIfClosed type).append str })
  else if str.length - limit < outBufSize - 8 then
    let out := req.out.openIfClosed type
    let out := if 0 < limit then out.append (str.take limit.toNat) else out
    andThen ({ req with out }.fcgiFlush σ false) fun req =>
      (true, { req with
        out := if limit < str.length then
            (req.out.openPacket type).append (str.drop limit.toNat)
          else req.out })
  else
    let r := { req with out := req.out.closePacket }.writeLarge σ type str.length str
    let str := r.2
    let pad := padding str.length
    let rest := if pad ≠ 0 then 8 - pad else 0
    andThen r.1 fun req =>
      andThen (req.writeDirect σ type (str.take (str.length - rest))) fun req =>
        (true, { req with
          out := if pad ≠ 0 then (req.out.openPacket type).append (str.drop (str.length - rest))
            else req.out })

/-- `fcgi_write`: the length of the string, or -1. -/
def fcgiWrite (req : Response) (type : FcgiRequestType) (str : Bytes) : Int × Response :=
  if str.length = 0 then (0, req)
  else
    let r := req.writeString σ type str
    (if r.1 then str.length else -1, r.2)

/-- `fcgi_end`. The request has ended also where nothing could be written. -/
def fcgiEnd (req : Response) : Bool × Response :=
  if req.out.ended then (true, req)
  else
    let r := req.fcgiFlush σ true
    (r.1, { r.2 with out.ended := true })

/-- `fcgi_close` -/
def fcgiClose (req : Response) (force : Bool) : Response :=
  if (force || !req.keep) && req.fdOpen then { req with fdOpen := false } else req

/-- `fcgi_finish_request` -/
def fcgiFinishRequest (req : Response) (forceClose : Bool) : Bool × Response :=
  if req.fdOpen then
    let r := req.fcgiEnd σ
    (r.1, r.2.fcgiClose forceClose)
  else (true, req)

end Response

/-! ## Up to the first failure -/

section Follows

variable {σ : Schedule} {req req' req'' : Response} {ok : Bool}

/-- The calls that a function makes: it succeeds if none of them finds the socket full, and then
all that it hands to `safe_write` is sent; else something is missing. -/
structure Wrote (σ : Schedule) (req : Response) (r : Bool × Response) : Prop where
  calls : req.calls ≤ r.2.calls
  fdOpen : r.2.fdOpen = req.fdOpen
  clean : r.1 = true ↔ σ.Clean req.calls r.2.calls
  sent : ∃ data sent, r.2.out.written = req.out.written ++ data ∧ r.2.sent = req.sent ++ sent ∧
    (r.1 = true → sent = data) ∧ (r.1 = false → sent.length < data.length)

theorem Wrote.buffer (out : Output) (h : out.written = req.out.written) :
    Wrote σ req (true, { req with out := out }) where
  calls := Nat.le_refl _
  fdOpen := rfl
  clean := ⟨fun _ => .refl σ _, fun _ => rfl⟩
  sent := ⟨[], [], by rw [append_nil]; exact h, (append_nil _).symm, fun _ => rfl,
    fun h => Bool.noConfusion h⟩

theorem Wrote.trans {r : Bool × Response} (h : Wrote σ req (true, req')) (h' : Wrote σ req' r) :
    Wrote σ req r := by
  obtain ⟨data, sent, hwritten, hsent, hall, -⟩ := h.sent
  obtain ⟨data', sent', hwritten', hsent', hall', hshort'⟩ := h'.sent
  refine ⟨h.calls.trans h'.calls, h'.fdOpen.trans h.fdOpen, ?_, data ++ data', sent ++ sent',
    ?_, ?_, ?_, ?_⟩
  · rw [Schedule.clean_split h.calls h'.calls, ← h.clean, h'.clean]
    exact ⟨fun h => ⟨rfl, h⟩, fun h => h.2⟩
  · rw [hwritten', hwritten, append_assoc]
  · rw [hsent', hsent, append_assoc]
  · exact fun hok => by rw [hall rfl, hall' hok]
  · intro hok
    have hlt := hshort' hok
    rw [hall rfl, length_append, length_append]
    exact Nat.add_lt_add_left hlt _

/-- After a success the buffer is as `out` says. -/
structure Follows (σ : Schedule) (req : Response) (out : Output) (r : Bool × Response) : Prop
    extends Wrote σ req r where
  out_eq : r.1 = true → r.2.out = out

theorem Follows.andThen {out mid : Output} {r : Bool × Response}
    {next : Response → Bool × Response} (h : Follows σ req mid r)
    (hnext : ∀ req', req'.fdOpen = req.fdOpen → req'.out = mid → Follows σ req' out (next req')) :
    Follows σ req out (andThen r next) := by
  obtain ⟨ok, req'⟩ := r
  cases ok with
  | false => exact ⟨h.toWrote, fun h => Bool.noConfusion h⟩
  | true =>
    have hrest := hnext req' h.fdOpen (h.out_eq rfl)
    exact ⟨h.toWrote.trans hrest.toWrote, hrest.out_eq⟩

theorem Follows.buffer {out : Output} (h : out.written = req.out.written) :
    Follows σ req out (true, { req with out := out }) :=
  ⟨.buffer out h, fun _ => rfl⟩

@[simp] theorem safeWrite_out (σ : Schedule) (req : Response) (block : Block) :
    (req.safeWrite σ block).2.out = req.out.safeWrite block.data := by
  unfold Response.safeWrite
  simp only
  split <;> rfl

@[simp] theorem fcgiFlush_out (σ : Schedule) (req : Response) (fin : Bool) :
    (req.fcgiFlush σ fin).2.out = req.out.fcgiFlush fin := by
  rw [Output.fcgiFlush_eq]
  exact congrArg (fun out : Output => { out with outPos := 0 })
    (safeWrite_out σ { req with out := req.out.sealed fin } (.records (req.out.pending fin)))

theorem safeWrite_wrote (hconn : σ.Connected) (req : Response) (hopen : req.fdOpen = true)
    (block : Block) :
    Wrote σ req (req.safeWrite σ block) := by
  generalize hloop : safeWriteLoop σ block.data.length req.calls block.data = result
  obtain ⟨ok, calls, sent⟩ := result
  obtain ⟨hcalls, hclean, hall, hshort⟩ :=
    safeWriteLoop_spec hconn _ _ _ (Nat.le_refl _) hloop
  have hwrite : req.safeWrite σ block = (ok, { req with
      out := req.out.safeWrite block.data
      calls := calls
      sent := req.sent ++ sent
      handed := req.handed ++ [block] }) := by
    simp only [Response.safeWrite, hopen, if_true, hloop]
  rw [hwrite]
  exact ⟨hcalls, rfl, hclean, block.data, sent, rfl, rfl, hall, hshort⟩

theorem Wrote.congr {r : Response} (h : Wrote σ req (ok, req')) (hcalls : r.calls = req'.calls)
    (hfd : r.fdOpen = req'.fdOpen) (hsent : r.sent = req'.sent)
    (hwritten : r.out.written = req'.out.written) : Wrote σ req (ok, r) := by
  obtain ⟨calls, fdOpen, clean, sent⟩ := h
  refine ⟨?_, ?_, ?_, ?_⟩
  · rwa [hcalls]
  · rwa [hfd]
  · rwa [hcalls]
  · rwa [hwritten, hsent]

theorem Follows.after {out out' : Output} {r : Bool × Response}
    (h : Follows σ { req with out := out } out' r) (hwritten : out.written = req.out.written) :
    Follows σ req out' r :=
  ⟨(Wrote.buffer out hwritten).trans h.toWrote, h.out_eq⟩

theorem fcgiFlush_follows (hconn : σ.Connected) (req : Response) (hopen : req.fdOpen = true)
    (fin : Bool) :
    Follows σ req (req.out.fcgiFlush fin) (req.fcgiFlush σ fin) := by
  have hwrite := safeWrite_wrote hconn { req with out := req.out.sealed fin } hopen
    (.records (req.out.pending fin))
  have hwrote := (Wrote.buffer _ (req.out.sealed_written fin)).trans hwrite
  exact ⟨hwrote.congr rfl rfl rfl rfl, fun _ => fcgiFlush_out σ req fin⟩

theorem writeDirect_follows (hconn : σ.Connected) (hopen : req.fdOpen = true)
    (type : FcgiRequestType) (data : Bytes) :
    Follows σ req (req.out.writeDirect type data) (req.writeDirect σ type data) := by
  set out : Output :=
    { (req.out.openPacket type).fcgiMakeHeader req.out.outPos type.code data.length with
      outHdr := none } with hdef
  have hwritten : out.written = req.out.written := Output.fcgiMakeHeader_written
  have hflush := (fcgiFlush_follows hconn { req with out := out } hopen false).after hwritten
  rw [Response.writeDirect]
  refine hflush.andThen fun req' hfd hout => ?_
  have hcontent := safeWrite_wrote hconn req' (hfd.trans hopen) (.content data)
  refine ⟨hcontent.congr rfl rfl rfl rfl, fun _ => ?_⟩
  have hend := safeWrite_out σ req' (.content data)
  rw [hout] at hend
  exact hend

theorem writeLarge_follows (hconn : σ.Connected) (req : Response) (hopen : req.fdOpen = true)
    (type : FcgiRequestType) (fuel : Nat) (str : Bytes) :
    Follows σ req (Output.writeLarge type fuel req.out str).1
        (req.writeLarge σ type fuel str).1 ∧
      ((req.writeLarge σ type fuel str).1.1 = true →
        (req.writeLarge σ type fuel str).2 = (Output.writeLarge type fuel req.out str).2) := by
  -- induction on the fuel
  induction fuel generalizing req str with
  | zero => exact ⟨.buffer rfl, fun _ => rfl⟩
  | succ fuel ih =>
    rw [Output.writeLarge, Response.writeLarge]
    by_cases hlong : 0xffff < str.length
    · rw [if_pos hlong, if_pos hlong]
      have hdirect := writeDirect_follows hconn hopen type (str.take 0xfff8)
      generalize req.writeDirect σ type (str.take 0xfff8) = r at hdirect ⊢
      obtain ⟨ok, req'⟩ := r
      cases ok with
      | false => exact ⟨⟨hdirect.toWrote, fun h => Bool.noConfusion h⟩, fun h => Bool.noConfusion h⟩
      | true =>
        obtain ⟨hrest, hstr⟩ := ih req' (hdirect.fdOpen.trans hopen) (str.drop 0xfff8)
        rw [hdirect.out_eq rfl] at hrest hstr
        exact ⟨⟨hdirect.toWrote.trans hrest.toWrote, hrest.out_eq⟩, hstr⟩
    · rw [if_neg hlong, if_neg hlong]
      exact ⟨.buffer rfl, fun _ => rfl⟩

theorem writeString_follows (hconn : σ.Connected) (hopen : req.fdOpen = true)
    (type : FcgiRequestType) {str : Bytes} (hne : str.length ≠ 0) :
    Follows σ req (req.out.fcgiWrite type str) (req.writeString σ type str) := by
  have hswitch := req.out.switchType_written type
  rw [Response.writeString, Output.fcgiWrite, if_neg hne]
  simp only
  by_cases hsmall : str.length < (req.out.switchType type).limit
  · rw [if_pos hsmall, if_pos hsmall]
    refine .buffer ?_
    rw [Output.append_written, Output.put_written, Output.openIfClosed_written, hswitch]
  · rw [if_neg hsmall, if_neg hsmall]
    by_cases hmedium : str.length - (req.out.switchType type).limit < outBufSize - 8
    · rw [if_pos hmedium, if_pos hmedium]
      set out := if 0 < (req.out.switchType type).limit then
        ((req.out.switchType type).openIfClosed type).append
          (str.take (req.out.switchType type).limit.toNat)
        else (req.out.switchType type).openIfClosed type with hdef
      have hwritten : out.written = req.out.written := by
        rw [hdef, ← hswitch, ← (req.out.switchType type).openIfClosed_written type]
        split <;> rfl
      have hflush := (fcgiFlush_follows hconn { req with out := out } hopen false).after hwritten
      refine hflush.andThen fun req' _ hout => ?_
      rw [← hout]
      apply Follows.buffer
      split <;> rfl
    · rw [if_neg hmedium, if_neg hmedium]
      have hclose := (req.out.switchType type).closePacket_written.trans hswitch
      obtain ⟨hloop, hstr⟩ := writeLarge_follows hconn
        { req with out := (req.out.switchType type).closePacket } hopen type str.length str
      have hlarge := hloop.after hclose
      generalize { req with out := (req.out.switchType type).closePacket }.writeLarge σ type
        str.length str = result at hlarge hstr ⊢
      obtain ⟨⟨ok, mid⟩, str'⟩ := result
      cases ok with
      | false => exact ⟨hlarge.toWrote, fun h => Bool.noConfusion h⟩
      | true =>
        rw [← hstr rfl]
        refine hlarge.andThen fun req' hfd hout => ?_
        rw [← hout]
        refine (writeDirect_follows hconn (hfd.trans hopen) type _).andThen fun req'' _ hout' => ?_
        rw [← hout']
        apply Follows.buffer
        split <;> rfl

theorem fcgiEnd_wrote (hconn : σ.Connected) (hopen : req.fdOpen = true) :
    Wrote σ req (req.fcgiEnd σ) ∧ (req.fcgiEnd σ).2.out = req.out.fcgiEnd := by
  rw [Response.fcgiEnd, Output.fcgiEnd]
  by_cases hended : req.out.ended = true
  · rw [if_pos hended, if_pos hended]
    exact ⟨.buffer req.out rfl, rfl⟩
  · rw [if_neg hended, if_neg hended]
    refine ⟨(fcgiFlush_follows hconn req hopen true).toWrote.congr rfl rfl rfl rfl, ?_⟩
    exact congrArg (fun out : Output => { out with ended := true }) (fcgiFlush_out σ req true)

end Follows

/-! ## Responses -/

/-- One call of a response. The flag says that a `fcgi_write` has reported an error. -/
def OutputOp.applyOver (σ : Schedule) (s : Bool × Response) : OutputOp → Bool × Response
  | .write stream str =>
    let r := s.2.fcgiWrite σ stream.type str
    (s.1 || decide (r.1 < 0), r.2)
  | .flush => (s.1, (s.2.fcgiFlush σ false).2)

def respondOver (σ : Schedule) (id : Nat) (outBuf : Nat → UInt8) (keep : Bool)
    (ops : List OutputOp) : Bool × Response :=
  let s := ops.foldl (OutputOp.applyOver σ) (false, Response.init id outBuf keep)
  (s.1, (s.2.fcgiEnd σ).2)

/-- No `fcgi_write` reports an error, and what is sent is the whole response: what goes to a
descriptor that takes everything. -/
structure Delivered (σ : Schedule) (id : Nat) (outBuf : Nat → UInt8) (keep : Bool)
    (ops : List OutputOp) : Prop where
  reported : (respondOver σ id outBuf keep ops).1 = false
  sent : (respondOver σ id outBuf keep ops).2.sent = (respond id outBuf ops).written

section Respond

variable {σ : Schedule}

/-- The response so far beside that on a descriptor that takes everything: the same, as long as no
call has found the socket full; after that an error has been reported or something is missing. -/
structure Tracked (σ : Schedule) (s : Bool × Response) (out : Output) : Prop where
  fdOpen : s.2.fdOpen = true
  clean : σ.Clean 0 s.2.calls → s.1 = false ∧ s.2.out = out ∧ s.2.sent = out.written
  full : ¬σ.Clean 0 s.2.calls →
    s.1 = true ∨ s.2.out = out ∧ s.2.sent.length < out.written.length

theorem Tracked.step {failed failed' : Bool} {req : Response} {r : Bool × Response}
    {out out' : Output} (h : Tracked σ (failed, req) out) (hwrote : Wrote σ req r)
    (hok : r.1 = true → failed' = failed ∧ (req.out = out → r.2.out = out'))
    (hfail : r.1 = false → failed' = true ∨ failed' = failed ∧ (req.out = out → r.2.out = out'))
    (hkeep : failed = true → failed' = true) : Tracked σ (failed', r.2) out' := by
  obtain ⟨data, sent, hwritten, hsent, hall, hshort⟩ := hwrote.sent
  have hsplit : σ.Clean 0 r.2.calls ↔ _ :=
    Schedule.clean_split (Nat.zero_le req.calls) hwrote.calls
  refine ⟨hwrote.fdOpen.trans h.fdOpen, fun hclean => ?_, fun hfull => ?_⟩
  · obtain ⟨hbefore, hafter⟩ := hsplit.mp hclean
    have hr := hwrote.clean.mpr hafter
    obtain ⟨hfailed, hout, heq⟩ := h.clean hbefore
    obtain ⟨hsame, hout'⟩ := hok hr
    refine ⟨hsame.trans hfailed, hout' hout, ?_⟩
    rw [hsent, heq, hall hr, ← hout, ← hwritten, hout' hout]
  · by_cases hbefore : σ.Clean 0 req.calls
    · have hr : r.1 = false := by
        rw [← Bool.not_eq_true, hwrote.clean]
        exact fun hafter => hfull (hsplit.mpr ⟨hbefore, hafter⟩)
      obtain ⟨-, hout, heq⟩ := h.clean hbefore
      rcases hfail hr with hfailed | ⟨-, hout'⟩
      · exact .inl hfailed
      · have hlt := hshort hr
        refine .inr ⟨hout' hout, ?_⟩
        rw [← hout' hout, hwritten, hsent, heq, ← hout, length_append, length_append]
        exact Nat.add_lt_add_left hlt _
    · rcases h.full hbefore with hfailed | ⟨hout, hlt⟩
      · exact .inl (hkeep hfailed)
      · have hle : sent.length ≤ data.length := by
          cases hr : r.1 with
          | true => rw [hall hr]
          | false => exact Nat.le_of_lt (hshort hr)
        have hstill : r.2.out = out' → r.2.sent.length < out'.written.length := by
          intro hout'
          rw [← hout', hwritten, hsent, length_append, length_append, hout]
          exact Nat.add_lt_add_of_lt_of_le hlt hle
        cases hr : r.1 with
        | true => exact .inr ⟨(hok hr).2 hout, hstill ((hok hr).2 hout)⟩
        | false =>
          rcases hfail hr with hfailed | ⟨-, hout'⟩
          · exact .inl hfailed
          · exact .inr ⟨hout' hout, hstill (hout' hout)⟩

theorem Tracked.flush {s : Bool × Response} {out : Output} (hconn : σ.Connected)
    (h : Tracked σ s out) :
    Tracked σ (s.1, (s.2.fcgiFlush σ false).2) (out.fcgiFlush false) := by
  have hflush := fcgiFlush_follows hconn s.2 h.fdOpen false
  have hout : s.2.out = out → (s.2.fcgiFlush σ false).2.out = out.fcgiFlush false :=
    fun heq => heq ▸ fcgiFlush_out σ s.2 false
  exact h.step hflush.toWrote (fun _ => ⟨rfl, hout⟩) (fun _ => .inr ⟨rfl, hout⟩) fun h => h

theorem decide_result_neg (ok : Bool) (n : Nat) :
    decide ((if ok = true then (n : Int) else -1) < 0) = !ok := by
  cases ok with
  | false => rfl
  | true => exact decide_eq_false (show ¬(n : Int) < 0 by omega)

theorem Tracked.write {s : Bool × Response} {out : Output} (hconn : σ.Connected)
    (h : Tracked σ s out) (stream : Stream) (str : Bytes) :
    Tracked σ ((OutputOp.write stream str).applyOver σ s) (out.fcgiWrite stream.type str) := by
  obtain ⟨failed, req⟩ := s
  rw [OutputOp.applyOver, Response.fcgiWrite]
  by_cases hnil : str.length = 0
  · rw [if_pos hnil, Output.fcgiWrite, if_pos hnil, show decide ((0 : Int) < 0) = false from rfl,
      Bool.or_false]
    exact h
  · have hwrite := writeString_follows hconn h.fdOpen stream.type hnil
    rw [if_neg hnil]
    simp only [decide_result_neg] at hwrite ⊢
    refine h.step hwrite.toWrote ?_ ?_ ?_
    · intro hr
      rw [hr, Bool.not_true, Bool.or_false]
      exact ⟨rfl, fun heq => heq ▸ hwrite.out_eq hr⟩
    · intro hr
      rw [hr, Bool.not_false, Bool.or_true]
      exact .inl rfl
    · intro hfailed
      rw [hfailed, Bool.true_or]

theorem Tracked.apply {s : Bool × Response} {out : Output} (hconn : σ.Connected)
    (h : Tracked σ s out) (op : OutputOp) : Tracked σ (op.applyOver σ s) (op.apply out) := by
  cases op with
  | write stream str => exact h.write hconn stream str
  | flush => exact h.flush hconn

theorem Tracked.foldl (hconn : σ.Connected) (ops : List OutputOp) {s : Bool × Response}
    {out : Output} (h : Tracked σ s out) :
    Tracked σ (ops.foldl (OutputOp.applyOver σ) s) (ops.foldl OutputOp.apply out) := by
  -- induction on the calls
  induction ops generalizing s out with
  | nil => exact h
  | cons op ops ih => exact ih (h.apply hconn op)

theorem tracked_respondOver (hconn : σ.Connected) (id : Nat) (outBuf : Nat → UInt8) (keep : Bool)
    (ops : List OutputOp) :
    Tracked σ (respondOver σ id outBuf keep ops) (respond id outBuf ops) := by
  have hinit : Tracked σ (false, Response.init id outBuf keep) (Output.init id outBuf) :=
    ⟨rfl, fun _ => ⟨rfl, rfl, rfl⟩, fun h => absurd (.refl σ 0) h⟩
  have hops := hinit.foldl hconn ops
  obtain ⟨hwrote, hout⟩ := fcgiEnd_wrote hconn hops.fdOpen
  have hend : ∀ out, (ops.foldl (OutputOp.applyOver σ) (false, Response.init id outBuf keep)).2.out
      = out → _ = out.fcgiEnd := fun out heq => heq ▸ hout
  exact hops.step hwrote (fun _ => ⟨rfl, hend _⟩) (fun _ => .inr ⟨rfl, hend _⟩) fun h => h

/-- **When a response arrives**: no call of `write(2)` that is made for it reports that the socket
is full. Partial writes and interrupted calls do no harm. -/
theorem delivered_iff (hconn : σ.Connected) (id : Nat) (outBuf : Nat → UInt8) (keep : Bool)
    (ops : List OutputOp) :
    Delivered σ id outBuf keep ops ↔
      ∀ i < (respondOver σ id outBuf keep ops).2.calls, σ.result i ≠ .eagain := by
  have htracked := tracked_respondOver hconn id outBuf keep ops
  constructor
  · intro h i hi
    have hclean : σ.Clean 0 (respondOver σ id outBuf keep ops).2.calls := by
      by_contra hfull
      rcases htracked.full hfull with hfailed | ⟨-, hlt⟩
      · exact Bool.noConfusion (hfailed.symm.trans h.reported)
      · rw [h.sent] at hlt
        exact Nat.lt_irrefl _ hlt
    exact hclean i (Nat.zero_le i) hi
  · intro h
    obtain ⟨hreported, -, hsent⟩ := htracked.clean fun i _ hi => h i hi
    exact ⟨hreported, hsent⟩

def interrupted : Schedule where
  result i := if i = 0 then .eintr else .wrote 5
  wrote_pos := by
    intro i n h
    by_cases hi : i = 0
    · simp [hi] at h
    · simp only [hi, if_false, WriteResult.wrote.injEq] at h
      omega
  answers := fun i => ⟨i + 1, Nat.le_succ i, by simp⟩

theorem delivered_iff_interrupted : interrupted.Connected ∧
    (Delivered interrupted 1 (fun _ => 0) true [.write .stdout (ascii "Status: 200 OK")] ↔
      ∀ i < (respondOver interrupted 1 (fun _ => 0) true
        [.write .stdout (ascii "Status: 200 OK")]).2.calls, interrupted.result i ≠ .eagain) := by
  have hconn : interrupted.Connected := by
    intro i
    by_cases hi : i = 0 <;> simp [interrupted, hi]
  exact ⟨hconn, delivered_iff hconn 1 _ true _⟩

/-- A socket whose peer is connected and does not read. -/
def full : Schedule where
  result _ := .eagain
  wrote_pos := by
    intro i n h
    cases h
  answers := fun i => ⟨i, Nat.le_refl i, by decide⟩

theorem safeWrite_full (req : Response) (block : Block) :
    (req.safeWrite full block).2.sent = req.sent := by
  unfold Response.safeWrite
  simp only
  split
  · cases hdata : block.data with
    | nil => exact append_nil _
    | cons b data =>
      rw [length_cons, safeWriteLoop, if_neg (cons_ne_nil b data)]
      exact append_nil _
  · rfl

theorem fcgiEnd_full (req : Response) : (req.fcgiEnd full).2.sent = req.sent := by
  unfold Response.fcgiEnd
  split
  · rfl
  · exact safeWrite_full { req with out := req.out.sealed true } _

/-- A full socket takes nothing of a response, and no `fcgi_write` reports it. -/
theorem not_delivered_full :
    full.Connected ∧ (respondOver full 1 (fun _ => 0) true [.write .stdout (ascii "a")]).1 = false ∧
      ¬Delivered full 1 (fun _ => 0) true [.write .stdout (ascii "a")] := by
  refine ⟨?_, by decide, fun h => ?_⟩
  · intro i h
    cases h
  · have hsent : (respondOver full 1 (fun _ => 0) true
        [.write .stdout (ascii "a")]).2.sent = [] := fcgiEnd_full _
    have hlen : (respond 1 (fun _ => 0) [.write .stdout (ascii "a")]).written.length = 32 := by
      decide
    rw [← h.sent, hsent] at hlen
    exact absurd hlen (by decide)

end Respond

end Fcgi

end Phpce
