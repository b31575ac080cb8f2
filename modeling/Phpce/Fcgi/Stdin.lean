import Phpce.Fcgi.Request
import Phpce.Lib.Run

/-!
# What `fcgi_read` stores

A call of `fcgi_read` stores bytes of the body in the caller's buffer and returns their number.
Here the loop is given with the bytes that it stores, which are not always those it returns the
number of, and a reader is followed over all its calls while the bytes of the connection arrive.

* **`fcgiRead_eq`** — `fcgiRead` gives the caller the first `ret` of the bytes stored.
* **`readBody_delivers`** — what a call stores, when its result is their number, and when the reader
  is at the next byte of the contents behind it.
* **`fcgiRead_reports`** — the calls of a run.
-/

namespace Phpce

namespace Fcgi

open Bytes List

/-! ## The calls -/

/-- The record that a round of `fcgi_read` takes its content from. -/
inductive NextRecord where
  | refused (input : Bytes)
  | ended (req : FcgiRequest) (input : Bytes)
  | opened (req : FcgiRequest) (input : Bytes)

def nextRecord (req : FcgiRequest) (input : Bytes) : NextRecord :=
  if req.inLen ≠ 0 then .opened req input
  else
    match readHeader input with
    | (none, input) => .refused input
    | (some hdr, input) =>
      if hdr.type ≠ FcgiRequestType.stdin.code then .refused input
      else
        let req := { req with inLen := hdr.contentLength, inPad := hdr.paddingLength.toNat }
        if req.inLen = 0 then .ended req input else .opened req input

/-- The result of a call, and what it has stored in `str`. -/
structure ReadResult where
  ret : Nat
  stored : Bytes
  req : FcgiRequest
  input : Bytes
  deriving DecidableEq, Repr

/-- Content and padding of the record in progress, and the `next` rounds behind it. -/
def readContent (next : Nat → Bytes → FcgiRequest → Bytes → ReadResult) (rest : Nat) (got : Bytes)
    (req : FcgiRequest) (input : Bytes) : ReadResult :=
  let (data, input) := safeRead input (min req.inLen rest)
  if data = [] then ⟨got.length, got, req, input⟩
  else
    let req := { req with inLen := req.inLen - data.length }
    let got := got ++ data
    if req.inLen ≠ 0 then ⟨got.length, got, req, input⟩
    else
      let (pad, input) := safeRead input req.inPad
      if pad.length ≠ req.inPad then
        -- `return ret`
        ⟨data.length, got, { req with keep := false }, input⟩
      else next (rest - data.length) got req input

/-- The loop of `fcgi_read`, with `got` in `str` and `rest` bytes to go. -/
def readBodyLoop : Nat → Nat → Bytes → FcgiRequest → Bytes → ReadResult
  | 0, _, got, req, input => ⟨got.length, got, req, input⟩
  | fuel + 1, rest, got, req, input =>
    if rest = 0 then ⟨got.length, got, req, input⟩
    else
      match nextRecord req input with
      -- `return 0`, whatever is in `str`
      | .refused input => ⟨0, got, { req with keep := false }, input⟩
      | .ended req input => ⟨got.length, got, req, input⟩
      | .opened req input => readContent (readBodyLoop fuel) rest got req input

/-- `fcgi_read(req, str, len)` -/
def readBody (len : Nat) (req : FcgiRequest) (input : Bytes) : ReadResult :=
  readBodyLoop (len + 1) len [] req input

/-! ## The contents -/

/-- How the records of a stream come to an end. -/
inductive Stop where
  /-- Nothing stands behind a record. -/
  | dry
  /-- The header of a `STDIN` record should follow, and something else does. -/
  | bad
  /-- The empty record. -/
  | ended
  | cutContent
  | cutPadding
  deriving DecidableEq, Repr

/-- The contents of the records ahead. -/
structure Ahead where
  chunks : List Bytes
  stop : Stop
  deriving DecidableEq, Repr

def Ahead.content (a : Ahead) : Bytes := a.chunks.flatten

def Ahead.cons (chunk : Bytes) (a : Ahead) : Ahead := ⟨chunk :: a.chunks, a.stop⟩

/-- The header of a `STDIN` record in front. -/
def stdinHeader (input : Bytes) : Option FcgiHeader :=
  (FcgiHeader.ofBytes (input.take 8)).filter fun hdr =>
    fcgiVersion1 ≤ hdr.version && hdr.type == FcgiRequestType.stdin.code

/-- What a stream carries from a point where `inLen` bytes of content and `inPad` bytes of padding
are left of a record; it starts with a header where no content is left. -/
def ahead (inLen inPad : Nat) (input : Bytes) : Ahead :=
  if inLen = 0 then
    if _hinput : input = [] then ⟨[], .dry⟩
    else
      match stdinHeader input with
      | none => ⟨[], .bad⟩
      | some hdr =>
        if hdr.contentLength = 0 then ⟨[], .ended⟩
        else ahead hdr.contentLength hdr.paddingLength.toNat (input.drop 8)
  else if input.length < inLen then ⟨[input], .cutContent⟩
  else if input.length < inLen + inPad then ⟨[input.take inLen], .cutPadding⟩
  else (ahead 0 0 (input.drop (inLen + inPad))).cons (input.take inLen)
  termination_by input.length
  decreasing_by
    · have := List.length_pos_iff.mpr _hinput
      rw [List.length_drop]
      omega
    · rw [List.length_drop]
      omega

def FcgiRequest.ahead (req : FcgiRequest) (input : Bytes) : Ahead :=
  Fcgi.ahead req.inLen req.inPad input

theorem ahead_header (inPad : Nat) {input : Bytes} (hinput : input ≠ []) :
    ahead 0 inPad input =
      match stdinHeader input with
      | none => ⟨[], .bad⟩
      | some hdr =>
        if hdr.contentLength = 0 then ⟨[], .ended⟩
        else ahead hdr.contentLength hdr.paddingLength.toNat (input.drop 8) := by
  rw [ahead, if_pos rfl, dif_neg hinput]

theorem ahead_nil (inPad : Nat) : ahead 0 inPad [] = ⟨[], .dry⟩ := by
  rw [ahead, if_pos rfl, dif_pos rfl]

theorem ahead_zero (inPad : Nat) (input : Bytes) : ahead 0 inPad input = ahead 0 0 input := by
  by_cases hinput : input = []
  · rw [hinput, ahead_nil, ahead_nil]
  · rw [ahead_header inPad hinput, ahead_header 0 hinput]

section Content

variable {inLen inPad : Nat} {input : Bytes}

theorem ahead_cutContent (h : input.length < inLen) :
    ahead inLen inPad input = ⟨[input], .cutContent⟩ := by
  rw [ahead, if_neg (by omega), if_pos h]

theorem ahead_cutPadding (hlen : inLen ≠ 0) (hcontent : inLen ≤ input.length)
    (h : input.length < inLen + inPad) :
    ahead inLen inPad input = ⟨[input.take inLen], .cutPadding⟩ := by
  rw [ahead, if_neg hlen, if_neg (by omega), if_pos h]

theorem ahead_record (hlen : inLen ≠ 0) (h : inLen + inPad ≤ input.length) :
    ahead inLen inPad input =
      (ahead 0 0 (input.drop (inLen + inPad))).cons (input.take inLen) := by
  rw [ahead, if_neg hlen, if_neg (by omega), if_neg (by omega)]

theorem ahead_advance {d : Nat} (hd : d < inLen) (hinput : d ≤ input.length) :
    (ahead inLen inPad input).content =
      input.take d ++ (ahead (inLen - d) inPad (input.drop d)).content := by
  have hdrop : (input.drop d).length = input.length - d := length_drop
  by_cases hcut : input.length < inLen
  · rw [ahead_cutContent hcut, ahead_cutContent (by omega)]
    simp [Ahead.content]
  · have htake : input.take inLen = input.take d ++ (input.drop d).take (inLen - d) := by
      rw [← take_add, Nat.add_sub_cancel' (Nat.le_of_lt hd)]
    by_cases hpad : input.length < inLen + inPad
    · rw [ahead_cutPadding (by omega) (by omega) hpad,
        ahead_cutPadding (by omega) (by omega) (by omega), htake]
      simp [Ahead.content]
    · have hrecord : ahead inLen inPad input =
          (ahead 0 0 (input.drop (inLen + inPad))).cons (input.take inLen) :=
        ahead_record (by omega) (by omega)
      have hrest : ahead (inLen - d) inPad (input.drop d) =
          (ahead 0 0 (input.drop (inLen + inPad))).cons ((input.drop d).take (inLen - d)) := by
        rw [ahead_record (by omega) (by omega), drop_drop,
          show d + (inLen - d + inPad) = inLen + inPad by omega]
      rw [hrecord, hrest, htake]
      simp [Ahead.content, Ahead.cons]

end Content

theorem FcgiHeader.length_of_ofBytes {buf : Bytes} {hdr : FcgiHeader}
    (h : FcgiHeader.ofBytes buf = some hdr) : buf.length = 8 := by
  rw [FcgiHeader.ofBytes.eq_def] at h
  split at h
  · rfl
  · cases h

theorem length_of_stdinHeader {input : Bytes} {hdr : FcgiHeader}
    (h : stdinHeader input = some hdr) : 8 ≤ input.length := by
  have hlen := FcgiHeader.length_of_ofBytes (Option.filter_eq_some_iff.mp h).1
  rw [length_take] at hlen
  omega

theorem stdinHeader_append {input : Bytes} (h : 8 ≤ input.length) (more : Bytes) :
    stdinHeader (input ++ more) = stdinHeader input := by
  rw [stdinHeader, stdinHeader, take_append_of_le_length h]

theorem ahead_opened {inPad : Nat} {input : Bytes} {hdr : FcgiHeader}
    (hhdr : stdinHeader input = some hdr) (hlen : hdr.contentLength ≠ 0) (more : Bytes) :
    ahead 0 inPad (input ++ more) =
      ahead hdr.contentLength hdr.paddingLength.toNat (input.drop 8 ++ more) := by
  have hle := length_of_stdinHeader hhdr
  have hne : input ++ more ≠ [] := by
    apply append_ne_nil_of_left_ne_nil
    rintro rfl
    cases hle
  rw [ahead_header inPad hne, stdinHeader_append hle, hhdr, drop_append_of_le_length hle]
  exact if_neg hlen

theorem ahead_append (inLen inPad : Nat) (input more : Bytes) :
    (ahead inLen inPad input).content <+: (ahead inLen inPad (input ++ more)).content := by
  -- induction along the records
  fun_induction ahead inLen inPad input with
  | case1 inPad => exact nil_prefix
  | case2 inPad input hinput hhdr => exact nil_prefix
  | case3 inPad input hinput hdr hhdr hzero => exact nil_prefix
  | case4 inPad input hinput hdr hhdr hlen ih =>
    rw [ahead_opened hhdr hlen]
    exact ih
  | case5 inLen inPad input hlen hcut =>
    rw [ahead_advance hcut (by simp)]
    simp [Ahead.content]
  | case6 inLen inPad input hlen hcontent hcut =>
    have hle : inLen ≤ input.length := Nat.le_of_not_lt hcontent
    by_cases hpad : (input ++ more).length < inLen + inPad
    · have hsame := @List.take_append_of_le_length _ input more inLen hle
      simp [ahead_cutPadding hlen (by simp; omega) hpad, hsame]
    · rw [ahead_record hlen (Nat.le_of_not_lt hpad), take_append_of_le_length hle]
      simp [Ahead.content, Ahead.cons]
  | case7 inLen inPad input hlen hcontent hpad ih =>
    have hle : inLen + inPad ≤ input.length := Nat.le_of_not_lt hpad
    rw [ahead_record hlen (by simp; omega), take_append_of_le_length (by omega),
      drop_append_of_le_length hle]
    simpa [Ahead.content, Ahead.cons] using ih

/-! ## A call -/

theorem nextRecord_of_boundary {req : FcgiRequest} (hreq : req.inLen = 0) (input : Bytes) :
    nextRecord req input =
      match stdinHeader input with
      | none => .refused (input.drop 8)
      | some hdr =>
        if hdr.contentLength = 0 then
          .ended { req with inLen := 0, inPad := hdr.paddingLength.toNat } (input.drop 8)
        else
          .opened { req with inLen := hdr.contentLength, inPad := hdr.paddingLength.toNat }
            (input.drop 8) := by
  rw [nextRecord, if_neg (by simp [hreq]), readHeader, safeRead_eq, stdinHeader]
  cases hbytes : FcgiHeader.ofBytes (input.take 8) with
  | none => simp [hbytes]
  | some hdr =>
    by_cases hversion : hdr.version < fcgiVersion1
    · have : ¬fcgiVersion1 ≤ hdr.version := by rwa [UInt8.not_le]
      simp [hbytes, hversion, this, Option.filter_some]
    · have : fcgiVersion1 ≤ hdr.version := by rwa [UInt8.not_lt] at hversion
      by_cases htype : hdr.type = FcgiRequestType.stdin.code
      · by_cases hzero : hdr.contentLength = 0 <;>
          simp [hbytes, hversion, this, htype, hzero, Option.filter_some]
      · simp [hbytes, hversion, htype, Option.filter_some]

/-- What a round of `fcgi_read` comes to. -/
inductive Round (req : FcgiRequest) (input : Bytes) : NextRecord → Prop where
  | refused (stop : Stop) (hreq : req.inLen = 0) (hahead : req.ahead input = ⟨[], stop⟩)
      (hstop : stop = .dry ∧ input = [] ∨ stop = .bad) : Round req input (.refused (input.drop 8))
  | ended (req' : FcgiRequest) (hahead : req.ahead input = ⟨[], .ended⟩) :
      Round req input (.ended req' (input.drop 8))
  | opened (req' : FcgiRequest) (input' : Bytes) (hlen : req'.inLen ≠ 0)
      (hahead : ∀ more, req.ahead (input ++ more) = req'.ahead (input' ++ more)) :
      Round req input (.opened req' input')

theorem round (req : FcgiRequest) (input : Bytes) : Round req input (nextRecord req input) := by
  by_cases hreq : req.inLen = 0
  · rw [nextRecord_of_boundary hreq]
    by_cases hinput : input = []
    · subst hinput
      exact .refused .dry hreq (by rw [FcgiRequest.ahead, hreq, ahead_nil]) (.inl ⟨rfl, rfl⟩)
    · have hahead := ahead_header req.inPad hinput
      rw [show ahead 0 req.inPad input = req.ahead input by rw [FcgiRequest.ahead, hreq]] at hahead
      cases hhdr : stdinHeader input with
      | none =>
        rw [hhdr] at hahead
        exact .refused .bad hreq hahead (.inr rfl)
      | some hdr =>
        rw [hhdr] at hahead
        dsimp only at hahead ⊢
        by_cases hlen : hdr.contentLength = 0
        · rw [if_pos hlen] at hahead ⊢
          exact .ended _ hahead
        · rw [if_neg hlen]
          refine .opened _ _ hlen fun more => ?_
          rw [FcgiRequest.ahead, hreq]
          exact ahead_opened hhdr hlen more
  · rw [nextRecord, if_pos hreq]
    exact .opened req input hreq fun _ => rfl

/-- The result of a call with `got` in its buffer and room for `len` bytes is their number. -/
def Ahead.Reports (a : Ahead) (got : Bytes) (len : Nat) : Prop :=
  match a.stop with
  | .dry | .bad => len ≤ a.content.length ∨ got = [] ∧ a.content = []
  | .cutPadding => len < a.content.length ∨ got = [] ∧ a.chunks.length ≤ 1
  | .ended | .cutContent => True

/-- A call with room for `len` bytes reads over the end of the contents. -/
def Ahead.Passed (a : Ahead) (len : Nat) : Prop :=
  match a.stop with
  | .bad | .ended => a.content.length < len
  | .cutPadding => a.content.length ≤ len
  | .dry | .cutContent => False

/-- The result `r` of a call that has room for `rest` bytes behind `got`. -/
structure Delivers (got : Bytes) (rest : Nat) (req : FcgiRequest) (input : Bytes)
    (r : ReadResult) : Prop where
  stored : r.stored = got ++ (req.ahead input).content.take rest
  ret_eq_iff : r.ret = r.stored.length ↔ (req.ahead input).Reports got rest
  goesOn : ¬(req.ahead input).Passed rest → ∀ more, (req.ahead (input ++ more)).content =
    (req.ahead input).content.take rest ++ (r.req.ahead (r.input ++ more)).content

theorem content_pos_of_cutPadding {inLen inPad : Nat} {input : Bytes}
    (h : (ahead inLen inPad input).stop = .cutPadding) :
    0 < (ahead inLen inPad input).content.length := by
  -- induction along the records
  fun_induction ahead inLen inPad input with
  | case1 | case2 | case3 | case5 => cases h
  | case4 inPad input hinput hdr hhdr hlen ih => exact ih h
  | case6 inLen inPad input hlen hcontent hcut =>
    simp [Ahead.content]
    omega
  | case7 inLen inPad input hlen hcontent hpad ih =>
    have := ih h
    simp only [Ahead.content, Ahead.cons, flatten_cons, length_append] at this ⊢
    omega

theorem Ahead.reports_cons {a : Ahead} {chunk got : Bytes} {rest : Nat} (hchunk : chunk ≠ [])
    (hle : chunk.length ≤ rest) (hpad : a.stop = .cutPadding → 0 < a.content.length) :
    (a.cons chunk).Reports got rest ↔ a.Reports (got ++ chunk) (rest - chunk.length) := by
  have hcontent : (a.cons chunk).content = chunk ++ a.content := rfl
  cases hstop : a.stop with
  | ended | cutContent => simp [Reports, Ahead.cons, hstop]
  | dry | bad =>
    simp only [Reports, Ahead.cons, hstop] at hcontent ⊢
    rw [hcontent, length_append]
    simp only [append_eq_nil_iff, hchunk, false_and, and_false, or_false]
    omega
  | cutPadding =>
    have hchunks : a.chunks ≠ [] := by
      rintro hnil
      have := hpad hstop
      simp [content, hnil] at this
    simp only [Reports, Ahead.cons, hstop] at hcontent ⊢
    rw [hcontent, length_append]
    have := length_pos_iff.mpr hchunks
    simp only [append_eq_nil_iff, hchunk, false_and, and_false, or_false, length_cons]
    omega

theorem Ahead.passed_cons {a : Ahead} {chunk : Bytes} {rest : Nat} (hle : chunk.length ≤ rest) :
    (a.cons chunk).Passed rest ↔ a.Passed (rest - chunk.length) := by
  have hcontent : (a.cons chunk).content.length = chunk.length + a.content.length := by
    rw [content, content, Ahead.cons, flatten_cons, length_append]
  cases hstop : a.stop <;> simp only [Passed, Ahead.cons, hstop] at hcontent ⊢ <;> omega

theorem le_content {inLen inPad : Nat} {input : Bytes} (hlen : inLen ≠ 0)
    (hinput : inLen ≤ input.length) : inLen ≤ (ahead inLen inPad input).content.length := by
  have htake : (input.take inLen).length = inLen := length_take_of_le hinput
  by_cases hpad : input.length < inLen + inPad
  · rw [ahead_cutPadding hlen hinput hpad]
    simp [Ahead.content, hinput]
  · rw [ahead_record hlen (Nat.le_of_not_lt hpad), Ahead.content, Ahead.cons, flatten_cons,
      length_append, htake]
    exact Nat.le_add_right _ _

theorem delivers_full (got : Bytes) (req : FcgiRequest) (input : Bytes) :
    Delivers got 0 req input ⟨got.length, got, req, input⟩ := by
  refine ⟨by simp, ?_, fun _ more => by simp⟩
  refine iff_of_true rfl ?_
  cases hstop : (req.ahead input).stop with
  | dry | bad | ended | cutContent => simp [Ahead.Reports, hstop]
  | cutPadding =>
    rw [Ahead.Reports, hstop]
    exact .inl (content_pos_of_cutPadding hstop)

theorem delivers_part {got : Bytes} {rest : Nat} {req : FcgiRequest} {input : Bytes} {d : Nat}
    (hd : d < req.inLen) (hinput : d ≤ input.length)
    (hfull : d = rest ∨ d < rest ∧ d = input.length)
    {r : FcgiRequest} (hlen : r.inLen = req.inLen - d) (hpad : r.inPad = req.inPad) :
    Delivers got rest req input
      ⟨(got ++ input.take d).length, got ++ input.take d, r, input.drop d⟩ := by
  have hahead : (req.ahead input).content = input.take d ++ (r.ahead (input.drop d)).content := by
    rw [FcgiRequest.ahead, FcgiRequest.ahead, hlen, hpad]
    exact ahead_advance hd hinput
  have hstored : (req.ahead input).content.take rest = input.take d := by
    have htake : (input.take d).length = d := length_take_of_le hinput
    obtain rfl | ⟨hlt, rfl⟩ := hfull
    · rw [hahead, take_append_of_le_length (Nat.le_of_eq htake.symm),
        take_of_length_le (Nat.le_of_eq htake)]
    · have hnone : (r.ahead (input.drop input.length)).content = [] := by
        rw [drop_length, FcgiRequest.ahead, ahead_cutContent (by simp; omega)]
        rfl
      rw [hahead, hnone, append_nil, take_of_length_le (by omega)]
  refine ⟨by rw [hstored], iff_of_true rfl ?_, fun _ more => ?_⟩
  · by_cases hcut : input.length < req.inLen
    · rw [FcgiRequest.ahead, ahead_cutContent hcut]
      trivial
    · have hrest : rest < (req.ahead input).content.length :=
        Nat.lt_of_lt_of_le (by omega) (le_content (by omega) (Nat.le_of_not_lt hcut))
      cases hstop : (req.ahead input).stop with
      | ended | cutContent => simp [Ahead.Reports, hstop]
      | dry | bad =>
        rw [Ahead.Reports, hstop]
        exact .inl (Nat.le_of_lt hrest)
      | cutPadding =>
        rw [Ahead.Reports, hstop]
        exact .inl hrest
  · rw [hstored, FcgiRequest.ahead, FcgiRequest.ahead, hlen, hpad,
      ahead_advance hd (by simp; omega), take_append_of_le_length hinput,
      drop_append_of_le_length hinput]

theorem delivers_cutPadding {got : Bytes} {rest : Nat} {req : FcgiRequest} {input : Bytes}
    (hlen : req.inLen ≠ 0) (hrest : req.inLen ≤ rest) (hinput : req.inLen ≤ input.length)
    (hpad : input.length < req.inLen + req.inPad) (r : FcgiRequest) (left : Bytes) :
    Delivers got rest req input
      ⟨req.inLen, got ++ input.take req.inLen, r, left⟩ := by
  have hahead : req.ahead input = ⟨[input.take req.inLen], .cutPadding⟩ :=
    ahead_cutPadding hlen hinput hpad
  have htake : (input.take req.inLen).length = req.inLen := length_take_of_le hinput
  have hcontent : (req.ahead input).content = input.take req.inLen := by
    simp [hahead, Ahead.content]
  refine ⟨?_, ?_, fun hnot => ?_⟩
  · have hall : (input.take req.inLen).take rest = input.take req.inLen :=
      take_of_length_le (by omega)
    rw [hcontent, hall]
  · rw [Ahead.Reports, hcontent, hahead, length_append, htake]
    simp only [length_singleton, Nat.le_refl, and_true, ← length_eq_zero_iff]
    omega
  · rw [Ahead.Passed, hcontent, hahead, htake] at hnot
    exact absurd hrest hnot

theorem Delivers.record {got : Bytes} {rest : Nat} {req req' : FcgiRequest} {input : Bytes}
    {r : ReadResult} (hlen : req.inLen ≠ 0) (hrest : req.inLen ≤ rest)
    (hinput : req.inLen + req.inPad ≤ input.length) (hreq : req'.inLen = 0)
    (h : Delivers (got ++ input.take req.inLen) (rest - req.inLen) req'
      (input.drop (req.inLen + req.inPad)) r) : Delivers got rest req input r := by
  have hrecord (more : Bytes) : req.ahead (input ++ more) =
      (req'.ahead (input.drop (req.inLen + req.inPad) ++ more)).cons (input.take req.inLen) := by
    rw [FcgiRequest.ahead, ahead_record hlen (by simp; omega), FcgiRequest.ahead, hreq,
      ahead_zero req'.inPad, take_append_of_le_length (by omega),
      drop_append_of_le_length hinput]
  have hahead := hrecord []
  rw [append_nil, append_nil] at hahead
  have htake : (input.take req.inLen).length = req.inLen := length_take_of_le (by omega)
  have hcontent : ((req'.ahead (input.drop (req.inLen + req.inPad))).cons
      (input.take req.inLen)).content.take rest = input.take req.inLen ++
        (req'.ahead (input.drop (req.inLen + req.inPad))).content.take (rest - req.inLen) := by
    rw [Ahead.content, Ahead.cons, flatten_cons, take_append, htake,
      take_of_length_le (by omega)]
    rfl
  refine ⟨?_, ?_, fun hnot more => ?_⟩
  · rw [h.stored, hahead, hcontent, append_assoc]
  · have hne : input.take req.inLen ≠ [] := ne_nil_of_length_pos (by omega)
    have hpad : (req'.ahead (input.drop (req.inLen + req.inPad))).stop = .cutPadding →
        0 < (req'.ahead (input.drop (req.inLen + req.inPad))).content.length :=
      content_pos_of_cutPadding
    have hiff := @Ahead.reports_cons _ _ got rest hne (by omega) hpad
    rw [htake] at hiff
    rw [h.ret_eq_iff, hahead]
    exact hiff.symm
  · rw [hahead, Ahead.passed_cons (by omega), htake] at hnot
    rw [hrecord, hahead, hcontent, Ahead.content, Ahead.cons, flatten_cons, append_assoc]
    exact congrArg _ (h.goesOn hnot more)

theorem Delivers.header {got : Bytes} {rest : Nat} {req req' : FcgiRequest} {input input' : Bytes}
    {r : ReadResult} (hahead : ∀ more, req.ahead (input ++ more) = req'.ahead (input' ++ more))
    (h : Delivers got rest req' input' r) : Delivers got rest req input r := by
  have hnow := hahead []
  rw [append_nil, append_nil] at hnow
  exact ⟨by rw [hnow, h.stored], by rw [hnow, h.ret_eq_iff],
    fun hnot more => by rw [hahead, hnow, h.goesOn (by rwa [← hnow])]⟩

theorem delivers_none {got : Bytes} {rest : Nat} {req : FcgiRequest} {input : Bytes} {stop : Stop}
    {ret : Nat} {r : FcgiRequest} {left : Bytes} (hrest : rest ≠ 0)
    (hahead : req.ahead input = ⟨[], stop⟩) (hret : ret = got.length ↔
      (req.ahead input).Reports got rest) (hstop : stop = .dry ∧ input = [] ∧ left = [] ∧
        r.inLen = 0 ∧ req.inLen = 0 ∨ stop = .bad ∨ stop = .ended) :
    Delivers got rest req input ⟨ret, got, r, left⟩ := by
  have hcontent : (req.ahead input).content = [] := by rw [hahead]; rfl
  refine ⟨by rw [hcontent, take_nil, append_nil], hret, fun hnot more => ?_⟩
  obtain ⟨rfl, rfl, rfl, hr, hreq⟩ | rfl | rfl := hstop
  · rw [hcontent, FcgiRequest.ahead, FcgiRequest.ahead, hreq, hr, ahead_zero, ahead_zero r.inPad,
      take_nil]
    simp
  · rw [Ahead.Passed, hcontent, hahead] at hnot
    exact absurd (Nat.pos_of_ne_zero hrest) hnot
  · rw [Ahead.Passed, hcontent, hahead] at hnot
    exact absurd (Nat.pos_of_ne_zero hrest) hnot

theorem safeRead_min (input : Bytes) (count : Nat) :
    safeRead input count =
      (input.take (min count input.length), input.drop (min count input.length)) := by
  rw [safeRead_eq]
  rcases Nat.le_total count input.length with hle | hle
  · rw [Nat.min_eq_left hle]
  · rw [Nat.min_eq_right hle, take_length, drop_length, take_of_length_le hle,
      drop_of_length_le hle]

theorem readContent_delivers {next : Nat → Bytes → FcgiRequest → Bytes → ReadResult} {rest : Nat}
    {req : FcgiRequest} (hlen : req.inLen ≠ 0) (got : Bytes) (input : Bytes)
    (hnext : ∀ rest' < rest, ∀ got req input,
      Delivers got rest' req input (next rest' got req input)) :
    Delivers got rest req input (readContent next rest got req input) := by
  -- the bytes that `safe_read` gives of this record
  obtain ⟨d, hd⟩ : ∃ d, d = min (min req.inLen rest) input.length := ⟨_, rfl⟩
  have hlength : (input.take d).length = d := length_take_of_le (by omega)
  rw [readContent, safeRead_min, ← hd]
  dsimp only
  rw [hlength]
  by_cases hpart : d < req.inLen
  · have hdeliver := @delivers_part got rest req input d hpart (by omega) (by omega)
    by_cases hnil : input.take d = []
    · have hzero : d = 0 := by rw [← hlength, hnil]; rfl
      rw [if_pos hnil]
      simpa [hnil] using hdeliver (r := req) (by omega) rfl
    · rw [if_neg hnil, if_pos (by simp; omega)]
      exact hdeliver rfl rfl
  · obtain rfl : d = req.inLen := by omega
    rw [if_neg (ne_nil_of_length_pos (by omega)), Nat.sub_self, if_neg (by simp), safeRead_eq]
    by_cases hpad : input.length < req.inLen + req.inPad
    · rw [if_pos (by simp; omega)]
      exact delivers_cutPadding hlen (by omega) (by omega) hpad _ _
    · rw [if_neg (by simp; omega), drop_drop]
      exact .record hlen (by omega) (by omega) rfl (hnext _ (by omega) _ _ _)

/-- **The calls.** What a call stores, when it returns the number of it, and when the bytes behind
it are still ahead. -/
theorem readBodyLoop_delivers (fuel : Nat) {rest : Nat} (hfuel : rest < fuel) (got : Bytes)
    (req : FcgiRequest) (input : Bytes) :
    Delivers got rest req input (readBodyLoop fuel rest got req input) := by
  -- induction on the rounds
  induction fuel generalizing rest got req input with
  | zero => cases hfuel
  | succ fuel ih =>
    by_cases hrest : rest = 0
    · subst hrest
      rw [readBodyLoop, if_pos rfl]
      exact delivers_full got req input
    · rw [readBodyLoop, if_neg hrest]
      have hround := round req input
      revert hround
      generalize nextRecord req input = next
      intro hround
      cases hround with
      | refused stop hreq hahead hstop =>
        refine delivers_none hrest hahead ?_ ?_
        · obtain ⟨rfl, rfl⟩ | rfl := hstop <;>
            simp [Ahead.Reports, hahead, Ahead.content, hrest, eq_comm]
        · obtain ⟨rfl, rfl⟩ | rfl := hstop
          · exact .inl ⟨rfl, rfl, rfl, hreq, hreq⟩
          · exact .inr (.inl rfl)
      | ended req' hahead =>
        refine delivers_none hrest hahead (iff_of_true rfl ?_) (.inr (.inr rfl))
        rw [hahead]
        trivial
      | opened req' input' hlen hahead =>
        exact .header hahead
          (readContent_delivers hlen got input' fun rest' hlt => ih (by omega))

theorem readBody_delivers (len : Nat) (req : FcgiRequest) (input : Bytes) :
    Delivers [] len req input (readBody len req input) :=
  readBodyLoop_delivers (len + 1) (Nat.lt_succ_self len) [] req input

/-- What a caller that goes by the result finds in its buffer. -/
def ReadResult.seen (r : ReadResult) : Bytes × FcgiRequest × Bytes :=
  (r.stored.take r.ret, r.req, r.input)

theorem readContent_seen {next : Nat → Bytes → FcgiRequest → Bytes → ReadResult} (rest : Nat)
    (got : Bytes) (req : FcgiRequest) (input : Bytes) :
    (readContent next rest got req input).seen =
      let (data, input) := safeRead input (min req.inLen rest)
      if data = [] then (got, req, input)
      else
        let req := { req with inLen := req.inLen - data.length }
        let got := got ++ data
        if req.inLen ≠ 0 then (got, req, input)
        else
          let (pad, input) := safeRead input req.inPad
          if pad.length ≠ req.inPad then (got.take data.length, { req with keep := false }, input)
          else (next (rest - data.length) got req input).seen := by
  rw [readContent]
  dsimp only
  split
  · simp [ReadResult.seen]
  · split
    · rw [ReadResult.seen, take_length]
    · split <;> rfl

theorem fcgiReadLoop_eq (fuel rest : Nat) (got : Bytes) (req : FcgiRequest) (input : Bytes) :
    fcgiReadLoop fuel rest got req input = (readBodyLoop fuel rest got req input).seen := by
  -- induction on the rounds
  induction fuel generalizing rest got req input with
  | zero => simp [fcgiReadLoop, readBodyLoop, ReadResult.seen]
  | succ fuel ih =>
    rw [fcgiReadLoop, readBodyLoop]
    by_cases hrest : rest = 0
    · simp [hrest, ReadResult.seen]
    · rw [if_neg hrest, if_neg hrest, nextRecord]
      by_cases hreq : req.inLen ≠ 0
      · rw [if_pos hreq, if_pos hreq]
        dsimp only
        rw [readContent_seen]
        simp only [ih]
      · rw [if_neg hreq, if_neg hreq]
        rcases readHeader input with ⟨- | hdr, left⟩
        · rfl
        · dsimp only
          by_cases htype : hdr.type ≠ FcgiRequestType.stdin.code
          · rw [if_pos htype, if_pos htype]
            rfl
          · rw [if_neg htype, if_neg htype]
            by_cases hlen : hdr.contentLength = 0
            · simp [hlen, ReadResult.seen]
            · rw [if_neg hlen, if_neg hlen]
              dsimp only
              rw [readContent_seen]
              simp only [ih]

theorem fcgiRead_eq (len : Nat) (req : FcgiRequest) (input : Bytes) :
    fcgiRead len req input = (readBody len req input).seen := fcgiReadLoop_eq _ _ _ _ _

/-- A record without the empty one behind it: two bytes are stored, and the result is 0. -/
theorem fcgiRead_not_reports_unended :
    let r := readBody 10 fcgiInitRequest [1, 5, 0, 1, 0, 2, 0, 0, 97, 98]
    r.stored = [97, 98] ∧ r.ret ≠ r.stored.length := by
  decide

/-! ## Runs -/

structure ReadCall where
  len : Nat
  ret : Nat
  stored : Bytes
  deriving DecidableEq, Repr

/-- A request whose body is read while it arrives: `input` is buffered, and `pending` is still to
come. `passed` says that a call has read over the end of the contents. -/
structure BodyReader where
  req : FcgiRequest
  input : Bytes
  pending : Bytes
  passed : Prop
  calls : List ReadCall

namespace BodyReader

def stored (s : BodyReader) : Bytes := (s.calls.map ReadCall.stored).flatten

def start (req : FcgiRequest) (input pending : Bytes) : BodyReader :=
  ⟨req, input, pending, False, []⟩

end BodyReader

inductive BodyEvent where
  | arrive (count : Nat)
  | read (len : Nat)
  deriving DecidableEq, Repr

def bodyReader : EventSystem BodyReader BodyEvent where
  step s
    | .arrive count =>
      some { s with input := s.input ++ s.pending.take count, pending := s.pending.drop count }
    | .read len =>
      let r := readBody len s.req s.input
      some { s with
        req := r.req
        input := r.input
        passed := s.passed ∨ (s.req.ahead s.input).Passed len
        calls := s.calls ++ [ReadCall.mk len r.ret r.stored] }

/-- A call does not come upon the end of the contents in the course of other records, and none is
made where an earlier one has read over it and bytes follow that look like content. -/
def BodyReader.Meets (s : BodyReader) : BodyEvent → Prop
  | .arrive _ => True
  | .read len => (s.req.ahead s.input).Reports [] len ∧
      (s.passed → len = 0 ∨ (s.req.ahead s.input).content = [])

/-- The bytes stored are the first of `contents`, and what is ahead goes on behind them, as long as
no call has read over the end. -/
structure BodyReader.Sound (contents : Bytes) (s : BodyReader) : Prop where
  calls : ∀ c ∈ s.calls, c.stored.length ≤ c.len ∧ c.ret = c.stored.length
  stored : s.stored <+: contents
  ahead : ¬s.passed → s.stored ++ (s.req.ahead (s.input ++ s.pending)).content = contents

theorem readBody_length_le (len : Nat) (req : FcgiRequest) (input : Bytes) :
    (readBody len req input).stored.length ≤ len := by
  rw [(readBody_delivers len req input).stored, nil_append]
  exact length_take_le _ _

theorem bodyReader_sound {contents : Bytes} {s s' : BodyReader} {e : BodyEvent}
    (h : s.Sound contents) (hmeets : s.Meets e) (hstep : bodyReader.step s e = some s') :
    s'.Sound contents := by
  cases e with
  | arrive count =>
    cases hstep
    refine ⟨h.calls, h.stored, fun hnot => ?_⟩
    rw [← h.ahead hnot, append_assoc, take_append_drop]
    rfl
  | read len =>
    cases hstep
    obtain ⟨hreports, hpassed⟩ := hmeets
    obtain ⟨hstored, hret, hgoesOn⟩ := readBody_delivers len s.req s.input
    have hlen := readBody_length_le len s.req s.input
    generalize readBody len s.req s.input = r at hstored hret hgoesOn hlen ⊢
    have hcalls : ∀ c ∈ s.calls ++ [ReadCall.mk len r.ret r.stored],
        c.stored.length ≤ c.len ∧ c.ret = c.stored.length := by
      intro c hmem
      obtain hmem | hmem := mem_append.mp hmem
      · exact h.calls c hmem
      · rw [mem_singleton.mp hmem]
        exact ⟨hlen, hret.mpr hreports⟩
    have hsum : ((s.calls ++ [ReadCall.mk len r.ret r.stored]).map ReadCall.stored).flatten =
        s.stored ++ r.stored := by
      simp [BodyReader.stored]
    by_cases hpast : s.passed
    · -- nothing is stored behind the end
      have hnone : r.stored = [] := by
        obtain rfl | hcontent := hpassed hpast
        · rw [hstored, take_zero, nil_append]
        · rw [hstored, hcontent, take_nil, nil_append]
      refine ⟨hcalls, ?_, fun hnot => absurd (.inl hpast) hnot⟩
      rw [BodyReader.stored, hsum, hnone, append_nil]
      exact h.stored
    · have hcontents := h.ahead hpast
      refine ⟨hcalls, ?_, fun hnot => ?_⟩
      · have hprefix : r.stored <+: (s.req.ahead (s.input ++ s.pending)).content := by
          rw [hstored, nil_append]
          exact (List.take_prefix _ _).trans (ahead_append _ _ _ _)
        rw [BodyReader.stored, hsum, ← hcontents]
        exact (prefix_append_right_inj _).mpr hprefix
      · have hahead := hgoesOn (fun h => hnot (.inr h)) s.pending
        rw [BodyReader.stored, hsum, ← hcontents, hahead, hstored, append_assoc,
          nil_append]

/-- **`fcgi_read` reports what it stores.** -/
theorem fcgiRead_reports {req : FcgiRequest} {input pending : Bytes} {es : List BodyEvent}
    {s : BodyReader} (h : bodyReader.Run BodyReader.Meets (.start req input pending) es s) :
    (∀ c ∈ s.calls, c.stored.length ≤ c.len ∧ c.ret = c.stored.length) ∧
      s.stored <+: (req.ahead (input ++ pending)).content := by
  have hsound : s.Sound (req.ahead (input ++ pending)).content :=
    h.invariant (fun _ _ _ hinv hmeets hstep => bodyReader_sound hinv hmeets hstep)
      ⟨fun _ hmem => absurd hmem not_mem_nil, nil_prefix, fun _ => rfl⟩
  exact ⟨hsound.calls, hsound.stored⟩

/-- Four bytes that come in two parts, and two calls. -/
theorem fcgiRead_reports_twoParts :
    ∃ s, bodyReader.exec (.start fcgiInitRequest [1, 5, 0, 1, 0, 4, 0, 0, 97, 98] [99, 100])
        [.read 1, .arrive 2, .read 3] = some s ∧ s.stored.length = 4 ∧ s.stored <+:
          (fcgiInitRequest.ahead ([1, 5, 0, 1, 0, 4, 0, 0, 97, 98] ++ [99, 100])).content := by
  have hfirst : fcgiInitRequest.ahead [1, 5, 0, 1, 0, 4, 0, 0, 97, 98] =
      ⟨[[97, 98]], .cutContent⟩ := by
    rw [FcgiRequest.ahead, show fcgiInitRequest.inLen = 0 from rfl, ahead_header _ (by decide)]
    exact ahead_cutContent (by decide)
  have hsecond (req : FcgiRequest) (hlen : req.inLen = 3) (hpad : req.inPad = 0) :
      req.ahead [98, 99, 100] = ⟨[[98, 99, 100]], .dry⟩ := by
    rw [FcgiRequest.ahead, hlen, hpad, ahead_record (by decide) (by decide)]
    simp [ahead_nil, Ahead.cons]
  refine ⟨_, rfl, rfl, (fcgiRead_reports (.cons (e := .read 1) ?_ rfl
    (.cons (e := .arrive 2) (by trivial) rfl (.cons (e := .read 3) ?_ rfl (.nil _))))).2⟩
  · refine ⟨?_, fun hpassed => hpassed.elim⟩
    rw [BodyReader.start, hfirst]
    trivial
  · refine ⟨?_, fun hpassed => ?_⟩
    · change Ahead.Reports (FcgiRequest.ahead _ [98, 99, 100]) [] 3
      rw [hsecond _ rfl rfl]
      exact .inl (Nat.le_refl 3)
    · rw [BodyReader.start, hfirst] at hpassed
      exact (hpassed.elim id id).elim

end Fcgi

end Phpce
