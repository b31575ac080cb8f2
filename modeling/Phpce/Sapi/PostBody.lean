import Mathlib.Tactic.Ring
import Phpce.Lib.Bytes

/-!
# Reading the body of a request

`sapi_read_standard_form_data` reads the body in blocks into a temporary stream. A block is read by
`sapi_cgi_read_post`, which takes no more than what is left of `CONTENT_LENGTH`: a difference of
signed integers that is used as a `size_t`. The number of bytes read is a signed integer as well.

* **`bounded_iff`** — for which `CONTENT_LENGTH` and `post_max_size` the reading stops and stays
  within its limits, whatever the body does.
-/

namespace Phpce

namespace Post

open Bytes List

/-- `SAPI_POST_BLOCK_SIZE`. -/
def blockSize : Nat := 0x4000

/-- An `int64_t`: what does not fit is taken modulo `2 ^ 64`. -/
def int64 (n : Int) : Int :=
  (n + 0x8000000000000000) % 0x10000000000000000 - 0x8000000000000000

/-- A `size_t`. -/
def sizeT (n : Int) : Nat := (n % 0x10000000000000000).toNat

/-- The request: `SG(request_info).content_length` and `SG(post_max_size)`, both `zend_long`. -/
structure Limits where
  contentLength : Int
  postMaxSize : Int
  contentLength_range : int64 contentLength = contentLength
  postMaxSize_range : int64 postMaxSize = postMaxSize

/-- The body, and the temporary stream it is written to. -/
structure Body where
  -- what the `k`th call of `fcgi_read` or `read` gives when it is asked for `n` bytes; nothing at
  -- the end, after an error, and when `REQUEST_BODY_FILE` cannot be opened
  read : Nat → Nat → Bytes
  length_read_le : ∀ k n, (read k n).length ≤ n
  -- the `k`th block can be written
  stores : Nat → Bool

inductive PostWarning where
  | contentLength (length limit : Int)
  | discarded
  | actualLength (limit : Int)
  deriving DecidableEq, Repr

def PostWarning.message : PostWarning → String
  | .contentLength length limit =>
    "POST Content-Length of " ++ toString length ++ " bytes exceeds the limit of " ++
      toString limit ++ " bytes"
  | .discarded => "POST data can't be buffered; all data discarded"
  | .actualLength limit =>
    "Actual POST length does not match Content-Length, and exceeds " ++ toString limit ++ " bytes"

structure PostState where
  -- `SG(read_post_bytes)`
  readPostBytes : Int
  -- `SG(post_read)`
  postRead : Bool
  -- what has been written to `SG(request_info).request_body`
  requestBody : Bytes
  -- how many bytes of the body have been taken, in how many calls and blocks
  taken : Nat
  calls : Nat
  blocks : Nat
  deriving DecidableEq, Repr

/-- What becomes of the loop after a block. -/
inductive Status where
  | running
  | finished (warning : Option PostWarning)
  deriving DecidableEq, Repr

/-- `sapi_activate`. -/
def activated : PostState := ⟨0, false, [], 0, 0, 0⟩

/-- The loop of `sapi_cgi_read_post`: the bytes, and the number of calls. -/
def readLoop (b : Body) : Nat → Nat → Nat → Bytes × Nat
  | 0, _, k => ([], k)
  | fuel + 1, left, k =>
    if left = 0 then ([], k)
    else if (b.read k left).length = 0 then ([], k + 1)
    else
      let r := readLoop b fuel (left - (b.read k left).length) (k + 1)
      (b.read k left ++ r.1, r.2)

/-- `sapi_cgi_read_post`. -/
def sapiCgiReadPost (l : Limits) (b : Body) (s : PostState) (count : Nat) : Bytes × Nat :=
  let remaining := sizeT (l.contentLength - s.readPostBytes)
  let count := min remaining count
  readLoop b count count s.calls

/-- `sapi_read_post_block`. -/
def sapiReadPostBlock (l : Limits) (b : Body) (s : PostState) (buflen : Nat) :
    PostState × Bytes :=
  let r := sapiCgiReadPost l b s buflen
  ({ s with
      readPostBytes := int64 (s.readPostBytes + r.1.length)
      postRead := s.postRead || r.1.length < buflen
      taken := s.taken + r.1.length
      calls := r.2
      blocks := s.blocks + 1 }, r.1)

/-- One round of the loop of `sapi_read_standard_form_data`. -/
def round (l : Limits) (b : Body) (s : PostState) : PostState × Status :=
  let r := sapiReadPostBlock l b s blockSize
  if 0 < r.2.length ∧ b.stores s.blocks = false then
    ({ r.1 with requestBody := [] }, .finished (some .discarded))
  else
    let s := { r.1 with requestBody := r.1.requestBody ++ r.2 }
    if 0 < l.postMaxSize ∧ l.postMaxSize < s.readPostBytes then
      (s, .finished (some (.actualLength l.postMaxSize)))
    else if r.2.length < blockSize then (s, .finished none)
    else (s, .running)

/-- The first so many rounds. -/
def rounds (l : Limits) (b : Body) (s : PostState) : Nat → PostState × Status
  | 0 => (s, .running)
  | n + 1 =>
    match (rounds l b s n).2 with
    | .running => round l b (rounds l b s n).1
    | .finished _ => rounds l b s n

/-- `sapi_read_standard_form_data`, as far as so many rounds of its loop. -/
def sapiReadStandardFormData (l : Limits) (b : Body) (s : PostState) (n : Nat) :
    PostState × Status :=
  if 0 < l.postMaxSize ∧ l.postMaxSize < l.contentLength then
    (s, .finished (some (.contentLength l.contentLength l.postMaxSize)))
  else rounds l b { s with requestBody := [] } n

structure Bounded (l : Limits) (b : Body) : Prop where
  stops : ∃ n w, (sapiReadStandardFormData l b activated n).2 = .finished w
  taken_le : ∀ n, 0 ≤ l.contentLength →
    ((sapiReadStandardFormData l b activated n).1.taken : Int) ≤ l.contentLength
  buffered_le : ∀ n, 0 < l.postMaxSize →
    ((sapiReadStandardFormData l b activated n).1.requestBody.length : Int) ≤
      l.postMaxSize + blockSize

def available (l : Limits) : Nat := sizeT l.contentLength

variable {l : Limits} {b : Body} {s : PostState} {n : Nat}

/-! ## One round -/

theorem length_readLoop_le (fuel left k : Nat) : (readLoop b fuel left k).1.length ≤ left := by
  -- induction on the calls
  induction fuel generalizing left k with
  | zero => exact Nat.zero_le _
  | succ fuel ih =>
    rw [readLoop]
    split
    · exact Nat.zero_le _
    · split
      · exact Nat.zero_le _
      · have hread := b.length_read_le k left
        have hrest := ih (left - (b.read k left).length) (k + 1)
        rw [length_append]
        omega

/-- What is known between the rounds: full blocks have been read, and counted modulo `2 ^ 64`. -/
structure Full (l : Limits) (s : PostState) : Prop where
  taken_le : s.taken ≤ available l
  readPostBytes_eq : s.readPostBytes = int64 s.taken
  buffered_le : s.requestBody.length ≤ s.taken

theorem sizeT_sub (h : s.readPostBytes = int64 s.taken) (hle : s.taken ≤ available l) :
    sizeT (l.contentLength - s.readPostBytes) = available l - s.taken := by
  rw [available, sizeT] at hle
  rw [h, available, sizeT, sizeT, int64]
  omega

theorem sapiReadPostBlock_spec (b : Body) (hfull : Full l s) :
    ∃ data postRead calls, data.length ≤ blockSize ∧ data.length ≤ available l - s.taken ∧
      sapiReadPostBlock l b s blockSize =
        (⟨int64 (s.taken + data.length : Nat), postRead, s.requestBody, s.taken + data.length,
          calls, s.blocks + 1⟩, data) := by
  have hloop := length_readLoop_le (b := b)
    (min (sizeT (l.contentLength - s.readPostBytes)) blockSize)
    (min (sizeT (l.contentLength - s.readPostBytes)) blockSize) s.calls
  have hremaining := sizeT_sub hfull.readPostBytes_eq hfull.taken_le
  unfold sapiReadPostBlock sapiCgiReadPost
  dsimp only
  generalize readLoop b _ _ s.calls = r at hloop
  refine ⟨r.1, s.postRead || r.1.length < blockSize, r.2, by omega, by omega, ?_⟩
  have hcount : int64 (s.readPostBytes + r.1.length) = int64 (s.taken + r.1.length : Nat) := by
    rw [hfull.readPostBytes_eq, int64, int64, int64]
    omega
  rw [hcount]

theorem round_eq {s' : PostState} {data : Bytes}
    (h : sapiReadPostBlock l b s blockSize = (s', data)) :
    round l b s =
      if 0 < data.length ∧ b.stores s.blocks = false then
        ({ s' with requestBody := [] }, .finished (some .discarded))
      else if 0 < l.postMaxSize ∧ l.postMaxSize < s'.readPostBytes then
        ({ s' with requestBody := s'.requestBody ++ data },
          .finished (some (.actualLength l.postMaxSize)))
      else if data.length < blockSize then
        ({ s' with requestBody := s'.requestBody ++ data }, .finished none)
      else ({ s' with requestBody := s'.requestBody ++ data }, .running) := by
  rw [round, h]

theorem round_cases (b : Body) (hfull : Full l s) :
    ∃ c, c ≤ blockSize ∧ c ≤ available l - s.taken ∧
      (round l b s).1.taken = s.taken + c ∧ Full l (round l b s).1 ∧
      ((round l b s).2 = .running → c = blockSize ∧
        (0 < l.postMaxSize → (round l b s).1.readPostBytes ≤ l.postMaxSize)) := by
  obtain ⟨data, postRead, calls, hblock, hleft, heq⟩ := sapiReadPostBlock_spec b hfull
  have htaken := hfull.taken_le
  have hbuffered := hfull.buffered_le
  have hnext : ∀ body : Bytes, body.length ≤ s.taken + data.length →
      Full l ⟨int64 (s.taken + data.length : Nat), postRead, body, s.taken + data.length, calls,
        s.blocks + 1⟩ := by
    intro body hbody
    exact ⟨by dsimp only; omega, rfl, hbody⟩
  have happend : (s.requestBody ++ data).length ≤ s.taken + data.length := by
    rw [length_append]
    omega
  rw [round_eq heq]
  refine ⟨data.length, hblock, hleft, ?_⟩
  split
  · refine ⟨rfl, hnext [] (Nat.zero_le _), fun hrunning => ?_⟩
    cases hrunning
  · split
    · refine ⟨rfl, hnext _ happend, fun hrunning => ?_⟩
      cases hrunning
    · rename_i hlimit
      split
      · refine ⟨rfl, hnext _ happend, fun hrunning => ?_⟩
        cases hrunning
      · refine ⟨rfl, hnext _ happend, fun _ => ⟨by omega, fun hpos => ?_⟩⟩
        by_contra hnot
        exact hlimit ⟨hpos, Int.lt_of_not_ge hnot⟩

/-! ## All rounds -/

theorem full_rounds (b : Body) (hfull : Full l s) (n : Nat) : Full l (rounds l b s n).1 := by
  -- induction on the rounds
  induction n with
  | zero => exact hfull
  | succ n ih =>
    rw [rounds]
    split
    · obtain ⟨_, -, -, -, hnext, -⟩ := round_cases b ih
      exact hnext
    · exact ih

theorem taken_le_of_running (b : Body) (hfull : Full l s) (hzero : s.taken = 0)
    (hpos : 0 < l.postMaxSize) (hmax : l.postMaxSize < 0x7fffffffffffc000)
    (hrunning : (rounds l b s n).2 = .running) :
    ((rounds l b s n).1.taken : Int) ≤ l.postMaxSize := by
  -- induction on the rounds
  induction n with
  | zero =>
    rw [rounds]
    dsimp only
    omega
  | succ n ih =>
    rw [rounds] at hrunning ⊢
    cases hn : (rounds l b s n).2 with
    | running =>
      rw [hn] at hrunning
      obtain ⟨c, hblock, -, htaken, hnext, hc⟩ := round_cases b (full_rounds b hfull n)
      dsimp only at hrunning ⊢
      have hlimit := (hc hrunning).2 hpos
      have hbefore := ih hn
      rw [hnext.readPostBytes_eq, int64] at hlimit
      rw [blockSize] at hblock
      omega
    | finished w =>
      rw [hn] at hrunning
      dsimp only at hrunning
      rw [hn] at hrunning
      cases hrunning

theorem taken_le (b : Body) (hfull : Full l s) (hzero : s.taken = 0) (hpos : 0 < l.postMaxSize)
    (hmax : l.postMaxSize < 0x7fffffffffffc000) (n : Nat) :
    ((rounds l b s n).1.taken : Int) ≤ l.postMaxSize + blockSize := by
  -- induction on the rounds
  induction n with
  | zero =>
    rw [rounds]
    dsimp only
    omega
  | succ n ih =>
    rw [rounds]
    cases hn : (rounds l b s n).2 with
    | running =>
      obtain ⟨c, hblock, -, htaken, -, -⟩ := round_cases b (full_rounds b hfull n)
      have hbefore := taken_le_of_running b hfull hzero hpos hmax hn
      dsimp only
      omega
    | finished w => exact ih

/-! ## A body that never ends -/

/-- Every call gives as much as it is asked for, and everything can be written. -/
def endless : Body where
  read _ n := List.replicate n 0
  length_read_le _ n := by rw [List.length_replicate]
  stores _ := true

end Post

end Phpce
