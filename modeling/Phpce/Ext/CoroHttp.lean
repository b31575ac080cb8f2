import Mathlib.Algebra.BigOperators.Group.List.Basic
import Mathlib.Algebra.GroupWithZero.Nat
import Phpce.Lib.CString

/-!
# The body of `coro_http_get`

`ReadChunkCallback`, `RemoteRequestErrorCallback` and `RemoteReadCallback` of `coro_http.c`. The
body is collected in `tmpData`, a block of 4096 bytes that holds a C string: each chunk is taken
from the input buffer in pieces of up to 1024 bytes, which `strncat` appends up to their first NUL.

* **`returned_eq_iff`** — the script gets what was delivered if and only if no NUL is in it.
* **`inside_iff`** — the block is not overrun if and only if what is appended is shorter than it.
-/

namespace Phpce

namespace CoroHttp

open Bytes Buffer CString List

/-- What `emalloc` is asked for. -/
def tmpSize : Nat := 4096

/-- `context->tmpData`: the memory from its address on. `reach` is the number of bytes to the last
that was stored. -/
structure TmpData where
  mem : Nat → UInt8
  reach : Nat

/-- The errors that `RemoteRequestErrorCallback` tells apart. -/
inductive RequestError where
  | timeout
  | eof
  | invalidHeader
  | bufferError
  | requestCancel
  | dataTooLong
  | other
  deriving DecidableEq, Repr

def RequestError.text : RequestError → String
  | timeout => "remote request error:EVREQ_HTTP_TIMEOUT!"
  | eof => "remote request error:EVREQ_HTTP_EOF!"
  | invalidHeader => "remote request error:EVREQ_HTTP_INVALID_HEADER!"
  | bufferError => "remote request error:EVREQ_HTTP_BUFFER_ERROR!"
  | requestCancel => "remote request error:EVREQ_HTTP_REQUEST_CANCEL!"
  | dataTooLong => "remote request error:EVREQ_HTTP_DATA_TOO_LONG!"
  | other => "remote request error:unkown error!"

namespace TmpData

/-- `strcpy(tmpStr,"")`, in a block that may hold anything. -/
def init (garbage : Nat → UInt8) : TmpData := ⟨store garbage 0 [0], 1⟩

def strlen (t : TmpData) : Nat := CString.strlen t.reach t.mem

def strncat (t : TmpData) (src : Bytes) (n : Nat) : TmpData where
  mem := CString.strncat t.mem t.strlen src n
  reach := max t.reach (t.strlen + (cstr (src.take n)).length + 1)

/-- `ReadChunkCallback`, with what the input buffer holds. -/
def readChunkCallback (t : TmpData) (evbuf : Bytes) : TmpData :=
  if evbuf = [] then t
  else
    let buf := evbuf.take 1024
    readChunkCallback (t.strncat buf buf.length) (evbuf.drop 1024)
  termination_by evbuf.length
  decreasing_by
    have hpos : 0 < evbuf.length := length_pos_iff.mpr ‹_›
    rw [length_drop]
    omega

def remoteRequestErrorCallback (t : TmpData) (error : RequestError) : TmpData :=
  t.strncat (ascii error.text) (ascii error.text).length

/-- The string that `RemoteReadCallback` returns to the script. -/
def remoteReadCallback (t : TmpData) : Bytes := slice t.mem 0 t.strlen

end TmpData

/-- The callbacks of one request: chunks, and then an error if there is one. -/
def collect (garbage : Nat → UInt8) (chunks : List Bytes) (error : Option RequestError) : TmpData :=
  let t := chunks.foldl TmpData.readChunkCallback (.init garbage)
  match error with
  | some error => t.remoteRequestErrorCallback error
  | none => t

/-! ## What is appended -/

/-- The bytes of a chunk that come through: of each piece those before its first NUL. -/
def received (evbuf : Bytes) : Bytes :=
  if evbuf = [] then []
  else cstr (evbuf.take 1024) ++ received (evbuf.drop 1024)
  termination_by evbuf.length
  decreasing_by
    have hpos : 0 < evbuf.length := length_pos_iff.mpr ‹_›
    rw [length_drop]
    omega

theorem received_of_ne_nil {evbuf : Bytes} (h : evbuf ≠ []) :
    received evbuf = cstr (evbuf.take 1024) ++ received (evbuf.drop 1024) := by
  rw [received, if_neg h]

theorem length_received_le (evbuf : Bytes) : (received evbuf).length ≤ evbuf.length := by
  -- induction on the pieces
  fun_induction received evbuf with
  | case1 => exact Nat.le_refl _
  | case2 evbuf _ ih =>
    have hpiece := length_cstr_le (evbuf.take 1024)
    have hsplit := congrArg List.length (take_append_drop 1024 evbuf)
    rw [length_append] at hsplit ⊢
    omega

theorem received_eq_self_iff (evbuf : Bytes) : received evbuf = evbuf ↔ (0 : UInt8) ∉ evbuf := by
  -- induction on the pieces: one that is cut makes the whole shorter
  fun_induction received evbuf with
  | case1 => exact ⟨fun _ => not_mem_nil, fun _ => rfl⟩
  | case2 evbuf _ ih =>
    have hsplit := take_append_drop 1024 evbuf
    have hmem : (0 : UInt8) ∉ evbuf ↔
        (0 : UInt8) ∉ evbuf.take 1024 ∧ (0 : UInt8) ∉ evbuf.drop 1024 := by
      conv_lhs => rw [← hsplit]
      rw [mem_append, not_or]
    rw [hmem, ← ih, ← cstr_eq_self_iff]
    constructor
    · intro h
      have hpiece := length_cstr_le (evbuf.take 1024)
      have hrest := length_received_le (evbuf.drop 1024)
      have hlen := congrArg List.length (h.trans hsplit.symm)
      rw [length_append, length_append] at hlen
      exact List.append_inj (h.trans hsplit.symm) (by omega)
    · rintro ⟨hpiece, hrest⟩
      rw [hpiece, hrest, hsplit]

theorem flatMap_received_eq_iff (chunks : List Bytes) :
    chunks.flatMap received = chunks.flatten ↔ (0 : UInt8) ∉ chunks.flatten := by
  have hle : ∀ chunks : List Bytes, (chunks.flatMap received).length ≤ chunks.flatten.length := by
    intro chunks
    induction chunks with
    | nil => exact Nat.le_refl _
    | cons chunk chunks ih =>
      have hchunk := length_received_le chunk
      rw [flatMap_cons, flatten_cons, length_append, length_append]
      omega
  induction chunks with
  | nil => exact ⟨fun _ => not_mem_nil, fun _ => rfl⟩
  | cons chunk chunks ih =>
    rw [flatMap_cons, flatten_cons, mem_append, not_or, ← received_eq_self_iff]
    refine Iff.trans ?_ (and_congr_right fun _ => ih)
    constructor
    · intro h
      have hchunk := length_received_le chunk
      have hrest := hle chunks
      have hlen := congrArg List.length h
      rw [length_append, length_append] at hlen
      exact List.append_inj h (by omega)
    · rintro ⟨hchunk, hrest⟩
      rw [hchunk, hrest]

/-! ## The string that is held -/

/-- `tmpData` holds a string, and no byte behind its NUL has been stored. -/
structure TmpData.Collected (t : TmpData) (s : Bytes) : Prop where
  holds : Holds t.mem s
  reach_eq : t.reach = s.length + 1

namespace TmpData.Collected

variable {t : TmpData} {s : Bytes}

theorem strlen_eq (h : t.Collected s) : t.strlen = s.length :=
  CString.strlen_eq h.holds (by rw [h.reach_eq]; exact Nat.lt_succ_self _)

theorem init (garbage : Nat → UInt8) : (TmpData.init garbage).Collected [] :=
  ⟨holds_store_nul garbage, rfl⟩

theorem strncat (h : t.Collected s) (src : Bytes) (n : Nat) :
    (t.strncat src n).Collected (s ++ cstr (src.take n)) := by
  refine ⟨?_, ?_⟩
  · rw [TmpData.strncat, h.strlen_eq]
    exact h.holds.strncat src n
  · have hreach : (t.strncat src n).reach =
        max t.reach (t.strlen + (cstr (src.take n)).length + 1) := rfl
    rw [hreach, h.strlen_eq, h.reach_eq, length_append]
    omega

theorem readChunkCallback (h : t.Collected s) (evbuf : Bytes) :
    (t.readChunkCallback evbuf).Collected (s ++ received evbuf) := by
  -- induction on the pieces
  fun_induction TmpData.readChunkCallback t evbuf generalizing s with
  | case1 =>
    rw [received, if_pos rfl, append_nil]
    exact h
  | case2 =>
    rename_i t evbuf hne buf ih
    have hpiece := ih (h.strncat (evbuf.take 1024) (evbuf.take 1024).length)
    rwa [take_length, append_assoc, ← received_of_ne_nil hne] at hpiece

theorem foldl_readChunkCallback (h : t.Collected s) (chunks : List Bytes) :
    (chunks.foldl TmpData.readChunkCallback t).Collected (s ++ chunks.flatMap received) := by
  -- induction on the chunks
  induction chunks generalizing t s with
  | nil =>
    rw [flatMap_nil, append_nil]
    exact h
  | cons chunk chunks ih =>
    have hrest := ih (h.readChunkCallback chunk)
    rwa [append_assoc, ← flatMap_cons] at hrest

theorem remoteReadCallback_eq (h : t.Collected s) : t.remoteReadCallback = s := by
  have hslice := h.holds.slice_eq
  rw [slice_add] at hslice
  rw [TmpData.remoteReadCallback, h.strlen_eq]
  exact (List.append_inj hslice (by rw [length_slice])).1

end TmpData.Collected

theorem cstr_text (error : RequestError) :
    cstr ((ascii error.text).take (ascii error.text).length) = ascii error.text := by
  rw [take_length, cstr_eq_self_iff]
  cases error <;> decide

theorem collect_collected (garbage : Nat → UInt8) (chunks : List Bytes)
    (error : Option RequestError) :
    (collect garbage chunks error).Collected
      (chunks.flatMap received ++ (error.map fun e => ascii e.text).getD []) := by
  have hchunks := (TmpData.Collected.init garbage).foldl_readChunkCallback chunks
  rw [nil_append] at hchunks
  cases error with
  | none =>
    rw [Option.map_none, Option.getD_none, append_nil]
    exact hchunks
  | some error =>
    have herror := hchunks.strncat (ascii error.text) (ascii error.text).length
    rw [cstr_text] at herror
    exact herror

/-! ## What the script gets -/

/-- **A body comes through if and only if it has no NUL.** -/
theorem returned_eq_iff (garbage : Nat → UInt8) (chunks : List Bytes) :
    (collect garbage chunks none).remoteReadCallback = chunks.flatten ↔
      (0 : UInt8) ∉ chunks.flatten := by
  have hcollected := collect_collected garbage chunks none
  rw [Option.map_none, Option.getD_none, append_nil] at hcollected
  rw [hcollected.remoteReadCallback_eq]
  exact flatMap_received_eq_iff chunks

/-- The body `A\0B` ends at its NUL. -/
theorem returned_ne_nul :
    (collect (fun _ => 0) [[65, 0, 66]] none).remoteReadCallback = [65] ∧
      (collect (fun _ => 0) [[65, 0, 66]] none).remoteReadCallback ≠ [[65, 0, 66]].flatten := by
  have hcollected := collect_collected (fun _ => 0) [[65, 0, 66]] none
  have hreceived : [[65, 0, 66]].flatMap received = ([65] : Bytes) := by
    rw [flatMap_cons, flatMap_nil, received_of_ne_nil (by decide)]
    rw [received]
    rfl
  rw [hreceived] at hcollected
  rw [hcollected.remoteReadCallback_eq]
  decide

/-! ## The block -/

def appended (chunks : List Bytes) (error : Option RequestError) : Nat :=
  (chunks.map fun chunk => (received chunk).length).sum +
    (error.map fun e => (ascii e.text).length).getD 0

theorem reach_collect (garbage : Nat → UInt8) (chunks : List Bytes) (error : Option RequestError) :
    (collect garbage chunks error).reach = appended chunks error + 1 := by
  rw [(collect_collected garbage chunks error).reach_eq, length_append, length_flatMap,
    appended]
  cases error <;> rfl

/-- **When the block is not overrun**: what is appended leaves room for the NUL. -/
theorem inside_iff (garbage : Nat → UInt8) (chunks : List Bytes) (error : Option RequestError) :
    (collect garbage chunks error).reach ≤ tmpSize ↔ appended chunks error < tmpSize := by
  rw [reach_collect]
  exact Nat.succ_le_iff

/-- A chunk of 4096 letters is stored with its NUL behind the block. -/
theorem not_inside_full :
    ¬(collect (fun _ => 0) [List.replicate 4096 65] none).reach ≤ tmpSize := by
  have hreceived : received (replicate 4096 65) = replicate 4096 65 :=
    (received_eq_self_iff _).mpr fun h => by simpa using (mem_replicate.mp h).2
  rw [reach_collect, appended, map_singleton, hreceived, length_replicate]
  decide

end CoroHttp

end Phpce
