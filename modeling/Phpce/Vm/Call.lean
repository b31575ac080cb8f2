import Mathlib.Logic.Function.Basic

/-!
# The tail of a call that yields

`ZEND_DO_ICALL`, `ZEND_DO_FCALL_BY_NAME` and `ZEND_DO_FCALL` call the handler of an internal
function and then release the arguments, pop the call frame, drop a result nobody uses and go to
the next opline. When the handler yields, `longjmp` skips all of that, and
`resume_coroutine_context` increments the opline by hand.

* **`resumed_vmStackTop_ne`** — `EG(vm_stack_top)` never does: the call frame is not popped.
* **`yield_never_finishes_like_ordinary`** — so no yielding call finishes like an ordinary one.
-/

namespace Phpce

namespace Vm

/-! ## Values and the VM stack -/

/-- A zval: a value stored in it, or a pointer to a refcounted one. -/
inductive Zval where
  | null
  | scalar (n : Int)
  | counted (ref : Nat)
  deriving DecidableEq, Repr

structure StackAddr where
  page : Nat
  offset : Nat
  deriving DecidableEq, Repr

/-- A page below the current one, with its saved `top` and its `end`. -/
structure StackPage where
  id : Nat
  top : StackAddr
  limit : Nat
  deriving DecidableEq, Repr

/-- `EG(vm_stack)` with `EG(vm_stack_top)` and `EG(vm_stack_end)`; `pages` numbers the next page
that `zend_vm_stack_extend` allocates. -/
structure VmStack where
  page : Nat
  top : StackAddr
  limit : Nat
  prev : List StackPage
  pages : Nat
  deriving DecidableEq, Repr

/-- A pending call: the address and size of its frame, the flag `ZEND_CALL_ALLOCATED`, and its
arguments. -/
structure CallFrame where
  addr : StackAddr
  usedStack : Nat
  allocated : Bool
  args : List Zval
  deriving DecidableEq, Repr

/-- `zend_vm_stack_push_call_frame_ex`: the frame at the top of the current page, or in a page of
its own when it does not fit. -/
def VmStack.pushCallFrame (V : VmStack) (usedStack pageSize : Nat) (args : List Zval) :
    VmStack × CallFrame :=
  if V.limit - V.top.offset < usedStack then
    ({ page := V.pages
       top := ⟨V.pages, usedStack⟩
       limit := max pageSize usedStack
       prev := ⟨V.page, V.top, V.limit⟩ :: V.prev
       pages := V.pages + 1 },
      ⟨⟨V.pages, 0⟩, usedStack, true, args⟩)
  else
    ({ V with top := ⟨V.top.page, V.top.offset + usedStack⟩ },
      ⟨V.top, usedStack, false, args⟩)

def VmStack.freeCallFrame (V : VmStack) (call : CallFrame) : VmStack :=
  if call.allocated then
    match V.prev with
    | page :: prev =>
        { V with page := page.id, top := page.top, limit := page.limit, prev := prev }
    | [] => V
  else { V with top := call.addr }

/-! ## The state of the executor -/

/-- Whose frame `EG(current_execute_data)` is. -/
inductive Current where
  | caller
  | callee
  deriving DecidableEq, Repr

/-- The caller's frame and the executor's globals, with the values written into C locals of
frames that are gone. -/
structure VmState where
  opline : Nat
  -- `EX(call)` and the calls pending behind it
  call : List CallFrame
  -- The variables of the caller's frame
  vars : Nat → Zval
  currentExecuteData : Current
  vmStack : VmStack
  refcount : Nat → Nat
  deadWrites : List Zval

namespace VmState

/-- `Z_DELREF`, on a refcounted value. -/
def delref (s : VmState) : Zval → VmState
  | .counted ref => { s with refcount := Function.update s.refcount ref (s.refcount ref - 1) }
  | _ => s

/-- `zend_vm_stack_free_args`, from the last argument to the first. -/
def freeArgs (s : VmState) (call : CallFrame) : VmState :=
  call.args.foldr (fun arg s => s.delref arg) s

def freeCallFrame (s : VmState) (call : CallFrame) : VmState :=
  { s with vmStack := s.vmStack.freeCallFrame call }

/-- The head of a call handler: the call is taken off `EX(call)` and becomes current, and the
result slot is null. A result nobody uses goes to the C local `retval`: then `result` is `none`. -/
def beginCall (s : VmState) (pending : List CallFrame) (result : Option Nat) : VmState :=
  { s with
    call := pending
    currentExecuteData := .callee
    vars := match result with
      | some var => Function.update s.vars var .null
      | none => s.vars }

/-- The function stores the new string `str` in the result slot. -/
def storeResult (s : VmState) (result : Option Nat) (str : Nat) : VmState :=
  { s with
    refcount := Function.update s.refcount str 1
    vars := match result with
      | some var => Function.update s.vars var (.counted str)
      | none => s.vars }

/-- `zval_ptr_dtor(ret)` of a result nobody uses. -/
def dropResult (s : VmState) (result : Option Nat) (str : Nat) : VmState :=
  match result with
  | some _ => s
  | none => s.delref (.counted str)

def nextOpcode (s : VmState) : VmState := { s with opline := s.opline + 1 }

end VmState

/-! ## The handlers -/

/-- The tail of `ZEND_DO_ICALL`, after the function has returned. -/
def zendDoIcallTail (s : VmState) (call : CallFrame) (result : Option Nat) (str : Nat) :
    VmState :=
  let s := { s with currentExecuteData := .caller }
  (((s.freeArgs call).freeCallFrame call).dropResult result str).nextOpcode

/-- The tail of `ZEND_DO_FCALL_BY_NAME` for an internal function. -/
def zendDoFcallByNameTail (s : VmState) (call : CallFrame) (result : Option Nat) (str : Nat) :
    VmState :=
  let s := { s with currentExecuteData := .caller }
  (((s.freeArgs call).freeCallFrame call).dropResult result str).nextOpcode

/-- The tail of `ZEND_DO_FCALL` for an internal function, which pops the frame last. -/
def zendDoFcallTail (s : VmState) (call : CallFrame) (result : Option Nat) (str : Nat) :
    VmState :=
  let s := { s with currentExecuteData := .caller }
  (((s.freeArgs call).dropResult result str).freeCallFrame call).nextOpcode

inductive CallOpcode where
  | doIcall
  | doFcallByName
  | doFcall
  deriving DecidableEq, Repr

def CallOpcode.tail : CallOpcode → VmState → CallFrame → Option Nat → Nat → VmState
  | .doIcall => zendDoIcallTail
  | .doFcallByName => zendDoFcallByNameTail
  | .doFcall => zendDoFcallTail

/-- A call about to be made: its frame is on top of `EX(call)` and below `EG(vm_stack_top)`, in
the page it was pushed on or in a page of its own. -/
structure PendingCall where
  state : VmState
  call : CallFrame
  pending : List CallFrame
  call_eq : state.call = call :: pending
  below : call.allocated = false → call.addr.page = state.vmStack.top.page →
    call.addr.offset < state.vmStack.top.offset
  ownPage : call.allocated = true → ∃ page prev, state.vmStack.prev = page :: prev ∧
    page.top.page ≠ state.vmStack.top.page

/-- **The ordinary call**: the function returns the string `str`. -/
def ordinaryCall (opcode : CallOpcode) (p : PendingCall) (result : Option Nat) (str : Nat) :
    VmState :=
  opcode.tail ((p.state.beginCall p.pending result).storeResult result str) p.call result str

/-- `RemoteReadCallback` stores the result through the pointer `context->return_value`. Where
that was the C local of the handler, the handler's frame is gone. -/
def remoteResult (s : VmState) (result : Option Nat) (str : Nat) : VmState :=
  match result with
  | some _ => s.storeResult result str
  | none => { s.storeResult result str with deadWrites := .counted str :: s.deadWrites }

/-- **The call that yields**: `yield_coroutine_context` leaves the handler, the reply is stored,
and `resume_coroutine_context` makes the saved frame current and increments its opline. -/
def yieldingCall (p : PendingCall) (result : Option Nat) (str : Nat) : VmState :=
  let s := remoteResult (p.state.beginCall p.pending result) result str
  { s with currentExecuteData := .caller, opline := s.opline + 1 }

/-- The yielding call re-enters the VM in the state in which the ordinary call goes on, and its
result is written into the caller's result slot only. -/
def FinishesLikeOrdinary (opcode : CallOpcode) (p : PendingCall) (result : Option Nat)
    (str : Nat) : Prop :=
  yieldingCall p result str = ordinaryCall opcode p result str ∧
    (yieldingCall p result str).deadWrites = p.state.deadWrites

/-! ## What a call touches -/

section Frame

variable (s : VmState) (call : CallFrame) (result : Option Nat) (str : Nat)

/-- The fields that releasing values leaves alone. -/
structure SameControl (s s' : VmState) : Prop where
  opline : s'.opline = s.opline
  call : s'.call = s.call
  vars : s'.vars = s.vars
  current : s'.currentExecuteData = s.currentExecuteData

theorem sameControl_delref (v : Zval) : SameControl s (s.delref v) ∧
    (s.delref v).vmStack = s.vmStack := by
  cases v <;> exact ⟨⟨rfl, rfl, rfl, rfl⟩, rfl⟩

theorem SameControl.trans {s s' s'' : VmState} (h : SameControl s s') (h' : SameControl s' s'') :
    SameControl s s'' :=
  ⟨h'.opline.trans h.opline, h'.call.trans h.call, h'.vars.trans h.vars,
    h'.current.trans h.current⟩

theorem sameControl_freeArgs : SameControl s (s.freeArgs call) ∧
    (s.freeArgs call).vmStack = s.vmStack := by
  unfold VmState.freeArgs
  induction call.args with
  | nil => exact ⟨⟨rfl, rfl, rfl, rfl⟩, rfl⟩
  | cons arg args ih =>
    obtain ⟨hcontrol, hstack⟩ := ih
    obtain ⟨hcontrol', hstack'⟩ :=
      sameControl_delref (args.foldr (fun arg s => s.delref arg) s) arg
    exact ⟨hcontrol.trans hcontrol', hstack'.trans hstack⟩

theorem sameControl_dropResult : SameControl s (s.dropResult result str) ∧
    (s.dropResult result str).vmStack = s.vmStack := by
  cases result with
  | some _ => exact ⟨⟨rfl, rfl, rfl, rfl⟩, rfl⟩
  | none => exact sameControl_delref s (.counted str)

/-- The handler ends with the next opline, the caller's frame current, and the call frame popped. -/
structure Finishes (s s' : VmState) (call : CallFrame) : Prop where
  opline : s'.opline = s.opline + 1
  pending : s'.call = s.call
  vars : s'.vars = s.vars
  current : s'.currentExecuteData = .caller
  vmStack : s'.vmStack = s.vmStack.freeCallFrame call

theorem finishes_zendDoIcallTail : Finishes s (zendDoIcallTail s call result str) call := by
  obtain ⟨hargs, hargsStack⟩ :=
    sameControl_freeArgs { s with currentExecuteData := .caller } call
  obtain ⟨hdrop, hdropStack⟩ := sameControl_dropResult
    ((VmState.freeArgs { s with currentExecuteData := .caller } call).freeCallFrame call) result str
  exact
    { opline := congrArg (· + 1) (hdrop.opline.trans hargs.opline)
      pending := hdrop.call.trans hargs.call
      vars := hdrop.vars.trans hargs.vars
      current := hdrop.current.trans hargs.current
      vmStack := hdropStack.trans (congrArg (VmStack.freeCallFrame · call) hargsStack) }

theorem finishes_zendDoFcallTail : Finishes s (zendDoFcallTail s call result str) call := by
  obtain ⟨hargs, hargsStack⟩ :=
    sameControl_freeArgs { s with currentExecuteData := .caller } call
  obtain ⟨hdrop, hdropStack⟩ := sameControl_dropResult
    (VmState.freeArgs { s with currentExecuteData := .caller } call) result str
  exact
    { opline := congrArg (· + 1) (hdrop.opline.trans hargs.opline)
      pending := hdrop.call.trans hargs.call
      vars := hdrop.vars.trans hargs.vars
      current := hdrop.current.trans hargs.current
      vmStack := congrArg (VmStack.freeCallFrame · call) (hdropStack.trans hargsStack) }

theorem finishes_tail (opcode : CallOpcode) :
    Finishes s (opcode.tail s call result str) call := by
  cases opcode with
  | doIcall => exact finishes_zendDoIcallTail s call result str
  | doFcallByName => exact finishes_zendDoIcallTail s call result str
  | doFcall => exact finishes_zendDoFcallTail s call result str

end Frame

/-! ## What the two calls share, and what they do not -/

variable (opcode : CallOpcode) (p : PendingCall) (result : Option Nat) (str : Nat)

theorem yieldingCall_fields :
    (yieldingCall p result str).opline = p.state.opline + 1 ∧
      (yieldingCall p result str).call = p.pending ∧
      (yieldingCall p result str).vars =
        ((p.state.beginCall p.pending result).storeResult result str).vars ∧
      (yieldingCall p result str).currentExecuteData = .caller ∧
      (yieldingCall p result str).vmStack = p.state.vmStack := by
  cases result with
  | none => exact ⟨rfl, rfl, rfl, rfl, rfl⟩
  | some var => exact ⟨rfl, rfl, rfl, rfl, rfl⟩

/-- **The call frame of a resumed call is never popped.** `EG(vm_stack_top)` stays above it,
where the ordinary call goes back to its start, or to the page below. -/
theorem resumed_vmStackTop_ne :
    (yieldingCall p result str).vmStack.top ≠ (ordinaryCall opcode p result str).vmStack.top := by
  obtain ⟨-, -, -, -, hyield⟩ := yieldingCall_fields p result str
  have hordinary : (ordinaryCall opcode p result str).vmStack =
      p.state.vmStack.freeCallFrame p.call :=
    (finishes_tail ((p.state.beginCall p.pending result).storeResult result str)
      p.call result str opcode).vmStack
  rw [hyield, hordinary]
  unfold VmStack.freeCallFrame
  cases hallocated : p.call.allocated with
  | true =>
    obtain ⟨page, prev, hprev, hpage⟩ := p.ownPage hallocated
    rw [hprev]
    intro htop
    have hpages : p.state.vmStack.top.page = page.top.page := congrArg StackAddr.page htop
    exact hpage hpages.symm
  | false =>
    intro htop
    have htop' : p.state.vmStack.top = p.call.addr := htop
    have hlt := p.below hallocated (by rw [htop'])
    rw [htop'] at hlt
    exact Nat.lt_irrefl _ hlt

/-- **No yielding call finishes like an ordinary one**, whichever opcode makes it, whether its
result is used or not, and whatever its arguments and the calls pending around it are. -/
theorem yield_never_finishes_like_ordinary : ¬FinishesLikeOrdinary opcode p result str := by
  rintro ⟨heq, -⟩
  exact resumed_vmStackTop_ne opcode p result str (congrArg (fun s => s.vmStack.top) heq)

/-! ## A call in the making -/

/-- A call whose frame has just been pushed is one in the sense of `PendingCall`. -/
def pendingOfPush (s : VmState) (usedStack pageSize : Nat) (args : List Zval)
    (hused : 0 < usedStack) (htop : s.vmStack.top.page < s.vmStack.pages) : PendingCall where
  state := { s with
    call := (s.vmStack.pushCallFrame usedStack pageSize args).2 :: s.call
    vmStack := (s.vmStack.pushCallFrame usedStack pageSize args).1 }
  call := (s.vmStack.pushCallFrame usedStack pageSize args).2
  pending := s.call
  call_eq := rfl
  below := by
    unfold VmStack.pushCallFrame
    split
    · intro h
      cases h
    · intro _ _
      exact Nat.lt_add_of_pos_right hused
  ownPage := by
    unfold VmStack.pushCallFrame
    split
    · intro _
      exact ⟨_, _, rfl, Nat.ne_of_lt htop⟩
    · intro h
      cases h

/-- **`json_encode(coro_http_get($url))`**: the inner call, its argument a string with one other
reference, is made while the outer one is pending. After the reply its frame is still on the VM
stack, between the outer call's arguments and whatever is pushed next. -/
theorem not_finishes_like_ordinary :
    ¬∀ opcode p result str, FinishesLikeOrdinary opcode p result str := by
  intro h
  let outer : VmState := ⟨10, [⟨⟨0, 6⟩, 6, false, []⟩], fun _ => .null, .caller,
    ⟨0, ⟨0, 12⟩, 1000, [], 1⟩, fun _ => 2, []⟩
  obtain ⟨heq, -⟩ := h .doIcall
    (pendingOfPush outer 6 1000 [.counted 0] (by decide) (by decide)) (some 3) 1
  exact absurd (congrArg (fun s => s.vmStack.top) heq) (by decide)

end Vm

end Phpce
