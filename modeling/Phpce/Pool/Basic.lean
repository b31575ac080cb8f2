import Phpce.Lib.Dll

/-!
# The coroutine context pool

The operations of `fpm_coroutine.c` on the two intrusive lists of contexts, translated store
by store: the free pool (`global_coroutine_context_pool`, `global_coroutine_context_pool_end`)
and the contexts in use (`global_coroutine_context_use`), both threaded through the same
`next` and `prev` fields, with `context_count` and the registration of the listener event.

A context is its address; `malloc` hands out fresh addresses in order. A null pointer is
`none`, and an operation that dereferences a null pointer has no result.
-/

namespace Phpce

/-- The address of a `sapi_coroutine_context`. -/
abbrev ContextPtr := Nat

/-- A libevent call on `listener_event`. -/
inductive ListenerCall where
  | eventAdd
  | eventDel
  deriving DecidableEq, Repr

/-- The globals of `fpm_coroutine.c` and the list fields of the contexts. -/
structure CoroutinePool where
  -- `context->next` and `context->prev`
  links : Links ContextPtr
  -- `context->thread_id`
  threadId : ContextPtr → Nat
  -- The contexts `malloc` has handed out so far
  mallocs : Nat
  contextPool : Option ContextPtr
  contextPoolEnd : Option ContextPtr
  contextUse : Option ContextPtr
  contextCount : Nat
  listenerEventStop : Bool
  -- The calls on `listener_event`, latest first
  listenerCalls : List ListenerCall
  -- The argument of the latest `set_force_thread_id`
  forceThreadId : Option Nat

namespace CoroutinePool

/-- `init_coroutine_static`. The listener's flag is not among what it resets: it starts as 0
where it is declared. -/
def initCoroutineStatic : CoroutinePool where
  links := { next := fun _ => none, prev := fun _ => none }
  threadId := fun _ => 0
  mallocs := 0
  contextPool := none
  contextPoolEnd := none
  contextUse := none
  contextCount := 0
  listenerEventStop := false
  listenerCalls := []
  forceThreadId := none

def asserEventStop (P : CoroutinePool) : CoroutinePool :=
  if !P.listenerEventStop && P.contextCount < 1 then
    { P with listenerEventStop := true, listenerCalls := .eventDel :: P.listenerCalls }
  else P

def asserEventContinue (P : CoroutinePool) : CoroutinePool :=
  if P.listenerEventStop && 0 < P.contextCount then
    { P with listenerEventStop := false, listenerCalls := .eventAdd :: P.listenerCalls }
  else P

/-- The registration of the listener in `regist_event`. -/
def registEvent (P : CoroutinePool) : CoroutinePool :=
  { P with listenerCalls := .eventAdd :: P.listenerCalls }

/-! ## `init_coroutine_context` -/

/-- `init_coroutine_context`: a new context goes to the front of the pool. -/
def initCoroutineContext (P : CoroutinePool) (idx : Nat) : CoroutinePool :=
  let context := P.mallocs
  let links := (P.links.setNext context none).setPrev context none
  let P := { P with
    mallocs := P.mallocs + 1
    threadId := Function.update P.threadId context idx
    contextCount := P.contextCount + 1 }
  match P.contextPool with
  | none =>
      { P with links := links, contextPoolEnd := some context, contextPool := some context }
  | some pool =>
      if P.contextPoolEnd = some pool then
        -- one context in the pool: `pool_end` and the old `pool` are the same cell
        { P with
          contextPool := some context
          links := (links.setNext context (some pool)).setPrev pool (some context) }
      else
        { P with
          links := (links.setPrev pool (some context)).setNext context (some pool)
          contextPool := some context }

/-- The start of a worker: `init_coroutine_static`, then `init_coroutine_context` for each
coroutine of `main`. -/
def initContexts (idxs : List Nat) : CoroutinePool :=
  idxs.foldl initCoroutineContext initCoroutineStatic

/-! ## `free_coroutine_context` -/

/-- The first half of `free_coroutine_context`: unlink the context from its neighbours. The
list of contexts in use moves its head only when the context has no `prev`. -/
def unlinkContext (P : CoroutinePool) (context : ContextPtr) : CoroutinePool :=
  match P.links.prev context, P.links.next context with
  | some prev, some next =>
      { P with links :=
        (((P.links.setNext prev (some next)).setPrev next (some prev)).setPrev context
          none).setNext context none }
  | some prev, none =>
      { P with links := (P.links.setNext prev none).setPrev context none }
  | none, some next =>
      { P with
        contextUse := some next
        links := (P.links.setPrev next none).setNext context none }
  | none, none => { P with contextUse := none }

/-- The second half: append the context at the end of the pool. With one context in the pool
the field `context->next` is left as it is. -/
def appendContext (P : CoroutinePool) (context : ContextPtr) : CoroutinePool :=
  match P.contextPoolEnd with
  | none =>
      { P with
        contextPoolEnd := some context
        contextPool := some context
        links := (P.links.setPrev context none).setNext context none }
  | some last =>
      if P.contextPool = some last then
        { P with
          contextPoolEnd := some context
          links := (P.links.setNext last (some context)).setPrev context (some last) }
      else
        { P with
          links := ((P.links.setPrev context (some last)).setNext last (some context)).setNext
            context none
          contextPoolEnd := some context }

def countUp (P : CoroutinePool) : CoroutinePool :=
  { P with contextCount := P.contextCount + 1 }

/-- `free_coroutine_context`, but for its `bufferevent_free`, which touches no field of the
pool. -/
def freeCoroutineContext (P : CoroutinePool) (context : ContextPtr) : CoroutinePool :=
  ((P.unlinkContext context).appendContext context).countUp.asserEventContinue

/-! ## `use_coroutine_context` -/

/-- Take the context `result` off the front of the pool. A pool of one is reset. -/
def popContext (P : CoroutinePool) (result : ContextPtr) : CoroutinePool :=
  match P.links.next result with
  | some next => { P with contextPool := some next, links := P.links.setPrev next none }
  | none => { P with contextPool := none, contextPoolEnd := none }

def pushUse (P : CoroutinePool) (result : ContextPtr) : CoroutinePool :=
  match P.contextUse with
  | some use =>
      { P with
        links := ((P.links.setNext result (some use)).setPrev result none).setPrev use
          (some result)
        contextUse := some result }
  | none =>
      { P with
        contextUse := some result
        links := (P.links.setNext result none).setPrev result none }

def switchTo (P : CoroutinePool) (result : ContextPtr) : CoroutinePool :=
  { P with
    contextCount := P.contextCount - 1
    forceThreadId := some (P.threadId result) }

/-- `use_coroutine_context`: the pointer it returns and the pool it leaves. With a positive
count and a null `global_coroutine_context_pool` it stores through a null pointer, whichever
way the list of contexts in use is: then it has no result. -/
def useCoroutineContext (P : CoroutinePool) : Option (Option ContextPtr × CoroutinePool) :=
  if 0 < P.contextCount then
    match P.contextPool with
    | some result =>
        some (some result, (((P.popContext result).pushUse result).switchTo result).asserEventStop)
    | none => none
  else
    some (none, P.asserEventStop)

end CoroutinePool

end Phpce
