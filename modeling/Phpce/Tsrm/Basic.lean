import Mathlib.Algebra.Ring.Int.Defs
import Mathlib.Data.List.Basic
import Mathlib.Logic.Function.Basic
import Phpce.Lib.Run

/-!
# The thread-safe resource manager

The functions of `TSRM.c` that coroutines use: the memo of `rsrc_id` addresses, `ts_allocate_id`,
`ts_free_id` and `ts_resource_ex`, and the entries of the coroutines with the two globals that say
which of them is active, `force_thread_id` and the thread-local pointer.

An entry is its address, and so is a block; `malloc` hands out fresh ones in order. The `next`
pointers of the entries are the order of a list: `tsrm_tls_table` holds a chain in each slot. What
a constructor does to its block is left to it; its call is recorded. An operation that goes beyond
an array or follows a null pointer has no result.
-/

namespace Phpce

/-- The address of a variable that holds a `ts_rsrc_id`. -/
abbrev RsrcIdPtr := Nat

abbrev TsrmBlock := Nat

abbrev TlsEntryPtr := Nat

abbrev ThreadT := Nat

abbrev ResourceFn := Nat

/-- `tsrm_tls_entry`, with `count` the length of its storage. -/
structure TlsEntry where
  storage : List (Option TsrmBlock)
  threadId : ThreadT
  deriving DecidableEq, Repr

/-- `tsrm_resource_type` -/
structure ResourceType where
  size : Nat
  ctor : Option ResourceFn
  dtor : Option ResourceFn
  done : Bool
  deriving DecidableEq, Repr

inductive ResourceCall where
  | ctor (f : ResourceFn) (block : Option TsrmBlock)
  | dtor (f : ResourceFn) (block : Option TsrmBlock)
  deriving DecidableEq, Repr

/-- The globals of `TSRM.c`, and the memory behind them. -/
structure Tsrm where
  rsrcIdMap : Nat → List RsrcIdPtr
  -- The variables that the addresses given to `ts_allocate_id` belong to
  rsrcIds : RsrcIdPtr → Nat
  tlsTable : List (List TlsEntryPtr)
  forceThreadId : Int
  idCount : Nat
  resourceTypes : List ResourceType
  -- The thread-local pointer, and what `pthread_self` gives
  tls : Option TlsEntryPtr
  pthreadSelf : ThreadT
  entries : TlsEntryPtr → TlsEntry
  entryMallocs : Nat
  -- The sizes of the blocks that `malloc` has handed out, and the blocks given back
  blockMallocs : List Nat
  blockFrees : List TsrmBlock
  calls : List ResourceCall

/-- `array[i]` -/
def index {α : Type*} (array : List α) (i : Int) : Option α :=
  if 0 ≤ i then array[i.toNat]? else none

/-- `THREAD_HASH_OF` -/
def threadHashOf (thr ts : Nat) : Nat := thr % ts

def rsrcIdMapSize : Nat := 100

/-- `TSRM_UNSHUFFLE_RSRC_ID` -/
def unshuffleRsrcId (id : Nat) : Int := id - 1

namespace Tsrm

/-- `tsrm_startup` -/
def tsrmStartup (expectedThreads expectedResources : Nat) (pthreadSelf : ThreadT) : Tsrm where
  rsrcIdMap := fun _ => []
  rsrcIds := fun _ => 0
  tlsTable := List.replicate expectedThreads []
  forceThreadId := -1
  idCount := 0
  resourceTypes := List.replicate expectedResources ⟨0, none, none, false⟩
  tls := none
  pthreadSelf := pthreadSelf
  entries := fun _ => ⟨[], 0⟩
  entryMallocs := 0
  blockMallocs := []
  blockFrees := []
  calls := []

/-! ## Threads -/

def setForceThreadId (s : Tsrm) (threadId : Int) : Tsrm := { s with forceThreadId := threadId }

/-- `(THREAD_T)thread_id`, of an `int` -/
def castThreadId (threadId : Int) : ThreadT :=
  if 0 ≤ threadId then threadId.toNat else (threadId + 2 ^ 64).toNat

/-- `tsrm_thread_id` -/
def tsrmThreadId (s : Tsrm) : ThreadT :=
  if s.forceThreadId ≠ -1 then castThreadId s.forceThreadId else s.pthreadSelf

theorem tsrmThreadId_setForceThreadId (s : Tsrm) (idx : Nat) :
    (s.setForceThreadId idx).tsrmThreadId = idx := by
  have hne : (idx : Int) ≠ -1 := by omega
  have hnonneg : (0 : Int) ≤ idx := Int.natCast_nonneg idx
  rw [tsrmThreadId, setForceThreadId, castThreadId]
  dsimp only
  rw [if_pos hne, if_pos hnonneg, Int.toNat_natCast]

def tsrmGetLsCache (s : Tsrm) : Option TlsEntryPtr := s.tls

/-- `tsrm_set_interpreter_context`, with the pointer it returns. -/
def tsrmSetInterpreterContext (s : Tsrm) (newCtx : Option TlsEntryPtr) :
    Option TlsEntryPtr × Tsrm :=
  (s.tls, { s with tls := newCtx })

/-- `get_tsrm_tls_entry` -/
def getTsrmTlsEntry (s : Tsrm) (idx : Nat) : Option TlsEntryPtr :=
  (s.tlsTable[idx]?).bind List.head?

/-! ## Blocks -/

def setStorage (s : Tsrm) (p : TlsEntryPtr) (storage : List (Option TsrmBlock)) : Tsrm :=
  { s with entries := Function.update s.entries p { s.entries p with storage := storage } }

def callCtor (s : Tsrm) (type : ResourceType) (block : Option TsrmBlock) : Tsrm :=
  match type.ctor with
  | some f => { s with calls := s.calls ++ [.ctor f block] }
  | none => s

def callDtor (s : Tsrm) (type : ResourceType) (block : Option TsrmBlock) : Tsrm :=
  match type.dtor with
  | some f => { s with calls := s.calls ++ [.dtor f block] }
  | none => s

/-- The next block of an entry is made, and constructed if `construct` holds. -/
def addBlock (p : TlsEntryPtr) (construct : Bool) (s : Tsrm) (type : ResourceType) : Tsrm :=
  let block := s.blockMallocs.length
  let s := { s with blockMallocs := s.blockMallocs ++ [type.size] }
  let s := s.setStorage p ((s.entries p).storage ++ [some block])
  if construct then s.callCtor type (some block) else s

/-- A round of the loop of `allocate_new_resource`. -/
def addSlot (p : TlsEntryPtr) (s : Tsrm) (type : ResourceType) : Tsrm :=
  if type.done then s.setStorage p ((s.entries p).storage ++ [none]) else addBlock p true s type

/-- `allocate_new_resource`, with the entry it makes. -/
def allocateNewResource (s : Tsrm) (threadId : ThreadT) : TlsEntryPtr × Tsrm :=
  let p := s.entryMallocs
  let s := { s with
    entryMallocs := s.entryMallocs + 1
    entries := Function.update s.entries p ⟨[], threadId⟩
    tls := some p }
  (p, (s.resourceTypes.take s.idCount).foldl (addSlot p) s)

/-- `tsrm_new_interpreter_context`: the new entry, with the old one active again. -/
def tsrmNewInterpreterContext (s : Tsrm) : Option TlsEntryPtr × Tsrm :=
  let threadId := s.tsrmThreadId
  let current := s.tls
  (s.allocateNewResource threadId).2.tsrmSetInterpreterContext current

/-- `create_tsrm_tls_entry` -/
def createTsrmTlsEntry (s : Tsrm) (idx : Nat) : Option Tsrm :=
  if idx < s.tlsTable.length then
    let (newCtx, s) := (s.setForceThreadId idx).tsrmNewInterpreterContext
    some { s with tlsTable := s.tlsTable.set idx newCtx.toList }
  else none

/-! ## `ts_resource_ex` -/

/-- What a resource id stands for: the array of blocks itself, or a block in it. -/
inductive Resource where
  | storage (p : TlsEntryPtr)
  | block (block : Option TsrmBlock)
  deriving DecidableEq, Repr

/-- `TSRM_SAFE_RETURN_RSRC` -/
def safeReturnRsrc (s : Tsrm) (p : TlsEntryPtr) (id : Nat) : Option Resource :=
  if id = 0 then some (.storage p)
  else (index (s.entries p).storage (unshuffleRsrcId id)).map .block

def findEntry (s : Tsrm) (threadId : ThreadT) : Option TlsEntryPtr :=
  ((s.tlsTable[threadHashOf threadId s.tlsTable.length]?).getD []).find? fun p =>
    (s.entries p).threadId = threadId

/-- `ts_resource_ex` for a given thread. One that has no entry gets one, at the end of its chain. -/
def tsResourceOf (s : Tsrm) (id : Nat) (threadId : ThreadT) : Option (Resource × Tsrm) :=
  match s.findEntry threadId with
  | some p => (s.safeReturnRsrc p id).map fun r => (r, s)
  | none =>
    let hash := threadHashOf threadId s.tlsTable.length
    if hash < s.tlsTable.length then
      let (p, s) := s.allocateNewResource threadId
      let s := { s with tlsTable := s.tlsTable.modify hash (· ++ [p]) }
      (s.safeReturnRsrc p id).map fun r => (r, s)
    else none

/-- `ts_resource_ex(id, NULL)` -/
def tsResource (s : Tsrm) (id : Nat) : Option (Resource × Tsrm) :=
  match s.tls with
  | some p => (s.safeReturnRsrc p id).map fun r => (r, s)
  | none => s.tsResourceOf id s.tsrmThreadId

/-! ## `ts_allocate_id` -/

/-- `rsrc_id_set_isnew` -/
def rsrcIdSetIsnew (s : Tsrm) (rsrcId : RsrcIdPtr) : Bool × Tsrm :=
  let hash := threadHashOf rsrcId rsrcIdMapSize
  if rsrcId ∈ s.rsrcIdMap hash then (false, s)
  else
    (true, { s with
      rsrcIdMap := Function.update s.rsrcIdMap hash (s.rsrcIdMap hash ++ [rsrcId]) })

/-- The branch for an address that is known: the block of the current coroutine is constructed. -/
def constructCurrent (s : Tsrm) (rsrcId : RsrcIdPtr) : Option (Nat × Tsrm) := do
  let chain ← index s.tlsTable s.forceThreadId
  let type ← index s.resourceTypes (unshuffleRsrcId (s.rsrcIds rsrcId))
  if type.ctor.isSome then
    let p ← chain.head?
    let block ← index (s.entries p).storage (unshuffleRsrcId (s.rsrcIds rsrcId))
    return (s.rsrcIds rsrcId, s.callCtor type block)
  else return (s.rsrcIds rsrcId, s)

def storeType (types : List ResourceType) (idCount : Nat) (type : ResourceType) :
    List ResourceType :=
  (types ++ List.replicate (idCount - types.length) type).set (idCount - 1) type

/-- The blocks that the entry `p` of the slot `i` lacks. -/
def enlargeEntry (i : Nat) (s : Tsrm) (p : TlsEntryPtr) : Tsrm :=
  ((s.resourceTypes.take s.idCount).drop (s.entries p).storage.length).foldl
    (addBlock p (s.forceThreadId = -1 || s.forceThreadId = i)) s

def enlarge (s : Tsrm) : Tsrm :=
  s.tlsTable.zipIdx.foldl (fun s (chain, i) => chain.foldl (enlargeEntry i) s) s

/-- The branch for an address that is new. -/
def allocateForAll (s : Tsrm) (rsrcId : RsrcIdPtr) (size : Nat) (ctor dtor : Option ResourceFn) :
    Nat × Tsrm :=
  let id := s.idCount + 1
  let s := { s with
    idCount := s.idCount + 1
    rsrcIds := Function.update s.rsrcIds rsrcId id
    resourceTypes := storeType s.resourceTypes (s.idCount + 1) ⟨size, ctor, dtor, false⟩ }
  (id, s.enlarge)

/-- `ts_allocate_id` -/
def tsAllocateId (s : Tsrm) (rsrcId : RsrcIdPtr) (size : Nat) (ctor dtor : Option ResourceFn) :
    Option (Nat × Tsrm) :=
  match s.rsrcIdSetIsnew rsrcId with
  | (false, s) => s.constructCurrent rsrcId
  | (true, s) => some (s.allocateForAll rsrcId size ctor dtor)

/-! ## `ts_free_id` -/

/-- A block of the entry `p` is destroyed and freed. -/
def freeBlock (j : Nat) (type : ResourceType) (s : Tsrm) (p : TlsEntryPtr) : Tsrm :=
  match (s.entries p).storage[j]? with
  | some (some block) =>
      let s := s.callDtor type (some block)
      { s with blockFrees := block :: s.blockFrees }.setStorage p
        ((s.entries p).storage.set j none)
  | _ => s

/-- `ts_free_id` -/
def tsFreeId (s : Tsrm) (id : Nat) : Option Tsrm := do
  let type ← index s.resourceTypes (unshuffleRsrcId id)
  let j := id - 1
  let s := s.tlsTable.flatten.foldl (freeBlock j type) s
  return { s with resourceTypes := s.resourceTypes.modify j fun type => { type with done := true } }

end Tsrm

inductive TsrmCall where
  | setForceThreadId (threadId : Int)
  -- `tsrm_set_interpreter_context(get_tsrm_tls_entry(idx))`
  | setInterpreterContext (idx : Nat)
  | createTsrmTlsEntry (idx : Nat)
  | tsResource (id : Nat)
  | tsAllocateId (rsrcId : RsrcIdPtr) (size : Nat) (ctor dtor : Option ResourceFn)
  | tsFreeId (id : Nat)
  deriving DecidableEq, Repr

/-- The manager as an event system. A call that goes beyond an array has no result. -/
def tsrmSystem : EventSystem Tsrm TsrmCall where
  step s
    | .setForceThreadId threadId => some (s.setForceThreadId threadId)
    | .setInterpreterContext idx =>
        some (s.tsrmSetInterpreterContext (s.getTsrmTlsEntry idx)).2
    | .createTsrmTlsEntry idx => s.createTsrmTlsEntry idx
    | .tsResource id => (s.tsResource id).map (·.2)
    | .tsAllocateId rsrcId size ctor dtor =>
        (s.tsAllocateId rsrcId size ctor dtor).map (·.2)
    | .tsFreeId id => s.tsFreeId id

end Phpce
