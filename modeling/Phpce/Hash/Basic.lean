import Mathlib.Data.List.Range
import Mathlib.Data.Nat.Log
import Phpce.Lib.Chain

/-!
# HashTable

The insertion-ordered hash table of `zend_hash.c` as a 64-bit build compiles it, without `INDIRECT`
slots. `arData` is the memory of the buckets: the slots below `nNumUsed` are in use, a slot without
a value (`IS_UNDEF`) is a hole. A *hashed* table threads the buckets with one `nIndex` through
`Z_NEXT` (the `u2.next` of the values, which `ZVAL_COPY_VALUE` leaves alone), with the newest at
`HT_HASH`. A *packed* one finds the bucket of the key `h` in slot `h`.

The code's own loops over chains have no bound; here they stop after as many steps as a chain has
buckets at most, with `HashStop.endless` when there are more. What a reallocation does not copy is
never read, so the slots keep what they held.
-/

namespace Phpce

open Function (update)

/-- The bytes of a `zend_string`. -/
abbrev ZendString := List UInt8

/-- `zend_inline_hash_func`; the bytes are `char`s, which are signed. -/
def zendInlineHashFunc (str : ZendString) : UInt64 :=
  let step (hash : UInt64) (c : UInt8) := (hash <<< 5) + hash + c.toInt8.toInt64.toUInt64
  str.foldl step 5381 ||| 0x8000000000000000

-- `(uint32_t) -1`
def htInvalidIdx : Nat := 0xffffffff

-- `(uint32_t) -2`
def htMinMask : UInt32 := 0xfffffffe

def htMinSize : Nat := 8

def htMaxSize : Nat := 0x80000000

def zendLongMax : UInt64 := 0x7fffffffffffffff

/-- Why an operation does not return. -/
inductive HashStop where
  -- `E_ERROR`, "Possible integer overflow in memory allocation"
  | possibleIntegerOverflow
  -- A chain of buckets has no end
  | endless
  deriving DecidableEq, Repr

structure Bucket (V : Type*) where
  h : UInt64
  key : Option ZendString
  -- `none` is `IS_UNDEF`
  val : Option V

def Bucket.hashKey {V : Type*} (p : Bucket V) : UInt64 × Option ZendString := (p.h, p.key)

structure HashTableIterator where
  ht : Nat
  pos : Nat
  deriving DecidableEq, Repr

/-- A `HashTable` at the address `self`, together with the iterators in use. -/
structure HashTable (V : Type*) where
  self : Nat
  -- `HASH_FLAG_INITIALIZED`, `HASH_FLAG_PACKED`
  initialized : Bool
  packed : Bool
  nIteratorsCount : Nat
  nTableMask : UInt32
  arData : Nat → Bucket V
  zNext : Nat → Nat
  -- `HT_HASH`
  hash : UInt32 → Nat
  nNumUsed : Nat
  nNumOfElements : Nat
  nTableSize : Nat
  nInternalPointer : Nat
  nNextFreeElement : Int64
  -- `EG(ht_iterators)`, up to `EG(ht_iterators_used)`
  htIterators : List HashTableIterator

/-- The bits of `flag`; `HASH_UPDATE` is tested nowhere. -/
structure HashFlag where
  add : Bool := false
  addNew : Bool := false
  addNext : Bool := false

def HASH_UPDATE : HashFlag := {}

def HASH_ADD : HashFlag := { add := true }

def HASH_ADD_NEW : HashFlag := { addNew := true }

def HASH_ADD_NEXT : HashFlag := { addNext := true }

/-- `|` of two flags. -/
def HashFlag.or (f g : HashFlag) : HashFlag where
  add := f.add || g.add
  addNew := f.addNew || g.addNew
  addNext := f.addNext || g.addNext

namespace HashTable

variable {V : Type*}

/-- The slot `i` is in use and no hole. -/
def isLive (ht : HashTable V) (i : Nat) : Bool := (ht.arData i).val.isSome

/-- `h | ht->nTableMask` -/
def nIndex (ht : HashTable V) (h : UInt64) : UInt32 := h.toUInt32 ||| ht.nTableMask

/-- `HT_HASH_RESET`, `HT_HASH_RESET_PACKED` -/
def hashReset (ht : HashTable V) : HashTable V := { ht with hash := fun _ => htInvalidIdx }

def isWithoutHoles (ht : HashTable V) : Bool := ht.nNumUsed == ht.nNumOfElements

/-- The stores that put the bucket in slot `j` at the front of its chain. -/
def link (ht : HashTable V) (j : Nat) : HashTable V :=
  let nIndex := ht.nIndex (ht.arData j).h
  { ht with
    zNext := update ht.zNext j (ht.hash nIndex)
    hash := update ht.hash nIndex j }

/-! ## Iterators -/

def zendHashIteratorsLowerPos (ht : HashTable V) (start : Nat) : Nat :=
  ht.htIterators.foldl
    (fun res iter =>
      if iter.ht = ht.self ∧ start ≤ iter.pos ∧ iter.pos < res then iter.pos else res)
    htInvalidIdx

/-- `zend_hash_iterators_update` and `_zend_hash_iterators_update` -/
def zendHashIteratorsUpdate (ht : HashTable V) (fromPos toPos : Nat) : HashTable V :=
  if ht.nIteratorsCount = 0 then ht
  else { ht with
    htIterators := ht.htIterators.map fun iter =>
      if iter.ht = ht.self ∧ iter.pos = fromPos then { iter with pos := toPos } else iter }

/-! ## Sizes and initialisation -/

/-- The next power of two: `__builtin_clz(n) ^ 0x1f` is the number of the highest bit of `n`. -/
def zendHashCheckSize (nSize : Nat) : Except HashStop Nat :=
  if nSize < htMinSize then .ok (2 <<< Nat.log2 (htMinSize - 1))
  else if htMaxSize ≤ nSize then .error .possibleIntegerOverflow
  else .ok (2 <<< Nat.log2 (nSize - 1))

/-- `_zend_hash_init` on memory that holds `arData` and `zNext`. -/
def zendHashInit (self : Nat) (arData : Nat → Bucket V) (zNext : Nat → Nat)
    (htIterators : List HashTableIterator) (nSize : Nat) : Except HashStop (HashTable V) :=
  (zendHashCheckSize nSize).map fun nTableSize =>
    { self, initialized := false, packed := false, nIteratorsCount := 0, nTableMask := htMinMask,
      arData, zNext, hash := fun _ => htInvalidIdx, nNumUsed := 0, nNumOfElements := 0, nTableSize,
      nInternalPointer := htInvalidIdx, nNextFreeElement := 0, htIterators }

/-- `-ht->nTableSize` -/
def tableMask (nTableSize : Nat) : UInt32 := 0 - UInt32.ofNat nTableSize

def zendHashRealInitEx (ht : HashTable V) (packed : Bool) : HashTable V :=
  if packed then { ht.hashReset with initialized := true, packed := true }
  else { ht.hashReset with nTableMask := tableMask ht.nTableSize, initialized := true }

/-! ## Rehashing -/

/-- The bucket in slot `i` goes to slot `j`, and `nInternalPointer` with it. -/
def moveBucket (ht : HashTable V) (i j : Nat) : HashTable V :=
  { link { ht with arData := update ht.arData j (ht.arData i) } j with
    nInternalPointer := if ht.nInternalPointer = i then j else ht.nInternalPointer }

/-- The loop of `zend_hash_rehash` behind the first hole of a table without iterators, over `n`
slots from `i`: the buckets go to the slots from `j`. -/
def compact (ht : HashTable V) (i j : Nat) : (n : Nat) → HashTable V × Nat
  | 0 => (ht, j)
  | n + 1 =>
      if ht.isLive i then compact (ht.moveBucket i j) (i + 1) (j + 1) n
      else compact ht (i + 1) j n

/-- The same loop for a table with iterators; `iterPos` is the position that the next iterators to
be moved stand on. -/
def compactIter (ht : HashTable V) (i j iterPos : Nat) : (n : Nat) → HashTable V × Nat
  | 0 => (ht, j)
  | n + 1 =>
      if ht.isLive i then
        let ht := ht.moveBucket i j
        if i = iterPos then
          let ht := ht.zendHashIteratorsUpdate i j
          compactIter ht (i + 1) (j + 1) (ht.zendHashIteratorsLowerPos (iterPos + 1)) n
        else compactIter ht (i + 1) (j + 1) iterPos n
      else compactIter ht (i + 1) j iterPos n

/-- What happens at the first hole, in slot `i` with `n` slots behind it. -/
def closeHoles (ht : HashTable V) (i n : Nat) : HashTable V :=
  let (ht, j) :=
    if ht.nIteratorsCount = 0 then ht.compact (i + 1) i n
    else ht.compactIter (i + 1) i (ht.zendHashIteratorsLowerPos 0) n
  { ht with nNumUsed := j }

/-- The loop over the buckets of a table without holes. -/
def linkAll (ht : HashTable V) (i : Nat) : (n : Nat) → HashTable V
  | 0 => ht
  | n + 1 => linkAll (ht.link i) (i + 1) n

/-- The loop over the buckets of a table with holes. -/
def linkUpToHole (ht : HashTable V) (i : Nat) : (n : Nat) → HashTable V
  | 0 => ht
  | n + 1 => if ht.isLive i then linkUpToHole (ht.link i) (i + 1) n else ht.closeHoles i n

def zendHashRehash (ht : HashTable V) : HashTable V :=
  if ht.nNumOfElements = 0 then
    if ht.initialized then { ht.hashReset with nNumUsed := 0 } else ht
  else if ht.isWithoutHoles then ht.hashReset.linkAll 0 ht.nNumUsed
  else ht.hashReset.linkUpToHole 0 ht.nNumUsed

def zendHashDoResize (ht : HashTable V) : Except HashStop (HashTable V) :=
  -- additional term is there to amortize the cost of compaction
  if ht.nNumUsed > ht.nNumOfElements + (ht.nNumOfElements >>> 5) then .ok ht.zendHashRehash
  else if ht.nTableSize < htMaxSize then
    let nSize := ht.nTableSize + ht.nTableSize
    .ok (zendHashRehash { ht with nTableSize := nSize, nTableMask := tableMask nSize })
  else .error .possibleIntegerOverflow

/-- `ZEND_HASH_IF_FULL_DO_RESIZE` -/
def ifFullDoResize (ht : HashTable V) : Except HashStop (HashTable V) :=
  if ht.nNumUsed ≥ ht.nTableSize then ht.zendHashDoResize else .ok ht

def zendHashPackedGrow (ht : HashTable V) : Except HashStop (HashTable V) :=
  if ht.nTableSize ≥ htMaxSize then .error .possibleIntegerOverflow
  else .ok { ht with nTableSize := ht.nTableSize + ht.nTableSize }

def zendHashPackedToHash (ht : HashTable V) : HashTable V :=
  zendHashRehash { ht with packed := false, nTableMask := tableMask ht.nTableSize }

def zendHashToPacked (ht : HashTable V) : HashTable V :=
  { ht.hashReset with packed := true, nTableMask := htMinMask }

/-- `zend_hash_extend`; its assertions say that `packed` is what the table is. -/
def zendHashExtend (ht : HashTable V) (nSize : Nat) (packed : Bool) :
    Except HashStop (HashTable V) :=
  if nSize = 0 then .ok ht
  else if !ht.initialized then
    if nSize > ht.nTableSize then
      (zendHashCheckSize nSize).map fun nTableSize =>
        zendHashRealInitEx { ht with nTableSize } packed
    else .ok (ht.zendHashRealInitEx packed)
  else if nSize > ht.nTableSize then
    (zendHashCheckSize nSize).map fun nTableSize =>
      if packed then { ht with nTableSize }
      else zendHashRehash { ht with nTableSize, nTableMask := tableMask nTableSize }
  else .ok ht

/-! ## Lookup -/

/-- The loop over the chain of `h` up to a bucket with the property `p`: its slot and the slot
before it in the chain. -/
def searchChain (ht : HashTable V) (h : UInt64) (p : Bucket V → Bool) :
    Except HashStop (Option (Option Nat × Nat)) :=
  match Chain.search ht.zNext htInvalidIdx (fun i => p (ht.arData i)) (ht.nTableSize + 1) none
      (ht.hash (ht.nIndex h)) with
  | none => .error .endless
  | some found => .ok found

/-- `p->h == h && p->key && ZSTR_LEN(p->key) == ZSTR_LEN(key) && memcmp(..) == 0` -/
def isStr (h : UInt64) (key : ZendString) (p : Bucket V) : Bool := p.h == h && p.key == some key

/-- `p->h == h && !p->key` -/
def isIndex (h : UInt64) (p : Bucket V) : Bool := p.h == h && p.key == none

def zendHashFindBucket (ht : HashTable V) (key : ZendString) : Except HashStop (Option Nat) :=
  let h := zendInlineHashFunc key
  (ht.searchChain h (isStr h key)).map (Option.map Prod.snd)

def zendHashIndexFindBucket (ht : HashTable V) (h : UInt64) : Except HashStop (Option Nat) :=
  (ht.searchChain h (isIndex h)).map (Option.map Prod.snd)

def zendHashFind (ht : HashTable V) (key : ZendString) : Except HashStop (Option V) :=
  (ht.zendHashFindBucket key).map fun p => p.bind fun i => (ht.arData i).val

def zendHashIndexFind (ht : HashTable V) (h : UInt64) : Except HashStop (Option V) :=
  if ht.packed then
    .ok (if h.toNat < ht.nNumUsed then (ht.arData h.toNat).val else none)
  else (ht.zendHashIndexFindBucket h).map fun p => p.bind fun i => (ht.arData i).val

/-! ## Insertion -/

/-- `ZVAL_COPY_VALUE(&p->val, pData)`, after the destructor of the old value. -/
def setVal (ht : HashTable V) (i : Nat) (pData : V) : HashTable V :=
  { ht with arData := update ht.arData i { ht.arData i with val := some pData } }

def noteInternalPointer (ht : HashTable V) (idx : Nat) : HashTable V :=
  if ht.nInternalPointer = htInvalidIdx then { ht with nInternalPointer := idx } else ht

def raiseNextFreeElement (ht : HashTable V) (h : UInt64) : HashTable V :=
  if ht.nNextFreeElement ≤ h.toInt64 then
    { ht with nNextFreeElement := if h < zendLongMax then (h + 1).toInt64 else zendLongMax.toInt64 }
  else ht

/-- The label `add_to_hash` -/
def addToHash (ht : HashTable V) (h : UInt64) (key : Option ZendString) (pData : V) :
    HashTable V :=
  let idx := ht.nNumUsed
  let ht := { ht with nNumUsed := idx + 1, nNumOfElements := ht.nNumOfElements + 1 }
  let ht := (ht.noteInternalPointer idx).zendHashIteratorsUpdate htInvalidIdx idx
  link { ht with arData := update ht.arData idx ⟨h, key, some pData⟩ } idx

/-- `_zend_hash_add_or_update_i`: the bucket whose value it returns, or `NULL`. -/
def zendHashAddOrUpdateI (ht : HashTable V) (key : ZendString) (pData : V) (flag : HashFlag) :
    Except HashStop (Option Nat × HashTable V) :=
  let h := zendInlineHashFunc key
  let insert (ht : HashTable V) := (some ht.nNumUsed, ht.addToHash h (some key) pData)
  if !ht.initialized then .ok (insert (ht.zendHashRealInitEx false))
  else if ht.packed then ht.zendHashPackedToHash.ifFullDoResize.map insert
  else if !flag.addNew then
    match ht.zendHashFindBucket key with
    | .error stop => .error stop
    | .ok (some p) => .ok (if flag.add then (none, ht) else (some p, ht.setVal p pData))
    | .ok none => ht.ifFullDoResize.map insert
  else ht.ifFullDoResize.map insert

/-- The label `add_to_packed` -/
def addToPacked (ht : HashTable V) (h : UInt64) (pData : V) (flag : HashFlag) : HashTable V :=
  let p := h.toNat
  let ht :=
    if flag.addNew && flag.addNext then { ht with nNumUsed := p + 1 }
    else if ht.nNumUsed ≤ p then
      { ht with
        arData := fun q =>
          if ht.nNumUsed ≤ q ∧ q < p then { ht.arData q with val := none } else ht.arData q
        nNumUsed := p + 1 }
    else ht
  let ht := { ht with nNumOfElements := ht.nNumOfElements + 1 }
  let ht := (ht.noteInternalPointer p).zendHashIteratorsUpdate htInvalidIdx p
  let ht := ht.raiseNextFreeElement h
  { ht with arData := update ht.arData p ⟨h, none, some pData⟩ }

/-- `_zend_hash_index_add_or_update_i`: the bucket whose value it returns, or `NULL`. -/
def zendHashIndexAddOrUpdateI (ht : HashTable V) (h : UInt64) (pData : V) (flag : HashFlag) :
    Except HashStop (Option Nat × HashTable V) :=
  let insert (ht : HashTable V) :=
    (some ht.nNumUsed, (ht.raiseNextFreeElement h).addToHash h none pData)
  let insertPacked (ht : HashTable V) := (some h.toNat, ht.addToPacked h pData flag)
  if !ht.initialized then
    let ht := ht.zendHashRealInitEx (h.toNat < ht.nTableSize)
    .ok (if h.toNat < ht.nTableSize then insertPacked ht else insert ht)
  else if ht.packed then
    if h.toNat < ht.nNumUsed then
      if ht.isLive h.toNat then
        .ok (if flag.add then (none, ht)
          else (some h.toNat, (ht.setVal h.toNat pData).raiseNextFreeElement h))
      -- we have to keep the order :(
      else ht.zendHashPackedToHash.ifFullDoResize.map insert
    else if h.toNat < ht.nTableSize then .ok (insertPacked ht)
    else if h.toNat >>> 1 < ht.nTableSize ∧ ht.nTableSize >>> 1 < ht.nNumOfElements then
      ht.zendHashPackedGrow.map insertPacked
    else ht.zendHashPackedToHash.ifFullDoResize.map insert
  else if !flag.addNew then
    match ht.zendHashIndexFindBucket h with
    | .error stop => .error stop
    | .ok (some p) =>
        .ok (if flag.add then (none, ht)
          else (some p, (ht.setVal p pData).raiseNextFreeElement h))
    | .ok none => ht.ifFullDoResize.map insert
  else ht.ifFullDoResize.map insert

def zendHashAdd (ht : HashTable V) (key : ZendString) (pData : V) :
    Except HashStop (Option Nat × HashTable V) :=
  ht.zendHashAddOrUpdateI key pData HASH_ADD

def zendHashUpdate (ht : HashTable V) (key : ZendString) (pData : V) :
    Except HashStop (Option Nat × HashTable V) :=
  ht.zendHashAddOrUpdateI key pData HASH_UPDATE

def zendHashAddNew (ht : HashTable V) (key : ZendString) (pData : V) :
    Except HashStop (Option Nat × HashTable V) :=
  ht.zendHashAddOrUpdateI key pData HASH_ADD_NEW

def zendHashIndexAdd (ht : HashTable V) (h : UInt64) (pData : V) :
    Except HashStop (Option Nat × HashTable V) :=
  ht.zendHashIndexAddOrUpdateI h pData HASH_ADD

def zendHashIndexAddNew (ht : HashTable V) (h : UInt64) (pData : V) :
    Except HashStop (Option Nat × HashTable V) :=
  ht.zendHashIndexAddOrUpdateI h pData (HASH_ADD.or HASH_ADD_NEW)

def zendHashIndexUpdate (ht : HashTable V) (h : UInt64) (pData : V) :
    Except HashStop (Option Nat × HashTable V) :=
  ht.zendHashIndexAddOrUpdateI h pData HASH_UPDATE

def zendHashNextIndexInsert (ht : HashTable V) (pData : V) :
    Except HashStop (Option Nat × HashTable V) :=
  ht.zendHashIndexAddOrUpdateI ht.nNextFreeElement.toUInt64 pData (HASH_ADD.or HASH_ADD_NEXT)

/-! ## Deletion -/

/-- `do { nNumUsed--; } while (nNumUsed > 0 && Z_TYPE(arData[nNumUsed-1].val) == IS_UNDEF)`, from
the second round on. -/
def trimUsed (ht : HashTable V) : Nat → Nat
  | 0 => 0
  | n + 1 => if ht.isLive n then n + 1 else ht.trimUsed n

/-- The first slot from `i` that is no hole, among `n` slots. -/
def nextLive (ht : HashTable V) (i : Nat) : (n : Nat) → Nat
  | 0 => htInvalidIdx
  | n + 1 => if ht.isLive i then i else ht.nextLive (i + 1) n

def zendHashDelElEx (ht : HashTable V) (idx : Nat) (prev : Option Nat) : HashTable V :=
  let h := (ht.arData idx).h
  let ht :=
    if ht.packed then ht
    else match prev with
      | some prev => { ht with zNext := update ht.zNext prev (ht.zNext idx) }
      | none => { ht with hash := update ht.hash (ht.nIndex h) (ht.zNext idx) }
  let ht :=
    if ht.nNumUsed - 1 = idx then { ht with nNumUsed := ht.trimUsed (ht.nNumUsed - 1) } else ht
  let ht := { ht with nNumOfElements := ht.nNumOfElements - 1 }
  let ht :=
    if ht.nInternalPointer = idx ∨ ht.nIteratorsCount ≠ 0 then
      let newIdx := ht.nextLive (idx + 1) (ht.nNumUsed - (idx + 1))
      let ht :=
        if ht.nInternalPointer = idx then { ht with nInternalPointer := newIdx } else ht
      ht.zendHashIteratorsUpdate idx newIdx
    else ht
  { ht with arData := update ht.arData idx { ht.arData idx with val := none } }

/-- `zend_hash_del`; the result is whether it returns `SUCCESS`. -/
def zendHashDel (ht : HashTable V) (key : ZendString) : Except HashStop (Bool × HashTable V) :=
  let h := zendInlineHashFunc key
  (ht.searchChain h (isStr h key)).map fun
    | some (prev, idx) => (true, ht.zendHashDelElEx idx prev)
    | none => (false, ht)

def zendHashIndexDel (ht : HashTable V) (h : UInt64) : Except HashStop (Bool × HashTable V) :=
  if ht.packed then
    .ok (if h.toNat < ht.nNumUsed ∧ ht.isLive h.toNat then
        (true, ht.zendHashDelElEx h.toNat none)
      else (false, ht))
  else
    (ht.searchChain h (isIndex h)).map fun
      | some (prev, idx) => (true, ht.zendHashDelElEx idx prev)
      | none => (false, ht)

end HashTable

end Phpce
