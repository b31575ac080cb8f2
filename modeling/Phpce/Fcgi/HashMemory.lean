import Mathlib.Algebra.GroupWithZero.Nat
import Phpce.Fcgi.Env
import Phpce.Lib.Arena
import Phpce.Lib.Chain

/-!
# `fcgi_hash` in memory

The buckets of `fcgi_hash` in their blocks, on the chain of their index and on the list of all, and
the strings in their segments. `Env` has the list of buckets only.

* **`Shows.set`**, **`Shows.del`**, **`Shows.get`**, **`Shows.apply`**, **`Shows.clean`** — the
  functions follow their chains to the end, and do to the list of buckets what those of `Env` do.
* **`Shows.set`** also: the strings stored before are where they were.
-/

namespace Phpce

namespace Fcgi

open Bytes Buffer List Option
open Function (update update_idem update_of_ne update_self)

def fcgiHashTableSize : Nat := 128

def fcgiHashSegSize : Nat := 4096

abbrev CharPtr := Nat × Nat

/-- `fcgi_hash_bucket`. A bucket is pointed to by its address; 0 is `NULL`. -/
structure HashBucket where
  hashValue : UInt32
  varLen : Nat
  var : CharPtr
  valLen : Nat
  val : Option CharPtr
  next : Nat
  listNext : Nat
  deriving DecidableEq, Repr

/-- `fcgi_hash_buckets`, with the number of the `malloc` it is from. -/
structure BucketBlock where
  number : Nat
  idx : Nat
  deriving DecidableEq, Repr

/-- The block's `data`. Blocks are apart. -/
def BucketBlock.data (b : BucketBlock) : Nat := fcgiHashTableSize * b.number + 1

/-- `fcgi_hash`: `buckets` and the blocks behind it, `data` and the segments behind it, and the
memory of the buckets. -/
structure FcgiHash where
  hashTable : Nat → Nat
  list : Nat
  buckets : BucketBlock
  older : List BucketBlock
  data : Arena UInt8
  bucket : Nat → HashBucket
  mallocs : Nat

/-- `hash_value & FCGI_HASH_TABLE_MASK` -/
def hashIndex (hash : UInt32) : Nat := (hash &&& 127).toNat

/-- A live bucket with the index `i`. -/
def Bucket.onChain (i : Nat) (b : Bucket) : Bool := b.val.isSome && hashIndex b.hashValue == i

theorem Bucket.Matches.onChain {b : Bucket} {hash : UInt32} {var : Bytes}
    (hb : b.Matches hash var) : b.onChain (hashIndex hash) = true := by
  simp [Bucket.onChain, hb.1, hb.2.2]

namespace FcgiHash

def blocks (h : FcgiHash) : List BucketBlock := h.buckets :: h.older

def used (h : FcgiHash) : Nat := (h.blocks.map BucketBlock.idx).sum

def modify (h : FcgiHash) (p : Nat) (f : HashBucket → HashBucket) : FcgiHash :=
  { h with bucket := update h.bucket p (f (h.bucket p)) }

/-- `fcgi_hash_init`, with what `malloc` finds in its memory. -/
def fcgiHashInit (bucket : Nat → HashBucket) (chars : Nat → Nat → UInt8) : FcgiHash where
  hashTable _ := 0
  list := 0
  buckets := ⟨0, 0⟩
  older := []
  data := ⟨⟨1, 0, fcgiHashSegSize⟩, [], chars⟩
  bucket := bucket
  mallocs := 2

/-- `fcgi_hash_clean`: of the blocks and the segments the first ones are kept. -/
def fcgiHashClean (h : FcgiHash) : FcgiHash :=
  { h with
    hashTable := fun _ => 0
    list := 0
    buckets := { h.older.getLastD h.buckets with idx := 0 }
    older := []
    data := { h.data with seg := { h.data.older.getLastD h.data.seg with pos := 0 }, older := [] } }

/-- The segment that `fcgi_hash_strndup` allocates. `str_len + 1` has 32 bits. -/
def newSegment (h : FcgiHash) (strLen : Nat) : FcgiHash :=
  let size := (strLen + 1) % 0x100000000
  { h with
    data := h.data.push h.mallocs (if fcgiHashSegSize < size then size else fcgiHashSegSize)
    mallocs := h.mallocs + 1 }

def roomForString (h : FcgiHash) (strLen : Nat) : FcgiHash :=
  if h.data.seg.size ≤ h.data.seg.pos + strLen + 1 then h.newSegment strLen else h

/-- `fcgi_hash_strndup` -/
def fcgiHashStrndup (h : FcgiHash) (str : Bytes) : FcgiHash × CharPtr :=
  let h := h.roomForString str.length
  let (data, ret) := h.data.put (str ++ [0])
  ({ h with data := data }, ret)

/-- `p->hash_value == hash_value && p->var_len == var_len && memcmp(p->var, var, var_len) == 0` -/
def isVar (h : FcgiHash) (hash : UInt32) (var : Bytes) (p : Nat) : Bool :=
  (h.bucket p).hashValue == hash && (h.bucket p).varLen == var.length &&
    h.data.read (h.bucket p).var var.length == var

def next (h : FcgiHash) (p : Nat) : Nat := (h.bucket p).next

def listNext (h : FcgiHash) (p : Nat) : Nat := (h.bucket p).listNext

/-- The loop over a chain up to the bucket of `var`, with the one before it. `none`: the chain has
no end among the buckets in use. -/
def searchChain (h : FcgiHash) (hash : UInt32) (var : Bytes) :
    Option (Option (Option Nat × Nat)) :=
  Chain.search h.next 0 (h.isVar hash var) (h.used + 1) none (h.hashTable (hashIndex hash))

/-- Assign `val_len` and `val` of a bucket. -/
def setVal (h : FcgiHash) (p : Nat) (val : Bytes) : FcgiHash × CharPtr :=
  let h := h.modify p fun b => { b with valLen := val.length }
  let (h, ret) := h.fcgiHashStrndup val
  (h.modify p fun b => { b with val := some ret }, ret)

def roomForBucket (h : FcgiHash) : FcgiHash :=
  if fcgiHashTableSize ≤ h.buckets.idx then
    { h with buckets := ⟨h.mallocs, 0⟩, older := h.buckets :: h.older, mallocs := h.mallocs + 1 }
  else h

def linkBucket (h : FcgiHash) (hash : UInt32) (varLen : Nat) : FcgiHash × Nat :=
  let p := h.buckets.data + h.buckets.idx
  let idx := hashIndex hash
  let b := { h.bucket p with
    next := h.hashTable idx, listNext := h.list, hashValue := hash, varLen := varLen }
  ({ h with
      buckets := { h.buckets with idx := h.buckets.idx + 1 }
      bucket := update h.bucket p b
      hashTable := update h.hashTable idx p
      list := p }, p)

/-- Assign `var` of a bucket. -/
def setVar (h : FcgiHash) (p : Nat) (var : Bytes) : FcgiHash :=
  let (h, ret) := h.fcgiHashStrndup var
  h.modify p fun b => { b with var := ret }

/-- `fcgi_hash_set`, and the value's address that it returns -/
def fcgiHashSet (h : FcgiHash) (hash : UInt32) (var val : Bytes) : Option (FcgiHash × CharPtr) :=
  match h.searchChain hash var with
  | none => none
  | some (some (_, p)) => some (h.setVal p val)
  | some none =>
    let (h, p) := h.roomForBucket.linkBucket hash var.length
    some ((h.setVar p var).setVal p val)

/-- A bucket loses its value and leaves the chain `i`, where `prev` is before it. -/
def unlinkBucket (h : FcgiHash) (i : Nat) (prev : Option Nat) (p : Nat) : FcgiHash :=
  let h := h.modify p fun b => { b with val := none, valLen := 0 }
  match prev with
  | none => { h with hashTable := update h.hashTable i (h.next p) }
  | some q => h.modify q fun b => { b with next := h.next p }

/-- `fcgi_hash_del` -/
def fcgiHashDel (h : FcgiHash) (hash : UInt32) (var : Bytes) : Option FcgiHash :=
  match h.searchChain hash var with
  | none => none
  | some none => some h
  | some (some (prev, p)) => some (h.unlinkBucket (hashIndex hash) prev p)

/-- `fcgi_hash_get`; `valLen` is `*val_len`, before and after. -/
def fcgiHashGet (h : FcgiHash) (hash : UInt32) (var : Bytes) (valLen : Nat) :
    Option (Option CharPtr × Nat) :=
  match h.searchChain hash var with
  | none => none
  | some none => some (none, valLen)
  | some (some (_, p)) => some ((h.bucket p).val, (h.bucket p).valLen)

/-- What `func` is called with, from a bucket of the list on. -/
def applyLoop (h : FcgiHash) : Nat → Nat → Option (List (Bytes × Bytes))
  | 0, _ => none
  | fuel + 1, p =>
    if p = 0 then some []
    else
      let b := h.bucket p
      let rest := h.applyLoop fuel b.listNext
      match b.val with
      | some val => rest.map fun l => (h.data.read b.var b.varLen, h.data.read val b.valLen) :: l
      | none => rest

/-- `fcgi_hash_apply` -/
def fcgiHashApply (h : FcgiHash) : Option (List (Bytes × Bytes)) := h.applyLoop (h.used + 1) h.list

/-! ## The list of buckets -/

/-- The bucket at `p` is `b`, and its strings are where it says. -/
structure Holds (h : FcgiHash) (p : Nat) (b : Bucket) : Prop where
  hashValue : (h.bucket p).hashValue = b.hashValue
  varLen : (h.bucket p).varLen = b.var.length
  var : h.data.Holds (h.bucket p).var (b.var ++ [0])
  isSome : (h.bucket p).val.isSome = b.val.isSome
  val : ∀ q v, (h.bucket p).val = some q → b.val = some v →
    (h.bucket p).valLen = v.length ∧ h.data.Holds q (v ++ [0])

/-- The addresses of the chain with the index `i`. -/
def chainOf (i : Nat) (es : List (Nat × Bucket)) : List Nat :=
  (es.filter fun e => e.2.onChain i).map Prod.fst

structure Laid (h : FcgiHash) : Prop where
  inside : h.data.Inside
  separate : h.data.Separate
  segments : ∀ s ∈ h.data.segments, s.addr < h.mallocs
  room : ∀ b ∈ h.blocks, b.idx ≤ fcgiHashTableSize
  numbers : (h.blocks.map BucketBlock.number).Nodup
  blocks : ∀ b ∈ h.blocks, b.number < h.mallocs

structure Shows (h : FcgiHash) (es : List (Nat × Bucket)) : Prop extends Laid h where
  list : Chain.IsChain h.listNext 0 h.list (es.map Prod.fst)
  chain : ∀ i, Chain.IsChain h.next 0 (h.hashTable i) (chainOf i es)
  nodup : (es.map Prod.fst).Nodup
  count : es.length = h.used
  within : ∀ e ∈ es, ∃ b ∈ h.blocks, b.data ≤ e.1 ∧ e.1 < b.data + b.idx
  holds : ∀ e ∈ es, h.Holds e.1 e.2

variable {h : FcgiHash} {es es₁ es₂ : List (Nat × Bucket)} {e : Nat × Bucket}
  {hash : UInt32} {var val : Bytes} {p q : Nat} {b : Bucket} {i : Nat}

/-! ### Searching a chain -/

theorem chainOf_append : chainOf i (es₁ ++ es₂) = chainOf i es₁ ++ chainOf i es₂ := by
  rw [chainOf, filter_append, map_append]
  rfl

theorem mem_chainOf : p ∈ chainOf i es ↔ ∃ b, (p, b) ∈ es ∧ b.onChain i = true := by
  simp [chainOf]

theorem chainOf_cons (b : Bucket) : chainOf i ((p, b) :: es) =
    if b.onChain i then p :: chainOf i es else chainOf i es := by
  rw [chainOf, filter_cons]
  split <;> rfl

theorem chainOf_eq_append {as bs : List Nat} (h : chainOf i es = as ++ p :: bs) :
    ∃ es₁ b es₂, es = es₁ ++ (p, b) :: es₂ ∧ b.onChain i = true ∧ chainOf i es₁ = as ∧
      chainOf i es₂ = bs := by
  obtain ⟨l₁, l₂, hfilter, rfl, htail⟩ := map_eq_append_iff.mp h
  obtain ⟨⟨p, b⟩, l₂, rfl, rfl, rfl⟩ := map_eq_cons_iff.mp htail
  obtain ⟨es₁, rest, rfl, hfirst, hrest⟩ := filter_eq_append_iff.mp hfilter
  obtain ⟨es₂, es₃, rfl, hnone, hb, hlast⟩ := filter_eq_cons_iff.mp hrest
  refine ⟨es₁ ++ es₂, b, es₃, by simp, hb, ?_, by rw [chainOf, hlast]⟩
  have hempty : es₂.filter (fun e => e.2.onChain i) = [] :=
    filter_eq_nil_iff.mpr hnone
  rw [chainOf, filter_append, hempty, append_nil, hfirst]

theorem Holds.isVar_iff (hb : h.Holds p b) (hlive : b.val.isSome) :
    h.isVar hash var p = true ↔ b.Matches hash var := by
  rw [isVar, hb.hashValue, hb.varLen]
  simp only [Bool.and_eq_true, beq_iff_eq, Bucket.Matches, hlive, and_true]
  constructor
  · rintro ⟨⟨hhash, hlen⟩, hread⟩
    rw [← hlen, hb.var.read_append] at hread
    exact ⟨hhash, hread⟩
  · rintro ⟨hhash, rfl⟩
    exact ⟨⟨hhash, rfl⟩, hb.var.read_append⟩

structure Found (h : FcgiHash) (hash : UInt32) (var : Bytes) (es : List (Nat × Bucket))
    (p : Nat) (es₁ : List (Nat × Bucket)) (b : Bucket)
    (es₂ : List (Nat × Bucket)) : Prop where
  split : es = es₁ ++ (p, b) :: es₂
  isMatch : b.Matches hash var
  first : ∀ e ∈ es₁, ¬e.2.Matches hash var
  search : h.searchChain hash var = some (some ((chainOf (hashIndex hash) es₁).getLast?, p))

/-- **The loops over a chain** end, at the first bucket of the list that matches. -/
theorem Shows.search (hs : h.Shows es) (hash : UInt32) (var : Bytes) :
    (h.searchChain hash var = some none ∧ ∀ e ∈ es, ¬e.2.Matches hash var) ∨
      ∃ p es₁ b es₂, Found h hash var es p es₁ b es₂ := by
  have hfuel : (chainOf (hashIndex hash) es).length < h.used + 1 := by
    rw [chainOf, length_map, ← hs.count]
    exact Nat.lt_succ_of_le (length_filter_le _ _)
  have hisVar : ∀ e ∈ es, e.2.onChain (hashIndex hash) = true →
      (h.isVar hash var e.1 = true ↔ e.2.Matches hash var) :=
    fun e he hon => (hs.holds e he).isVar_iff (Bool.and_eq_true_iff.mp hon).1
  rcases (hs.chain (hashIndex hash)).search_eq (p := h.isVar hash var) hfuel with
    ⟨hsearch, hnone⟩ | ⟨as, p, bs, hlist, hp, hfirst, hsearch⟩
  · refine .inl ⟨hsearch, fun e he hmatch => ?_⟩
    have hfalse := hnone e.1 (mem_chainOf.mpr ⟨e.2, he, hmatch.onChain⟩)
    rw [(hisVar e he hmatch.onChain).mpr hmatch] at hfalse
    cases hfalse
  · obtain ⟨es₁, b, es₂, rfl, hon, rfl, rfl⟩ := chainOf_eq_append hlist
    refine .inr ⟨p, es₁, b, es₂, rfl, (hisVar (p, b) (by simp) hon).mp hp, fun e he hmatch => ?_,
      hsearch⟩
    have hfalse := hfirst e.1 (mem_chainOf.mpr ⟨e.2, he, hmatch.onChain⟩)
    rw [(hisVar e (by simp [he]) hmatch.onChain).mpr hmatch] at hfalse
    cases hfalse

/-! ### Storing strings -/

/-- `h` with other strings: those there were are where they were. -/
structure Stores (h : FcgiHash) (data : Arena UInt8) (mallocs : Nat) : Prop where
  laid : Laid { h with data := data, mallocs := mallocs }
  keeps : ∀ q d, h.data.Holds q d → data.Holds q d

theorem Laid.newSegment (hl : h.Laid) (strLen : Nat) : (h.newSegment strLen).Laid where
  inside := hl.inside.push
  separate := hl.separate.push fun s hs => Nat.ne_of_lt (hl.segments s hs)
  segments := forall_mem_cons.mpr
    ⟨Nat.lt_succ_self _, fun s hs => Nat.lt_succ_of_lt (hl.segments s hs)⟩
  room := hl.room
  numbers := hl.numbers
  blocks := fun b hb => Nat.lt_succ_of_lt (hl.blocks b hb)

theorem Laid.roomForString (hl : h.Laid) {strLen : Nat} (hlen : strLen + 1 < 0x100000000) :
    ∃ data mallocs, h.roomForString strLen = { h with data := data, mallocs := mallocs } ∧
      h.Stores data mallocs ∧ data.seg.pos + strLen + 1 ≤ data.seg.size := by
  rw [FcgiHash.roomForString]
  split
  · refine ⟨_, _, rfl, ⟨hl.newSegment strLen, fun q d hq => hq.push⟩, ?_⟩
    rw [Nat.mod_eq_of_lt hlen, Arena.push]
    dsimp only
    split <;> omega
  · exact ⟨h.data, h.mallocs, rfl, ⟨hl, fun q d hq => hq⟩, by omega⟩

/-- **The copy** of a string: it is in its segment, and the others are where they were. -/
theorem Laid.fcgiHashStrndup (hl : h.Laid) {str : Bytes} (hlen : str.length + 1 < 0x100000000) :
    ∃ data mallocs q, h.fcgiHashStrndup str = ({ h with data := data, mallocs := mallocs }, q) ∧
      h.Stores data mallocs ∧ data.Holds q (str ++ [0]) := by
  have hnul : (str ++ [0]).length = str.length + 1 := by rw [length_append]; rfl
  obtain ⟨data, mallocs, heq, ⟨hlaid, hkeeps⟩, hroom⟩ := hl.roomForString hlen
  refine ⟨_, mallocs, _, by rw [FcgiHash.fcgiHashStrndup, heq], ⟨?_, fun q d hq => ?_⟩,
    Arena.holds_put data (str ++ [0])⟩
  · refine ⟨hlaid.inside.put ?_, hlaid.separate.put, ?_, hlaid.room, hlaid.numbers, hlaid.blocks⟩
    · rw [hnul]
      exact hroom
    · exact forall_mem_cons.mpr ⟨hlaid.segments data.seg mem_cons_self,
        fun s hs => hlaid.segments s (mem_cons_of_mem _ hs)⟩
  · exact (hkeeps q d hq).put hlaid.separate

/-- Only the bucket `p` is written to, and copies of strings are stored. -/
structure Writes (h h' : FcgiHash) (p : Nat) (c : HashBucket) : Prop where
  laid : h'.Laid
  list : h'.list = h.list
  hashTable : h'.hashTable = h.hashTable
  buckets : h'.buckets = h.buckets
  older : h'.older = h.older
  bucket : h'.bucket = update h.bucket p c
  keeps : ∀ q d, h.data.Holds q d → h'.data.Holds q d

theorem Writes.trans {h' h'' : FcgiHash} {c c' : HashBucket} (hw : h.Writes h' p c)
    (hw' : h'.Writes h'' p c') : h.Writes h'' p c' where
  laid := hw'.laid
  list := hw'.list.trans hw.list
  hashTable := hw'.hashTable.trans hw.hashTable
  buckets := hw'.buckets.trans hw.buckets
  older := hw'.older.trans hw.older
  bucket := by rw [hw'.bucket, hw.bucket, update_idem]
  keeps q d hq := hw'.keeps q d (hw.keeps q d hq)

theorem Laid.modify (hl : h.Laid) (p : Nat) (f : HashBucket → HashBucket) :
    h.Writes (h.modify p f) p (f (h.bucket p)) where
  laid := ⟨hl.inside, hl.separate, hl.segments, hl.room, hl.numbers, hl.blocks⟩
  list := rfl
  hashTable := rfl
  buckets := rfl
  older := rfl
  bucket := rfl
  keeps _ _ hq := hq

theorem Laid.setVar (hl : h.Laid) (p : Nat) (hlen : var.length + 1 < 0x100000000) :
    ∃ q, h.Writes (h.setVar p var) p { h.bucket p with var := q } ∧
      (h.setVar p var).data.Holds q (var ++ [0]) := by
  obtain ⟨data, mallocs, q, heq, ⟨hlaid, hkeeps⟩, hq⟩ := hl.fcgiHashStrndup hlen
  rw [FcgiHash.setVar, heq]
  obtain ⟨h₁, h₂, h₃, h₄, h₅, h₆, -⟩ := hlaid.modify p fun b => { b with var := q }
  exact ⟨q, ⟨h₁, h₂, h₃, h₄, h₅, h₆, hkeeps⟩, hq⟩

theorem Laid.setVal (hl : h.Laid) (p : Nat) (hlen : val.length + 1 < 0x100000000) :
    h.Writes (h.setVal p val).1 p
        { h.bucket p with valLen := val.length, val := some (h.setVal p val).2 } ∧
      (h.setVal p val).1.data.Holds (h.setVal p val).2 (val ++ [0]) := by
  have hfirst := hl.modify p fun b => { b with valLen := val.length }
  obtain ⟨data, mallocs, q, heq, ⟨hlaid, hkeeps⟩, hq⟩ := hfirst.laid.fcgiHashStrndup hlen
  rw [FcgiHash.setVal]
  dsimp only
  rw [heq]
  obtain ⟨h₁, h₂, h₃, h₄, h₅, h₆, -⟩ := hlaid.modify p fun b => { b with val := some q }
  refine ⟨hfirst.trans ⟨h₁, h₂, h₃, h₄, h₅, ?_, hkeeps⟩, hq⟩
  rw [h₆]
  simp [FcgiHash.modify]

/-! ### `fcgi_hash_set` -/

theorem Holds.frame {g : FcgiHash} (hb : h.Holds p b) (hbucket : g.bucket p = h.bucket p)
    (hkeeps : ∀ q d, h.data.Holds q d → g.data.Holds q d) : g.Holds p b := by
  obtain ⟨h₁, h₂, h₃, h₄, h₅⟩ := hb
  rw [← hbucket] at h₁ h₂ h₃ h₄ h₅
  refine ⟨h₁, h₂, hkeeps _ _ h₃, h₄, fun q v hq hv => ?_⟩
  exact ⟨(h₅ q v hq hv).1, hkeeps _ _ (h₅ q v hq hv).2⟩

theorem Writes.other {h' : FcgiHash} {c : HashBucket} (hw : h.Writes h' p c) {r : Nat}
    (hr : r ≠ p) : h'.bucket r = h.bucket r := by
  rw [hw.bucket, update_of_ne hr]

theorem Holds.setVal (hb : h.Holds p b) {h' : FcgiHash} {q : CharPtr}
    (hw : h.Writes h' p { h.bucket p with valLen := val.length, val := some q })
    (hq : h'.data.Holds q (val ++ [0])) : h'.Holds p { b with val := some val } := by
  have hbucket := congrFun hw.bucket p
  rw [update_self] at hbucket
  constructor
  case hashValue => rw [hbucket, hb.hashValue]
  case varLen => rw [hbucket, hb.varLen]
  case var =>
    rw [hbucket]
    exact hw.keeps _ _ hb.var
  case isSome => rw [hbucket]; rfl
  case val =>
    intro r v hr hv
    rw [hbucket] at hr ⊢
    obtain rfl := some.inj hr
    obtain rfl := some.inj hv
    exact ⟨rfl, hq⟩

theorem ne_of_nodup (hnodup : ((es₁ ++ (p, b) :: es₂).map Prod.fst).Nodup) :
    (∀ e ∈ es₁, e.1 ≠ p) ∧ ∀ e ∈ es₂, e.1 ≠ p := by
  rw [map_append, map_cons, nodup_append, nodup_cons] at hnodup
  obtain ⟨-, ⟨hright, -⟩, hleft⟩ := hnodup
  exact ⟨fun e he => hleft _ (mem_map_of_mem he) _ mem_cons_self,
    fun e he heq => hright (heq ▸ (mem_map_of_mem he : e.1 ∈ es₂.map Prod.fst))⟩

theorem Shows.change {h' : FcgiHash} {b' : Bucket} (hs : h.Shows (es₁ ++ (p, b) :: es₂))
    (hlaid : h'.Laid) (hlist : h'.list = h.list) (hblocks : h'.blocks = h.blocks)
    (hlistNext : ∀ r, h'.listNext r = h.listNext r)
    (hchain : ∀ i, Chain.IsChain h'.next 0 (h'.hashTable i) (chainOf i (es₁ ++ (p, b') :: es₂)))
    (hb : h'.Holds p b') (hother : ∀ r c, r ≠ p → h.Holds r c → h'.Holds r c) :
    h'.Shows (es₁ ++ (p, b') :: es₂) := by
  have hpairs : (es₁ ++ (p, b') :: es₂).map Prod.fst = (es₁ ++ (p, b) :: es₂).map Prod.fst := by
    simp
  constructor
  case toLaid => exact hlaid
  case list =>
    rw [hpairs, hlist]
    exact hs.list.frame fun r _ => hlistNext r
  case chain => exact hchain
  case nodup =>
    rw [hpairs]
    exact hs.nodup
  case count =>
    rw [used, hblocks, ← used, ← hs.count]
    simp
  case within =>
    intro e he
    have hmem : e.1 ∈ (es₁ ++ (p, b) :: es₂).map Prod.fst := hpairs ▸ mem_map_of_mem he
    obtain ⟨e', he', hfst⟩ := List.mem_map.mp hmem
    rw [← hfst, hblocks]
    exact hs.within e' he'
  case holds =>
    intro e he
    obtain ⟨hleft, hright⟩ := ne_of_nodup hs.nodup
    rcases mem_append.mp he with he | he
    · exact hother e.1 e.2 (hleft e he) (hs.holds e (mem_append_left _ he))
    · rcases mem_cons.mp he with rfl | he
      · exact hb
      · exact hother e.1 e.2 (hright e he) (hs.holds e (by simp [he]))

theorem Shows.rewrite {h' : FcgiHash} {c : HashBucket} {b' : Bucket}
    (hs : h.Shows (es₁ ++ (p, b) :: es₂)) (hw : h.Writes h' p c)
    (hnext : c.next = (h.bucket p).next) (hlistNext : c.listNext = (h.bucket p).listNext)
    (hb : h'.Holds p b') (hon : ∀ i, b'.onChain i = b.onChain i) :
    h'.Shows (es₁ ++ (p, b') :: es₂) := by
  have hnexts : ∀ r, h'.next r = h.next r := fun r => by
    by_cases hr : r = p
    · rw [next, next, hr, hw.bucket, update_self, hnext]
    · rw [next, next, hw.other hr]
  have hlistNexts : ∀ r, h'.listNext r = h.listNext r := fun r => by
    by_cases hr : r = p
    · rw [listNext, listNext, hr, hw.bucket, update_self, hlistNext]
    · rw [listNext, listNext, hw.other hr]
  have hblocks : h'.blocks = h.blocks := by rw [blocks, blocks, hw.buckets, hw.older]
  refine hs.change hw.laid hw.list hblocks hlistNexts (fun i => ?_) hb
    fun r c hr hc => hc.frame (hw.other hr) hw.keeps
  have hchain : chainOf i (es₁ ++ (p, b') :: es₂) = chainOf i (es₁ ++ (p, b) :: es₂) := by
    rw [chainOf_append, chainOf_append, chainOf_cons, chainOf_cons, hon]
  rw [hchain, hw.hashTable]
  exact (hs.chain i).frame fun r _ => hnexts r

theorem Shows.fresh (hs : h.Shows es) (hroom : h.buckets.idx < fcgiHashTableSize) :
    ∀ e ∈ es, e.1 ≠ h.buckets.data + h.buckets.idx := by
  intro e he heq
  obtain ⟨b, hb, hle, hlt⟩ := hs.within e he
  have hidx := hs.room b hb
  have hnumber : b.number = h.buckets.number := by
    simp only [BucketBlock.data, fcgiHashTableSize] at hle hlt heq hidx hroom
    omega
  have hbucket : b = h.buckets := by
    rcases mem_cons.mp hb with rfl | hb
    · rfl
    · exact absurd (List.mem_map.mpr ⟨b, hb, hnumber⟩) (nodup_cons.mp hs.numbers).1
  rw [hbucket] at hlt
  omega

theorem Shows.link (hs : h.Shows es) (hroom : h.buckets.idx < fcgiHashTableSize)
    {g h' : FcgiHash} {c : HashBucket} (hlink : h.linkBucket hash var.length = (g, p))
    (hw : g.Writes h' p c) (hnext : c.next = h.hashTable (hashIndex hash))
    (hlistNext : c.listNext = h.list) (hb : h'.Holds p ⟨hash, var, some val⟩) :
    h'.Shows ((p, ⟨hash, var, some val⟩) :: es) := by
  obtain ⟨hg, hp⟩ := Prod.mk.inj hlink
  subst hg
  have hfresh : ∀ e ∈ es, e.1 ≠ p := hp ▸ hs.fresh hroom
  have hne : p ≠ 0 := by
    rw [← hp, BucketBlock.data]
    exact Nat.ne_of_gt (by omega)
  have hself : h'.bucket p = c := by rw [hw.bucket, update_self]
  have hother : ∀ r, r ≠ p → h'.bucket r = h.bucket r := fun r hr => by
    rw [hw.other hr]
    rw [← hp] at hr
    exact update_of_ne hr _ _
  have hblocks : h'.blocks = { h.buckets with idx := h.buckets.idx + 1 } :: h.older := by
    rw [blocks, hw.buckets, hw.older]
  constructor
  case toLaid => exact hw.laid
  case list =>
    refine ⟨by rw [hw.list, ← hp], hne, ?_⟩
    rw [listNext, hself, hlistNext]
    refine hs.list.frame fun r hr => ?_
    obtain ⟨e, he, rfl⟩ := List.mem_map.mp hr
    rw [listNext, listNext, hother _ (hfresh e he)]
  case chain =>
    intro i
    have hrest : Chain.IsChain h'.next 0 (h.hashTable i) (chainOf i es) := by
      refine (hs.chain i).frame fun r hr => ?_
      obtain ⟨b, he, -⟩ := mem_chainOf.mp hr
      rw [next, next, hother r (hfresh _ he)]
    have htable : h'.hashTable i = update h.hashTable (hashIndex hash) p i := by
      rw [hw.hashTable, ← hp]
    rw [chainOf_cons, htable]
    by_cases hi : i = hashIndex hash
    · subst hi
      rw [if_pos (by simp [Bucket.onChain]), update_self]
      refine ⟨rfl, hne, ?_⟩
      rw [next, hself, hnext]
      exact hrest
    · rw [if_neg (by simp [Bucket.onChain, Ne.symm hi]), update_of_ne hi]
      exact hrest
  case nodup =>
    refine nodup_cons.mpr ⟨fun hmem => ?_, hs.nodup⟩
    obtain ⟨e, he, heq⟩ := List.mem_map.mp hmem
    exact hfresh e he heq
  case count =>
    have hcount := hs.count
    rw [used, blocks, map_cons, sum_cons] at hcount
    rw [used, hblocks, map_cons, sum_cons, length_cons,
      hcount]
    exact Nat.add_right_comm _ _ _
  case within =>
    rw [hblocks]
    refine forall_mem_cons.mpr ⟨⟨_, mem_cons_self, ?_⟩, fun e he => ?_⟩
    · rw [← hp]
      exact ⟨Nat.le_add_right _ _, Nat.lt_succ_self _⟩
    · obtain ⟨b, hb, hle, hlt⟩ := hs.within e he
      rcases mem_cons.mp hb with rfl | hb
      · exact ⟨_, mem_cons_self, hle, Nat.lt_succ_of_lt hlt⟩
      · exact ⟨b, mem_cons_of_mem _ hb, hle, hlt⟩
  case holds =>
    refine forall_mem_cons.mpr ⟨hb, fun e he => ?_⟩
    exact (hs.holds e he).frame (hother _ (hfresh e he)) hw.keeps

theorem Shows.roomForBucket (hs : h.Shows es) :
    h.roomForBucket.Shows es ∧ h.roomForBucket.buckets.idx < fcgiHashTableSize ∧
      h.roomForBucket.data = h.data := by
  rw [FcgiHash.roomForBucket]
  split
  · refine ⟨⟨⟨hs.inside, hs.separate, ?_, ?_, ?_, ?_⟩, hs.list, hs.chain, hs.nodup, ?_, ?_, ?_⟩,
      Nat.zero_lt_succ _, rfl⟩
    · exact fun s hmem => Nat.lt_succ_of_lt (hs.segments s hmem)
    · exact forall_mem_cons.mpr ⟨Nat.zero_le _, hs.room⟩
    · refine nodup_cons.mpr ⟨fun hmem => ?_, hs.numbers⟩
      obtain ⟨b, hb, heq⟩ := List.mem_map.mp hmem
      exact absurd heq (Nat.ne_of_lt (hs.blocks b hb))
    · exact forall_mem_cons.mpr
        ⟨Nat.lt_succ_self _, fun b hb => Nat.lt_succ_of_lt (hs.blocks b hb)⟩
    · exact hs.count.trans (Nat.zero_add _).symm
    · intro e he
      obtain ⟨b, hb, hin⟩ := hs.within e he
      exact ⟨b, mem_cons_of_mem _ hb, hin⟩
    · exact fun e he => (hs.holds e he).frame rfl fun _ _ hq => hq
  · exact ⟨hs, Nat.lt_of_not_le ‹_›, rfl⟩

theorem Laid.linkBucket (hl : h.Laid) (hroom : h.buckets.idx < fcgiHashTableSize) (varLen : Nat) :
    (h.linkBucket hash varLen).1.Laid := by
  obtain ⟨hbucket, holder⟩ := forall_mem_cons.mp hl.room
  obtain ⟨hnumber, hnumbers⟩ := forall_mem_cons.mp hl.blocks
  exact ⟨hl.inside, hl.separate, hl.segments, forall_mem_cons.mpr ⟨hroom, holder⟩, hl.numbers,
    forall_mem_cons.mpr ⟨hnumber, hnumbers⟩⟩

theorem linkBucket_bucket {varLen : Nat} {g : FcgiHash}
    (hlink : h.linkBucket hash varLen = (g, p)) : g.bucket p =
        { h.bucket p with
          next := h.hashTable (hashIndex hash), listNext := h.list, hashValue := hash,
          varLen := varLen } ∧ g.data = h.data := by
  obtain ⟨rfl, rfl⟩ := Prod.mk.inj hlink
  exact ⟨update_self _ _ _, rfl⟩

theorem Shows.insert (hs : h.Shows es) (hroom : h.buckets.idx < fcgiHashTableSize)
    (hvar : var.length + 1 < 0x100000000) (hval : val.length + 1 < 0x100000000)
    {g : FcgiHash} (hlink : h.linkBucket hash var.length = (g, p)) :
    ((g.setVar p var).setVal p val).1.Shows ((p, ⟨hash, var, some val⟩) :: es) ∧
      ((g.setVar p var).setVal p val).1.data.Holds ((g.setVar p var).setVal p val).2 (val ++ [0]) ∧
      ∀ q d, h.data.Holds q d → ((g.setVar p var).setVal p val).1.data.Holds q d := by
  have hlaid : (h.linkBucket hash var.length).1.Laid := hs.toLaid.linkBucket hroom var.length
  rw [hlink] at hlaid
  obtain ⟨hg, hdata⟩ := linkBucket_bucket hlink
  obtain ⟨q, hwvar, hqvar⟩ := hlaid.setVar p hvar
  obtain ⟨hwval, hqval⟩ := hwvar.laid.setVal p hval
  have hw := hwvar.trans hwval
  have hbucket := congrFun hwvar.bucket p
  rw [update_self, hg] at hbucket
  have hfinal := congrFun hwval.bucket p
  rw [update_self, hbucket] at hfinal
  refine ⟨hs.link hroom hlink hw (by rw [hbucket]) (by rw [hbucket]) ?_, hqval, hdata ▸ hw.keeps⟩
  constructor
  case hashValue => rw [hfinal]
  case varLen => rw [hfinal]
  case var =>
    rw [hfinal]
    exact hwval.keeps _ _ hqvar
  case isSome => rw [hfinal]; rfl
  case val =>
    intro r v hr hv
    rw [hfinal] at hr ⊢
    obtain rfl := some.inj hr
    obtain rfl := some.inj hv
    exact ⟨rfl, hqval⟩

theorem Found.env (hf : Found h hash var es p es₁ b es₂) (f : Bytes → Option Bytes) :
    Fcgi.fcgiHashGet hash var (es.map Prod.snd) = b.val ∧
      modifyBucket hash var f (es.map Prod.snd) =
        (es₁ ++ (p, { b with val := b.val.bind f }) :: es₂).map Prod.snd := by
  obtain ⟨rfl, hmatch, hfirst, -⟩ := hf
  -- induction on the buckets before it
  induction es₁ with
  | nil =>
    rw [nil_append, map_cons, Fcgi.fcgiHashGet, modifyBucket, if_pos hmatch,
      if_pos hmatch]
    exact ⟨rfl, rfl⟩
  | cons e es₁ ih =>
    obtain ⟨hnot, hfirst⟩ := forall_mem_cons.mp hfirst
    obtain ⟨hget, hmodify⟩ := ih hfirst
    rw [cons_append, map_cons, Fcgi.fcgiHashGet, modifyBucket, if_neg hnot, if_neg hnot,
      hmodify]
    exact ⟨hget, rfl⟩

theorem fcgiHashGet_eq_none (hnone : ∀ e ∈ es, ¬e.2.Matches hash var) :
    Fcgi.fcgiHashGet hash var (es.map Prod.snd) = none := by
  induction es with
  | nil => rfl
  | cons e es ih =>
    obtain ⟨hnot, hnone⟩ := forall_mem_cons.mp hnone
    rw [map_cons, Fcgi.fcgiHashGet, if_neg hnot, ih hnone]

theorem modifyBucket_eq_self {f : Bytes → Option Bytes} (hnone : ∀ e ∈ es, ¬e.2.Matches hash var) :
    modifyBucket hash var f (es.map Prod.snd) = es.map Prod.snd := by
  induction es with
  | nil => rfl
  | cons e es ih =>
    obtain ⟨hnot, hnone⟩ := forall_mem_cons.mp hnone
    rw [map_cons, modifyBucket, if_neg hnot, ih hnone]

theorem Shows.set (hs : h.Shows es) (hvar : var.length + 1 < 0x100000000)
    (hval : val.length + 1 < 0x100000000) :
    ∃ h' q es', h.fcgiHashSet hash var val = some (h', q) ∧ h'.Shows es' ∧
      es'.map Prod.snd = Fcgi.fcgiHashSet (es.map Prod.snd) hash var val ∧
      h'.data.Holds q (val ++ [0]) ∧ ∀ q d, h.data.Holds q d → h'.data.Holds q d := by
  rcases hs.search hash var with ⟨hsearch, hnone⟩ | ⟨p, es₁, b, es₂, hfound⟩
  · obtain ⟨hroom, hidx, hdata⟩ := hs.roomForBucket
    obtain ⟨g, p, hlink⟩ : ∃ g p, h.roomForBucket.linkBucket hash var.length = (g, p) := ⟨_, _, rfl⟩
    obtain ⟨hshows, hq, hkeeps⟩ := hroom.insert hidx hvar hval hlink
    refine ⟨_, _, _, ?_, hshows, ?_, hq, hdata ▸ hkeeps⟩
    · rw [FcgiHash.fcgiHashSet, hsearch]
      dsimp only
      rw [hlink]
    · rw [Fcgi.fcgiHashSet, fcgiHashGet_eq_none hnone, map_cons]
  · obtain ⟨hget, hmodify⟩ := hfound.env fun _ => some val
    obtain ⟨rfl, hmatch, -, hsearch⟩ := hfound
    obtain ⟨v, hv⟩ := isSome_iff_exists.mp hmatch.2.2
    obtain ⟨hw, hq⟩ := hs.toLaid.setVal p hval
    refine ⟨_, _, es₁ ++ (p, { b with val := some val }) :: es₂, ?_, ?_, ?_, hq, hw.keeps⟩
    · rw [FcgiHash.fcgiHashSet, hsearch]
    · have hb := (hs.holds (p, b) (by simp)).setVal hw hq
      exact hs.rewrite hw rfl rfl hb fun i => by simp [Bucket.onChain, hv]
    · rw [Fcgi.fcgiHashSet, hget, hv]
      dsimp only
      rw [hmodify, hv]
      rfl

/-! ### The other functions -/

theorem Shows.get (hs : h.Shows es) (hash : UInt32) (var : Bytes) (valLen : Nat) :
    (h.fcgiHashGet hash var valLen = some (none, valLen) ∧
        Fcgi.fcgiHashGet hash var (es.map Prod.snd) = none) ∨
      ∃ q v, h.fcgiHashGet hash var valLen = some (some q, v.length) ∧
        Fcgi.fcgiHashGet hash var (es.map Prod.snd) = some v ∧ h.data.Holds q (v ++ [0]) := by
  rcases hs.search hash var with ⟨hsearch, hnone⟩ | ⟨p, es₁, b, es₂, hfound⟩
  · refine .inl ⟨?_, fcgiHashGet_eq_none hnone⟩
    rw [FcgiHash.fcgiHashGet, hsearch]
  · obtain ⟨hget, -⟩ := hfound.env some
    obtain ⟨rfl, hmatch, -, hsearch⟩ := hfound
    have hb : h.Holds p b := hs.holds (p, b) (by simp)
    obtain ⟨v, hv⟩ := isSome_iff_exists.mp hmatch.2.2
    obtain ⟨q, hq⟩ := isSome_iff_exists.mp (hb.isSome.trans hmatch.2.2)
    obtain ⟨hlen, hholds⟩ := hb.val q v hq hv
    exact .inr ⟨q, v, by rw [FcgiHash.fcgiHashGet, hsearch]; simp [hq, hlen], hget.trans hv, hholds⟩

/-- The names and values that `func` is called with. -/
def liveVars (env : Env) : List (Bytes × Bytes) := env.filterMap fun b => b.val.map (b.var, ·)

theorem liveVars_cons_none {env : Env} (hb : b.val = none) : liveVars (b :: env) = liveVars env :=
  filterMap_cons_none (by rw [hb]; rfl)

theorem liveVars_cons_some {env : Env} {v : Bytes} (hb : b.val = some v) :
    liveVars (b :: env) = (b.var, v) :: liveVars env :=
  filterMap_cons_some (by rw [hb]; rfl)

theorem applyLoop_eq {fuel : Nat} (hlist : Chain.IsChain h.listNext 0 p (es.map Prod.fst))
    (hfuel : es.length < fuel) (hholds : ∀ e ∈ es, h.Holds e.1 e.2) :
    h.applyLoop fuel p = some (liveVars (es.map Prod.snd)) := by
  -- induction on the list of buckets
  induction es generalizing p fuel with
  | nil =>
    obtain ⟨fuel, rfl⟩ := Nat.exists_eq_succ_of_ne_zero (Nat.ne_of_gt hfuel)
    rw [applyLoop, if_pos (Chain.isChain_nil.mp hlist)]
    rfl
  | cons e es ih =>
    obtain ⟨rfl, hne, hlist⟩ := hlist
    obtain ⟨fuel, rfl⟩ := Nat.exists_eq_succ_of_ne_zero (Nat.ne_of_gt (Nat.zero_lt_of_lt hfuel))
    obtain ⟨hb, hholds⟩ := forall_mem_cons.mp hholds
    have hrest : h.applyLoop fuel (h.bucket e.1).listNext = some (liveVars (es.map Prod.snd)) :=
      ih hlist (Nat.lt_of_succ_lt_succ hfuel) hholds
    rw [applyLoop, if_neg hne]
    dsimp only
    rw [hrest, map_cons]
    cases hq : (h.bucket e.1).val with
    | none =>
      have hv : e.2.val = none := by simpa [hq] using hb.isSome
      rw [liveVars_cons_none hv]
    | some q =>
      obtain ⟨v, hv⟩ := isSome_iff_exists.mp (hb.isSome ▸ hq ▸ rfl : e.2.val.isSome = true)
      obtain ⟨hlen, hholds⟩ := hb.val q v hq hv
      rw [liveVars_cons_some hv, hb.varLen, hlen, hb.var.read_append]
      dsimp only
      rw [hholds.read_append]
      rfl

theorem Shows.apply (hs : h.Shows es) :
    h.fcgiHashApply = some (liveVars (es.map Prod.snd)) :=
  applyLoop_eq hs.list (by rw [hs.count]; exact Nat.lt_succ_self _) hs.holds

theorem Laid.clean (hl : h.Laid) : h.fcgiHashClean.Shows [] := by
  have hblock : (h.older.getLastD h.buckets).number < h.mallocs :=
    hl.blocks _ getLastD_mem_cons
  have hseg : (h.data.older.getLastD h.data.seg).addr < h.mallocs :=
    hl.segments _ getLastD_mem_cons
  refine ⟨⟨?_, nodup_singleton _, ?_, ?_, nodup_singleton _, ?_⟩, rfl, fun _ => rfl,
    nodup_nil, rfl, ?_, ?_⟩
  · exact forall_mem_singleton.mpr (Nat.zero_le _)
  · exact forall_mem_singleton.mpr hseg
  · exact forall_mem_singleton.mpr (Nat.zero_le _)
  · exact forall_mem_singleton.mpr hblock
  · exact fun e he => absurd he not_mem_nil
  · exact fun e he => absurd he not_mem_nil

theorem Shows.unlink (hs : h.Shows (es₁ ++ (p, b) :: es₂)) {h' : FcgiHash}
    (hlist : h'.list = h.list) (hblocks : h'.blocks = h.blocks) (hdata : h'.data = h.data)
    (hmallocs : h'.mallocs = h.mallocs)
    (hp : h'.bucket p = { h.bucket p with val := none, valLen := 0, next := h'.next p })
    (hother : ∀ r, r ≠ p → h'.bucket r = { h.bucket r with next := h'.next r })
    (hchain : ∀ i, Chain.IsChain h'.next 0 (h'.hashTable i)
      (chainOf i (es₁ ++ (p, { b with val := none }) :: es₂))) :
    h'.Shows (es₁ ++ (p, { b with val := none }) :: es₂) := by
  refine hs.change ?_ hlist hblocks (fun r => ?_) hchain ?_ fun r c hr hc => ?_
  · exact ⟨hdata ▸ hs.inside, hdata ▸ hs.separate, hdata ▸ hmallocs ▸ hs.segments,
      hblocks ▸ hs.room, hblocks ▸ hs.numbers, hblocks ▸ hmallocs ▸ hs.blocks⟩
  · by_cases hr : r = p
    · rw [listNext, hr, hp]
      rfl
    · rw [listNext, hother r hr]
      rfl
  · obtain ⟨h₁, h₂, h₃, -, -⟩ := hs.holds (p, b) (by simp)
    rw [← hdata] at h₃
    constructor <;> rw [hp]
    case hashValue => exact h₁
    case varLen => exact h₂
    case var => exact h₃
    case isSome => rfl
    case val => exact fun q v hq _ => absurd hq (by simp)
  · obtain ⟨h₁, h₂, h₃, h₄, h₅⟩ := hc
    rw [← hdata] at h₃ h₅
    constructor <;> rw [hother r hr]
    case hashValue => exact h₁
    case varLen => exact h₂
    case var => exact h₃
    case isSome => exact h₄
    case val => exact h₅

theorem chainOf_other {b' : Bucket} {i' : Nat} (hb : b.onChain i = true) (hi : i' ≠ i)
    (hb' : b'.val = none) :
    chainOf i' (es₁ ++ (p, b') :: es₂) = chainOf i' (es₁ ++ (p, b) :: es₂) := by
  have hnot : b.onChain i' = false := by
    simp only [Bucket.onChain, Bool.and_eq_true, beq_iff_eq] at hb
    simp [Bucket.onChain, hb.2, Ne.symm hi]
  rw [chainOf_append, chainOf_append, chainOf_cons, chainOf_cons, hnot]
  simp [Bucket.onChain, hb']

theorem chainOf_deleted {b' : Bucket} (hb' : b'.val = none) :
    chainOf i (es₁ ++ (p, b') :: es₂) = chainOf i es₁ ++ chainOf i es₂ := by
  rw [chainOf_append, chainOf_cons]
  simp [Bucket.onChain, hb']

theorem Shows.chain_unique (hs : h.Shows es) {i' : Nat} (hi : i' ≠ i) (hp : p ∈ chainOf i es) :
    p ∉ chainOf i' es := by
  intro hp'
  obtain ⟨b, hb, hon⟩ := mem_chainOf.mp hp
  obtain ⟨b', hb', hon'⟩ := mem_chainOf.mp hp'
  obtain rfl : b = b' := congrArg Prod.snd (inj_on_of_nodup_map hs.nodup hb hb' rfl)
  simp only [Bucket.onChain, Bool.and_eq_true, beq_iff_eq] at hon hon'
  exact hi (hon'.2.symm.trans hon.2)

theorem unlinkBucket_data {prev : Option Nat} : (h.unlinkBucket i prev p).data = h.data := by
  cases prev <;> rfl

theorem Shows.unlink_first (hs : h.Shows (es₁ ++ (p, b) :: es₂)) (hb : b.onChain i = true)
    (hfirst : chainOf i es₁ = []) :
    (h.unlinkBucket i none p).Shows (es₁ ++ (p, { b with val := none }) :: es₂) := by
  have hnexts : ∀ r, (h.unlinkBucket i none p).next r = h.next r := fun r => by
    by_cases hr : r = p
    · subst hr
      simp [next, unlinkBucket, modify]
    · simp [next, unlinkBucket, modify, update_of_ne hr]
  refine hs.unlink rfl rfl rfl rfl ?_ (fun r hr => ?_) fun i' => ?_
  · rw [hnexts]
    simp [unlinkBucket, modify, next]
  · rw [hnexts]
    simp [unlinkBucket, modify, next, update_of_ne hr]
  · by_cases hi : i' = i
    · subst hi
      have hold := hs.chain i'
      rw [chainOf_append, chainOf_cons, if_pos hb, hfirst] at hold
      rw [chainOf_deleted rfl, hfirst]
      refine Chain.IsChain.frame ?_ fun r _ => hnexts r
      simpa [unlinkBucket, modify, next] using hold.2.2
    · rw [chainOf_other hb hi rfl]
      refine Chain.IsChain.frame ?_ fun r _ => hnexts r
      simpa [unlinkBucket, modify, update_of_ne hi] using hs.chain i'

theorem Shows.unlink_behind (hs : h.Shows (es₁ ++ (p, b) :: es₂)) (hb : b.onChain i = true)
    {as : List Nat} (hlast : chainOf i es₁ = as ++ [q]) :
    (h.unlinkBucket i (some q) p).Shows (es₁ ++ (p, { b with val := none }) :: es₂) := by
  have hq : q ∈ chainOf i es₁ := by simp [hlast]
  have hqp : q ≠ p := by
    obtain ⟨c, hc, -⟩ := mem_chainOf.mp hq
    exact (ne_of_nodup hs.nodup).1 (q, c) hc
  have hnexts : (h.unlinkBucket i (some q) p).next = update h.next q (h.next p) := by
    funext r
    by_cases hr : r = q
    · subst hr
      simp [next, unlinkBucket, modify]
    · rw [update_of_ne hr]
      by_cases hrp : r = p
      · subst hrp
        simp [next, unlinkBucket, modify, update_of_ne hr]
      · simp [next, unlinkBucket, modify, update_of_ne hr, update_of_ne hrp]
  refine hs.unlink rfl rfl rfl rfl ?_ (fun r hr => ?_) fun i' => ?_
  · rw [hnexts, update_of_ne hqp.symm]
    simp [unlinkBucket, modify, next, update_of_ne hqp.symm]
  · rw [hnexts]
    by_cases hrq : r = q
    · subst hrq
      simp [unlinkBucket, modify, next, update_of_ne hr]
    · simp [unlinkBucket, modify, next, update_of_ne hr, update_of_ne hrq]
  · rw [hnexts]
    by_cases hi : i' = i
    · subst hi
      have hold := hs.chain i'
      rw [chainOf_append, chainOf_cons, if_pos hb, hlast, append_assoc] at hold
      rw [chainOf_deleted rfl, hlast, append_assoc]
      have hnodup : (chainOf i' (es₁ ++ (p, b) :: es₂)).Nodup :=
        hs.nodup.sublist (filter_sublist.map _)
      rw [chainOf_append, chainOf_cons, if_pos hb, hlast, append_assoc] at hnodup
      exact hold.bypass hnodup
    · rw [chainOf_other hb hi rfl]
      refine (hs.chain i').frame fun r hr => update_of_ne ?_ _ _
      rintro rfl
      have hmem : r ∈ chainOf i (es₁ ++ (p, b) :: es₂) := by
        rw [chainOf_append]
        exact mem_append_left _ hq
      exact hs.chain_unique hi hmem hr

theorem Shows.del (hs : h.Shows es) (hash : UInt32) (var : Bytes) :
    ∃ h' es', h.fcgiHashDel hash var = some h' ∧ h'.Shows es' ∧
      es'.map Prod.snd = Fcgi.fcgiHashDel (es.map Prod.snd) hash var ∧ h'.data = h.data := by
  rcases hs.search hash var with ⟨hsearch, hnone⟩ | ⟨p, es₁, b, es₂, hfound⟩
  · refine ⟨h, es, by rw [FcgiHash.fcgiHashDel, hsearch], hs, ?_, rfl⟩
    exact (modifyBucket_eq_self hnone).symm
  · obtain ⟨hget, hmodify⟩ := hfound.env fun _ => none
    obtain ⟨rfl, hmatch, -, hsearch⟩ := hfound
    have hb : b.onChain (hashIndex hash) = true := hmatch.onChain
    have hmap : (es₁ ++ (p, { b with val := none }) :: es₂).map Prod.snd =
        Fcgi.fcgiHashDel ((es₁ ++ (p, b) :: es₂).map Prod.snd) hash var := by
      rw [Fcgi.fcgiHashDel, hmodify]
      simp
    refine ⟨_, _, by rw [FcgiHash.fcgiHashDel, hsearch], ?_, hmap, unlinkBucket_data⟩
    rcases eq_nil_or_concat (chainOf (hashIndex hash) es₁) with hnil | ⟨as, q, hlast⟩
    · rw [hnil]
      exact hs.unlink_first hb hnil
    · rw [concat_eq_append] at hlast
      rw [hlast, List.getLast?_concat]
      exact hs.unlink_behind hb hlast

end FcgiHash

end Fcgi

end Phpce
