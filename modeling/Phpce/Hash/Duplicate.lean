import Phpce.Hash.Refinement

/-!
# zend_array_dup

A table is copied slot by slot where it is packed or immutable. Any other table is copied like a
rehash into new memory: without its holes, and without the `INDIRECT` slots that point to
`IS_UNDEF`.

* `rehashed_dupElements`: the copy of a hashed table is the table with its `INDIRECT` slots
  resolved, rehashed.
* **`zendArrayDup_iff`**: the copy is faithful unless `nInternalPointer` is on an element that is
  not copied, and behind the slots that the copy uses.

The reference counts of the values that become shared are left out, and so are those of the keys.
-/

namespace Phpce

open List Option

/-- What a zval holds that is no `INDIRECT`; a reference may be one to the array that is copied. -/
inductive ZvalData (V : Type*) where
  | plain (v : V)
  | reference (refcount : Nat) (v : V) (toSource : Bool)
  deriving DecidableEq, Repr

inductive Zval (V : Type*) where
  | data (d : ZvalData V)
  -- `none` is `IS_UNDEF`
  | indirect (target : Option (ZvalData V))
  deriving DecidableEq, Repr

variable {V : Type*}

/-- A reference that nobody shares is copied as its value. -/
def ZvalData.copy : ZvalData V → ZvalData V
  | .plain v => .plain v
  | .reference refcount v toSource =>
      if refcount = 1 ∧ toSource = false then .plain v else .reference refcount v toSource

namespace HashTable

/-- `zend_array_dup_element`: what is stored, or `none` where it returns 0. -/
def dupElement (packed withHoles : Bool) : Option (Zval V) → Option (Option (Zval V))
  | none => if withHoles then none else some none
  | some (.data d) => some (some (.data d.copy))
  | some (.indirect target) =>
      if packed then some (some (.indirect target))
      else target.map fun d => some (.data d.copy)

/-- `zend_array_dup_packed_elements`, over `n` slots from `i`. -/
def dupPackedElements (source : HashTable (Zval V)) (withHoles : Bool) (target : HashTable (Zval V))
    (i : Nat) : (n : Nat) → HashTable (Zval V)
  | 0 => target
  | n + 1 =>
      let p := source.arData i
      let q : Bucket (Zval V) :=
        match dupElement true withHoles p.val with
        | some val => ⟨p.h, none, val⟩
        | none => if withHoles then { target.arData i with val := none } else target.arData i
      dupPackedElements source withHoles { target with arData := Function.update target.arData i q }
        (i + 1) n

/-- The stores of `zend_array_dup_element` to a hashed table. -/
def storeElement (target : HashTable (Zval V)) (idx : Nat) (p : Bucket (Zval V))
    (val : Option (Zval V)) : HashTable (Zval V) :=
  link { target with arData := Function.update target.arData idx ⟨p.h, p.key, val⟩ } idx

/-- The loop of `zend_array_dup_elements` behind the first element that is not copied. -/
def dupElementsBehind (source : HashTable (Zval V)) (withHoles : Bool)
    (target : HashTable (Zval V)) (idx targetIdx : Nat) : (n : Nat) → HashTable (Zval V) × Nat
  | 0 => (target, targetIdx)
  | n + 1 =>
      match dupElement false withHoles (source.arData idx).val with
      | some val =>
          let target := target.storeElement targetIdx (source.arData idx) val
          let target :=
            if source.nInternalPointer = idx then { target with nInternalPointer := targetIdx }
            else target
          dupElementsBehind source withHoles target (idx + 1) (targetIdx + 1) n
      | none => dupElementsBehind source withHoles target (idx + 1) targetIdx n

/-- `zend_array_dup_elements`, over `n` slots from `idx`; the result is the number of the slots
used. -/
def dupElements (source : HashTable (Zval V)) (withHoles : Bool) (target : HashTable (Zval V))
    (idx : Nat) : (n : Nat) → HashTable (Zval V) × Nat
  | 0 => (target, idx)
  | n + 1 =>
      match dupElement false withHoles (source.arData idx).val with
      | some val =>
          dupElements source withHoles (target.storeElement idx (source.arData idx) val) (idx + 1) n
      | none => dupElementsBehind source withHoles target (idx + 1) idx n

/-- `nInternalPointer` goes to the first element. The loop of the code has no bound, and there is an
element. -/
def pointToFirst (target : HashTable (Zval V)) : HashTable (Zval V) :=
  if 0 < target.nNumOfElements ∧ target.nInternalPointer = htInvalidIdx then
    { target with nInternalPointer := target.nextLive 0 target.nNumUsed }
  else target

/-- `zend_array_dup`, with new memory at the address `self` that holds `arData` and `zNext`. -/
def zendArrayDup (source : HashTable (Zval V)) (immutable : Bool) (self : Nat)
    (arData : Nat → Bucket (Zval V)) (zNext : Nat → Nat) : HashTable (Zval V) :=
  let target := { source with self, arData, zNext }
  if source.nNumUsed = 0 then
    { target.hashReset with
      initialized := false
      packed := false
      nTableMask := htMinMask
      nNumOfElements := 0
      nNextFreeElement := 0
      nInternalPointer := htInvalidIdx }
  else if immutable then
    pointToFirst { target with
      arData := fun i => if i < source.nNumUsed then source.arData i else arData i
      zNext := fun i => if i < source.nNumUsed then source.zNext i else zNext i }
  else if source.packed then
    (dupPackedElements source (!source.isWithoutHoles) target.hashReset 0
      source.nNumUsed).pointToFirst
  else
    let (target, idx) :=
      dupElements source (!source.isWithoutHoles) target.hashReset 0 source.nNumUsed
    let target := { target with nNumUsed := idx, nNumOfElements := idx }
    if 0 < idx ∧ target.nInternalPointer = htInvalidIdx then { target with nInternalPointer := 0 }
    else target

end HashTable

/-! ## What a copy is for -/

def ZvalData.value : ZvalData V → V
  | .plain v => v
  | .reference _ v _ => v

/-- The value that PHP sees in a slot, if it sees one. -/
def Zval.value : Zval V → Option V
  | .data d => some d.value
  | .indirect target => target.map ZvalData.value

theorem ZvalData.value_copy (d : ZvalData V) : d.copy.value = d.value := by
  cases d with
  | plain v => rfl
  | reference refcount v toSource =>
    unfold copy
    dsimp only
    split
    · rfl
    · rfl

namespace HashTable

variable {source target : HashTable (Zval V)} {immutable withHoles : Bool} {i j n self : Nat}
  {arData : Nat → Bucket (Zval V)} {zNext : Nat → Nat}

def pairs (ht : HashTable (Zval V)) : List (HashKey × V) :=
  ht.entries.filterMap fun e => e.2.value.map fun v => (e.1, v)

def findKey (ht : HashTable (Zval V)) : HashKey → Except HashStop (Option (Zval V))
  | .index h => ht.zendHashIndexFind h
  | .str key => ht.zendHashFind key

/-- A copy of the slot: `none` is a hole. -/
def resolve : Option (Zval V) → Option (Zval V)
  | none => none
  | some (.data d) => some (.data d.copy)
  | some (.indirect target) => target.map fun d => .data d.copy

def OnElementOrEnd (ht : HashTable (Zval V)) (p : Nat) : Prop :=
  p = htInvalidIdx ∨ p < ht.nNumUsed ∧ ht.isLive p = true

/-- `target` is a table of its own with the keys and values of `source`. -/
structure SamePairs (source target : HashTable (Zval V)) : Prop where
  valid : target.Valid
  pairs_eq : target.pairs = source.pairs
  resolved : ∀ e ∈ target.entries, ∃ d, e.2 = .data d
  find : ∀ k v, (k, v) ∈ source.pairs → ∃ z, target.findKey k = .ok (some z) ∧ z.value = some v

/-- `target` is a faithful copy of `source`, with `nInternalPointer` where that of `source` is. -/
structure Duplicates (source target : HashTable (Zval V)) : Prop extends
    SamePairs source target where
  sameElement : source.nInternalPointer < source.nNumUsed →
    (resolve (source.arData source.nInternalPointer).val).isSome = true →
      target.nInternalPointer < target.nNumUsed ∧ target.isLive target.nInternalPointer = true ∧
        (target.arData target.nInternalPointer).toKey =
          (source.arData source.nInternalPointer).toKey
  pointer : target.OnElementOrEnd target.nInternalPointer

/-- A table that may be copied. `INDIRECT` slots are those of symbol tables and property tables:
these have string keys and are not immutable. A table that is immutable was built by insertions. -/
structure Duplicable (source : HashTable (Zval V)) (immutable : Bool) : Prop where
  valid : source.Valid
  pointer : source.OnElementOrEnd source.nInternalPointer
  direct : source.packed = true ∨ immutable = true →
    ∀ i < source.nNumUsed, ∀ t, (source.arData i).val ≠ some (.indirect t)
  built : immutable = true → source.packed = true → ∀ x, source.hash x = htInvalidIdx

def copiedCount (source : HashTable (Zval V)) : Nat :=
  Nat.count (fun i => (resolve (source.arData i).val).isSome = true) source.nNumUsed

/-- The pointer is not on an element that is not copied, unless the copy uses that slot. -/
def PointerFits (source : HashTable (Zval V)) (immutable : Bool) : Prop :=
  immutable = false → source.packed = false → source.nInternalPointer < source.nNumUsed →
    (source.arData source.nInternalPointer).val = some (.indirect none) →
      source.nInternalPointer < source.copiedCount

/-! ## The loops over a hashed table -/

/-- The table with its `INDIRECT` slots resolved, at the address of the copy. -/
def resolvedAt (source : HashTable (Zval V)) (self : Nat) : HashTable (Zval V) :=
  { source with
    self
    arData := fun i => { source.arData i with val := resolve (source.arData i).val }
    nNumOfElements := source.copiedCount }

theorem dupElement_eq {val : Option (Zval V)} (h : withHoles = true ∨ val ≠ none) :
    dupElement false withHoles val = (resolve val).map some := by
  unfold dupElement resolve
  split
  · rcases h with rfl | h
    · rfl
    · exact absurd rfl h
  · rfl
  · rename_i target
    cases target with
    | none => rfl
    | some d => rfl

/-- Of the buckets of `o` those below slot `i` are copied, the next one goes to slot `j`. -/
structure Duplicating (o ht : HashTable (Zval V)) (i j : Nat) : Prop where
  head : SameHead { o with nNumOfElements := ht.nNumOfElements } ht
  rank_eq : o.rank i = j
  done : ∀ k < i, o.isLive k = true → ht.arData (o.rank k) = o.arData k
  chains : ht.ChainsUpTo j
  pointer : ht.nInternalPointer = o.movedPos i o.nInternalPointer

theorem Duplicating.skip {o ht : HashTable (Zval V)} (h : Duplicating o ht i j)
    (hole : o.isLive i = false) : Duplicating o ht (i + 1) j where
  head := h.head
  rank_eq := by rw [rank_succ_of_hole hole, h.rank_eq]
  done k hk hlive := by
    rcases Nat.lt_succ_iff_lt_or_eq.mp hk with hlt | rfl
    · exact h.done k hlt hlive
    · exact absurd (hole.symm.trans hlive) (by decide)
  chains := h.chains
  pointer := by rw [movedPos_succ_of_hole _ hole, h.pointer]

theorem ChainsUpTo.update {ht : HashTable V} (h : ht.ChainsUpTo j) (p : Bucket V) :
    ChainsUpTo { ht with arData := Function.update ht.arData j p } j := by
  intro x
  have hfilter : ((List.range j).filter fun k =>
        ht.nIndex (Function.update ht.arData j p k).h = x) =
      (List.range j).filter fun k => ht.nIndex (ht.arData k).h = x := by
    apply filter_congr
    intro k hk
    rw [Function.update_of_ne (show k ≠ j from Nat.ne_of_lt (mem_range.mp hk))]
  have hx := h x
  rw [← hfilter] at hx
  exact hx

theorem Duplicating.store {o ht : HashTable (Zval V)} (h : Duplicating o ht i j)
    (hlive : o.isLive i = true) (hi : i < htInvalidIdx) {p : Bucket (Zval V)}
    (hp : o.arData i = p) :
    Duplicating o { ht.storeElement j p p.val with
      nInternalPointer := if o.nInternalPointer = i then j else ht.nInternalPointer }
      (i + 1) (j + 1) where
  head := ⟨h.head.1, h.head.2, h.head.3, h.head.4, h.head.5, h.head.6, h.head.7, h.head.8⟩
  rank_eq := by rw [rank_succ_of_live hlive, h.rank_eq]
  done k hk hklive := by
    show Function.update ht.arData j p (o.rank k) = o.arData k
    rcases Nat.lt_succ_iff_lt_or_eq.mp hk with hlt | rfl
    · have hrank : o.rank k ≠ j := by
        rw [← h.rank_eq]
        exact Nat.ne_of_lt (rank_lt_of_live hklive hlt)
      rw [Function.update_of_ne hrank]
      exact h.done k hlt hklive
    · rw [h.rank_eq, Function.update_self, hp]
  chains := by
    have hj : j ≤ i := h.rank_eq ▸ o.rank_le i
    exact (h.chains.update p).link (show j < htInvalidIdx by omega)
  pointer := by
    show (if o.nInternalPointer = i then j else ht.nInternalPointer) = _
    split
    · rename_i hpos
      rw [movedPos, if_pos ⟨by omega, hpos ▸ hlive⟩, hpos, h.rank_eq]
    · rename_i hpos
      rw [movedPos_succ_of_ne hpos, h.pointer]

theorem dupElement_source (hwhole : withHoles = true ∨ ∀ k < source.nNumUsed,
      source.isLive k = true) (hi : i < source.nNumUsed) :
    dupElement false withHoles (source.arData i).val =
      if (source.resolvedAt self).isLive i then some ((source.resolvedAt self).arData i).val
      else none := by
  rw [dupElement_eq (hwhole.imp_right fun hall hnone => ?_)]
  · show (resolve (source.arData i).val).map some =
      if (resolve (source.arData i).val).isSome then some (resolve (source.arData i).val) else none
    cases resolve (source.arData i).val with
    | none => rfl
    | some z => rfl
  · have hlive := hall i hi
    rw [isLive, hnone] at hlive
    cases hlive

theorem Duplicating.behind (hwhole : withHoles = true ∨ ∀ k < source.nNumUsed,
      source.isLive k = true) (h : Duplicating (source.resolvedAt self) target i j)
    (hn : i + n = source.nNumUsed) (hbound : source.nNumUsed ≤ htInvalidIdx) :
    Duplicating (source.resolvedAt self) (dupElementsBehind source withHoles target i j n).1
      source.nNumUsed (dupElementsBehind source withHoles target i j n).2 := by
  -- induction on the slots behind
  induction n generalizing target i j with
  | zero =>
    obtain rfl : i = source.nNumUsed := by omega
    exact h
  | succ n ih =>
    unfold dupElementsBehind
    rw [@dupElement_source V source withHoles i self hwhole (by omega)]
    cases hlive : (source.resolvedAt self).isLive i with
    | true =>
      rw [if_pos rfl]
      have hstore := h.store hlive (by omega) rfl
      refine ih ?_ (by omega)
      split
      · rename_i hpos
        rw [if_pos (show (source.resolvedAt self).nInternalPointer = i from hpos)] at hstore
        exact hstore
      · rename_i hpos
        rw [if_neg (show ¬(source.resolvedAt self).nInternalPointer = i from hpos)] at hstore
        exact hstore
    | false =>
      rw [if_neg (by decide)]
      exact ih (h.skip hlive) (by omega)

theorem Duplicating.elements (hwhole : withHoles = true ∨ ∀ k < source.nNumUsed,
      source.isLive k = true) (h : Duplicating (source.resolvedAt self) target i i)
    (hn : i + n = source.nNumUsed) (hbound : source.nNumUsed ≤ htInvalidIdx) :
    Duplicating (source.resolvedAt self) (dupElements source withHoles target i n).1
      source.nNumUsed (dupElements source withHoles target i n).2 := by
  -- induction on the slots from `i`
  induction n generalizing target i with
  | zero =>
    obtain rfl : i = source.nNumUsed := by omega
    exact h
  | succ n ih =>
    unfold dupElements
    rw [@dupElement_source V source withHoles i self hwhole (by omega)]
    cases hlive : (source.resolvedAt self).isLive i with
    | true =>
      rw [if_pos rfl]
      have hstore := h.store hlive (by omega) rfl
      refine ih ?_ (by omega)
      -- no bucket has moved so far
      have hpointer : (if (source.resolvedAt self).nInternalPointer = i then i
          else target.nInternalPointer) = target.nInternalPointer := by
        split
        · rename_i hpos
          have hat := h.pointer
          rw [movedPos_of_le (Nat.le_of_eq hpos.symm)] at hat
          exact (hat.trans hpos).symm
        · rfl
      rw [hpointer] at hstore
      exact hstore
    | false =>
      rw [if_neg (by decide)]
      exact (h.skip hlive).behind hwhole (by omega) hbound

theorem isLive_resolvedAt (hlive : (source.resolvedAt self).isLive i = true) :
    source.isLive i = true := by
  have hsome : (resolve (source.arData i).val).isSome = true := hlive
  cases hval : (source.arData i).val with
  | none =>
    rw [hval] at hsome
    cases hsome
  | some z =>
    rw [isLive, hval]
    rfl

theorem Sound.resolvedAt (h : Sound source) (self : Nat) : Sound (source.resolvedAt self) where
  numOfElements := rfl
  used_le := h.used_le
  size := h.size
  hashed i hi hlive := h.hashed i hi (isLive_resolvedAt hlive)
  distinct i hi j hj hilive hjlive hkey :=
    h.distinct i hi j hj (isLive_resolvedAt hilive) (isLive_resolvedAt hjlive) hkey

theorem Sound.holes_or_whole (hs : Sound source) : (!source.isWithoutHoles) = true ∨
    ∀ k < source.nNumUsed, source.isLive k = true := by
  cases hholes : source.isWithoutHoles with
  | false => exact .inl rfl
  | true =>
    refine .inr fun k hk => live_of_rank_eq ?_ hk
    rw [← hs.numOfElements]
    exact (beq_iff_eq.mp hholes).symm

/-- **The copy of a hashed table** is the table with its `INDIRECT` slots resolved, rehashed. -/
theorem rehashed_dupElements (hs : Sound source) (self : Nat)
    (arData : Nat → Bucket (Zval V)) (zNext : Nat → Nat) :
    let dup := dupElements source (!source.isWithoutHoles)
      (hashReset { source with self, arData, zNext }) 0 source.nNumUsed
    Rehashed (source.resolvedAt self)
      { dup.1 with nNumUsed := dup.2, nNumOfElements := dup.2 } := by
  have hbound : source.nNumUsed ≤ htInvalidIdx :=
    hs.used_le.trans (hs.size.le.trans (by decide))
  have hstart : Duplicating (source.resolvedAt self)
      (hashReset { source with self, arData, zNext }) 0 0 := by
    refine ⟨by constructor <;> rfl, rank_zero, fun k hk => absurd hk (Nat.not_lt_zero k),
      chainsUpTo_hashReset, (movedPos_of_le (Nat.zero_le _)).symm⟩
  have hdone := hstart.elements hs.holes_or_whole (Nat.zero_add _) hbound
  exact ⟨⟨hdone.head.1, hdone.head.2, hdone.head.3, hdone.head.4, hdone.head.5,
    hdone.rank_eq.symm, hdone.head.7, hdone.head.8⟩, hdone.rank_eq.symm, hdone.done, hdone.chains,
    hdone.pointer⟩

/-! ## What the copies hold -/

theorem mem_pairs {k : HashKey} {v : V} :
    (k, v) ∈ source.pairs ↔ ∃ z, (k, z) ∈ source.entries ∧ z.value = some v := by
  rw [pairs, mem_filterMap]
  constructor
  · rintro ⟨⟨k', z⟩, hmem, heq⟩
    obtain ⟨v', hv', heq⟩ := map_eq_some_iff.mp heq
    obtain ⟨rfl, rfl⟩ := Prod.mk.inj heq
    exact ⟨z, hmem, hv'⟩
  · rintro ⟨z, hmem, hv⟩
    exact ⟨(k, z), hmem, by rw [hv]; rfl⟩

def slotPair (ht : HashTable (Zval V)) (i : Nat) : Option (HashKey × V) :=
  (ht.slotEntry i).bind fun e => e.2.value.map fun v => (e.1, v)

theorem pairs_eq_filterMap (ht : HashTable (Zval V)) :
    ht.pairs = (List.range ht.nNumUsed).filterMap ht.slotPair := by
  rw [pairs, entries, entriesUpTo, filterMap_filterMap]
  rfl

theorem slotPair_eq (hkey : (source.arData i).val.isSome = true →
      (target.arData j).toKey = (source.arData i).toKey)
    (hval : (target.arData j).val.bind Zval.value = (source.arData i).val.bind Zval.value) :
    target.slotPair j = source.slotPair i := by
  have hunfold : ∀ (ht : HashTable (Zval V)) (i : Nat), ht.slotPair i =
      ((ht.arData i).val.bind Zval.value).map fun v => ((ht.arData i).toKey, v) := by
    intro ht i
    unfold slotPair slotEntry
    cases (ht.arData i).val with
    | none => rfl
    | some z => rfl
  rw [hunfold, hunfold, hval]
  cases hsource : (source.arData i).val with
  | none => rfl
  | some z => rw [hkey (by rw [hsource]; rfl)]

theorem value_resolve (val : Option (Zval V)) :
    (resolve val).bind Zval.value = val.bind Zval.value := by
  unfold resolve
  split
  · rfl
  · exact congrArg some (ZvalData.value_copy _)
  · rename_i target
    cases target with
    | none => rfl
    | some d => exact congrArg some d.value_copy

theorem pairs_resolvedAt (source : HashTable (Zval V)) (self : Nat) :
    (source.resolvedAt self).pairs = source.pairs := by
  rw [pairs_eq_filterMap, pairs_eq_filterMap]
  exact filterMap_congr fun i _ => slotPair_eq (fun _ => rfl) (value_resolve _)

theorem Valid.findKey (hv : Valid target) (k : HashKey) :
    target.findKey k = .ok (hv.map.lookup k) := by
  cases k with
  | index h => exact hv.zendHashIndexFind h
  | str key => exact hv.zendHashFind key

theorem Valid.findKey_of_mem_pairs (hv : Valid target) {k : HashKey} {v : V}
    (hmem : (k, v) ∈ target.pairs) :
    ∃ z, target.findKey k = .ok (some z) ∧ z.value = some v := by
  obtain ⟨z, hentry, hvalue⟩ := mem_pairs.mp hmem
  exact ⟨z, by rw [hv.findKey, OrderedMap.lookup_eq_some_iff.mpr hentry], hvalue⟩

theorem data_of_resolve {val : Option (Zval V)} {z : Zval V} (h : resolve val = some z) :
    ∃ d, z = .data d := by
  unfold resolve at h
  split at h
  · cases h
  · exact ⟨_, (some.inj h).symm⟩
  · obtain ⟨d, -, rfl⟩ := map_eq_some_iff.mp h
    exact ⟨_, rfl⟩

theorem Valid.samePairs (hv : Valid target) (hpairs : target.pairs = source.pairs)
    (hdata : ∀ i < target.nNumUsed, ∀ z, (target.arData i).val = some z → ∃ d, z = .data d) :
    SamePairs source target where
  valid := hv
  pairs_eq := hpairs
  resolved := by
    rintro ⟨k, z⟩ hmem
    obtain ⟨i, hi, -, hval⟩ := mem_entries.mp hmem
    exact hdata i hi z hval
  find k v hmem := hv.findKey_of_mem_pairs (hpairs ▸ hmem)

theorem SamePairs.withPointer (h : SamePairs source target) (p : Nat) :
    SamePairs source { target with nInternalPointer := p } :=
  (h.valid.withCursor p target.nNextFreeElement target.htIterators).samePairs h.pairs_eq
    fun i hi z hval => by
      have hmem : ((target.arData i).toKey, z) ∈ target.entries :=
        mem_entries.mpr ⟨i, hi, rfl, hval⟩
      exact h.resolved _ hmem

theorem Valid.initialized (hv : Valid source) (hused : source.nNumUsed ≠ 0) :
    source.initialized = true := by
  cases hinit : source.initialized with
  | true => rfl
  | false => exact absurd (hv.uninit hinit).2.1 hused

theorem Sound.bound (h : Sound source) : source.nNumUsed < htInvalidIdx :=
  (h.used_le.trans h.size.le).trans_lt (by decide)

theorem duplicates_hashed_iff (h : Duplicable source false) (hused : source.nNumUsed ≠ 0)
    (hpacked : source.packed = false) :
    Duplicates source (source.zendArrayDup false self arData zNext) ↔
      PointerFits source false := by
  have hs := h.valid.toSound
  have hbound := hs.bound
  have hre := rehashed_dupElements hs self arData zNext
  dsimp only at hre
  unfold zendArrayDup
  dsimp only
  rw [if_neg hused, if_neg (by decide), if_neg (by rw [hpacked]; decide)]
  generalize dupElements source (!source.isWithoutHoles)
    (hashReset { source with self, arData, zNext }) 0 source.nNumUsed = dup at hre
  obtain ⟨ht, idx⟩ := dup
  dsimp only at hre ⊢
  have hpairs : SamePairs source { ht with nNumUsed := idx, nNumOfElements := idx } := by
    refine (hre.valid (hs.resolvedAt self) (h.valid.initialized hused) hpacked).samePairs ?_ ?_
    · rw [pairs, hre.compacted.entries_eq]
      exact pairs_resolvedAt source self
    · intro i hi z hval
      obtain ⟨k, -, -, -, hdata⟩ := hre.compacted.exists_bucket hi
      rw [hdata] at hval
      exact data_of_resolve hval
  have hidx : idx = source.copiedCount := hre.numUsed_eq
  have hle : idx ≤ source.nNumUsed := hidx ▸ Nat.count_le _
  have hpointer : ht.nInternalPointer =
      (source.resolvedAt self).movedPos source.nNumUsed source.nInternalPointer := hre.pointer
  have hlive : ∀ i < idx, ht.isLive i = true := fun i hi => hre.compacted.isLive hi
  by_cases hin : source.nInternalPointer < source.nNumUsed
  · have hon : source.isLive source.nInternalPointer = true := by
      rcases h.pointer with hend | ⟨-, hon⟩
      · exact absurd hin (by omega)
      · exact hon
    cases hcopied : (source.resolvedAt self).isLive source.nInternalPointer with
    | true =>
      have hmoved : ht.nInternalPointer =
          (source.resolvedAt self).rank source.nInternalPointer := by
        rw [hpointer, movedPos, if_pos ⟨hin, hcopied⟩]
      have hlt : ht.nInternalPointer < idx := by
        rw [hmoved, hidx]
        exact rank_lt_of_live hcopied hin
      rw [if_neg fun hend => absurd hend.2 (by omega)]
      have hdup : Duplicates source { ht with nNumUsed := idx, nNumOfElements := idx } :=
        { hpairs with
          sameElement := fun _ _ => ⟨hlt, hlive _ hlt, by
            show (ht.arData ht.nInternalPointer).toKey = _
            rw [hmoved]
            have hdata := hre.done _ hin hcopied
            exact (congrArg Bucket.toKey hdata).trans rfl⟩
          pointer := .inr ⟨hlt, hlive _ hlt⟩ }
      refine ⟨fun _ _ _ _ hdropped => ?_, fun _ => hdup⟩
      have hresolved : (resolve (source.arData source.nInternalPointer).val).isSome = true :=
        hcopied
      rw [hdropped] at hresolved
      cases hresolved
    | false =>
      -- the pointer stays
      have hstays : ht.nInternalPointer = source.nInternalPointer := by
        rw [hpointer, movedPos, if_neg fun hpos => by rw [hpos.2] at hcopied; cases hcopied]
      have hdropped : (source.arData source.nInternalPointer).val = some (.indirect none) := by
        have hnone : (resolve (source.arData source.nInternalPointer).val).isSome = false :=
          hcopied
        obtain ⟨z, hz⟩ := isSome_iff_exists.mp hon
        rw [hz] at hnone ⊢
        cases z with
        | data d => cases hnone
        | indirect t =>
          cases t with
          | none => rfl
          | some d => cases hnone
      rw [if_neg fun hend => absurd hend.2 (by omega)]
      constructor
      · intro hdup _ _ _ _
        rcases hdup.pointer with hend | ⟨hlt, -⟩
        · exact absurd (hstays.symm.trans hend) (by omega)
        · rw [← hidx, ← hstays]
          exact hlt
      · intro hfits
        have hlt : ht.nInternalPointer < idx := by
          rw [hstays, hidx]
          exact hfits rfl hpacked hin hdropped
        exact { hpairs with
          sameElement := fun _ hcopied' => by
            rw [hdropped] at hcopied'
            cases hcopied'
          pointer := .inr ⟨hlt, hlive _ hlt⟩ }
  · have hend : source.nInternalPointer = htInvalidIdx := by
      rcases h.pointer with hend | ⟨hlt, -⟩
      · exact hend
      · exact absurd hlt hin
    have hstays : ht.nInternalPointer = htInvalidIdx := by
      rw [hpointer, movedPos, if_neg fun hpos => hin hpos.1, hend]
    refine ⟨fun _ _ _ hin' => absurd hin' hin, fun _ => ?_⟩
    split
    · rename_i hsome
      exact { hpairs.withPointer 0 with
        sameElement := fun hin' => absurd hin' hin
        pointer := .inr ⟨hsome.1, hlive 0 hsome.1⟩ }
    · exact { hpairs with
        sameElement := fun hin' => absurd hin' hin
        pointer := .inl hstays }

/-! ## Copies slot by slot -/

theorem rank_congr {o ht : HashTable V} (h : ∀ k < n, ht.isLive k = o.isLive k) :
    ht.rank n = o.rank n := by
  induction n with
  | zero => rfl
  | succ n ih =>
    have hrank := ih fun k hk => h k (by omega)
    have hn := h n n.lt_succ_self
    cases hlive : o.isLive n with
    | true => rw [rank_succ_of_live hlive, rank_succ_of_live (hn.trans hlive), hrank]
    | false => rw [rank_succ_of_hole hlive, rank_succ_of_hole (hn.trans hlive), hrank]

/-- The bucket `q` is a copy of `p`. -/
structure SameSlot (p q : Bucket (Zval V)) : Prop where
  live : q.val.isSome = p.val.isSome
  value : q.val.bind Zval.value = p.val.bind Zval.value
  key : p.val.isSome = true → q.h = p.h ∧ q.key = p.key
  data : ∀ z, q.val = some z → ∃ d, z = .data d

/-- `target` has a copy of each slot of `source`. -/
structure SameSlots (source target : HashTable (Zval V)) : Prop where
  used : target.nNumUsed = source.nNumUsed
  elements : target.nNumOfElements = source.nNumOfElements
  size : target.nTableSize = source.nTableSize
  pointer : target.nInternalPointer = source.nInternalPointer
  slot : ∀ i < source.nNumUsed, SameSlot (source.arData i) (target.arData i)

theorem SameSlots.isLive (h : SameSlots source target) (hi : i < source.nNumUsed) :
    target.isLive i = source.isLive i := (h.slot i hi).live

theorem SameSlots.toKey (h : SameSlots source target) (hi : i < source.nNumUsed)
    (hlive : source.isLive i = true) : (target.arData i).toKey = (source.arData i).toKey := by
  rw [Bucket.toKey, Bucket.toKey, ((h.slot i hi).key hlive).1, ((h.slot i hi).key hlive).2]

theorem SameSlots.sound (h : SameSlots source target) (hs : Sound source) : Sound target where
  numOfElements := by
    rw [h.elements, hs.numOfElements, h.used]
    exact (rank_congr fun k hk => h.isLive hk).symm
  used_le := by
    rw [h.used, h.size]
    exact hs.used_le
  size := h.size ▸ hs.size
  hashed i hi hlive := by
    rw [h.used] at hi
    rw [h.isLive hi] at hlive
    rw [h.toKey hi hlive, ((h.slot i hi).key hlive).1]
    exact hs.hashed i hi hlive
  distinct i hi j hj hilive hjlive hkey := by
    rw [h.used] at hi hj
    rw [h.isLive hi] at hilive
    rw [h.isLive hj] at hjlive
    rw [h.toKey hi hilive, h.toKey hj hjlive] at hkey
    exact hs.distinct i hi j hj hilive hjlive hkey

theorem SameSlots.duplicates (h : SameSlots source target) (hv : target.Valid)
    (hs : Sound source) (hp : source.OnElementOrEnd source.nInternalPointer) :
    Duplicates source target.pointToFirst := by
  have hpairs : SamePairs source target := by
    refine hv.samePairs ?_ fun i hi => (h.slot i (h.used ▸ hi)).data
    rw [pairs_eq_filterMap, pairs_eq_filterMap, h.used]
    refine filterMap_congr fun i hi => ?_
    have hlt := mem_range.mp hi
    exact slotPair_eq (h.toKey hlt) (h.slot i hlt).value
  have hbound := hs.bound
  unfold pointToFirst
  rcases hp with hend | ⟨hin, hlive⟩
  · have hout : ¬source.nInternalPointer < source.nNumUsed := by omega
    split
    · rename_i hsome
      refine { hpairs.withPointer _ with
        sameElement := fun hin => absurd hin hout
        pointer := ?_ }
      rcases nextLive_spec target 0 target.nNumUsed with ⟨hnone, -⟩ | ⟨-, hlt, hnext⟩
      · exact .inl hnone
      · exact .inr ⟨Nat.lt_of_lt_of_eq hlt (Nat.zero_add _), hnext⟩
    · exact { hpairs with
        sameElement := fun hin => absurd hin hout
        pointer := .inl (h.pointer.trans hend) }
  · rw [if_neg fun hend => absurd (h.pointer.symm.trans hend.2) (by omega)]
    have hin' : target.nInternalPointer < target.nNumUsed := by
      rw [h.pointer, h.used]
      exact hin
    have hlive' : target.isLive target.nInternalPointer = true := by
      rw [h.pointer, h.isLive hin]
      exact hlive
    exact { hpairs with
      sameElement := fun _ _ => ⟨hin', hlive', by rw [h.pointer]; exact h.toKey hin hlive⟩
      pointer := .inr ⟨hin', hlive'⟩ }

theorem dupPackedElements_spec (hplain : ∀ k < source.nNumUsed, ∀ t,
      (source.arData k).val ≠ some (.indirect t))
    (hkeys : ∀ k < source.nNumUsed, source.isLive k = true → (source.arData k).key = none)
    (hwhole : withHoles = true ∨ ∀ k < source.nNumUsed, source.isLive k = true)
    (hn : i + n = source.nNumUsed) :
    ∃ arData, dupPackedElements source withHoles target i n = { target with arData } ∧
      (∀ k < i, arData k = target.arData k) ∧
      ∀ k, i ≤ k → k < source.nNumUsed → SameSlot (source.arData k) (arData k) := by
  -- induction on the slots from `i`
  induction n generalizing target i with
  | zero => exact ⟨target.arData, rfl, fun k _ => rfl, fun k hle hlt => absurd hlt (by omega)⟩
  | succ n ih =>
    unfold dupPackedElements
    dsimp only
    generalize hq : (match dupElement true withHoles (source.arData i).val with
      | some val => (⟨(source.arData i).h, none, val⟩ : Bucket (Zval V))
      | none => if withHoles then { target.arData i with val := none } else target.arData i) = q
    have hsame : SameSlot (source.arData i) q := by
      rw [← hq]
      cases hval : (source.arData i).val with
      | none =>
        have hdead : source.isLive i = false := by rw [isLive, hval]; rfl
        rcases hwhole with rfl | hall
        · exact ⟨by rw [hval]; rfl, by rw [hval]; rfl,
            fun hlive => absurd (hdead.symm.trans hlive) (by decide), fun z hz => by cases hz⟩
        · exact absurd (hdead.symm.trans (hall i (by omega))) (by decide)
      | some z =>
        cases z with
        | data d =>
          have hkey := hkeys i (by omega) (by rw [isLive, hval]; rfl)
          exact ⟨by rw [hval]; rfl, by rw [hval]; exact congrArg some d.value_copy,
            fun _ => ⟨rfl, hkey.symm⟩, fun z hz => ⟨d.copy, (some.inj hz).symm⟩⟩
        | indirect t => exact absurd hval (hplain i (by omega) t)
    obtain ⟨arData, heq, hbefore, hcopied⟩ :=
      @ih { target with arData := Function.update target.arData i q } (i + 1) (by omega)
    refine ⟨arData, heq, fun k hk => ?_, fun k hle hlt => ?_⟩
    · rw [hbefore k (by omega)]
      exact Function.update_of_ne (Nat.ne_of_lt hk) _ _
    · rcases Nat.lt_or_eq_of_le hle with hlt' | rfl
      · exact hcopied k hlt' hlt
      · rw [hbefore i i.lt_succ_self]
        show SameSlot (source.arData i) (Function.update target.arData i q i)
        rw [Function.update_self]
        exact hsame

theorem duplicates_packed (h : Duplicable source false) (hused : source.nNumUsed ≠ 0)
    (hpacked : source.packed = true) :
    Duplicates source (source.zendArrayDup false self arData zNext) := by
  have hs := h.valid.toSound
  have hslots := h.valid.slots hpacked
  obtain ⟨copied, heq, -, hcopied⟩ := @dupPackedElements_spec V source
    (hashReset { source with self, arData, zNext }) _ 0 source.nNumUsed (h.direct (.inl hpacked))
    (fun k hk hlive => (hslots k hk hlive).1) hs.holes_or_whole (Nat.zero_add _)
  unfold zendArrayDup
  dsimp only
  rw [if_neg hused, if_neg (by decide), if_pos hpacked, heq]
  have hsame : SameSlots source
      { hashReset { source with self, arData, zNext } with arData := copied } :=
    ⟨rfl, rfl, rfl, rfl, fun i hi => hcopied i (Nat.zero_le i) hi⟩
  refine hsame.duplicates ⟨hsame.sound hs, fun huninit => ?_, fun hhashed => ?_,
    fun _ i hi hlive => ?_, fun _ => ?_⟩ hs h.pointer
  · exact absurd (huninit.symm.trans (h.valid.initialized hused)) (by decide)
  · exact absurd (hhashed.symm.trans hpacked) (by decide)
  · have hlive' : source.isLive i = true := (hsame.isLive hi).symm.trans hlive
    obtain ⟨hh, hkey⟩ := (hsame.slot i hi).key hlive'
    rw [hh, hkey]
    exact hslots i hi hlive'
  · exact ⟨0, Nat.zero_le _, fun x => .inl rfl, fun i hi => absurd hi (Nat.not_lt_zero i)⟩

theorem duplicates_immutable (h : Duplicable source true) (hused : source.nNumUsed ≠ 0) :
    Duplicates source (source.zendArrayDup true self arData zNext) := by
  have hs := h.valid.toSound
  unfold zendArrayDup
  dsimp only
  rw [if_neg hused, if_pos rfl]
  have hdata : ∀ i < source.nNumUsed,
      (if i < source.nNumUsed then source.arData i else arData i) = source.arData i :=
    fun i hi => if_pos hi
  have hsame : SameSlots source { source with
      self
      arData := fun i => if i < source.nNumUsed then source.arData i else arData i
      zNext := fun i => if i < source.nNumUsed then source.zNext i else zNext i } := by
    refine ⟨rfl, rfl, rfl, rfl, fun i hi => ?_⟩
    dsimp only
    rw [hdata i hi]
    refine ⟨rfl, rfl, fun _ => ⟨rfl, rfl⟩, fun z hz => ?_⟩
    cases z with
    | data d => exact ⟨d, rfl⟩
    | indirect t => exact absurd hz (h.direct (.inr rfl) i hi t)
  refine hsame.duplicates ⟨hsame.sound hs, fun huninit => ?_, fun hhashed x => ?_,
    fun hpacked i hi hlive => ?_, fun hpacked => ?_⟩ hs h.pointer
  · exact absurd (huninit.symm.trans (h.valid.initialized hused)) (by decide)
  · have hchain := h.valid.chains hhashed x
    have hslots : chainSlots { source with
        self
        arData := fun i => if i < source.nNumUsed then source.arData i else arData i
        zNext := fun i => if i < source.nNumUsed then source.zNext i else zNext i }
        source.nNumUsed x = source.chainSlots source.nNumUsed x :=
      chainSlots_congr rfl hdata
    rw [hslots]
    exact hchain.frame fun i hi => if_pos (mem_chainSlots.mp hi).1
  · have hlive' : source.isLive i = true := (hsame.isLive hi).symm.trans hlive
    dsimp only
    rw [hdata i hi]
    exact h.valid.slots hpacked i hi hlive'
  · exact ⟨0, Nat.zero_le _, fun x => .inl (h.built rfl hpacked x),
      fun i hi => absurd hi (Nat.not_lt_zero i)⟩

theorem duplicates_empty (h : Duplicable source immutable) (hused : source.nNumUsed = 0) :
    Duplicates source (source.zendArrayDup immutable self arData zNext) := by
  unfold zendArrayDup
  dsimp only
  rw [if_pos hused]
  have hnone : ∀ {i : Nat}, ¬i < source.nNumUsed := by omega
  have hv : Valid { hashReset { source with self, arData, zNext } with
      initialized := false
      packed := false
      nTableMask := htMinMask
      nNumOfElements := 0
      nNextFreeElement := 0
      nInternalPointer := htInvalidIdx } := by
    refine ⟨⟨?_, h.valid.used_le, h.valid.size, fun i hi => absurd hi hnone,
      fun i hi => absurd hi hnone⟩, fun _ => ⟨rfl, hused, fun _ => rfl⟩, fun _ x => ?_,
      fun hpacked => ?_, fun hpacked => ?_⟩
    · show 0 = Nat.count _ source.nNumUsed
      rw [hused, Nat.count_zero]
    · unfold chainSlots
      dsimp only [hashReset]
      rw [hused]
      rfl
    · cases hpacked
    · cases hpacked
  refine { hv.samePairs ?_ (fun i hi => absurd hi hnone) with
    sameElement := fun hin => absurd hin hnone
    pointer := .inl rfl }
  rw [pairs_eq_filterMap, pairs_eq_filterMap]
  dsimp only [hashReset]
  rw [hused]
  rfl

/-- **zend_array_dup** copies a table faithfully if and only if `nInternalPointer` is not on an
element that is not copied, or the copy uses that slot. -/
theorem zendArrayDup_iff (h : Duplicable source immutable) (self : Nat)
    (arData : Nat → Bucket (Zval V)) (zNext : Nat → Nat) :
    Duplicates source (source.zendArrayDup immutable self arData zNext) ↔
      PointerFits source immutable := by
  by_cases hused : source.nNumUsed = 0
  · exact ⟨fun _ _ _ hin => absurd hin (by omega), fun _ => duplicates_empty h hused⟩
  · cases immutable with
    | true => exact ⟨fun _ hmutable => (by cases hmutable), fun _ => duplicates_immutable h hused⟩
    | false =>
      cases hpacked : source.packed with
      | true =>
        exact ⟨fun _ _ hhashed => absurd (hpacked.symm.trans hhashed) (by decide),
          fun _ => duplicates_packed h hused hpacked⟩
      | false => exact duplicates_hashed_iff h hused hpacked

/-! ## An object without its second property -/

def emptyProperties : HashTable (Zval Nat) where
  self := 0
  initialized := false
  packed := false
  nIteratorsCount := 0
  nTableMask := htMinMask
  arData _ := ⟨0, none, none⟩
  zNext _ := htInvalidIdx
  hash _ := htInvalidIdx
  nNumUsed := 0
  nNumOfElements := 0
  nTableSize := 8
  nInternalPointer := htInvalidIdx
  nNextFreeElement := 0
  htIterators := []

/-- The table of the declared properties `a` and `b`, where `b` has been unset while
`nInternalPointer` was on it. -/
def propertyTable : HashTable (Zval Nat) :=
  { ((emptyProperties.zendHashRealInitEx false).addToHash (zendInlineHashFunc [0x61]) (some [0x61])
      (.indirect (some (.plain 1)))).addToHash (zendInlineHashFunc [0x62]) (some [0x62])
      (.indirect none) with
    nInternalPointer := 1 }

theorem duplicable_propertyTable : Duplicable propertyTable false := by
  have hinit : zendHashInit 0 (fun _ => ⟨0, none, none⟩) (fun _ => htInvalidIdx) [] 8 =
      .ok emptyProperties := rfl
  have hv := ((Valid.zendHashInit hinit).1.zendHashRealInitEx rfl false).1.valid
  have hv₁ := (hv.addToHash (k := .str [0x61]) (v := .indirect (some (.plain 1))) rfl rfl
    (by decide) (by decide)).1.valid
  have hv₂ := (hv₁.addToHash (k := .str [0x62]) (v := .indirect none) rfl rfl (by decide)
    (by decide)).1.valid
  exact ⟨hv₂.withCursor 1 _ _, .inr ⟨by decide, by decide⟩,
    fun hkind => hkind.elim (fun hpacked => by cases hpacked)
      (fun himmutable => by cases himmutable), fun himmutable => by cases himmutable⟩

theorem zendArrayDup_iff_propertyTable :
    Duplicates propertyTable (propertyTable.zendArrayDup false 1 (fun _ => ⟨0, none, none⟩)
        fun _ => 0) ↔ PointerFits propertyTable false :=
  zendArrayDup_iff duplicable_propertyTable 1 _ _

/-- The copy has one element, in slot 0, and its pointer on slot 1. -/
theorem not_duplicates_propertyTable :
    ¬∀ (source : HashTable (Zval Nat)) (immutable : Bool) (self : Nat)
      (arData : Nat → Bucket (Zval Nat)) (zNext : Nat → Nat), Duplicable source immutable →
        Duplicates source (source.zendArrayDup immutable self arData zNext) := by
  intro hall
  have hdup := hall propertyTable false 1 (fun _ => ⟨0, none, none⟩) (fun _ => 0)
    duplicable_propertyTable
  have hat : (propertyTable.zendArrayDup false 1 (fun _ => ⟨0, none, none⟩)
      fun _ => 0).nInternalPointer = 1 := by decide
  have hused : (propertyTable.zendArrayDup false 1 (fun _ => ⟨0, none, none⟩)
      fun _ => 0).nNumUsed = 1 := by decide
  rcases hdup.pointer with hend | ⟨hlt, -⟩
  · rw [hat] at hend
    exact absurd hend (by decide)
  · rw [hat, hused] at hlt
    omega

end HashTable

end Phpce
