import Phpce.Hash.Operations

/-!
# Sizes and representations of a HashTable

Initialisation, growth, rehashing and the conversions between hashed and packed tables keep the
entries: `Converted o ht`.

* `Hashed.ifFullDoResize`: a full table gets room.
* `Valid.zendHashRehash`, `Valid.zendHashPackedToHash`, `Valid.zendHashToPacked`,
  `Valid.zendHashExtend`: one function of the source.
-/

namespace Phpce.HashTable

variable {V : Type*} {o ht : HashTable V} {i n : Nat}

/-! ## Sizes and representations -/

/-- A table in another representation, or of another size. -/
structure Converted (o ht : HashTable V) : Prop where
  valid : ht.Valid
  entries_eq : ht.entries = o.entries
  next_eq : ht.nNextFreeElement = o.nNextFreeElement

/-- A hashed table that holds what `o` does. -/
structure Hashed (o ht : HashTable V) : Prop extends Converted o ht where
  initialized : ht.initialized = true
  hashed : ht.packed = false

theorem Valid.converted (hv : Valid ht) : Converted ht ht := ⟨hv, rfl, rfl⟩

theorem Valid.toHashed (hv : Valid ht) (hinit : ht.initialized = true)
    (hpacked : ht.packed = false) : Hashed ht ht := ⟨hv.converted, hinit, hpacked⟩

theorem Valid.zendHashInit {self : Nat} {arData : Nat → Bucket V} {zNext : Nat → Nat}
    {iters : List HashTableIterator} {nSize : Nat}
    (hok : zendHashInit self arData zNext iters nSize = .ok ht) :
    Valid ht ∧ ht.entries = [] ∧ ht.nNextFreeElement = 0 := by
  unfold HashTable.zendHashInit at hok
  cases hsize : zendHashCheckSize nSize with
  | error stop =>
    rw [hsize] at hok
    cases hok
  | ok n =>
    rw [hsize] at hok
    obtain rfl := Except.ok.inj hok
    have hnone : ∀ i, ¬i < 0 := Nat.not_lt_zero
    refine ⟨⟨⟨rfl, Nat.zero_le _, (zendHashCheckSize_ok hsize).1, fun i hi => absurd hi (hnone i),
      fun i hi => absurd hi (hnone i)⟩, fun _ => ⟨rfl, rfl, fun _ => rfl⟩, fun _ _ => rfl,
      fun hpacked => ?_, fun hpacked => ?_⟩, rfl, rfl⟩
    · cases hpacked
    · cases hpacked

theorem Valid.zendHashRealInitEx (hv : Valid ht) (huninit : ht.initialized = false)
    (packed : Bool) : Converted ht (ht.zendHashRealInitEx packed) ∧
      (ht.zendHashRealInitEx packed).initialized = true ∧
      (ht.zendHashRealInitEx packed).packed = packed := by
  obtain ⟨hpacked, hused, -⟩ := hv.uninit huninit
  have hnone : ∀ i, ¬i < ht.nNumUsed := fun i hi => absurd hi (by omega)
  unfold HashTable.zendHashRealInitEx
  cases packed with
  | true =>
    refine ⟨⟨⟨⟨hv.1.1, hv.1.2, hv.1.3, hv.1.4, hv.1.5⟩, fun h => ?_, fun h => ?_,
      fun _ i hi => absurd hi (hnone i), fun _ => ⟨0, Nat.zero_le _, fun _ => .inl rfl,
        fun i hi => absurd hi (Nat.not_lt_zero i)⟩⟩, rfl, rfl⟩, rfl, rfl⟩
    · cases h
    · cases h
  | false =>
    refine ⟨⟨⟨⟨hv.1.1, hv.1.2, hv.1.3, hv.1.4, hv.1.5⟩, fun h => ?_, fun _ x => ?_, fun h => ?_,
      fun h => ?_⟩, rfl, rfl⟩, rfl, hpacked⟩
    · cases h
    · have hempty : ht.nNumUsed = 0 := hused
      rw [if_neg (by decide)]
      change Chain.IsChain _ htInvalidIdx htInvalidIdx (HashTable.chainSlots _ ht.nNumUsed x)
      rw [hempty]
      rfl
    · exact absurd (hpacked.symm.trans h) (by decide)
    · exact absurd (hpacked.symm.trans h) (by decide)

@[simp] theorem nNumUsed_realInitEx (ht : HashTable V) (packed : Bool) :
    (ht.zendHashRealInitEx packed).nNumUsed = ht.nNumUsed := by
  cases packed <;> rfl

@[simp] theorem nTableSize_realInitEx (ht : HashTable V) (packed : Bool) :
    (ht.zendHashRealInitEx packed).nTableSize = ht.nTableSize := by
  cases packed <;> rfl

theorem RehashedFrom.converted (hr : RehashedFrom o ht) : Converted o ht :=
  ⟨hr.valid, hr.entries_eq, hr.head.nextFree_eq⟩

structure Ready (o ht : HashTable V) : Prop extends Hashed o ht where
  room : ht.nNumUsed < ht.nTableSize

theorem Hashed.zendHashDoResize (hh : Hashed o ht) :
    ht.zendHashDoResize = .error .possibleIntegerOverflow ∨
      ∃ ht', ht.zendHashDoResize = .ok ht' ∧ Ready o ht' := by
  unfold HashTable.zendHashDoResize
  split
  · -- compaction makes room
    rename_i hholes
    have hr := hh.valid.toSound.rehash hh.initialized hh.hashed
    refine .inr ⟨_, rfl, ⟨⟨⟨hr.valid, hr.entries_eq.trans hh.entries_eq,
      hr.head.nextFree_eq.trans hh.next_eq⟩, hr.head.initialized_eq.trans hh.initialized,
      hr.head.packed_eq.trans hh.hashed⟩, ?_⟩⟩
    have hle := hh.valid.used_le
    rw [hr.used_eq, hr.head.numOfElements_eq, hr.head.tableSize_eq]
    omega
  · split
    · -- the table is doubled
      rename_i hsize
      have hsound : Sound { ht with
          nTableSize := ht.nTableSize + ht.nTableSize
          nTableMask := tableMask (ht.nTableSize + ht.nTableSize) } :=
        ⟨hh.valid.1.1, hh.valid.used_le.trans (Nat.le_add_right _ _), hh.valid.size.double hsize,
          hh.valid.1.4, hh.valid.1.5⟩
      have hr := hsound.rehash hh.initialized hh.hashed
      refine .inr ⟨_, rfl, ⟨⟨⟨hr.valid, hr.entries_eq.trans hh.entries_eq,
        hr.head.nextFree_eq.trans hh.next_eq⟩, hr.head.initialized_eq.trans hh.initialized,
        hr.head.packed_eq.trans hh.hashed⟩, ?_⟩⟩
      have hle := hh.valid.used_le
      have hpos := hh.valid.size.pos
      have helems : ht.nNumOfElements ≤ ht.nNumUsed :=
        hh.valid.numOfElements.trans_le (ht.rank_le _)
      rw [hr.used_eq, hr.head.numOfElements_eq, hr.head.tableSize_eq]
      dsimp only
      omega
    · exact .inl rfl

theorem Hashed.ifFullDoResize (hh : Hashed o ht) :
    ht.ifFullDoResize = .error .possibleIntegerOverflow ∨
      ∃ ht', ht.ifFullDoResize = .ok ht' ∧ Ready o ht' := by
  unfold HashTable.ifFullDoResize
  split
  · exact hh.zendHashDoResize
  · rename_i hroom
    exact .inr ⟨ht, rfl, hh, Nat.lt_of_not_le hroom⟩

theorem Valid.zendHashPackedToHash (hv : Valid ht) (hpacked : ht.packed = true) :
    Hashed ht ht.zendHashPackedToHash := by
  have hinit : ht.initialized = true := by
    cases hinit : ht.initialized with
    | true => rfl
    | false => exact absurd ((hv.uninit hinit).1.symm.trans hpacked) (by decide)
  have hsound : Sound { ht with packed := false, nTableMask := tableMask ht.nTableSize } :=
    ⟨hv.1.1, hv.1.2, hv.1.3, hv.1.4, hv.1.5⟩
  have hr := hsound.rehash hinit rfl
  exact ⟨⟨hr.valid, hr.entries_eq, hr.head.nextFree_eq⟩, hr.head.initialized_eq.trans hinit,
    hr.head.packed_eq⟩

theorem Sound.rank_eq_of_withoutHoles (hs : Sound ht) (hholes : ht.isWithoutHoles = true) :
    ht.rank ht.nNumUsed = ht.nNumUsed := by
  rw [← hs.numOfElements]
  exact (beq_iff_eq.mp hholes).symm

theorem next_lt_of_isChain {next : Nat → Nat} {nil head : Nat} {xs : List Nat}
    (hchain : Chain.IsChain next nil head xs) (hdesc : xs.Pairwise (· > ·)) (hi : i ∈ xs) :
    next i = nil ∨ next i < i := by
  -- induction on the chain
  induction xs generalizing head with
  | nil => cases hi
  | cons x xs ih =>
    obtain ⟨-, -, hrest⟩ := hchain
    obtain ⟨hlt, hdesc⟩ := List.pairwise_cons.mp hdesc
    rcases List.mem_cons.mp hi with rfl | hi
    · cases xs with
      | nil => exact .inl hrest
      | cons y ys =>
        rw [hrest.1]
        exact .inr (hlt y List.mem_cons_self)
    · exact ih hrest hdesc hi

theorem Valid.zendHashRehash_packed (hv : Valid ht) (hpacked : ht.packed = true)
    (hholes : ht.isWithoutHoles = true ∨ ht.nNumOfElements = 0) :
    Converted ht ht.zendHashRehash := by
  have hinit : ht.initialized = true := by
    cases hinit : ht.initialized with
    | true => rfl
    | false => exact absurd ((hv.uninit hinit).1.symm.trans hpacked) (by decide)
  have hdone := (hv.toSound.counted fun huninit =>
    absurd (hinit.symm.trans huninit) (by decide)).rehashed
  -- the buckets stay where they are
  have hdata : ∀ i < ht.zendHashRehash.nNumUsed, i < ht.nNumUsed ∧ ht.isLive i = true ∧
      ht.zendHashRehash.arData i = ht.arData i := by
    intro i hi
    obtain ⟨j, hj, hlive, hrank, hdata⟩ := hdone.compacted.exists_bucket hi
    have hrankj : ht.rank j = j := by
      rcases hholes with hholes | hzero
      · have hall := hv.toSound.rank_eq_of_withoutHoles hholes
        exact rank_eq_of_live fun l hl => live_of_rank_eq hall (by omega)
      · have hpos := rank_lt_of_live hlive hj
        have hnum := hv.numOfElements
        omega
    obtain rfl : j = i := hrankj.symm.trans hrank
    exact ⟨hj, hlive, hdata⟩
  refine ⟨⟨hdone.compacted.sound hv.toSound, fun huninit => ?_, fun hhash => ?_, fun _ i hi _ => ?_,
    fun _ => ⟨ht.zendHashRehash.nNumUsed, (hdone.compacted.sound hv.toSound).used_le, fun x => ?_,
      fun i hi => ⟨?_, ?_⟩⟩⟩, hdone.compacted.entries_eq, hdone.head.nextFree_eq⟩
  · exact absurd (hinit.symm.trans (hdone.head.initialized_eq.symm.trans huninit)) (by decide)
  · exact absurd (hpacked.symm.trans (hdone.head.packed_eq.symm.trans hhash)) (by decide)
  · obtain ⟨hlt, hlive, heq⟩ := hdata i hi
    rw [heq]
    exact hv.slots hpacked i hlt hlive
  · have hchain := hdone.isChain x
    cases hslots : ht.zendHashRehash.chainSlots ht.zendHashRehash.nNumUsed x with
    | nil =>
      rw [hslots] at hchain
      exact .inl hchain
    | cons y ys =>
      have hy : y ∈ ht.zendHashRehash.chainSlots ht.zendHashRehash.nNumUsed x := by
        rw [hslots]
        exact List.mem_cons_self
      rw [hslots] at hchain
      exact .inr (hchain.1 ▸ (mem_chainSlots.mp hy).1)
  · obtain ⟨hlt, hlive, heq⟩ := hdata i hi
    rw [heq]
    exact (hv.slots hpacked i hlt hlive).1
  · refine next_lt_of_isChain
      (hdone.isChain (ht.zendHashRehash.nIndex (ht.zendHashRehash.arData i).h)) ?_
      (mem_chainSlots.mpr ⟨hi, hdone.compacted.isLive hi, rfl⟩)
    exact List.pairwise_reverse.mpr (List.pairwise_lt_range.filter _)

theorem zendHashCheckSize_cases (nSize : Nat) :
    zendHashCheckSize nSize = .error .possibleIntegerOverflow ∨
      ∃ n, zendHashCheckSize nSize = .ok n := by
  unfold zendHashCheckSize
  split
  · exact .inr ⟨_, rfl⟩
  · split
    · exact .inl rfl
    · exact .inr ⟨_, rfl⟩

/-- What `zend_hash_rehash` is used for: hashed tables, and packed ones that stay as they are. -/
def Rehashable (ht : HashTable V) : Prop :=
  ht.packed = true → ht.isWithoutHoles = true ∨ ht.nNumOfElements = 0

theorem Valid.zendHashRehash (hv : Valid ht) (hre : ht.Rehashable) :
    Converted ht ht.zendHashRehash := by
  cases hpacked : ht.packed with
  | true => exact hv.zendHashRehash_packed hpacked (hre hpacked)
  | false =>
    cases hinit : ht.initialized with
    | true => exact (hv.toSound.rehash hinit hpacked).converted
    | false =>
      have hnone : ht.nNumOfElements = 0 := by
        rw [hv.numOfElements, (hv.uninit hinit).2.1]
        exact rank_zero
      have hsame : ht.zendHashRehash = ht := by
        unfold HashTable.zendHashRehash
        rw [if_pos hnone, if_neg (by rw [hinit]; decide)]
      rw [hsame]
      exact hv.converted

/-- Each slot in use is a hole or holds the integer key of its number. -/
def Packable (ht : HashTable V) : Prop :=
  ht.initialized = true ∧ ht.packed = false ∧
    ∀ i < ht.nNumUsed, ht.isLive i = true → (ht.arData i).key = none ∧ (ht.arData i).h.toNat = i

theorem Valid.zendHashToPacked (hv : Valid ht) (hp : ht.Packable) :
    Converted ht ht.zendHashToPacked := by
  obtain ⟨hinit, -, hslots⟩ := hp
  refine ⟨⟨⟨hv.1.1, hv.1.2, hv.1.3, hv.1.4, hv.1.5⟩, fun h => ?_, fun h => ?_, fun _ => hslots,
    fun _ => ⟨0, Nat.zero_le _, fun _ => .inl rfl, fun i hi => absurd hi (Nat.not_lt_zero i)⟩⟩,
    rfl, rfl⟩
  · exact absurd (hinit.symm.trans h) (by decide)
  · cases h

theorem Valid.withTableSize (hv : Valid ht) (hsize : IsTableSize n) (hle : ht.nTableSize ≤ n) :
    Converted ht { ht with nTableSize := n } := by
  refine ⟨⟨⟨hv.1.1, hv.used_le.trans hle, hsize, hv.1.4, hv.1.5⟩, hv.uninit, hv.chains, hv.slots,
    fun h => ?_⟩, rfl, rfl⟩
  obtain ⟨bound, hbound, hrest⟩ := hv.noStrings h
  exact ⟨bound, hbound.trans hle, hrest⟩

theorem Valid.zendHashExtend (hv : Valid ht) (nSize : Nat) {packed : Bool}
    (hpacked : ht.initialized = true → packed = ht.packed) :
    ht.zendHashExtend nSize packed = .error .possibleIntegerOverflow ∨
      ∃ ht', ht.zendHashExtend nSize packed = .ok ht' ∧ Converted ht ht' := by
  unfold HashTable.zendHashExtend
  split
  · exact .inr ⟨ht, rfl, hv.converted⟩
  · split
    · rename_i huninit
      have huninit : ht.initialized = false := by simpa using huninit
      split
      · rename_i hlt
        rcases zendHashCheckSize_cases nSize with hcheck | ⟨n, hcheck⟩
        · exact .inl (by rw [hcheck]; rfl)
        · rw [hcheck]
          obtain ⟨hsize, hle⟩ := zendHashCheckSize_ok hcheck
          have hw := hv.withTableSize hsize (by omega)
          have hreal := (hw.valid.zendHashRealInitEx huninit packed).1
          exact .inr ⟨_, rfl, hreal.valid, hreal.entries_eq.trans hw.entries_eq,
            hreal.next_eq.trans hw.next_eq⟩
      · exact .inr ⟨_, rfl, (hv.zendHashRealInitEx huninit packed).1⟩
    · rename_i hinit
      have hinit : ht.initialized = true := by simpa using hinit
      split
      · rename_i hlt
        rcases zendHashCheckSize_cases nSize with hcheck | ⟨n, hcheck⟩
        · exact .inl (by rw [hcheck]; rfl)
        · rw [hcheck]
          obtain ⟨hsize, hle⟩ := zendHashCheckSize_ok hcheck
          refine .inr ⟨_, rfl, ?_⟩
          cases packed with
          | true =>
            exact hv.withTableSize hsize (by omega)
          | false =>
            have hsound : Sound { ht with nTableSize := n, nTableMask := tableMask n } :=
              ⟨hv.1.1, hv.used_le.trans (show ht.nTableSize ≤ n by omega), hsize, hv.1.4, hv.1.5⟩
            have hr := hsound.rehash hinit (hpacked hinit).symm
            exact ⟨hr.valid, hr.entries_eq, hr.head.nextFree_eq⟩
      · exact .inr ⟨_, rfl, hv.converted⟩

end Phpce.HashTable
