import Mathlib.Data.Nat.Count
import Phpce.Hash.Basic

/-!
# zend_hash_rehash

Rehashing closes the holes and threads every chain anew.

* `rank ht i` is the number of buckets in the slots below `i`. `Rehashing o ht i j` is the
  invariant of all loops of `zend_hash_rehash`: of the buckets of the table `o`, those below slot
  `i` are done, and the next one goes to slot `j`.
* **`Counted.rehashed`**: the bucket in slot `i` ends in slot `rank i`, `nInternalPointer` stays
  with its bucket, and every chain holds its buckets, the newest first.
-/

namespace Phpce.HashTable

open List
open Function (update update_of_ne update_self)

variable {V : Type*} {o ht : HashTable V} {i j k n : Nat}

/-! ## Ranks -/

/-- How many buckets stand below slot `i`. -/
def rank (ht : HashTable V) (i : Nat) : Nat := Nat.count (fun k => ht.isLive k = true) i

@[simp] theorem rank_zero : ht.rank 0 = 0 := Nat.count_zero _

theorem rank_succ_of_live (h : ht.isLive i = true) : ht.rank (i + 1) = ht.rank i + 1 := by
  rw [rank, Nat.count_succ, if_pos h, rank]

theorem rank_succ_of_hole (h : ht.isLive i = false) : ht.rank (i + 1) = ht.rank i := by
  rw [rank, Nat.count_succ, if_neg (by simp [h]), rank, Nat.add_zero]

theorem rank_le (ht : HashTable V) (i : Nat) : ht.rank i ≤ i := Nat.count_le _

theorem rank_lt_of_live (h : ht.isLive i = true) (hik : i < k) : ht.rank i < ht.rank k :=
  Nat.count_strict_mono h hik

theorem rank_injective (hi : ht.isLive i = true) (hk : ht.isLive k = true)
    (h : ht.rank i = ht.rank k) : i = k :=
  Nat.count_injective hi hk h

theorem rank_lt_of_hole (hk : ht.isLive k = false) (hki : k < i) : ht.rank i < i := by
  induction i with
  | zero => omega
  | succ i ih =>
    rcases Nat.lt_succ_iff_lt_or_eq.mp hki with hlt | rfl
    · have hrank := ih hlt
      cases hi : ht.isLive i with
      | true => rw [rank_succ_of_live hi]; omega
      | false => rw [rank_succ_of_hole hi]; omega
    · rw [rank_succ_of_hole hk]
      exact Nat.lt_succ_of_le (ht.rank_le k)

theorem rank_eq_of_live (h : ∀ k < i, ht.isLive k = true) : ht.rank i = i := by
  induction i with
  | zero => exact rank_zero
  | succ i ih =>
    rw [rank_succ_of_live (h i i.lt_succ_self), ih fun k hk => h k (by omega)]

theorem exists_rank_eq (h : j < ht.rank i) : ∃ k < i, ht.isLive k = true ∧ ht.rank k = j := by
  induction i with
  | zero => exact absurd h (by simp)
  | succ i ih =>
    cases hi : ht.isLive i with
    | true =>
      rw [rank_succ_of_live hi] at h
      rcases Nat.lt_succ_iff_lt_or_eq.mp h with hlt | heq
      · obtain ⟨k, hk, hlive, hrank⟩ := ih hlt
        exact ⟨k, by omega, hlive, hrank⟩
      · exact ⟨i, by omega, hi, heq.symm⟩
    | false =>
      rw [rank_succ_of_hole hi] at h
      obtain ⟨k, hk, hlive, hrank⟩ := ih h
      exact ⟨k, by omega, hlive, hrank⟩

theorem live_of_rank_eq (h : ht.rank n = n) (hi : i < n) : ht.isLive i = true := by
  cases hlive : ht.isLive i with
  | true => rfl
  | false =>
    have hlt := rank_lt_of_hole hlive hi
    omega

/-! ## The chains of slots without holes -/

/-- Every chain holds its buckets among the slots below `j`, the newest first. -/
def ChainsUpTo (ht : HashTable V) (j : Nat) : Prop :=
  ∀ x, Chain.IsChain ht.zNext htInvalidIdx (ht.hash x)
    ((List.range j).filter fun k => ht.nIndex (ht.arData k).h = x).reverse

theorem chainsUpTo_hashReset : ht.hashReset.ChainsUpTo 0 := fun _ => rfl

theorem ChainsUpTo.link (h : ht.ChainsUpTo j) (hj : j < htInvalidIdx) :
    (ht.link j).ChainsUpTo (j + 1) := by
  intro x
  have hmem : ∀ k ∈ ((List.range j).filter fun k => ht.nIndex (ht.arData k).h = x).reverse,
      k ≠ j := by
    intro k hk
    have hlt : k < j := mem_range.mp (mem_of_mem_filter (mem_reverse.mp hk))
    omega
  change Chain.IsChain (update ht.zNext j (ht.hash (ht.nIndex (ht.arData j).h)))
    htInvalidIdx (update ht.hash (ht.nIndex (ht.arData j).h) j x)
    ((List.range (j + 1)).filter fun k => ht.nIndex (ht.arData k).h = x).reverse
  rw [range_succ, filter_append, reverse_append]
  by_cases hx : ht.nIndex (ht.arData j).h = x
  · -- the bucket becomes the head of this chain
    subst hx
    rw [update_self, filter_cons_of_pos (by simp)]
    exact (h _).push (by omega) fun hin => hmem j hin rfl
  · rw [update_of_ne (Ne.symm hx), filter_cons_of_neg (by simpa using hx)]
    apply (h x).frame
    intro k hk
    exact update_of_ne (hmem k hk) _ _

/-! ## One step of the loops -/

/-- Where a position on the bucket in slot `p` stands when the slots below `i` are done. -/
def movedPos (o : HashTable V) (i p : Nat) : Nat :=
  if p < i ∧ o.isLive p = true then o.rank p else p

structure SameHead (o ht : HashTable V) : Prop where
  self_eq : ht.self = o.self
  initialized_eq : ht.initialized = o.initialized
  packed_eq : ht.packed = o.packed
  iteratorsCount_eq : ht.nIteratorsCount = o.nIteratorsCount
  tableMask_eq : ht.nTableMask = o.nTableMask
  numOfElements_eq : ht.nNumOfElements = o.nNumOfElements
  tableSize_eq : ht.nTableSize = o.nTableSize
  nextFree_eq : ht.nNextFreeElement = o.nNextFreeElement

/-- Of the buckets of `o` those below slot `i` are done, the next one goes to slot `j`. -/
structure Rehashing (o ht : HashTable V) (i j : Nat) : Prop where
  head : SameHead o ht
  numUsed_eq : ht.nNumUsed = o.nNumUsed
  rank_eq : o.rank i = j
  done : ∀ k < i, o.isLive k = true → ht.arData (o.rank k) = o.arData k
  rest : ∀ k ≥ i, ht.arData k = o.arData k
  chains : ht.ChainsUpTo j
  pointer : ht.nInternalPointer = o.movedPos i o.nInternalPointer

theorem Rehashing.isLive_eq (h : Rehashing o ht i j) : ht.isLive i = o.isLive i := by
  rw [isLive, h.rest i le_rfl, isLive]

theorem movedPos_succ_of_hole (p : Nat) (h : o.isLive i = false) :
    o.movedPos (i + 1) p = o.movedPos i p := by
  unfold movedPos
  by_cases hp : p = i
  · subst hp
    simp [h]
  · simp only [show p < i + 1 ↔ p < i by omega]

theorem movedPos_succ_of_ne {p : Nat} (h : p ≠ i) : o.movedPos (i + 1) p = o.movedPos i p := by
  unfold movedPos
  simp only [show p < i + 1 ↔ p < i by omega]

theorem movedPos_lt {p : Nat} (h : p < i) : o.movedPos i p < i := by
  unfold movedPos
  split
  · exact Nat.lt_of_le_of_lt (o.rank_le p) h
  · exact h

theorem movedPos_of_le {p : Nat} (h : i ≤ p) : o.movedPos i p = p := by
  unfold movedPos
  exact if_neg (by omega)

theorem rehashing_start (o : HashTable V) : Rehashing o o.hashReset 0 0 where
  head := by constructor <;> rfl
  numUsed_eq := rfl
  rank_eq := rank_zero
  done k hk := absurd hk (Nat.not_lt_zero k)
  rest k _ := rfl
  chains := chainsUpTo_hashReset
  pointer := (movedPos_of_le (Nat.zero_le _)).symm

theorem Rehashing.skip (h : Rehashing o ht i j) (hole : o.isLive i = false) :
    Rehashing o ht (i + 1) j where
  head := h.head
  numUsed_eq := h.numUsed_eq
  rank_eq := by rw [rank_succ_of_hole hole, h.rank_eq]
  done k hk hlive := by
    rcases Nat.lt_succ_iff_lt_or_eq.mp hk with hlt | rfl
    · exact h.done k hlt hlive
    · exact absurd (hole.symm.trans hlive) (by simp)
  rest k hk := h.rest k (by omega)
  chains := h.chains
  pointer := by rw [movedPos_succ_of_hole _ hole, h.pointer]

theorem Rehashing.link (h : Rehashing o ht i i) (hlive : o.isLive i = true)
    (hi : i < htInvalidIdx) : Rehashing o (ht.link i) (i + 1) (i + 1) where
  head := ⟨h.head.1, h.head.2, h.head.3, h.head.4, h.head.5, h.head.6, h.head.7, h.head.8⟩
  numUsed_eq := h.numUsed_eq
  rank_eq := by rw [rank_succ_of_live hlive, h.rank_eq]
  done k hk hklive := by
    rcases Nat.lt_succ_iff_lt_or_eq.mp hk with hlt | rfl
    · exact h.done k hlt hklive
    · rw [h.rank_eq]
      exact h.rest k le_rfl
  rest k hk := h.rest k (by omega)
  chains := h.chains.link hi
  pointer := by
    by_cases hp : o.nInternalPointer = i
    · have hpointer := h.pointer
      rw [movedPos_of_le (by omega)] at hpointer
      rw [movedPos, if_pos ⟨by omega, hp ▸ hlive⟩, hp, h.rank_eq]
      exact hpointer.trans hp
    · rw [movedPos_succ_of_ne hp]
      exact h.pointer

theorem Rehashing.move (h : Rehashing o ht i j) (hlive : o.isLive i = true) (hji : j < i)
    (hi : i < htInvalidIdx) : Rehashing o (ht.moveBucket i j) (i + 1) (j + 1) := by
  refine ⟨⟨h.head.1, h.head.2, h.head.3, h.head.4, h.head.5, h.head.6, h.head.7, h.head.8⟩,
    h.numUsed_eq, ?_, ?_, ?_, ?_, ?_⟩
  · rw [rank_succ_of_live hlive, h.rank_eq]
  · intro k hk hklive
    change update ht.arData j (ht.arData i) (o.rank k) = o.arData k
    rcases Nat.lt_succ_iff_lt_or_eq.mp hk with hlt | rfl
    · have hrank : o.rank k ≠ j := by
        rw [← h.rank_eq]
        exact Nat.ne_of_lt (rank_lt_of_live hklive hlt)
      rw [update_of_ne hrank]
      exact h.done k hlt hklive
    · rw [h.rank_eq, update_self]
      exact h.rest k le_rfl
  · intro k hk
    change update ht.arData j (ht.arData i) k = o.arData k
    rw [update_of_ne (show k ≠ j by omega)]
    exact h.rest k (by omega)
  · -- the slots below `j` are those that were linked before
    have hchains :
        ChainsUpTo { ht with arData := update ht.arData j (ht.arData i) } j := by
      intro x
      have hfilter : ((List.range j).filter fun k =>
            ht.nIndex (update ht.arData j (ht.arData i) k).h = x) =
          (List.range j).filter fun k => ht.nIndex (ht.arData k).h = x := by
        apply filter_congr
        intro k hk
        rw [update_of_ne (show k ≠ j from Nat.ne_of_lt (mem_range.mp hk))]
      have hx := h.chains x
      rw [← hfilter] at hx
      exact hx
    exact hchains.link (show j < htInvalidIdx by omega)
  · change (if ht.nInternalPointer = i then j else ht.nInternalPointer) =
      o.movedPos (i + 1) o.nInternalPointer
    rw [h.pointer]
    by_cases hp : o.nInternalPointer = i
    · rw [movedPos_of_le (show i ≤ o.nInternalPointer by omega), if_pos hp, movedPos,
        if_pos ⟨by omega, hp ▸ hlive⟩, hp, h.rank_eq]
    · rw [movedPos_succ_of_ne hp]
      apply if_neg
      rcases Nat.lt_or_ge o.nInternalPointer i with hlt | hge
      · exact Nat.ne_of_lt (movedPos_lt hlt)
      · rw [movedPos_of_le hge]
        exact hp

/-! ## The loops -/

theorem Rehashing.compact (h : Rehashing o ht i j) (hji : j < i) (hbound : i + n ≤ htInvalidIdx) :
    Rehashing o (ht.compact i j n).1 (i + n) (ht.compact i j n).2 := by
  -- induction on the slots behind `i`
  induction n generalizing ht i j with
  | zero => exact h
  | succ n ih =>
    unfold HashTable.compact
    rw [h.isLive_eq, show i + (n + 1) = i + 1 + n by omega]
    cases hlive : o.isLive i with
    | true =>
      rw [if_pos rfl]
      exact ih (h.move hlive hji (by omega)) (by omega) (by omega)
    | false =>
      rw [if_neg (by decide)]
      exact ih (h.skip hlive) (by omega) (by omega)

theorem Rehashing.iteratorsUpdate (h : Rehashing o ht i j) (fromPos toPos : Nat) :
    Rehashing o (ht.zendHashIteratorsUpdate fromPos toPos) i j := by
  unfold zendHashIteratorsUpdate
  split
  · exact h
  · exact ⟨⟨h.head.1, h.head.2, h.head.3, h.head.4, h.head.5, h.head.6, h.head.7, h.head.8⟩,
      h.numUsed_eq, h.rank_eq, h.done, h.rest, h.chains, h.pointer⟩

theorem Rehashing.compactIter (h : Rehashing o ht i j) (hji : j < i)
    (hbound : i + n ≤ htInvalidIdx) (iterPos : Nat) :
    Rehashing o (ht.compactIter i j iterPos n).1 (i + n) (ht.compactIter i j iterPos n).2 := by
  -- induction on the slots behind `i`
  induction n generalizing ht i j iterPos with
  | zero => exact h
  | succ n ih =>
    unfold HashTable.compactIter
    rw [h.isLive_eq, show i + (n + 1) = i + 1 + n by omega]
    cases hlive : o.isLive i with
    | true =>
      have hmove := h.move hlive hji (by omega)
      rw [if_pos rfl]
      dsimp only
      split
      · exact ih (hmove.iteratorsUpdate i j) (by omega) (by omega) _
      · exact ih hmove (by omega) (by omega) _
    | false =>
      rw [if_neg (by decide)]
      exact ih (h.skip hlive) (by omega) (by omega) _

/-- All buckets of `o` stand without holes in `ht`, in the same order. -/
structure Rehashed (o ht : HashTable V) : Prop where
  head : SameHead o ht
  numUsed_eq : ht.nNumUsed = o.rank o.nNumUsed
  done : ∀ k < o.nNumUsed, o.isLive k = true → ht.arData (o.rank k) = o.arData k
  chains : ht.ChainsUpTo ht.nNumUsed
  pointer : ht.nInternalPointer = o.movedPos o.nNumUsed o.nInternalPointer

theorem Rehashing.closeHoles (h : Rehashing o ht i i) (hole : o.isLive i = false)
    (hn : i + (n + 1) = o.nNumUsed) (hbound : o.nNumUsed ≤ htInvalidIdx) :
    Rehashed o (ht.closeHoles i n) := by
  have hskip := h.skip hole
  have hdone : Rehashing o
      (if ht.nIteratorsCount = 0 then ht.compact (i + 1) i n
        else ht.compactIter (i + 1) i (ht.zendHashIteratorsLowerPos 0) n).1 (i + 1 + n)
      (if ht.nIteratorsCount = 0 then ht.compact (i + 1) i n
        else ht.compactIter (i + 1) i (ht.zendHashIteratorsLowerPos 0) n).2 := by
    split
    · exact hskip.compact (by omega) (by omega)
    · exact hskip.compactIter (by omega) (by omega) _
  rw [show i + 1 + n = o.nNumUsed by omega] at hdone
  obtain ⟨hhead, -, hrank, hdata, -, hchains, hpointer⟩ := hdone
  exact ⟨⟨hhead.1, hhead.2, hhead.3, hhead.4, hhead.5, hhead.6, hhead.7, hhead.8⟩, hrank.symm,
    hdata, hchains, hpointer⟩

theorem Rehashing.linkAll (h : Rehashing o ht i i) (hlive : ∀ k < i + n, o.isLive k = true)
    (hbound : i + n ≤ htInvalidIdx) : Rehashing o (ht.linkAll i n) (i + n) (i + n) := by
  induction n generalizing ht i with
  | zero => exact h
  | succ n ih =>
    unfold HashTable.linkAll
    rw [show i + (n + 1) = i + 1 + n by omega]
    exact ih (h.link (hlive i (by omega)) (by omega)) (fun k hk => hlive k (by omega)) (by omega)

theorem Rehashing.finish (h : Rehashing o ht o.nNumUsed o.nNumUsed) : Rehashed o ht where
  head := h.head
  numUsed_eq := h.numUsed_eq.trans h.rank_eq.symm
  done := h.done
  chains := by
    rw [h.numUsed_eq]
    exact h.chains
  pointer := h.pointer

theorem Rehashing.linkUpToHole (h : Rehashing o ht i i) (hn : i + n = o.nNumUsed)
    (hbound : o.nNumUsed ≤ htInvalidIdx) : Rehashed o (ht.linkUpToHole i n) := by
  -- induction on the slots from `i`
  induction n generalizing ht i with
  | zero =>
    obtain rfl : i = o.nNumUsed := by omega
    exact h.finish
  | succ n ih =>
    unfold HashTable.linkUpToHole
    rw [h.isLive_eq]
    cases hlive : o.isLive i with
    | true =>
      rw [if_pos rfl]
      exact ih (h.link hlive (by omega)) (by omega)
    | false =>
      rw [if_neg (by decide)]
      exact h.closeHoles hlive hn hbound

/-- `nNumOfElements` is the number of the buckets, and a table not yet initialised has none. -/
structure Counted (o : HashTable V) : Prop where
  numOfElements : o.nNumOfElements = o.rank o.nNumUsed
  bound : o.nNumUsed ≤ htInvalidIdx
  uninit : o.initialized = false → o.nNumUsed = 0 ∧ ∀ x, o.hash x = htInvalidIdx

theorem Counted.rehashed (h : Counted o) : Rehashed o o.zendHashRehash := by
  unfold zendHashRehash
  split
  · -- no buckets
    rename_i hzero
    have hrank : o.rank o.nNumUsed = 0 := h.numOfElements.symm.trans hzero
    have hdead : ∀ k < o.nNumUsed, o.isLive k = true → False := by
      intro k hk hlive
      have hlt := rank_lt_of_live hlive hk
      omega
    have hpos : ∀ p, o.movedPos o.nNumUsed p = p := by
      intro p
      apply if_neg
      rintro ⟨hp, hlive⟩
      exact hdead p hp hlive
    split
    · exact ⟨by constructor <;> rfl, hrank.symm, fun k hk hlive => absurd hlive (hdead k hk),
        chainsUpTo_hashReset, (hpos _).symm⟩
    · rename_i hinit
      obtain ⟨hused, hhash⟩ := h.uninit (by simpa using hinit)
      refine ⟨by constructor <;> rfl, hused.trans hrank.symm,
        fun k hk hlive => absurd hlive (hdead k hk), ?_, (hpos _).symm⟩
      rw [hused]
      exact hhash
  · split
    · rename_i hholes
      have hall : o.rank o.nNumUsed = o.nNumUsed := by
        rw [← h.numOfElements]
        exact (beq_iff_eq.mp hholes).symm
      have hdone := (rehashing_start o).linkAll (n := o.nNumUsed)
        (fun k hk => live_of_rank_eq hall (by omega)) (by have := h.bound; omega)
      rw [Nat.zero_add] at hdone
      exact hdone.finish
    · exact (rehashing_start o).linkUpToHole (Nat.zero_add _) h.bound

/-! ## Tables without their holes -/

/-- The buckets in use of `o` stand in `ht` one behind the other. -/
structure Compacted (o ht : HashTable V) : Prop where
  numUsed_eq : ht.nNumUsed = o.rank o.nNumUsed
  numOfElements_eq : ht.nNumOfElements = o.nNumOfElements
  tableSize_eq : ht.nTableSize = o.nTableSize
  done : ∀ k < o.nNumUsed, o.isLive k = true → ht.arData (o.rank k) = o.arData k

theorem Rehashed.compacted (h : Rehashed o ht) : Compacted o ht :=
  ⟨h.numUsed_eq, h.head.numOfElements_eq, h.head.tableSize_eq, h.done⟩

theorem Compacted.exists_bucket (h : Compacted o ht) (hj : j < ht.nNumUsed) :
    ∃ k < o.nNumUsed, o.isLive k = true ∧ o.rank k = j ∧ ht.arData j = o.arData k := by
  rw [h.numUsed_eq] at hj
  obtain ⟨k, hk, hlive, rfl⟩ := exists_rank_eq hj
  exact ⟨k, hk, hlive, rfl, h.done k hk hlive⟩

theorem Compacted.isLive (h : Compacted o ht) (hj : j < ht.nNumUsed) : ht.isLive j = true := by
  obtain ⟨k, -, hlive, -, hdata⟩ := h.exists_bucket hj
  rw [HashTable.isLive, hdata]
  exact hlive

theorem Compacted.rank_eq (h : Compacted o ht) : ht.rank ht.nNumUsed = ht.nNumUsed :=
  rank_eq_of_live fun _ hk => h.isLive hk

end Phpce.HashTable
