import Phpce.Hash.Rehash

/-!
# Iterators across zend_hash_rehash

The loop that closes the holes moves the iterators that stand on `iterPos`, and looks for the next
position only when it comes by that one.

* `iterators_compactIter`: where `iterPos` starts behind the first hole, every iterator moves with
  its bucket; `iterators_compactIter_of_lt`: where it starts before, none does.
* **`followsElements_zendHashRehash_iff`**: all iterators stay on their elements, unless one stands
  before all holes and another one behind a hole.
-/

namespace Phpce.HashTable

open List

variable {V : Type*} {o ht : HashTable V} {i j n p : Nat} {iter : HashTableIterator}

/-! ## Registered iterators -/

/-- `zend_hash_iterator_add`; the result is the number of the iterator. -/
def zendHashIteratorAdd (ht : HashTable V) (pos : Nat) : Nat × HashTable V :=
  let nIteratorsCount := if ht.nIteratorsCount = 255 then 255 else ht.nIteratorsCount + 1
  let idx := ht.htIterators.findIdx fun iter => iter.ht == 0
  (idx, { ht with
    nIteratorsCount
    htIterators := ht.htIterators.take idx ++ ⟨ht.self, pos⟩ :: ht.htIterators.drop (idx + 1) })

/-- `nIteratorsCount` is the number of the iterators of the table, or has reached its maximum. -/
def Registered (ht : HashTable V) : Prop :=
  ht.nIteratorsCount = 255 ∨
    ht.nIteratorsCount = ht.htIterators.countP fun iter => iter.ht == ht.self

theorem Registered.count_ne_zero (h : ht.Registered) (hmem : iter ∈ ht.htIterators)
    (hself : iter.ht = ht.self) : ht.nIteratorsCount ≠ 0 := by
  rcases h with h | h
  · omega
  · rw [h]
    apply Nat.ne_of_gt
    exact countP_pos_iff.mpr ⟨iter, hmem, by simpa using hself⟩

/-! ## The lowest position -/

theorem foldl_lowerPos_le (self start : Nat) (iters : List HashTableIterator) (init : Nat) :
    let res := iters.foldl (fun res iter =>
      if iter.ht = self ∧ start ≤ iter.pos ∧ iter.pos < res then iter.pos else res) init
    res ≤ init ∧ (∀ iter ∈ iters, iter.ht = self → start ≤ iter.pos → res ≤ iter.pos) ∧
      (res = init ∨ ∃ iter ∈ iters, iter.ht = self ∧ start ≤ iter.pos ∧ iter.pos = res) := by
  -- induction on the iterators still to be looked at
  induction iters generalizing init with
  | nil =>
    refine ⟨le_rfl, ?_, .inl rfl⟩
    intro iter h
    cases h
  | cons a as ih =>
    dsimp only [foldl_cons] at ih ⊢
    split
    · rename_i ha
      obtain ⟨hle, hlow, hatt⟩ := ih a.pos
      refine ⟨by omega, ?_, ?_⟩
      · intro iter hmem hself hstart
        rcases mem_cons.mp hmem with rfl | hmem
        · exact hle
        · exact hlow iter hmem hself hstart
      · rcases hatt with heq | ⟨iter, hmem, hiter⟩
        · exact .inr ⟨a, mem_cons_self, ha.1, ha.2.1, heq.symm⟩
        · exact .inr ⟨iter, mem_cons_of_mem a hmem, hiter⟩
    · rename_i ha
      obtain ⟨hle, hlow, hatt⟩ := ih init
      refine ⟨hle, ?_, ?_⟩
      · intro iter hmem hself hstart
        rcases mem_cons.mp hmem with rfl | hmem
        · have hge : init ≤ iter.pos := by
            by_contra hlt
            exact ha ⟨hself, hstart, by omega⟩
          omega
        · exact hlow iter hmem hself hstart
      · rcases hatt with heq | ⟨iter, hmem, hiter⟩
        · exact .inl heq
        · exact .inr ⟨iter, mem_cons_of_mem a hmem, hiter⟩

/-- `p` is the lowest position from `start` of the iterators of the table, if they have one. -/
structure IsLowerPos (ht : HashTable V) (start p : Nat) : Prop where
  le : ∀ iter ∈ ht.htIterators, iter.ht = ht.self → start ≤ iter.pos → p ≤ iter.pos
  attained : p = htInvalidIdx ∨
    ∃ iter ∈ ht.htIterators, iter.ht = ht.self ∧ start ≤ iter.pos ∧ iter.pos = p

theorem isLowerPos_zendHashIteratorsLowerPos (ht : HashTable V) (start : Nat) :
    ht.IsLowerPos start (ht.zendHashIteratorsLowerPos start) := by
  obtain ⟨-, hle, hatt⟩ := foldl_lowerPos_le ht.self start ht.htIterators htInvalidIdx
  exact ⟨hle, hatt⟩

/-! ## The loop with iterators -/

/-- Where an iterator stands when the buckets below slot `i` are done, if it moves with them. -/
def movedIter (o : HashTable V) (i : Nat) (iter : HashTableIterator) : HashTableIterator :=
  if iter.ht = o.self then { iter with pos := o.movedPos i iter.pos } else iter

@[simp] theorem movedIter_ht (o : HashTable V) (i : Nat) (iter : HashTableIterator) :
    (o.movedIter i iter).ht = iter.ht := by
  unfold movedIter
  split <;> rfl

theorem movedIter_of_self (h : iter.ht = o.self) :
    o.movedIter i iter = { iter with pos := o.movedPos i iter.pos } := if_pos h

theorem movedIter_of_ne (h : iter.ht ≠ o.self) : o.movedIter i iter = iter := if_neg h

theorem movedIter_pos (h : iter.ht = o.self) :
    (o.movedIter i iter).pos = o.movedPos i iter.pos := by
  rw [movedIter, if_pos h]

def Placed (ht : HashTable V) (p : Nat) : Prop := p < ht.nNumUsed → ht.isLive p = true

instance (ht : HashTable V) (p : Nat) : Decidable (ht.Placed p) :=
  inferInstanceAs (Decidable (p < ht.nNumUsed → ht.isLive p = true))

/-- All iterators of `o` moved with the buckets below slot `i`, and `p` is the position of the next
one. -/
structure Following (o ht : HashTable V) (i p : Nat) : Prop where
  iterators : ht.htIterators = o.htIterators.map (o.movedIter i)
  self_eq : ht.self = o.self
  count_ne : ht.nIteratorsCount ≠ 0
  lower : o.IsLowerPos i p

theorem Following.le (h : Following o ht i p) (hi : i ≤ htInvalidIdx) : i ≤ p := by
  rcases h.lower.attained with rfl | ⟨iter, -, -, hle, rfl⟩
  · exact hi
  · exact hle

theorem Following.stay (h : Following o ht i p)
    (hfree : ∀ iter ∈ o.htIterators, iter.ht = o.self → iter.pos ≠ i) :
    Following o ht (i + 1) p where
  iterators := by
    rw [h.iterators]
    apply map_congr_left
    intro iter hmem
    unfold movedIter
    split
    · rename_i hself
      rw [movedPos_succ_of_ne (hfree iter hmem hself)]
    · rfl
  self_eq := h.self_eq
  count_ne := h.count_ne
  lower := by
    refine ⟨fun iter hmem hself hle => h.lower.le iter hmem hself (by omega), ?_⟩
    rcases h.lower.attained with heq | ⟨iter, hmem, hself, hle, hpos⟩
    · exact .inl heq
    · have hne := hfree iter hmem hself
      exact .inr ⟨iter, hmem, hself, by omega, hpos⟩

theorem Following.update (h : Following o ht i i) (hlive : o.isLive i = true)
    (hrank : o.rank i = j) :
    Following o (ht.zendHashIteratorsUpdate i j) (i + 1)
      ((ht.zendHashIteratorsUpdate i j).zendHashIteratorsLowerPos (i + 1)) := by
  have hupdate : ht.zendHashIteratorsUpdate i j = { ht with
      htIterators := ht.htIterators.map fun iter =>
        if iter.ht = ht.self ∧ iter.pos = i then { iter with pos := j } else iter } :=
    if_neg h.count_ne
  have hiterators :
      (ht.zendHashIteratorsUpdate i j).htIterators = o.htIterators.map (o.movedIter (i + 1)) := by
    rw [hupdate]
    change ht.htIterators.map _ = _
    rw [h.iterators, List.map_map]
    apply map_congr_left
    intro iter hmem
    change (if (o.movedIter i iter).ht = ht.self ∧ (o.movedIter i iter).pos = i then _ else _) = _
    rw [movedIter_ht, h.self_eq]
    by_cases hself : iter.ht = o.self
    · rw [movedIter_pos hself]
      by_cases hpos : iter.pos = i
      · have hmoved : o.movedPos (i + 1) iter.pos = j := by
          rw [movedPos, if_pos ⟨by omega, hpos ▸ hlive⟩, hpos, hrank]
        rw [if_pos ⟨hself, by rw [movedPos_of_le (by omega), hpos]⟩, movedIter_of_self hself,
          hmoved]
      · have hne : o.movedPos i iter.pos ≠ i := by
          rcases Nat.lt_or_ge iter.pos i with hlt | hge
          · exact Nat.ne_of_lt (movedPos_lt hlt)
          · rw [movedPos_of_le hge]
            exact hpos
        rw [if_neg fun hand => hne hand.2, movedIter_of_self hself, movedIter_of_self hself,
          movedPos_succ_of_ne hpos]
    · rw [if_neg fun hand => hself hand.1, movedIter_of_ne hself, movedIter_of_ne hself]
  have hself_eq : (ht.zendHashIteratorsUpdate i j).self = o.self := by
    rw [hupdate]
    exact h.self_eq
  refine ⟨hiterators, hself_eq, by rw [hupdate]; exact h.count_ne, ?_, ?_⟩
  · intro iter hmem hself hle
    have hlow := (isLowerPos_zendHashIteratorsLowerPos (ht.zendHashIteratorsUpdate i j) (i + 1)).le
      (o.movedIter (i + 1) iter) (by rw [hiterators]; exact mem_map_of_mem hmem)
      (by rw [movedIter_ht, hself_eq, hself])
    rw [movedIter_pos hself, movedPos_of_le hle] at hlow
    exact hlow hle
  · rcases (isLowerPos_zendHashIteratorsLowerPos (ht.zendHashIteratorsUpdate i j)
      (i + 1)).attained with heq | ⟨moved, hmem', hself, hle, hpos⟩
    · exact .inl heq
    · rw [hiterators] at hmem'
      obtain ⟨iter, hmem, rfl⟩ := List.mem_map.mp hmem'
      rw [movedIter_ht, hself_eq] at hself
      rw [movedIter_pos hself] at hle hpos
      -- an iterator that was moved stands below
      have hge : i + 1 ≤ iter.pos := by
        by_contra hlt
        have hlt : o.movedPos (i + 1) iter.pos < i + 1 := movedPos_lt (by omega)
        omega
      rw [movedPos_of_le hge] at hpos
      exact .inr ⟨iter, hmem, hself, hge, hpos⟩

theorem moveBucket_following (h : Following o ht i p) : Following o (ht.moveBucket i j) i p :=
  ⟨h.iterators, h.self_eq, h.count_ne, h.lower⟩

theorem iterators_compactIter (h : Rehashing o ht i j) (hfollow : Following o ht i p) (hji : j < i)
    (hn : i + n = o.nNumUsed) (hbound : o.nNumUsed ≤ htInvalidIdx)
    (hplaced : ∀ iter ∈ o.htIterators, iter.ht = o.self → o.Placed iter.pos) :
    (ht.compactIter i j p n).1.htIterators = o.htIterators.map (o.movedIter o.nNumUsed) := by
  -- induction on the slots behind `i`
  induction n generalizing ht i j p with
  | zero =>
    obtain rfl : i = o.nNumUsed := by omega
    exact hfollow.iterators
  | succ n ih =>
    unfold compactIter
    rw [h.isLive_eq]
    have hle := hfollow.le (by omega)
    cases hlive : o.isLive i with
    | true =>
      rw [if_pos rfl]
      dsimp only
      have hmove := h.move hlive hji (by omega)
      by_cases hip : i = p
      · subst hip
        rw [if_pos rfl]
        refine ih (hmove.iteratorsUpdate i j) ?_ (by omega) (by omega)
        exact (moveBucket_following hfollow).update hlive h.rank_eq
      · rw [if_neg hip]
        refine ih hmove ((moveBucket_following hfollow).stay ?_) (by omega) (by omega)
        intro iter hmem hself hpos
        have hlow := hfollow.lower.le iter hmem hself (by omega)
        omega
    | false =>
      rw [if_neg (by decide)]
      refine ih (h.skip hlive) (hfollow.stay ?_) (by omega) (by omega)
      rintro iter hmem hself rfl
      exact absurd (hplaced iter hmem hself (by omega)) (by simp [hlive])

theorem iterators_compactIter_of_lt (hp : p < i) :
    (ht.compactIter i j p n).1.htIterators = ht.htIterators := by
  induction n generalizing ht i j with
  | zero => rfl
  | succ n ih =>
    unfold compactIter
    split
    · dsimp only
      rw [if_neg (show i ≠ p by omega)]
      exact ih (by omega)
    · exact ih (by omega)

theorem iterators_compact : (ht.compact i j n).1.htIterators = ht.htIterators := by
  induction n generalizing ht i j with
  | zero => rfl
  | succ n ih =>
    unfold compact
    split
    · exact ih
    · exact ih

theorem iterators_linkAll : (ht.linkAll i n).htIterators = ht.htIterators := by
  induction n generalizing ht i with
  | zero => rfl
  | succ n ih => exact ih

/-! ## The whole of zend_hash_rehash -/

/-- One iterator stands before all holes, another one on an element behind a hole. -/
def Straddled (ht : HashTable V) : Prop :=
  ∃ a ∈ ht.htIterators, ∃ b ∈ ht.htIterators, a.ht = ht.self ∧ b.ht = ht.self ∧
    (∀ k < ht.nNumUsed, ht.isLive k = false → a.pos < k) ∧
    b.pos < ht.nNumUsed ∧ ∃ k < b.pos, ht.isLive k = false

/-- A table whose iterators and `nInternalPointer` stand on elements or past the end, and whose
elements have different keys. -/
structure Iterated (ht : HashTable V) : Prop extends Counted ht where
  distinct : ∀ i < ht.nNumUsed, ∀ k < ht.nNumUsed, ht.isLive i = true → ht.isLive k = true →
    (ht.arData i).hashKey = (ht.arData k).hashKey → i = k
  registered : ht.Registered
  placed : ∀ iter ∈ ht.htIterators, iter.ht = ht.self → ht.Placed iter.pos
  pointer : ht.Placed ht.nInternalPointer

/-- The position `p'` in `ht'` is on the element that `p` is on in `ht`, or past the end if `p`
is. -/
structure SameElement (ht ht' : HashTable V) (p p' : Nat) : Prop where
  element : p < ht.nNumUsed → ht.isLive p = true →
    p' < ht'.nNumUsed ∧ ht'.arData p' = ht.arData p
  pastEnd : ht.nNumUsed ≤ p → ht'.nNumUsed ≤ p'

/-- Every iterator of the table, and `nInternalPointer`, stays on its element; iterators of other
tables are left alone. -/
structure FollowsElements (ht ht' : HashTable V) : Prop where
  iterators : List.Forall₂ (fun iter iter' => iter'.ht = iter.ht ∧
      (iter.ht = ht.self → SameElement ht ht' iter.pos iter'.pos) ∧
      (iter.ht ≠ ht.self → iter' = iter)) ht.htIterators ht'.htIterators
  pointer : SameElement ht ht' ht.nInternalPointer ht'.nInternalPointer

theorem Rehashed.sameElement (h : Rehashed o ht) (p : Nat) :
    SameElement o ht p (o.movedPos o.nNumUsed p) where
  element hp hlive := by
    rw [movedPos, if_pos ⟨hp, hlive⟩, h.numUsed_eq]
    exact ⟨rank_lt_of_live hlive hp, h.done p hp hlive⟩
  pastEnd hp := by
    rw [movedPos_of_le hp, h.numUsed_eq]
    exact (o.rank_le _).trans hp

theorem Rehashed.followsElements (h : Rehashed o ht)
    (hiter : ht.htIterators = o.htIterators.map (o.movedIter o.nNumUsed)) :
    FollowsElements o ht where
  iterators := by
    rw [hiter, forall₂_map_right_iff, forall₂_same]
    intro iter _
    refine ⟨movedIter_ht o _ iter, fun hself => ?_, movedIter_of_ne⟩
    rw [movedIter_pos hself]
    exact h.sameElement iter.pos
  pointer := by
    rw [h.pointer]
    exact h.sameElement _

theorem map_movedIter_of_rank (hplaced : ∀ iter ∈ o.htIterators, iter.ht = o.self →
      iter.pos < o.nNumUsed → o.isLive iter.pos = true → o.rank iter.pos = iter.pos) :
    o.htIterators.map (o.movedIter o.nNumUsed) = o.htIterators := by
  conv_rhs => rw [← List.map_id o.htIterators]
  apply map_congr_left
  intro iter hmem
  by_cases hself : iter.ht = o.self
  · rw [movedIter_of_self hself, movedPos]
    split
    · rename_i hpos
      rw [hplaced iter hmem hself hpos.1 hpos.2]
      rfl
    · rfl
  · exact movedIter_of_ne hself

theorem iterators_closeHoles (hit : Iterated o) (h : Rehashing o ht i i)
    (hiter : ht.htIterators = o.htIterators) (hlive : ∀ k < i, o.isLive k = true)
    (hole : o.isLive i = false) (hn : i + (n + 1) = o.nNumUsed) :
    (ht.closeHoles i n).htIterators =
      if (∃ a ∈ o.htIterators, a.ht = o.self ∧ a.pos < i) then o.htIterators
      else o.htIterators.map (o.movedIter o.nNumUsed) := by
  have hbound := hit.bound
  have hlower := isLowerPos_zendHashIteratorsLowerPos ht 0
  unfold closeHoles
  change (if ht.nIteratorsCount = 0 then _ else _ : HashTable V × Nat).1.htIterators = _
  by_cases hzero : ht.nIteratorsCount = 0
  · -- the table has no iterators
    have hnone : ∀ iter ∈ o.htIterators, iter.ht ≠ o.self := by
      intro iter hmem hself
      exact hit.registered.count_ne_zero hmem hself (h.head.iteratorsCount_eq ▸ hzero)
    rw [if_pos hzero, iterators_compact, hiter, map_movedIter_of_rank, ite_self]
    intro iter hmem hself
    exact absurd hself (hnone iter hmem)
  · rw [if_neg hzero]
    split
    · rename_i hbefore
      obtain ⟨a, hmem, hself, hpos⟩ := hbefore
      have hle := hlower.le a (hiter ▸ hmem) (h.head.self_eq ▸ hself) (Nat.zero_le _)
      rw [iterators_compactIter_of_lt (show ht.zendHashIteratorsLowerPos 0 < i + 1 by omega), hiter]
    · rename_i hbefore
      -- no iterator stands before the hole, and none on it
      have hbehind : ∀ iter ∈ o.htIterators, iter.ht = o.self → i + 1 ≤ iter.pos := by
        intro iter hmem hself
        by_contra hlt
        rcases Nat.lt_or_ge iter.pos i with hpos | hpos
        · exact hbefore ⟨iter, hmem, hself, hpos⟩
        · obtain rfl : iter.pos = i := by omega
          exact absurd (hit.placed iter hmem hself (by omega)) (by simp [hole])
      refine iterators_compactIter (h.skip hole) ⟨?_, h.head.self_eq, hzero, ?_, ?_⟩ (by omega)
        (by omega) hbound hit.placed
      · rw [hiter]
        conv_lhs => rw [← List.map_id o.htIterators]
        apply map_congr_left
        intro iter hmem
        by_cases hself : iter.ht = o.self
        · rw [movedIter_of_self hself, movedPos_of_le (hbehind iter hmem hself)]
          rfl
        · rw [movedIter_of_ne hself]
          rfl
      · intro iter hmem hself _
        exact hlower.le iter (hiter ▸ hmem) (h.head.self_eq ▸ hself) (Nat.zero_le _)
      · rcases hlower.attained with heq | ⟨iter, hmem, hself, -, hpos⟩
        · exact .inl heq
        · rw [hiter] at hmem
          rw [h.head.self_eq] at hself
          exact .inr ⟨iter, hmem, hself, hbehind iter hmem hself, hpos⟩

theorem iterators_linkUpToHole (hit : Iterated o) (h : Rehashing o ht i i)
    (hiter : ht.htIterators = o.htIterators) (hlive : ∀ k < i, o.isLive k = true)
    (hn : i + n = o.nNumUsed) :
    (∃ f < o.nNumUsed, o.isLive f = false ∧ (∀ k < f, o.isLive k = true) ∧
        (ht.linkUpToHole i n).htIterators =
          if (∃ a ∈ o.htIterators, a.ht = o.self ∧ a.pos < f) then o.htIterators
          else o.htIterators.map (o.movedIter o.nNumUsed)) ∨
      ((∀ k < o.nNumUsed, o.isLive k = true) ∧
        (ht.linkUpToHole i n).htIterators = o.htIterators) := by
  -- induction on the slots from `i`
  induction n generalizing ht i with
  | zero =>
    obtain rfl : i = o.nNumUsed := by omega
    exact .inr ⟨hlive, hiter⟩
  | succ n ih =>
    unfold linkUpToHole
    rw [h.isLive_eq]
    cases hi : o.isLive i with
    | true =>
      rw [if_pos rfl]
      have hbound := hit.bound
      refine ih (h.link hi (by omega)) hiter ?_ (by omega)
      intro k hk
      rcases Nat.lt_succ_iff_lt_or_eq.mp hk with hlt | rfl
      · exact hlive k hlt
      · exact hi
    | false =>
      rw [if_neg (by decide)]
      exact .inl ⟨i, by omega, hi, hlive, iterators_closeHoles hit h hiter hlive hi hn⟩

theorem iterators_of_not_straddled (hit : Iterated o) (hnot : ¬o.Straddled) :
    o.zendHashRehash.htIterators = o.htIterators.map (o.movedIter o.nNumUsed) := by
  unfold zendHashRehash
  split
  · rename_i hzero
    have hcount := hit.numOfElements
    refine Eq.trans ?_ (map_movedIter_of_rank ?_).symm
    · split <;> rfl
    · intro iter _ _ hpos hlive
      have hlt := rank_lt_of_live hlive hpos
      omega
  · split
    · rename_i hholes
      have hall : o.rank o.nNumUsed = o.nNumUsed := by
        rw [← hit.numOfElements]
        exact (beq_iff_eq.mp hholes).symm
      rw [iterators_linkAll]
      refine (map_movedIter_of_rank ?_).symm
      intro iter _ _ hpos _
      exact rank_eq_of_live fun k hk => live_of_rank_eq hall (hk.trans hpos)
    · rcases iterators_linkUpToHole hit (rehashing_start o) rfl
        (fun k hk => absurd hk (Nat.not_lt_zero k)) (Nat.zero_add _) with
        ⟨f, hf, hole, hbelow, heq⟩ | ⟨hall, heq⟩
      · rw [heq]
        split
        · rename_i hbefore
          obtain ⟨a, ha, haself, hapos⟩ := hbefore
          refine (map_movedIter_of_rank ?_).symm
          intro b hb hbself hbpos hblive
          apply rank_eq_of_live
          intro k hk
          apply hbelow
          by_contra hfk
          have hfb : f < b.pos := by
            rcases Nat.lt_or_ge f b.pos with hlt | hge
            · exact hlt
            · omega
          refine hnot ⟨a, ha, b, hb, haself, hbself, ?_, hbpos, f, hfb, hole⟩
          intro k hk hdead
          rcases Nat.lt_or_ge k f with hlt | hge
          · exact absurd (hbelow k hlt) (by simp [hdead])
          · omega
        · rfl
      · rw [heq]
        exact (map_movedIter_of_rank fun iter _ _ hpos _ =>
          rank_eq_of_live fun k hk => hall k (by omega)).symm

theorem iterators_of_straddled (hit : Iterated o) (h : o.Straddled) :
    o.zendHashRehash.htIterators = o.htIterators := by
  obtain ⟨a, ha, b, hb, haself, hbself, hbefore, hbpos, k, hkb, hole⟩ := h
  have hcount := hit.numOfElements
  have hblive := hit.placed b hb hbself hbpos
  have hrank := rank_lt_of_live hblive hbpos
  have hless := rank_lt_of_hole hole (show k < o.nNumUsed by omega)
  unfold zendHashRehash
  rw [if_neg (by omega), if_neg (by simp [isWithoutHoles]; omega)]
  rcases iterators_linkUpToHole hit (rehashing_start o) rfl
    (fun k hk => absurd hk (Nat.not_lt_zero k)) (Nat.zero_add _) with
    ⟨f, hf, hfhole, -, heq⟩ | ⟨hall, heq⟩
  · rw [heq]
    exact if_pos ⟨a, ha, haself, hbefore f hf hfhole⟩
  · exact heq

/-- **Iterators follow their elements** through `zend_hash_rehash` exactly where no iterator stands
before all holes while another one stands on an element behind a hole. -/
theorem followsElements_zendHashRehash_iff (hit : Iterated o) :
    FollowsElements o o.zendHashRehash ↔ ¬o.Straddled := by
  have hdone := hit.rehashed
  constructor
  · intro hfollow hstraddled
    have hsame := hfollow.iterators
    rw [iterators_of_straddled hit hstraddled, forall₂_same] at hsame
    obtain ⟨-, -, b, hb, -, hbself, -, hbpos, k, hkb, hole⟩ := hstraddled
    have hblive := hit.placed b hb hbself hbpos
    obtain ⟨hlt, hdata⟩ := ((hsame b hb).2.1 hbself).element hbpos hblive
    -- the slot that `b` still names has got the bucket of another slot
    obtain ⟨c, hc, hclive, hcrank, hcdata⟩ := hdone.compacted.exists_bucket hlt
    have hcb : c = b.pos := by
      have heq : o.arData c = o.arData b.pos := hcdata.symm.trans hdata
      exact hit.distinct c hc b.pos hbpos hclive hblive (by rw [heq])
    have hless := rank_lt_of_hole hole hkb
    rw [← hcb, hcrank] at hless
    omega
  · intro hnot
    exact hdone.followsElements (iterators_of_not_straddled hit hnot)

/-! ## A foreach by reference over an array that is compacted -/

/-- The array `[0 => 0, 2 => 2]` with a hole in slot 1. -/
def holedTable (htIterators : List HashTableIterator) : HashTable Nat where
  self := 1
  initialized := true
  packed := false
  nIteratorsCount := htIterators.length
  nTableMask := tableMask 8
  arData i := ⟨UInt64.ofNat i, none, if i = 1 then none else some i⟩
  zNext _ := htInvalidIdx
  hash x := if x = tableMask 8 then 0 else if x = 2 ||| tableMask 8 then 2 else htInvalidIdx
  nNumUsed := 3
  nNumOfElements := 2
  nTableSize := 8
  nInternalPointer := 0
  nNextFreeElement := 3
  htIterators

theorem distinct_holedTable (htIterators : List HashTableIterator) :
    let ht := holedTable htIterators
    ∀ i < ht.nNumUsed, ∀ k < ht.nNumUsed, ht.isLive i = true → ht.isLive k = true →
      (ht.arData i).hashKey = (ht.arData k).hashKey → i = k := by
  intro ht i hi k hk _ _ hkey
  have hh : (UInt64.ofNat i).toNat = (UInt64.ofNat k).toNat :=
    congrArg (fun key => key.1.toNat) hkey
  rw [UInt64.toNat_ofNat', UInt64.toNat_ofNat'] at hh
  change i < 3 at hi
  change k < 3 at hk
  omega

/-- With iterators on both elements, the second one is left on slot 2 when its element goes to
slot 1. -/
theorem not_followsElements_holedTable :
    Iterated (holedTable [⟨1, 0⟩, ⟨1, 2⟩]) ∧
      ¬FollowsElements (holedTable [⟨1, 0⟩, ⟨1, 2⟩])
        (holedTable [⟨1, 0⟩, ⟨1, 2⟩]).zendHashRehash := by
  refine ⟨⟨⟨by decide, by decide, fun h => absurd h (by decide)⟩, distinct_holedTable _,
    .inr (by decide), by decide, by decide⟩, ?_⟩
  intro hfollow
  have hsame := hfollow.iterators
  have hiter : (holedTable [⟨1, 0⟩, ⟨1, 2⟩]).zendHashRehash.htIterators =
      (holedTable [⟨1, 0⟩, ⟨1, 2⟩]).htIterators := by decide
  rw [hiter, forall₂_same] at hsame
  have hlt := ((hsame ⟨1, 2⟩ (by decide)).2.1 rfl).element (by decide) (by decide)
  exact absurd hlt.1 (by decide)

/-- With one iterator only, it follows its element. -/
theorem followsElements_holedTable :
    FollowsElements (holedTable [⟨1, 2⟩]) (holedTable [⟨1, 2⟩]).zendHashRehash := by
  refine (followsElements_zendHashRehash_iff ?_).mpr ?_
  · exact ⟨⟨by decide, by decide, fun h => absurd h (by decide)⟩, distinct_holedTable _,
      .inr (by decide), by decide, by decide⟩
  · rintro ⟨a, ha, -, -, -, -, hbefore, -⟩
    obtain rfl : a = ⟨1, 2⟩ := mem_singleton.mp ha
    exact absurd (hbefore 1 (by decide) (by decide)) (by decide)

end Phpce.HashTable
