import Phpce.Hash.Iterators
import Phpce.Hash.Resize

/-!
# Where the iterators of a table stand

The operations on the buckets of a table with its iterators, in whatever state the table is: the
lookups need not find what they should.

* `Attached` is what holds of a table and its iterators, `Carried` what an operation does to them.
* `Attached.zendHashRehash`, `Attached.zendHashAddOrUpdateI`, `Attached.zendHashIndexAddOrUpdateI`:
  iterators stay on elements, or past the end.
* **`Attached.zendHashDelElEx`**: the iterators on the bucket that is deleted go to the next
  element.
-/

namespace Phpce.HashTable

open List
open Function (update update_of_ne update_self)

variable {V : Type*} {o ht : HashTable V} {i j n p : Nat} {iter : HashTableIterator}

/-! ## Where iterators may stand -/

/-- On an element, or at the end; in a hashed table, whose slots come into use one by one, the end
may be any slot that is not in use. -/
def Positioned (ht : HashTable V) (p : Nat) : Prop :=
  p < ht.nNumUsed ∧ ht.isLive p = true ∨ p = htInvalidIdx ∨
    ht.initialized = true ∧ ht.packed = false ∧ ht.nNumUsed ≤ p

/-- The iterators of the table at the address `a`. -/
def attachedTo (iters : List HashTableIterator) (a : Nat) : Nat :=
  iters.countP fun iter => iter.ht == a

structure Attached (ht : HashTable V) : Prop where
  fresh : ht.initialized = false → ht.packed = false ∧ ht.nNumUsed = 0
  counter : ht.nIteratorsCount ≤ 255
  counted : ht.nIteratorsCount = 255 ∨ attachedTo ht.htIterators ht.self ≤ ht.nIteratorsCount
  placed : ∀ iter ∈ ht.htIterators, iter.ht = ht.self → ht.Positioned iter.pos
  pointer : ht.Positioned ht.nInternalPointer

/-- What an operation on the buckets of a table leaves alone: the iterators of other tables. -/
structure OthersKept (o ht : HashTable V) : Prop where
  self_eq : ht.self = o.self
  counter_eq : ht.nIteratorsCount = o.nIteratorsCount
  iterators : List.Forall₂ (fun iter iter' => iter'.ht = iter.ht ∧
    (iter.ht ≠ o.self → iter' = iter)) o.htIterators ht.htIterators

theorem OthersKept.of_eq (hself : ht.self = o.self)
    (hcount : ht.nIteratorsCount = o.nIteratorsCount) (hiters : ht.htIterators = o.htIterators) :
    OthersKept o ht :=
  ⟨hself, hcount, hiters ▸ forall₂_same.mpr fun _ _ => ⟨rfl, fun _ => rfl⟩⟩

theorem OthersKept.trans {m : HashTable V} (h : OthersKept o m) (h' : OthersKept m ht) :
    OthersKept o ht := by
  refine ⟨h'.self_eq.trans h.self_eq, h'.counter_eq.trans h.counter_eq, ?_⟩
  have hiters := h.iterators
  have hiters' := h'.iterators
  rw [h.self_eq] at hiters'
  generalize ht.htIterators = l'' at hiters' ⊢
  generalize m.htIterators = l' at hiters hiters'
  generalize o.htIterators = l at hiters ⊢
  induction hiters generalizing l'' with
  | nil =>
    cases hiters'
    exact .nil
  | cons hhead _ ih =>
    cases hiters' with
    | cons hhead' htail' =>
      refine .cons ⟨hhead'.1.trans hhead.1, fun hne => ?_⟩ (ih _ htail')
      rw [hhead'.2 (by rw [hhead.1]; exact hne), hhead.2 hne]

theorem OthersKept.attachedTo_eq (h : OthersKept o ht) (a : Nat) :
    attachedTo ht.htIterators a = attachedTo o.htIterators a := by
  have hiters := h.iterators
  unfold attachedTo
  generalize ht.htIterators = l' at hiters ⊢
  generalize o.htIterators = l at hiters ⊢
  induction hiters with
  | nil => rfl
  | cons hhead _ ih => rw [countP_cons, countP_cons, ih, hhead.1]

theorem OthersKept.mem_of_ne (h : OthersKept o ht) (hmem : iter ∈ ht.htIterators)
    (hne : iter.ht ≠ o.self) : iter ∈ o.htIterators := by
  have hiters := h.iterators
  generalize ht.htIterators = l' at hiters hmem
  generalize o.htIterators = l at hiters ⊢
  induction hiters with
  | nil => exact hmem
  | cons hhead _ ih =>
    rcases mem_cons.mp hmem with rfl | hmem
    · rw [hhead.2 (hhead.1 ▸ hne)]
      exact mem_cons_self
    · exact mem_cons_of_mem _ (ih hmem)

theorem othersKept_zendHashIteratorsUpdate (ht : HashTable V) (fromPos toPos : Nat) :
    OthersKept ht (ht.zendHashIteratorsUpdate fromPos toPos) := by
  unfold zendHashIteratorsUpdate
  split
  · exact .of_eq rfl rfl rfl
  · refine ⟨rfl, rfl, ?_⟩
    rw [forall₂_map_right_iff, forall₂_same]
    intro iter _
    split
    · rename_i hat
      exact ⟨rfl, fun hne => absurd hat.1 hne⟩
    · exact ⟨rfl, fun _ => rfl⟩

/-! ## What keeps iterators where they may stand -/

/-- The table and its iterators after an operation on the buckets. -/
structure Carried (o ht : HashTable V) : Prop extends OthersKept o ht, Attached ht

theorem Carried.trans {m : HashTable V} (h : Carried o m) (h' : Carried m ht) : Carried o ht :=
  ⟨h.toOthersKept.trans h'.toOthersKept, h'.toAttached⟩

theorem Attached.count_ne_zero (h : Attached ht) (hmem : iter ∈ ht.htIterators)
    (hself : iter.ht = ht.self) : ht.nIteratorsCount ≠ 0 := by
  have hpos : 0 < attachedTo ht.htIterators ht.self :=
    countP_pos_iff.mpr ⟨iter, hmem, beq_iff_eq.mpr hself⟩
  rcases h.counted with hmax | hle
  · omega
  · omega

theorem Attached.counted_of_kept (h : Attached o) (hk : OthersKept o ht) :
    ht.nIteratorsCount = 255 ∨ attachedTo ht.htIterators ht.self ≤ ht.nIteratorsCount := by
  rw [hk.attachedTo_eq, hk.self_eq, hk.counter_eq]
  exact h.counted

theorem Attached.carried_of_live (h : Attached o) (hk : OthersKept o ht)
    (hinit : ht.initialized = true) (hpacked : ht.packed = false)
    (hlive : ∀ i < ht.nNumUsed, ht.isLive i = true) : Carried o ht := by
  have hall : ∀ p, ht.Positioned p := by
    intro p
    rcases Nat.lt_or_ge p ht.nNumUsed with hlt | hge
    · exact .inl ⟨hlt, hlive p hlt⟩
    · exact .inr (.inr ⟨hinit, hpacked, hge⟩)
  exact ⟨hk, fun huninit => absurd (hinit.symm.trans huninit) (by decide),
    hk.counter_eq ▸ h.counter, h.counted_of_kept hk, fun iter _ _ => hall _, hall _⟩

theorem Attached.carried_of_eq (h : Attached o) (hself : ht.self = o.self)
    (hcount : ht.nIteratorsCount = o.nIteratorsCount) (hiters : ht.htIterators = o.htIterators)
    (hpointer : ht.nInternalPointer = o.nInternalPointer)
    (hfresh : ht.initialized = false → ht.packed = false ∧ ht.nNumUsed = 0)
    (hpos : ∀ p, o.Positioned p → ht.Positioned p) : Carried o ht := by
  have hk : OthersKept o ht := .of_eq hself hcount hiters
  refine ⟨hk, hfresh, hcount ▸ h.counter, h.counted_of_kept hk, ?_, ?_⟩
  · rw [hiters, hself]
    exact fun iter hmem hown => hpos _ (h.placed iter hmem hown)
  · exact hpointer ▸ hpos _ h.pointer

theorem Attached.carried_of_update (h : Attached o) (hself : ht.self = o.self)
    (hcount : ht.nIteratorsCount = o.nIteratorsCount)
    (hiters : ht.htIterators = (o.zendHashIteratorsUpdate i j).htIterators)
    (hpointer : ht.nInternalPointer = if o.nInternalPointer = i then j else o.nInternalPointer)
    (hfresh : ht.initialized = false → ht.packed = false ∧ ht.nNumUsed = 0) (hto : ht.Positioned j)
    (hpos : ∀ p, p ≠ i → o.Positioned p → ht.Positioned p) : Carried o ht := by
  have hupdate := othersKept_zendHashIteratorsUpdate o i j
  have hk : OthersKept o ht := hupdate.trans
    (.of_eq (hself.trans hupdate.self_eq.symm) (hcount.trans hupdate.counter_eq.symm) hiters)
  refine ⟨hk, hfresh, hcount ▸ h.counter, h.counted_of_kept hk, ?_, ?_⟩
  · rw [hiters, hself]
    unfold zendHashIteratorsUpdate
    split
    · -- the table has no iterators
      rename_i hzero
      exact fun iter hmem hown => absurd hzero (h.count_ne_zero hmem hown)
    · intro iter' hmem' hown
      obtain ⟨iter, hmem, rfl⟩ := List.mem_map.mp hmem'
      by_cases hat : iter.ht = o.self ∧ iter.pos = i
      · rw [if_pos hat]
        exact hto
      · rw [if_neg hat] at hown ⊢
        exact hpos _ (fun hi => hat ⟨hown, hi⟩) (h.placed iter hmem hown)
  · rw [hpointer]
    split
    · exact hto
    · rename_i hne
      exact hpos _ hne h.pointer

/-! ## Rehashing -/

theorem isLive_moveBucket_self (ht : HashTable V) (i j : Nat) :
    (ht.moveBucket i j).isLive j = ht.isLive i := by
  show (update ht.arData j (ht.arData i) j).val.isSome = _
  rw [update_self]
  rfl

/-- What closing the holes does: the slots below `j` have buckets. -/
structure Closing (o ht : HashTable V) (j : Nat) : Prop extends OthersKept o ht where
  initialized_eq : ht.initialized = o.initialized
  packed_eq : ht.packed = o.packed
  live : ∀ k < j, ht.isLive k = true

theorem Closing.moveBucket (h : Closing o ht j) (hlive : ht.isLive i = true) :
    Closing o (ht.moveBucket i j) (j + 1) := by
  refine ⟨h.toOthersKept.trans (.of_eq rfl rfl rfl), h.initialized_eq, h.packed_eq, fun k hk => ?_⟩
  rcases Nat.lt_succ_iff_lt_or_eq.mp hk with hlt | rfl
  · show (update ht.arData j (ht.arData i) k).val.isSome = true
    rw [update_of_ne (Nat.ne_of_lt hlt)]
    exact h.live k hlt
  · rw [isLive_moveBucket_self]
    exact hlive

theorem Closing.zendHashIteratorsUpdate (h : Closing o ht j) (fromPos toPos : Nat) :
    Closing o (ht.zendHashIteratorsUpdate fromPos toPos) j := by
  have hk := h.toOthersKept.trans (othersKept_zendHashIteratorsUpdate ht fromPos toPos)
  obtain ⟨iters, heq⟩ := zendHashIteratorsUpdate_eq ht fromPos toPos
  rw [heq] at hk ⊢
  exact ⟨hk, h.initialized_eq, h.packed_eq, h.live⟩

theorem Closing.compact (h : Closing o ht j) :
    Closing o (ht.compact i j n).1 (ht.compact i j n).2 := by
  -- induction on the slots behind `i`
  induction n generalizing ht i j with
  | zero => exact h
  | succ n ih =>
    unfold HashTable.compact
    split
    · rename_i hlive
      exact ih (h.moveBucket hlive)
    · exact ih h

theorem Closing.compactIter (h : Closing o ht j) :
    Closing o (ht.compactIter i j p n).1 (ht.compactIter i j p n).2 := by
  -- induction on the slots behind `i`
  induction n generalizing ht i j p with
  | zero => exact h
  | succ n ih =>
    unfold HashTable.compactIter
    dsimp only
    split
    · rename_i hlive
      have hmove := h.moveBucket hlive
      split
      · exact ih (hmove.zendHashIteratorsUpdate i j)
      · exact ih hmove
    · exact ih h

theorem Closing.closeHoles (h : Closing o ht i) :
    Closing o (ht.closeHoles i n) (ht.closeHoles i n).nNumUsed := by
  unfold HashTable.closeHoles
  dsimp only
  split
  · have hdone : Closing o (ht.compact (i + 1) i n).1 (ht.compact (i + 1) i n).2 := h.compact
    exact ⟨hdone.toOthersKept.trans (.of_eq rfl rfl rfl), hdone.initialized_eq, hdone.packed_eq,
      hdone.live⟩
  · have hdone : Closing o (ht.compactIter (i + 1) i (ht.zendHashIteratorsLowerPos 0) n).1
        (ht.compactIter (i + 1) i (ht.zendHashIteratorsLowerPos 0) n).2 := h.compactIter
    exact ⟨hdone.toOthersKept.trans (.of_eq rfl rfl rfl), hdone.initialized_eq, hdone.packed_eq,
      hdone.live⟩

theorem Closing.link (h : Closing o ht i) (hlive : ht.isLive i = true) :
    Closing o (ht.link i) (i + 1) := by
  refine ⟨h.toOthersKept.trans (.of_eq rfl rfl rfl), h.initialized_eq, h.packed_eq, fun k hk => ?_⟩
  rcases Nat.lt_succ_iff_lt_or_eq.mp hk with hlt | rfl
  · exact h.live k hlt
  · exact hlive

theorem Closing.linkUpToHole (h : Closing o ht i) (hused : ht.nNumUsed = i + n) :
    Closing o (ht.linkUpToHole i n) (ht.linkUpToHole i n).nNumUsed := by
  -- induction on the slots from `i`
  induction n generalizing ht i with
  | zero =>
    unfold HashTable.linkUpToHole
    rw [hused]
    exact h
  | succ n ih =>
    unfold HashTable.linkUpToHole
    split
    · rename_i hlive
      exact ih (h.link hlive) (hused.trans (by omega))
    · exact h.closeHoles

structure CarriedHashed (o ht : HashTable V) : Prop extends Carried o ht where
  initialized : ht.initialized = true
  hashed : ht.packed = false

theorem Attached.linkAll (h : Attached o) (hinit : o.initialized = true)
    (hpacked : o.packed = false) : CarriedHashed o (o.linkAll i n) := by
  have hsame : ∀ m : HashTable V, m.Attached → ∀ i, Carried m (m.link i) :=
    fun m hm i => hm.carried_of_eq rfl rfl rfl rfl hm.fresh fun _ hpos => hpos
  -- induction on the buckets still to be linked
  induction n generalizing o i with
  | zero =>
    exact ⟨h.carried_of_eq rfl rfl rfl rfl h.fresh fun _ hpos => hpos, hinit, hpacked⟩
  | succ n ih =>
    have hlink := hsame o h i
    have hrest : CarriedHashed (o.link i) ((o.link i).linkAll (i + 1) n) :=
      ih hlink.toAttached hinit hpacked
    exact ⟨hlink.trans hrest.toCarried, hrest.initialized, hrest.hashed⟩

theorem Attached.zendHashRehash (h : Attached o) (hinit : o.initialized = true)
    (hpacked : o.packed = false) : CarriedHashed o o.zendHashRehash := by
  have hreset : Carried o o.hashReset :=
    h.carried_of_eq rfl rfl rfl rfl h.fresh fun _ hpos => hpos
  unfold HashTable.zendHashRehash
  rw [if_pos hinit]
  split
  · exact ⟨h.carried_of_live (.of_eq rfl rfl rfl) hinit hpacked fun i hi =>
      absurd hi (Nat.not_lt_zero i), hinit, hpacked⟩
  · split
    · have hlink : CarriedHashed o.hashReset (o.hashReset.linkAll 0 o.nNumUsed) :=
        hreset.toAttached.linkAll hinit hpacked
      exact ⟨hreset.trans hlink.toCarried, hlink.initialized, hlink.hashed⟩
    · have hclosed : Closing o (o.hashReset.linkUpToHole 0 o.nNumUsed) _ :=
        Closing.linkUpToHole ⟨hreset.toOthersKept, rfl, rfl, fun k hk => absurd hk k.not_lt_zero⟩
          (Nat.zero_add _).symm
      have hinit' := hclosed.initialized_eq.trans hinit
      have hpacked' := hclosed.packed_eq.trans hpacked
      exact ⟨h.carried_of_live hclosed.toOthersKept hinit' hpacked' hclosed.live, hinit', hpacked'⟩

theorem CarriedHashed.zendHashRehash {m : HashTable V} (h : CarriedHashed o m) :
    CarriedHashed o m.zendHashRehash := by
  have hre := h.toAttached.zendHashRehash h.initialized h.hashed
  exact ⟨h.toCarried.trans hre.toCarried, hre.initialized, hre.hashed⟩

theorem Attached.zendHashPackedToHash (h : Attached o) (hinit : o.initialized = true) :
    CarriedHashed o o.zendHashPackedToHash := by
  have hhash : Carried o { o with packed := false, nTableMask := tableMask o.nTableSize } := by
    refine h.carried_of_eq rfl rfl rfl rfl (fun huninit => ⟨rfl, (h.fresh huninit).2⟩)
      fun p hpos => ?_
    rcases hpos with hlive | hend | ⟨_, _, hge⟩
    · exact .inl hlive
    · exact .inr (.inl hend)
    · exact .inr (.inr ⟨hinit, rfl, hge⟩)
  exact CarriedHashed.zendHashRehash ⟨hhash, hinit, rfl⟩

theorem Attached.refl_hashed (h : Attached o) (hinit : o.initialized = true)
    (hpacked : o.packed = false) : CarriedHashed o o :=
  ⟨h.carried_of_eq rfl rfl rfl rfl h.fresh fun _ hpos => hpos, hinit, hpacked⟩

theorem CarriedHashed.ifFullDoResize {m : HashTable V} (h : CarriedHashed o m)
    (hres : m.ifFullDoResize = .ok ht) : CarriedHashed o ht := by
  unfold HashTable.ifFullDoResize zendHashDoResize at hres
  split at hres
  · split at hres
    · rw [← Except.ok.inj hres]
      exact h.zendHashRehash
    · split at hres
      · have hlarger : Carried m { m with
            nTableSize := m.nTableSize + m.nTableSize
            nTableMask := tableMask (m.nTableSize + m.nTableSize) } :=
          h.toAttached.carried_of_eq rfl rfl rfl rfl h.fresh fun _ hpos => hpos
        rw [← Except.ok.inj hres]
        exact CarriedHashed.zendHashRehash
          ⟨h.toCarried.trans hlarger, h.initialized, h.hashed⟩
      · cases hres
  · rw [← Except.ok.inj hres]
    exact h

/-! ## Insertion -/

theorem iterators_update_congr (hself : ht.self = o.self)
    (hcount : ht.nIteratorsCount = o.nIteratorsCount) (hiters : ht.htIterators = o.htIterators) :
    (ht.zendHashIteratorsUpdate i j).htIterators = (o.zendHashIteratorsUpdate i j).htIterators := by
  unfold zendHashIteratorsUpdate
  rw [hcount]
  split
  · exact hiters
  · show ht.htIterators.map _ = o.htIterators.map _
    rw [hiters, hself]

theorem cursors_eq (ht : HashTable V) (idx : Nat) :
    (ht.noteInternalPointer idx).zendHashIteratorsUpdate htInvalidIdx idx = { ht with
      nInternalPointer := if ht.nInternalPointer = htInvalidIdx then idx else ht.nInternalPointer
      htIterators := (ht.zendHashIteratorsUpdate htInvalidIdx idx).htIterators } := by
  unfold noteInternalPointer zendHashIteratorsUpdate
  split
  · split
    · rfl
    · rfl
  · split
    · rfl
    · rfl

theorem Attached.addToHash {h : UInt64} {key : Option ZendString} {v : V} (ha : Attached o)
    (hinit : o.initialized = true) (hpacked : o.packed = false) :
    Carried o (o.addToHash h key v) := by
  have heq : o.addToHash h key v = link { o with
      nNumUsed := o.nNumUsed + 1
      nNumOfElements := o.nNumOfElements + 1
      nInternalPointer :=
        if o.nInternalPointer = htInvalidIdx then o.nNumUsed else o.nInternalPointer
      htIterators := (o.zendHashIteratorsUpdate htInvalidIdx o.nNumUsed).htIterators
      arData := update o.arData o.nNumUsed ⟨h, key, some v⟩ } o.nNumUsed := by
    unfold HashTable.addToHash
    dsimp only
    rw [cursors_eq, @iterators_update_congr _ o { o with
      nNumUsed := o.nNumUsed + 1, nNumOfElements := o.nNumOfElements + 1 } _ _ rfl rfl rfl]
  rw [heq]
  refine ha.carried_of_update rfl rfl rfl rfl (fun huninit => absurd (hinit.symm.trans huninit)
    (by decide)) (.inl ⟨Nat.lt_succ_self _, ?_⟩) ?_
  · show (update o.arData o.nNumUsed ⟨h, key, some v⟩ o.nNumUsed).val.isSome = true
    rw [update_self]
    rfl
  · intro p hne hpos
    by_cases hp : p = o.nNumUsed
    · refine .inl ⟨hp ▸ Nat.lt_succ_self _, ?_⟩
      show (update o.arData o.nNumUsed ⟨h, key, some v⟩ p).val.isSome = true
      rw [hp, update_self]
      rfl
    · rcases hpos with ⟨hlt, hlive⟩ | hend | ⟨_, _, hge⟩
      · refine .inl ⟨Nat.lt_succ_of_lt hlt, ?_⟩
        show (update o.arData o.nNumUsed ⟨h, key, some v⟩ p).val.isSome = true
        rw [update_of_ne hp]
        exact hlive
      · exact absurd hend hne
      · exact .inr (.inr ⟨hinit, hpacked, show o.nNumUsed + 1 ≤ p by omega⟩)

theorem Attached.addToPacked {h : UInt64} {v : V} {flag : HashFlag} (ha : Attached o)
    (hinit : o.initialized = true) (hpacked : o.packed = true) (hge : o.nNumUsed ≤ h.toNat) :
    Carried o (o.addToPacked h v flag) := by
  obtain ⟨hnum, hdata⟩ := addToPacked_slots o h v flag
  have hused : (o.addToPacked h v flag).nNumUsed = h.toNat + 1 := by
    rw [hnum]
    split
    · rfl
    · omega
  have hcursors : ∀ (m : HashTable V) (idx : Nat), m.self = o.self →
      m.nIteratorsCount = o.nIteratorsCount → m.htIterators = o.htIterators →
      m.nInternalPointer = o.nInternalPointer → m.initialized = o.initialized →
      let m' := ((m.noteInternalPointer idx).zendHashIteratorsUpdate htInvalidIdx
        idx).raiseNextFreeElement h
      m'.self = o.self ∧ m'.nIteratorsCount = o.nIteratorsCount ∧
        m'.htIterators = (o.zendHashIteratorsUpdate htInvalidIdx idx).htIterators ∧
        m'.nInternalPointer =
          (if o.nInternalPointer = htInvalidIdx then idx else o.nInternalPointer) ∧
        m'.initialized = o.initialized := by
    intro m idx hself hcount hiters hpointer hflag
    dsimp only
    rw [cursors_eq, raiseNextFreeElement_eq, iterators_update_congr hself hcount hiters, hpointer]
    exact ⟨hself, hcount, rfl, rfl, hflag⟩
  have hfields : (o.addToPacked h v flag).self = o.self ∧
      (o.addToPacked h v flag).nIteratorsCount = o.nIteratorsCount ∧
      (o.addToPacked h v flag).htIterators =
        (o.zendHashIteratorsUpdate htInvalidIdx h.toNat).htIterators ∧
      (o.addToPacked h v flag).nInternalPointer =
        (if o.nInternalPointer = htInvalidIdx then h.toNat else o.nInternalPointer) ∧
      (o.addToPacked h v flag).initialized = o.initialized := by
    unfold HashTable.addToPacked
    dsimp only
    rw [if_pos hge]
    split
    · exact hcursors
        { o with nNumUsed := h.toNat + 1, nNumOfElements := o.nNumOfElements + 1 } h.toNat
        rfl rfl rfl rfl rfl
    · exact hcursors { o with
        arData := fun q =>
          if o.nNumUsed ≤ q ∧ q < h.toNat then { o.arData q with val := none } else o.arData q
        nNumUsed := h.toNat + 1
        nNumOfElements := o.nNumOfElements + 1 } h.toNat rfl rfl rfl rfl rfl
  obtain ⟨hself, hcount, hiters, hpointer, hflag⟩ := hfields
  refine ha.carried_of_update hself hcount hiters hpointer (fun huninit => ?_)
    (.inl ⟨hused ▸ Nat.lt_succ_self _, ?_⟩) ?_
  · exact absurd ((hflag.trans hinit).symm.trans huninit) (by decide)
  · rw [isLive, hdata, update_self]
    rfl
  · intro p hne hpos
    rcases hpos with ⟨hlt, hlive⟩ | hend | ⟨_, hhashed, _⟩
    · refine .inl ⟨hused ▸ (by omega), ?_⟩
      rw [isLive, hdata, update_of_ne (by omega)]
      dsimp only
      rw [if_neg (by omega)]
      exact hlive
    · exact absurd hend hne
    · exact absurd (hpacked.symm.trans hhashed) (by decide)

theorem Attached.setVal {v : V} (h : Attached o) : Carried o (o.setVal i v) := by
  refine h.carried_of_eq rfl rfl rfl rfl h.fresh fun p hpos => ?_
  rcases hpos with ⟨hlt, hlive⟩ | hrest
  · refine .inl ⟨hlt, ?_⟩
    show (update o.arData i { o.arData i with val := some v } p).val.isSome = true
    by_cases hp : p = i
    · rw [hp, update_self]
      rfl
    · rw [update_of_ne hp]
      exact hlive
  · exact .inr hrest

theorem Attached.raiseNextFreeElement (ha : Attached o) (h : UInt64) :
    Carried o (o.raiseNextFreeElement h) := by
  rw [raiseNextFreeElement_eq]
  exact ha.carried_of_eq rfl rfl rfl rfl ha.fresh fun _ hpos => hpos

theorem Attached.realInitEx (h : Attached o) (huninit : o.initialized = false) (packed : Bool) :
    Carried o (o.zendHashRealInitEx packed) ∧
      (o.zendHashRealInitEx packed).initialized = true ∧
      (o.zendHashRealInitEx packed).packed = packed := by
  obtain ⟨hpacked, hzero⟩ := h.fresh huninit
  have hpos : ∀ p, o.Positioned p → p = htInvalidIdx := by
    intro p hpos
    rcases hpos with ⟨hlt, _⟩ | hend | ⟨hinit, _⟩
    · omega
    · exact hend
    · exact absurd (huninit.symm.trans hinit) (by decide)
  cases packed with
  | true =>
    exact ⟨h.carried_of_eq rfl rfl rfl rfl (fun hun => by cases hun)
      fun p hp => .inr (.inl (hpos p hp)), rfl, rfl⟩
  | false =>
    exact ⟨h.carried_of_eq rfl rfl rfl rfl (fun hun => by cases hun)
      fun p hp => .inr (.inl (hpos p hp)), rfl, hpacked⟩

theorem CarriedHashed.resizeInsert {m : HashTable V} {h : UInt64} {key : Option ZendString} {v : V}
    {r : Option Nat × HashTable V} (hm : CarriedHashed o m) (hnext : Bool)
    (hres : (m.ifFullDoResize.map fun ht =>
      (some ht.nNumUsed, (if hnext then ht.raiseNextFreeElement h else ht).addToHash h key v)) =
        .ok r) : Carried o r.2 := by
  cases hroom : m.ifFullDoResize with
  | error stop =>
    rw [hroom] at hres
    cases hres
  | ok ht =>
    rw [hroom] at hres
    rw [← Except.ok.inj hres]
    have hroomy := hm.ifFullDoResize hroom
    cases hnext with
    | true =>
      have hraise := hroomy.toAttached.raiseNextFreeElement h
      have hflags : (ht.raiseNextFreeElement h).initialized = true ∧
          (ht.raiseNextFreeElement h).packed = false := by
        rw [raiseNextFreeElement_eq]
        exact ⟨hroomy.initialized, hroomy.hashed⟩
      exact hroomy.toCarried.trans (hraise.trans
        (hraise.toAttached.addToHash hflags.1 hflags.2))
    | false =>
      exact hroomy.toCarried.trans (hroomy.toAttached.addToHash hroomy.initialized hroomy.hashed)

theorem Attached.zendHashAddOrUpdateI {key : ZendString} {v : V} {flag : HashFlag}
    {r : Option Nat × HashTable V} (h : Attached o)
    (hres : o.zendHashAddOrUpdateI key v flag = .ok r) : Carried o r.2 := by
  have hrefl : Carried o o := h.carried_of_eq rfl rfl rfl rfl h.fresh fun _ hpos => hpos
  unfold HashTable.zendHashAddOrUpdateI at hres
  dsimp only at hres
  split at hres
  · rename_i hun
    obtain ⟨hreal, hinit, hpacked⟩ := h.realInitEx (by simpa using hun) false
    rw [← Except.ok.inj hres]
    exact hreal.trans (hreal.toAttached.addToHash hinit hpacked)
  · rename_i hun
    have hinit : o.initialized = true := by simpa using hun
    split at hres
    · exact (h.zendHashPackedToHash hinit).resizeInsert false hres
    · rename_i hpack
      have hhashed := h.refl_hashed hinit (by simpa using hpack)
      split at hres
      · split at hres
        · cases hres
        · rw [← Except.ok.inj hres]
          split
          · exact hrefl
          · exact h.setVal
        · exact hhashed.resizeInsert false hres
      · exact hhashed.resizeInsert false hres

theorem Attached.zendHashIndexAddOrUpdateI {h : UInt64} {v : V} {flag : HashFlag}
    {r : Option Nat × HashTable V} (ha : Attached o)
    (hres : o.zendHashIndexAddOrUpdateI h v flag = .ok r) : Carried o r.2 := by
  have hrefl : Carried o o := ha.carried_of_eq rfl rfl rfl rfl ha.fresh fun _ hpos => hpos
  have hover : ∀ i, Carried o ((o.setVal i v).raiseNextFreeElement h) := fun i =>
    ha.setVal.trans (ha.setVal.toAttached.raiseNextFreeElement h)
  unfold HashTable.zendHashIndexAddOrUpdateI at hres
  dsimp only at hres
  split at hres
  · rename_i hun
    have huninit : o.initialized = false := by simpa using hun
    rw [nTableSize_realInitEx] at hres
    rw [← Except.ok.inj hres]
    obtain ⟨hreal, hinit, hpacked⟩ := ha.realInitEx huninit (decide (h.toNat < o.nTableSize))
    split
    · rename_i hroom
      have hpacked := hpacked.trans (decide_eq_true hroom)
      refine hreal.trans (hreal.toAttached.addToPacked hinit hpacked ?_)
      rw [nNumUsed_realInitEx, (ha.fresh huninit).2]
      exact Nat.zero_le _
    · rename_i hroom
      have hraise := hreal.toAttached.raiseNextFreeElement h
      refine hreal.trans (hraise.trans (hraise.toAttached.addToHash ?_ ?_))
      · rw [raiseNextFreeElement_eq]
        exact hinit
      · rw [raiseNextFreeElement_eq]
        exact hpacked.trans (decide_eq_false hroom)
  · rename_i hun
    have hinit : o.initialized = true := by simpa using hun
    split at hres
    · rename_i hpack
      have htohash := ha.zendHashPackedToHash hinit
      split at hres
      · split at hres
        · rw [← Except.ok.inj hres]
          split
          · exact hrefl
          · exact hover _
        · exact htohash.resizeInsert true hres
      · rename_i hge
        split at hres
        · rw [← Except.ok.inj hres]
          exact ha.addToPacked hinit hpack (Nat.le_of_not_lt hge)
        · split at hres
          · unfold zendHashPackedGrow at hres
            split at hres
            · cases hres
            · rw [← Except.ok.inj hres]
              have hgrown : Carried o { o with nTableSize := o.nTableSize + o.nTableSize } :=
                ha.carried_of_eq rfl rfl rfl rfl ha.fresh fun _ hpos => hpos
              exact hgrown.trans
                (hgrown.toAttached.addToPacked hinit hpack (Nat.le_of_not_lt hge))
          · exact htohash.resizeInsert true hres
    · rename_i hpack
      have hhashed := ha.refl_hashed hinit (by simpa using hpack)
      split at hres
      · split at hres
        · cases hres
        · rw [← Except.ok.inj hres]
          split
          · exact hrefl
          · exact hover _
        · exact hhashed.resizeInsert true hres
      · exact hhashed.resizeInsert true hres

/-! ## Deletion -/

/-- `p` is the slot of the first element behind slot `i`, or the end if there is none. -/
def IsNextLive (ht : HashTable V) (i p : Nat) : Prop :=
  (i < p ∧ p < ht.nNumUsed ∧ ht.isLive p = true ∧ ∀ k, i < k → k < p → ht.isLive k = false) ∨
    p = htInvalidIdx ∧ ∀ k, i < k → k < ht.nNumUsed → ht.isLive k = false

theorem nextLive_first (hlt : ht.nextLive i n < i + n) {k : Nat} (hle : i ≤ k)
    (hk : k < ht.nextLive i n) : ht.isLive k = false := by
  -- induction on the slots from `i`
  induction n generalizing i with
  | zero => omega
  | succ n ih =>
    unfold nextLive at hlt hk
    split at hk
    · omega
    · rename_i hdead
      rw [if_neg hdead] at hlt
      rcases Nat.eq_or_lt_of_le hle with rfl | hgt
      · exact Bool.eq_false_iff.mpr hdead
      · exact ih (show ht.nextLive (i + 1) n < i + 1 + n by omega) hgt hk

/-- The slot that the cursors on slot `idx` go to. -/
def successor (ht : HashTable V) (idx : Nat) : Nat :=
  ht.nextLive (idx + 1) (ht.usedWithout idx - (idx + 1))

theorem isNextLive_successor (ht : HashTable V) (idx : Nat) :
    ht.IsNextLive idx (ht.successor idx) ∧
      (ht.successor idx = htInvalidIdx ∨ ht.successor idx < ht.usedWithout idx) := by
  obtain ⟨hle, htrim⟩ := ht.usedWithout_spec idx
  have hbehind : ∀ k, ht.usedWithout idx ≤ k → idx < k → k < ht.nNumUsed → ht.isLive k = false :=
    fun k hge hgt hlt => htrim k hge hlt (by omega)
  rcases ht.nextLive_spec (idx + 1) (ht.usedWithout idx - (idx + 1)) with
    ⟨hend, hdead⟩ | ⟨hge, hlt, hlive⟩
  · refine ⟨.inr ⟨hend, fun k hgt hk => ?_⟩, .inl hend⟩
    rcases Nat.lt_or_ge k (ht.usedWithout idx) with hused | hused
    · exact hdead k hgt (by omega)
    · exact hbehind k hused hgt hk
  · have hlt' : ht.successor idx < ht.usedWithout idx := by
      unfold successor
      omega
    exact ⟨.inl ⟨hge, hlt'.trans_le hle, hlive, fun k hgt hk => nextLive_first hlt hgt hk⟩,
      .inr hlt'⟩

theorem nextLive_congr (hdata : ht.arData = o.arData) (i n : Nat) :
    ht.nextLive i n = o.nextLive i n := by
  induction n generalizing i with
  | zero => rfl
  | succ n ih => rw [nextLive, nextLive, ih, isLive, isLive, hdata]

theorem leave_cursors (ht : HashTable V) (idx : Nat) :
    ht.leave idx = { ht with
      nInternalPointer := if ht.nInternalPointer = idx then
        ht.nextLive (idx + 1) (ht.nNumUsed - (idx + 1)) else ht.nInternalPointer
      htIterators := (ht.zendHashIteratorsUpdate idx
        (ht.nextLive (idx + 1) (ht.nNumUsed - (idx + 1)))).htIterators } := by
  unfold leave zendHashIteratorsUpdate
  split
  · dsimp only
    split
    · split
      · rfl
      · rfl
    · split
      · rfl
      · rfl
  · rename_i hstay
    rw [not_or, not_not] at hstay
    rw [if_neg hstay.1, if_pos hstay.2]

theorem zendHashDelElEx_cursors (ht : HashTable V) (idx : Nat) (prev : Option Nat) :
    (ht.zendHashDelElEx idx prev).htIterators =
        (ht.zendHashIteratorsUpdate idx (ht.successor idx)).htIterators ∧
      (ht.zendHashDelElEx idx prev).nInternalPointer =
        if ht.nInternalPointer = idx then ht.successor idx else ht.nInternalPointer := by
  obtain ⟨hash, zNext, hun⟩ := unlink_eq ht idx prev
  rw [zendHashDelElEx_leave, leave_cursors, hun]
  have hnext : HashTable.nextLive { ht with
      hash, zNext, nNumUsed := ht.usedWithout idx, nNumOfElements := ht.nNumOfElements - 1 }
      (idx + 1) (ht.usedWithout idx - (idx + 1)) = ht.successor idx := by
    apply nextLive_congr
    rfl
  dsimp only
  rw [hnext]
  exact ⟨iterators_update_congr rfl rfl rfl, rfl⟩

theorem Attached.zendHashDelElEx (h : Attached o) (idx : Nat) (prev : Option Nat) :
    Carried o (o.zendHashDelElEx idx prev) := by
  obtain ⟨hiters, hpointer⟩ := o.zendHashDelElEx_cursors idx prev
  obtain ⟨hsucc, hend⟩ := o.isNextLive_successor idx
  obtain ⟨hle, htrim⟩ := o.usedWithout_spec idx
  have hshape : (o.zendHashDelElEx idx prev).self = o.self ∧
      (o.zendHashDelElEx idx prev).nIteratorsCount = o.nIteratorsCount ∧
      (o.zendHashDelElEx idx prev).initialized = o.initialized ∧
      (o.zendHashDelElEx idx prev).packed = o.packed ∧
      (o.zendHashDelElEx idx prev).nNumUsed = o.usedWithout idx ∧
      (o.zendHashDelElEx idx prev).arData =
        update o.arData idx { o.arData idx with val := none } := by
    obtain ⟨pos, iters, heq⟩ := zendHashDelElEx_eq o idx prev
    obtain ⟨hash, zNext, hun⟩ := unlink_eq o idx prev
    rw [heq, hun]
    exact ⟨rfl, rfl, rfl, rfl, rfl, rfl⟩
  obtain ⟨hself, hcount, hinit, hpacked, hused, hdata⟩ := hshape
  have hother : ∀ p, p ≠ idx → (o.zendHashDelElEx idx prev).isLive p = o.isLive p := by
    intro p hne
    rw [isLive, hdata, update_of_ne hne, ← isLive]
  refine h.carried_of_update hself hcount hiters hpointer (fun huninit => ?_) ?_ ?_
  · obtain ⟨hhash, hzero⟩ := h.fresh (hinit.symm.trans huninit)
    exact ⟨hpacked.trans hhash, by omega⟩
  · rcases hsucc with ⟨hgt, _, hlive, _⟩ | ⟨heq, _⟩
    · rcases hend with heq | hlt
      · exact .inr (.inl heq)
      · exact .inl ⟨hused ▸ hlt, (hother _ (by omega)).trans hlive⟩
    · exact .inr (.inl heq)
  · intro p hne hpos
    rcases hpos with ⟨hlt, hlive⟩ | heq | ⟨hinit', hpacked', hge⟩
    · refine .inl ⟨?_, (hother p hne).trans hlive⟩
      rw [hused]
      by_contra hnot
      exact absurd (htrim p (by omega) hlt hne) (by rw [hlive]; decide)
    · exact .inr (.inl heq)
    · exact .inr (.inr ⟨hinit.trans hinit', hpacked.trans hpacked', by omega⟩)

theorem Attached.refl (h : Attached o) : Carried o o :=
  h.carried_of_eq rfl rfl rfl rfl h.fresh fun _ hpos => hpos

theorem zendHashDel_eq (ht : HashTable V) (key : ZendString) {r : Bool × HashTable V}
    (hres : ht.zendHashDel key = .ok r) :
    ht.zendHashFindBucket key = .ok none ∧ r.2 = ht ∨
      ∃ idx prev, ht.zendHashFindBucket key = .ok (some idx) ∧
        r.2 = ht.zendHashDelElEx idx prev := by
  unfold HashTable.zendHashDel at hres
  unfold zendHashFindBucket
  dsimp only at hres ⊢
  cases hfound : ht.searchChain (zendInlineHashFunc key) (isStr (zendInlineHashFunc key) key) with
  | error stop =>
    rw [hfound] at hres
    cases hres
  | ok found =>
    rw [hfound] at hres
    cases found with
    | none => exact .inl ⟨rfl, congrArg Prod.snd (Except.ok.inj hres).symm⟩
    | some p => exact .inr ⟨p.2, p.1, rfl, congrArg Prod.snd (Except.ok.inj hres).symm⟩

/-- The slot of the element with the integer key `h`. -/
def indexSlot (ht : HashTable V) (h : UInt64) : Except HashStop (Option Nat) :=
  if ht.packed then
    .ok (if h.toNat < ht.nNumUsed ∧ ht.isLive h.toNat then some h.toNat else none)
  else ht.zendHashIndexFindBucket h

theorem zendHashIndexDel_eq (ht : HashTable V) (h : UInt64) {r : Bool × HashTable V}
    (hres : ht.zendHashIndexDel h = .ok r) :
    ht.indexSlot h = .ok none ∧ r.2 = ht ∨
      ∃ idx prev, ht.indexSlot h = .ok (some idx) ∧ r.2 = ht.zendHashDelElEx idx prev := by
  unfold HashTable.zendHashIndexDel at hres
  unfold indexSlot
  split at hres
  · rename_i hpacked
    rw [if_pos hpacked]
    split at hres
    · rename_i hin
      rw [if_pos hin]
      exact .inr ⟨_, none, rfl, congrArg Prod.snd (Except.ok.inj hres).symm⟩
    · rename_i hout
      rw [if_neg hout]
      exact .inl ⟨rfl, congrArg Prod.snd (Except.ok.inj hres).symm⟩
  · rename_i hpacked
    rw [if_neg hpacked]
    unfold zendHashIndexFindBucket
    cases hfound : ht.searchChain h (isIndex h) with
    | error stop =>
      rw [hfound] at hres
      cases hres
    | ok found =>
      rw [hfound] at hres
      cases found with
      | none => exact .inl ⟨rfl, congrArg Prod.snd (Except.ok.inj hres).symm⟩
      | some p => exact .inr ⟨p.2, p.1, rfl, congrArg Prod.snd (Except.ok.inj hres).symm⟩

end Phpce.HashTable
