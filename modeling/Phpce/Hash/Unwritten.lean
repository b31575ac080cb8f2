import Phpce.Hash.Resize
import Phpce.Lib.Run

/-!
# Packed tables in memory that nobody has written

New memory for the buckets holds anything: growing a packed table copies the slots in use, and the
slots behind them are written one by one when they come into use. `next_index_insert_new` takes
them for written.

* `used_zendHashRehash`: what holds of the buckets in use, rehashing keeps.
* **`throughout_allWritten_iff`**: no slot in use is ever unwritten if and only if each
  `next_index_insert_new` finds the slots written that it passes over.
-/

namespace Phpce

namespace HashTable

open Function (update update_of_ne update_self)

variable {V : Type*} {o ht : HashTable V} {P : Bucket V → Prop} {i j n p : Nat}

/-! ## What holds of the buckets in use -/

/-- `P` holds of the buckets in the slots below `n`. -/
def Below (P : Bucket V → Prop) (ht : HashTable V) (n : Nat) : Prop := ∀ i < n, P (ht.arData i)

/-- `P` holds of the buckets in use. -/
def Used (P : Bucket V → Prop) (ht : HashTable V) : Prop := Below P ht ht.nNumUsed

theorem Below.mono (h : Below P ht n) (hle : j ≤ n) : Below P ht j :=
  fun i hi => h i (hi.trans_le hle)

theorem Below.moveBucket (h : Below P ht n) (hi : i < n) (j : Nat) :
    Below P (ht.moveBucket i j) n := by
  intro k hk
  show P (update ht.arData j (ht.arData i) k)
  by_cases hkj : k = j
  · rw [hkj, update_self]
    exact h i hi
  · rw [update_of_ne hkj]
    exact h k hk

theorem Below.zendHashIteratorsUpdate (h : Below P ht n) (fromPos toPos : Nat) :
    Below P (ht.zendHashIteratorsUpdate fromPos toPos) n := by
  obtain ⟨iters, heq⟩ := zendHashIteratorsUpdate_eq ht fromPos toPos
  rw [heq]
  exact h

theorem Below.compact (h : Below P ht (i + n)) (hji : j ≤ i) :
    Below P (ht.compact i j n).1 (i + n) ∧ (ht.compact i j n).2 ≤ i + n := by
  -- induction on the slots behind `i`
  induction n generalizing ht i j with
  | zero => exact ⟨h, hji⟩
  | succ n ih =>
    rw [show i + (n + 1) = i + 1 + n by omega] at h ⊢
    unfold HashTable.compact
    split
    · exact ih (h.moveBucket (by omega) j) (by omega)
    · exact ih h (by omega)

theorem Below.compactIter (h : Below P ht (i + n)) (hji : j ≤ i) :
    Below P (ht.compactIter i j p n).1 (i + n) ∧ (ht.compactIter i j p n).2 ≤ i + n := by
  -- induction on the slots behind `i`
  induction n generalizing ht i j p with
  | zero => exact ⟨h, hji⟩
  | succ n ih =>
    rw [show i + (n + 1) = i + 1 + n by omega] at h ⊢
    unfold HashTable.compactIter
    dsimp only
    split
    · have hmove := h.moveBucket (show i < i + 1 + n by omega) j
      split
      · exact ih (hmove.zendHashIteratorsUpdate i j) (by omega)
      · exact ih hmove (by omega)
    · exact ih h (by omega)

theorem Below.closeHoles (h : Below P ht (i + (n + 1))) : Used P (ht.closeHoles i n) := by
  rw [show i + (n + 1) = i + 1 + n by omega] at h
  unfold HashTable.closeHoles
  dsimp only
  split
  · obtain ⟨hbelow, hle⟩ := h.compact i.le_succ
    exact hbelow.mono hle
  · obtain ⟨hbelow, hle⟩ := h.compactIter (p := ht.zendHashIteratorsLowerPos 0) i.le_succ
    exact hbelow.mono hle

theorem Below.linkAll (h : Below P ht j) : Below P (ht.linkAll i n) j := by
  induction n generalizing ht i with
  | zero => exact h
  | succ n ih => exact ih (show Below P (ht.link i) j from h)

theorem Below.linkUpToHole (h : Below P ht (i + n)) (hused : ht.nNumUsed = i + n) :
    Used P (ht.linkUpToHole i n) := by
  -- induction on the slots from `i`
  induction n generalizing ht i with
  | zero =>
    rw [Used, HashTable.linkUpToHole, hused]
    exact h
  | succ n ih =>
    unfold HashTable.linkUpToHole
    split
    · have hrest : Below P (ht.link i) (i + 1 + n) := by
        rw [show i + 1 + n = i + (n + 1) by omega]
        exact h
      exact ih hrest (hused.trans (by omega))
    · exact h.closeHoles

theorem used_zendHashRehash (h : Used P ht) : Used P ht.zendHashRehash := by
  unfold zendHashRehash
  split
  · split
    · exact fun i hi => absurd hi (Nat.not_lt_zero i)
    · exact h
  · split
    · have hlink : ∀ (ht : HashTable V) (i n : Nat), (ht.linkAll i n).nNumUsed = ht.nNumUsed := by
        intro ht i n
        induction n generalizing ht i with
        | zero => rfl
        | succ n ih => exact ih (ht.link i) (i + 1)
      rw [Used, hlink]
      exact Below.linkAll (show Below P ht.hashReset _ from h)
    · refine Below.linkUpToHole (show Below P ht.hashReset _ from ?_) ?_
      · rw [Nat.zero_add]
        exact h
      · exact (Nat.zero_add _).symm

theorem used_zendHashPackedToHash (h : Used P ht) : Used P ht.zendHashPackedToHash :=
  used_zendHashRehash
    (show Used P { ht with packed := false, nTableMask := tableMask ht.nTableSize } from h)

theorem used_ifFullDoResize (h : Used P ht) (hres : ht.ifFullDoResize = .ok o) : Used P o := by
  unfold ifFullDoResize zendHashDoResize at hres
  split at hres
  · split at hres
    · rw [← Except.ok.inj hres]
      exact used_zendHashRehash h
    · split at hres
      · rw [← Except.ok.inj hres]
        exact used_zendHashRehash (show Used P { ht with
          nTableSize := ht.nTableSize + ht.nTableSize
          nTableMask := tableMask (ht.nTableSize + ht.nTableSize) } from h)
      · cases hres
  · rw [← Except.ok.inj hres]
    exact h

theorem used_addToHash {h : UInt64} {key : Option ZendString} {v : V} (hused : Used P ht)
    (hnew : P ⟨h, key, some v⟩) : Used P (ht.addToHash h key v) := by
  obtain ⟨pos, iters, heq⟩ := addToHash_eq ht h key v
  rw [heq]
  intro i hi
  show P (update ht.arData ht.nNumUsed ⟨h, key, some v⟩ i)
  by_cases hin : i = ht.nNumUsed
  · rw [hin, update_self]
    exact hnew
  · rw [update_of_ne hin]
    exact hused i (by
      have hle : i < ht.nNumUsed + 1 := hi
      omega)

theorem used_setVal {v : V} (hused : Used P ht)
    (hnew : ∀ b : Bucket V, P b → P { b with val := some v }) : Used P (ht.setVal n v) := by
  intro i hi
  show P (update ht.arData n { ht.arData n with val := some v } i)
  by_cases hin : i = n
  · rw [hin, update_self]
    exact hnew _ (hused n (hin ▸ hi))
  · rw [update_of_ne hin]
    exact hused i hi

theorem used_zendHashDelElEx {prev : Option Nat} (hused : Used P ht)
    (hhole : ∀ b : Bucket V, P b → P { b with val := none }) :
    Used P (ht.zendHashDelElEx n prev) := by
  obtain ⟨pos, iters, heq⟩ := zendHashDelElEx_eq ht n prev
  have hle := (ht.usedWithout_spec n).1
  rw [heq]
  intro i hi
  show P (update ht.arData n { ht.arData n with val := none } i)
  have hlt : i < ht.nNumUsed := Nat.lt_of_lt_of_le hi hle
  by_cases hin : i = n
  · rw [hin, update_self]
    exact hhole _ (hused n (hin ▸ hlt))
  · rw [update_of_ne hin]
    exact hused i hlt

theorem used_addToPacked {h : UInt64} {v : V} {flag : HashFlag}
    (hflag : (flag.addNew && flag.addNext) = false) (hused : Used P ht)
    (hhole : ∀ b : Bucket V, P { b with val := none }) (hnew : P ⟨h, none, some v⟩) :
    Used P (ht.addToPacked h v flag) := by
  obtain ⟨hnum, hdata⟩ := addToPacked_slots ht h v flag
  intro i hi
  rw [hnum, hflag, if_neg (by decide)] at hi
  rw [hdata]
  by_cases hih : i = h.toNat
  · rw [hih, update_self]
    exact hnew
  · rw [update_of_ne hih]
    dsimp only
    split
    · exact hhole _
    · rename_i hpassed
      refine hused i (Nat.lt_of_not_le fun hle => hpassed ⟨hflag, hle, ?_⟩)
      omega

theorem used_addToPacked_new_iff {h : UInt64} {v : V} {flag : HashFlag}
    (hflag : (flag.addNew && flag.addNext) = true) (hused : Used P ht)
    (hnew : P ⟨h, none, some v⟩) :
    Used P (ht.addToPacked h v flag) ↔
      ∀ i, ht.nNumUsed ≤ i → i < h.toNat → P (ht.arData i) := by
  obtain ⟨hnum, hdata⟩ := addToPacked_slots ht h v flag
  have hother : ∀ i, i ≠ h.toNat → (ht.addToPacked h v flag).arData i = ht.arData i := by
    intro i hih
    rw [hdata, update_of_ne hih]
    dsimp only
    rw [if_neg fun hpassed => absurd (hflag.symm.trans hpassed.1) (by decide)]
  unfold Used Below
  rw [hnum, hflag, if_pos rfl]
  constructor
  · intro hall i _ hlt
    rw [← hother i (Nat.ne_of_lt hlt)]
    exact hall i (by omega)
  · intro hpassed i hi
    by_cases hih : i = h.toNat
    · rw [hdata, hih, update_self]
      exact hnew
    · rw [hother i hih]
      rcases Nat.lt_or_ge i ht.nNumUsed with hlt | hge
      · exact hused i hlt
      · exact hpassed i hge (by omega)

theorem used_raiseNextFreeElement (hused : Used P ht) (h : UInt64) :
    Used P (ht.raiseNextFreeElement h) := by
  rw [raiseNextFreeElement_eq]
  exact hused

structure MadeBy (P : Bucket V → Prop) (h : UInt64) (v : V) : Prop where
  stored : P ⟨h, none, some v⟩
  updated : ∀ b : Bucket V, P b → P { b with val := some v }
  hole : ∀ b : Bucket V, P { b with val := none }

theorem used_resizeInsert {h : UInt64} {v : V} {r : Option Nat × HashTable V}
    (hmade : MadeBy P h v) (hused : Used P ht)
    (hres : (ht.ifFullDoResize.map fun ht =>
      (some ht.nNumUsed, (ht.raiseNextFreeElement h).addToHash h none v)) = .ok r) :
    Used P r.2 := by
  cases hroom : ht.ifFullDoResize with
  | error stop =>
    rw [hroom] at hres
    cases hres
  | ok o =>
    rw [hroom] at hres
    rw [← Except.ok.inj hres]
    have hraised := used_raiseNextFreeElement (used_ifFullDoResize hused hroom) h
    exact used_addToHash hraised hmade.stored

/-- **An insertion** keeps what holds of the buckets in use, if it is not `insert_new`. -/
theorem used_zendHashIndexAddOrUpdateI {h : UInt64} {v : V} {flag : HashFlag}
    {r : Option Nat × HashTable V} (hmade : MadeBy P h v) (hused : Used P ht)
    (hflag : (flag.addNew && flag.addNext) = false)
    (hres : ht.zendHashIndexAddOrUpdateI h v flag = .ok r) : Used P r.2 := by
  have hpacked : ∀ ht : HashTable V, Used P ht → Used P (ht.addToPacked h v flag) :=
    fun ht hused => used_addToPacked hflag hused hmade.hole hmade.stored
  have hover : ∀ i, Used P ((ht.setVal i v).raiseNextFreeElement h) := fun i =>
    used_raiseNextFreeElement (used_setVal hused hmade.updated) h
  have hreinit : ∀ packed, Used P (ht.zendHashRealInitEx packed) := by
    intro packed
    cases packed with
    | true => exact hused
    | false => exact hused
  unfold HashTable.zendHashIndexAddOrUpdateI at hres
  dsimp only at hres
  split at hres
  · -- a table without memory
    rw [← Except.ok.inj hres]
    split
    · exact hpacked _ (hreinit _)
    · exact used_addToHash (used_raiseNextFreeElement (hreinit _) h) hmade.stored
  · split at hres
    · split at hres
      · split at hres
        · rw [← Except.ok.inj hres]
          split
          · exact hused
          · exact hover _
        · exact used_resizeInsert hmade (used_zendHashPackedToHash hused) hres
      · split at hres
        · rw [← Except.ok.inj hres]
          exact hpacked ht hused
        · split at hres
          · unfold zendHashPackedGrow at hres
            split at hres
            · cases hres
            · rw [← Except.ok.inj hres]
              exact hpacked _ hused
          · exact used_resizeInsert hmade (used_zendHashPackedToHash hused) hres
    · split at hres
      · split at hres
        · cases hres
        · rw [← Except.ok.inj hres]
          split
          · exact hused
          · exact hover _
        · exact used_resizeInsert hmade hused hres
      · exact used_resizeInsert hmade hused hres

/-- `insert_new` stores the element in a slot of a packed table: in its first memory, in the memory
there is, or after `zend_hash_packed_grow`. -/
def AddsToPacked (ht : HashTable V) (h : UInt64) : Prop :=
  if ht.initialized = false then h.toNat < ht.nTableSize
  else ht.packed = true ∧ ht.nNumUsed ≤ h.toNat ∧
    (h.toNat < ht.nTableSize ∨ h.toNat >>> 1 < ht.nTableSize ∧
      ht.nTableSize >>> 1 < ht.nNumOfElements)

/-- **`insert_new`** keeps it if and only if it holds of the slots that are passed over. -/
theorem used_insertNew_iff {h : UInt64} {v : V} {flag : HashFlag} {r : Option Nat × HashTable V}
    (hmade : MadeBy P h v) (hused : Used P ht) (hflag : (flag.addNew && flag.addNext) = true)
    (hres : ht.zendHashIndexAddOrUpdateI h v flag = .ok r) :
    Used P r.2 ↔
      (ht.AddsToPacked h → ∀ i, ht.nNumUsed ≤ i → i < h.toNat → P (ht.arData i)) := by
  have hpacked : ∀ ht : HashTable V, Used P ht → (Used P (ht.addToPacked h v flag) ↔
      ∀ i, ht.nNumUsed ≤ i → i < h.toNat → P (ht.arData i)) :=
    fun ht hused => used_addToPacked_new_iff hflag hused hmade.stored
  have hkeeps : ∀ {p : Prop}, Used P r.2 → ¬ht.AddsToPacked h →
      (Used P r.2 ↔ (ht.AddsToPacked h → p)) :=
    fun hafter hnot => ⟨fun _ hadds => absurd hadds hnot, fun _ => hafter⟩
  unfold HashTable.zendHashIndexAddOrUpdateI at hres
  dsimp only at hres
  split at hres
  · rename_i huninit
    have huninit : ht.initialized = false := by simpa using huninit
    rw [nTableSize_realInitEx] at hres
    split at hres
    · rename_i hroom
      have hadds : ht.AddsToPacked h := by
        rw [AddsToPacked, if_pos huninit]
        exact hroom
      rw [← Except.ok.inj hres, decide_eq_true hroom]
      refine (hpacked (ht.zendHashRealInitEx true) hused).trans ?_
      exact ⟨fun hall _ => hall, fun hall => hall hadds⟩
    · rename_i hroom
      refine hkeeps ?_ ?_
      · rw [← Except.ok.inj hres, decide_eq_false hroom]
        exact used_addToHash (used_raiseNextFreeElement
          (show Used P (ht.zendHashRealInitEx false) from hused) h) hmade.stored
      · rw [AddsToPacked, if_pos huninit]
        exact hroom
  · rename_i hinit
    have hinit : ¬ht.initialized = false := by simpa using hinit
    split at hres
    · rename_i hpack
      split at hres
      · rename_i hlt
        have hnot : ¬ht.AddsToPacked h := by
          rw [AddsToPacked, if_neg hinit]
          exact fun hadds => absurd hadds.2.1 (by omega)
        split at hres
        · refine hkeeps ?_ hnot
          rw [← Except.ok.inj hres]
          split
          · exact hused
          · exact used_raiseNextFreeElement (used_setVal hused hmade.updated) h
        · exact hkeeps (used_resizeInsert hmade (used_zendHashPackedToHash hused) hres) hnot
      · rename_i hge
        have hadds_iff : ht.AddsToPacked h ↔ (h.toNat < ht.nTableSize ∨
            h.toNat >>> 1 < ht.nTableSize ∧ ht.nTableSize >>> 1 < ht.nNumOfElements) := by
          rw [AddsToPacked, if_neg hinit]
          exact ⟨fun hadds => hadds.2.2, fun hroom => ⟨hpack, Nat.le_of_not_lt hge, hroom⟩⟩
        split at hres
        · rename_i hroom
          have hadds := hadds_iff.mpr (.inl hroom)
          rw [← Except.ok.inj hres]
          refine (hpacked ht hused).trans ?_
          exact ⟨fun hall _ => hall, fun hall => hall hadds⟩
        · rename_i hfull
          split at hres
          · rename_i hgrow
            have hadds := hadds_iff.mpr (.inr hgrow)
            unfold zendHashPackedGrow at hres
            split at hres
            · cases hres
            · rw [← Except.ok.inj hres]
              have hgrown := hpacked { ht with nTableSize := ht.nTableSize + ht.nTableSize } hused
              refine hgrown.trans ?_
              exact ⟨fun hall _ => hall, fun hall => hall hadds⟩
          · rename_i hgrow
            refine hkeeps (used_resizeInsert hmade (used_zendHashPackedToHash hused) hres) ?_
            exact fun hadds => (hadds_iff.mp hadds).elim hfull hgrow
    · rename_i hhashed
      have hnot : ¬ht.AddsToPacked h := by
        rw [AddsToPacked, if_neg hinit]
        exact fun hadds => hhashed hadds.1
      refine hkeeps ?_ hnot
      split at hres
      · split at hres
        · cases hres
        · rw [← Except.ok.inj hres]
          split
          · exact hused
          · exact used_raiseNextFreeElement (used_setVal hused hmade.updated) h
        · exact used_resizeInsert hmade hused hres
      · exact used_resizeInsert hmade hused hres

theorem used_zendHashIndexDel {h : UInt64} {r : Bool × HashTable V} (hused : Used P ht)
    (hhole : ∀ b : Bucket V, P { b with val := none }) (hres : ht.zendHashIndexDel h = .ok r) :
    Used P r.2 := by
  unfold HashTable.zendHashIndexDel at hres
  split at hres
  · rw [← Except.ok.inj hres]
    split
    · exact used_zendHashDelElEx hused fun b _ => hhole b
    · exact hused
  · cases hfind : ht.searchChain h (isIndex h) with
    | error stop =>
      rw [hfind] at hres
      cases hres
    | ok found =>
      rw [hfind] at hres
      cases found with
      | none =>
        rw [← Except.ok.inj hres]
        exact hused
      | some found =>
        rw [← Except.ok.inj hres]
        exact used_zendHashDelElEx hused fun b _ => hhole b

theorem used_zendHashExtend {nSize : Nat} {packed : Bool} (hused : Used P ht)
    (hres : ht.zendHashExtend nSize packed = .ok o) : Used P o := by
  have hsize : ∀ (nTableSize : Nat) (packed : Bool),
      Used P (zendHashRealInitEx { ht with nTableSize } packed) := by
    intro nTableSize packed
    cases packed with
    | true => exact hused
    | false => exact hused
  unfold HashTable.zendHashExtend at hres
  split at hres
  · rw [← Except.ok.inj hres]
    exact hused
  · split at hres
    · split at hres
      · cases hcheck : zendHashCheckSize nSize with
        | error stop =>
          rw [hcheck] at hres
          cases hres
        | ok nTableSize =>
          rw [hcheck] at hres
          rw [← Except.ok.inj hres]
          exact hsize nTableSize packed
      · rw [← Except.ok.inj hres]
        exact hsize ht.nTableSize packed
    · split at hres
      · cases hcheck : zendHashCheckSize nSize with
        | error stop =>
          rw [hcheck] at hres
          cases hres
        | ok nTableSize =>
          rw [hcheck] at hres
          rw [← Except.ok.inj hres]
          dsimp only
          split
          · exact hused
          · exact used_zendHashRehash
              (show Used P { ht with nTableSize, nTableMask := tableMask nTableSize } from hused)
      · rw [← Except.ok.inj hres]
        exact hused

/-- `_zend_hash_next_index_insert_new` -/
def zendHashNextIndexInsertNew (ht : HashTable V) (pData : V) :
    Except HashStop (Option Nat × HashTable V) :=
  ht.zendHashIndexAddOrUpdateI ht.nNextFreeElement.toUInt64 pData
    ((HASH_ADD.or HASH_ADD_NEW).or HASH_ADD_NEXT)

end HashTable

/-! ## Memory -/

/-- What the value of a slot holds: what was stored there, or what the memory held before. -/
inductive SlotMemory (V : Type*) where
  | garbage
  | value (v : V)
  deriving DecidableEq, Repr

/-- The operations on a table with integer keys. -/
inductive IndexOp (V : Type*) where
  | indexAdd (h : UInt64) (v : V)
  | indexUpdate (h : UInt64) (v : V)
  | indexAddNew (h : UInt64) (v : V)
  | nextIndexInsert (v : V)
  | nextIndexInsertNew (v : V)
  | indexDel (h : UInt64)
  | extend (nSize : Nat) (packed : Bool)
  deriving DecidableEq, Repr

namespace HashTable

variable {V : Type*} {o ht : HashTable (SlotMemory V)}

def IsWritten (p : Bucket (SlotMemory V)) : Prop := p.val ≠ some .garbage

instance (p : Bucket (SlotMemory V)) [DecidableEq V] : Decidable (IsWritten p) :=
  inferInstanceAs (Decidable (p.val ≠ some .garbage))

def AllWritten (ht : HashTable (SlotMemory V)) : Prop := Used IsWritten ht

/-- New memory for the buckets, to which those in use are copied. -/
def reallocate (ht : HashTable (SlotMemory V)) : HashTable (SlotMemory V) :=
  { ht with
    arData := fun i =>
      if i < ht.nNumUsed then ht.arData i else { ht.arData i with val := some .garbage } }

/-- An insertion of the key `h` gets memory for the buckets: the first, or in
`zend_hash_packed_grow` or `zend_hash_packed_to_hash`. Behind the slots in use of a hashed table
nothing is read. -/
def allocates (ht : HashTable (SlotMemory V)) (h : UInt64) : Bool :=
  !ht.initialized || ht.packed &&
    if h.toNat < ht.nNumUsed then !ht.isLive h.toNat else ht.nTableSize ≤ h.toNat

def forInsertion (ht : HashTable (SlotMemory V)) (h : UInt64) : HashTable (SlotMemory V) :=
  if ht.allocates h then ht.reallocate else ht

/-- `zend_hash_extend` gets memory for the buckets. -/
def forExtension (ht : HashTable (SlotMemory V)) (nSize : Nat) : HashTable (SlotMemory V) :=
  if nSize ≠ 0 ∧ (ht.initialized = false ∨ ht.nTableSize < nSize) then ht.reallocate else ht

end HashTable

variable {V : Type*} {o ht : HashTable (SlotMemory V)} {h : UInt64} {v : V} {flag : HashFlag}

namespace IndexOp

/-- The table that an operation leaves, with its memory. -/
def apply (ht : HashTable (SlotMemory V)) : IndexOp V → Except HashStop (HashTable (SlotMemory V))
  | .indexAdd h v => ((ht.forInsertion h).zendHashIndexAdd h (.value v)).map Prod.snd
  | .indexUpdate h v => ((ht.forInsertion h).zendHashIndexUpdate h (.value v)).map Prod.snd
  | .indexAddNew h v => ((ht.forInsertion h).zendHashIndexAddNew h (.value v)).map Prod.snd
  | .nextIndexInsert v =>
      ((ht.forInsertion ht.nNextFreeElement.toUInt64).zendHashNextIndexInsert (.value v)).map
        Prod.snd
  | .nextIndexInsertNew v =>
      ((ht.forInsertion ht.nNextFreeElement.toUInt64).zendHashNextIndexInsertNew (.value v)).map
        Prod.snd
  | .indexDel h => (ht.zendHashIndexDel h).map Prod.snd
  | .extend nSize packed => (ht.forExtension nSize).zendHashExtend nSize packed

/-- `next_index_insert_new` passes over no slot in memory that it gets, and over written ones in
the memory there is. -/
def Fills (ht : HashTable (SlotMemory V)) : IndexOp V → Prop
  | .nextIndexInsertNew _ =>
      let h := ht.nNextFreeElement.toUInt64
      ht.AddsToPacked h →
        if ht.allocates h then h.toNat ≤ ht.nNumUsed
        else ∀ i, ht.nNumUsed ≤ i → i < h.toNat → HashTable.IsWritten (ht.arData i)
  | _ => True

end IndexOp

namespace HashTable

theorem madeBy_isWritten (h : UInt64) (v : V) : MadeBy IsWritten h (.value v) where
  stored := fun hgarbage => by cases hgarbage
  updated _ _ := fun hgarbage => by cases hgarbage
  hole _ := fun hgarbage => by cases hgarbage

theorem AllWritten.reallocate (hwritten : AllWritten ht) : AllWritten ht.reallocate := by
  intro i hi
  show IsWritten (if i < ht.nNumUsed then ht.arData i else _)
  rw [if_pos (show i < ht.nNumUsed from hi)]
  exact hwritten i hi

theorem AllWritten.forInsertion (hwritten : AllWritten ht) (h : UInt64) :
    AllWritten (ht.forInsertion h) := by
  unfold HashTable.forInsertion
  split
  · exact hwritten.reallocate
  · exact hwritten

theorem AllWritten.insert {res : Except HashStop (Option Nat × HashTable (SlotMemory V))}
    (hwritten : AllWritten ht) (flag : HashFlag) (hflag : (flag.addNew && flag.addNext) = false)
    (hres : res = (ht.forInsertion h).zendHashIndexAddOrUpdateI h (.value v) flag)
    (happly : res.map Prod.snd = .ok o) : AllWritten o := by
  cases res with
  | error stop => cases happly
  | ok r =>
    rw [← Except.ok.inj happly]
    exact used_zendHashIndexAddOrUpdateI (madeBy_isWritten h v) (hwritten.forInsertion h) hflag
      hres.symm

theorem AllWritten.insertNew_iff (hwritten : AllWritten ht)
    (happly : (IndexOp.nextIndexInsertNew v).apply ht = .ok o) :
    AllWritten o ↔ (IndexOp.nextIndexInsertNew v).Fills ht := by
  unfold IndexOp.apply at happly
  dsimp only at happly
  generalize hh : ht.nNextFreeElement.toUInt64 = h at happly
  have hnext : (ht.forInsertion h).nNextFreeElement.toUInt64 = h := by
    rw [← hh]
    unfold HashTable.forInsertion
    split
    · rfl
    · rfl
  cases hres : (ht.forInsertion h).zendHashNextIndexInsertNew (.value v) with
  | error stop =>
    rw [hres] at happly
    cases happly
  | ok r =>
    rw [hres] at happly
    rw [← Except.ok.inj happly]
    unfold zendHashNextIndexInsertNew at hres
    rw [hnext] at hres
    refine (used_insertNew_iff (madeBy_isWritten h v) (hwritten.forInsertion h) rfl hres).trans ?_
    unfold IndexOp.Fills HashTable.forInsertion
    dsimp only
    rw [hh]
    split
    · -- the slots behind those in use are unwritten
      refine forall_congr' fun _ => ⟨fun hpassed => ?_, fun hle i hge hlt => ?_⟩
      · by_contra hlt
        have hgarbage := hpassed ht.nNumUsed le_rfl (Nat.lt_of_not_le hlt)
        refine hgarbage ?_
        show (if ht.nNumUsed < ht.nNumUsed then _ else _ : Bucket (SlotMemory V)).val = _
        rw [if_neg (Nat.lt_irrefl _)]
      · exact absurd hlt (Nat.not_lt_of_le (hle.trans hge))
    · exact Iff.rfl

theorem AllWritten.apply_iff (hwritten : AllWritten ht) {op : IndexOp V}
    (happly : op.apply ht = .ok o) : AllWritten o ↔ op.Fills ht := by
  have htrue : AllWritten o → (AllWritten o ↔ True) := fun h => ⟨fun _ => trivial, fun _ => h⟩
  cases op with
  | indexAdd h v => exact htrue (hwritten.insert HASH_ADD rfl rfl happly)
  | indexUpdate h v => exact htrue (hwritten.insert HASH_UPDATE rfl rfl happly)
  | indexAddNew h v => exact htrue (hwritten.insert (HASH_ADD.or HASH_ADD_NEW) rfl rfl happly)
  | nextIndexInsert v =>
    refine htrue (hwritten.insert (h := ht.nNextFreeElement.toUInt64) (v := v)
      (HASH_ADD.or HASH_ADD_NEXT) rfl ?_ happly)
    unfold HashTable.zendHashNextIndexInsert HashTable.forInsertion
    split
    · rfl
    · rfl
  | nextIndexInsertNew v => exact hwritten.insertNew_iff happly
  | indexDel h =>
    refine htrue ?_
    unfold IndexOp.apply at happly
    dsimp only at happly
    cases hres : ht.zendHashIndexDel h with
    | error stop =>
      rw [hres] at happly
      cases happly
    | ok r =>
      rw [hres] at happly
      rw [← Except.ok.inj happly]
      exact used_zendHashIndexDel hwritten (fun _ hgarbage => by cases hgarbage) hres
  | extend nSize packed =>
    refine htrue (used_zendHashExtend ?_ happly)
    unfold HashTable.forExtension
    split
    · exact hwritten.reallocate
    · exact hwritten

/-- Tables in memory, under operations with integer keys. -/
def memorySystem (V : Type*) : EventSystem (HashTable (SlotMemory V)) (IndexOp V) where
  step ht op := (op.apply ht).toOption

theorem apply_of_step {op : IndexOp V} (hstep : (memorySystem V).step ht op = some o) :
    op.apply ht = .ok o := by
  unfold memorySystem at hstep
  dsimp only at hstep
  cases happly : op.apply ht with
  | error stop =>
    rw [happly] at hstep
    cases hstep
  | ok r =>
    rw [happly] at hstep
    rw [← Option.some.inj hstep]

/-- **No slot in use is ever unwritten**, in a run where none is at first, if and only if each
`next_index_insert_new` of the run finds the slots written that it passes over. -/
theorem throughout_allWritten_iff {ops : List (IndexOp V)}
    (hrun : (memorySystem V).FreeRun o ops ht) (hwritten : AllWritten o) :
    (memorySystem V).Throughout AllWritten o ops ↔
      (memorySystem V).Along (fun ht op => op.Fills ht) o ops := by
  have hany : ∀ (ht : HashTable (SlotMemory V)) (op : IndexOp V) (ht' : HashTable (SlotMemory V)),
      True → True → (memorySystem V).step ht op = some ht' → True :=
    fun _ _ _ _ _ _ => trivial
  refine hrun.throughout_iff_along hany ?_ ?_ trivial hwritten
  · intro ht op ht' _ _ hwritten hfills hstep
    exact (hwritten.apply_iff (apply_of_step hstep)).mpr hfills
  · intro ht op ht' _ _ hwritten hnot hstep hafter
    exact hnot ((hwritten.apply_iff (apply_of_step hstep)).mp hafter)

/-- A table as `_zend_hash_init` leaves it. -/
def newTable : HashTable (SlotMemory Nat) where
  self := 0
  initialized := false
  packed := false
  nIteratorsCount := 0
  nTableMask := htMinMask
  arData _ := ⟨0, none, some .garbage⟩
  zNext _ := htInvalidIdx
  hash _ := htInvalidIdx
  nNumUsed := 0
  nNumOfElements := 0
  nTableSize := 8
  nInternalPointer := htInvalidIdx
  nNextFreeElement := 0
  htIterators := []

theorem throughout_allWritten_iff_append :
    (memorySystem Nat).Throughout AllWritten newTable [.nextIndexInsert 1, .nextIndexInsertNew 2] ↔
      (memorySystem Nat).Along (fun ht op => op.Fills ht) newTable
        [.nextIndexInsert 1, .nextIndexInsertNew 2] :=
  throughout_allWritten_iff (EventSystem.run_of_exec rfl)
    (fun i hi => absurd hi (Nat.not_lt_zero i))

/-- Eight elements, the last three deleted, and one more: the table grows, and slot 5 is in use. -/
def appendAfterDeletions : List (IndexOp Nat) :=
  (List.range 8).map .nextIndexInsert ++
    [.indexDel 5, .indexDel 6, .indexDel 7, .nextIndexInsertNew 8]

theorem not_throughout_allWritten :
    ¬∀ (o : HashTable (SlotMemory Nat)) (ops : List (IndexOp Nat)), AllWritten o →
      (memorySystem Nat).Throughout AllWritten o ops := by
  intro hall
  have hthroughout := hall newTable appendAfterDeletions fun i hi => absurd hi (Nat.not_lt_zero i)
  have hlast : ((memorySystem Nat).exec newTable appendAfterDeletions).map
      (fun ht => (ht.nNumUsed, (ht.arData 5).val)) = some (9, some .garbage) := by
    decide
  obtain ⟨ht, hexec, heq⟩ := Option.map_eq_some_iff.mp hlast
  obtain ⟨hused, hgarbage⟩ := Prod.mk.inj heq
  have hwritten := (EventSystem.run_of_exec hexec).last_of_throughout hthroughout
  exact hwritten 5 (by rw [hused]; decide) hgarbage

end HashTable

end Phpce
