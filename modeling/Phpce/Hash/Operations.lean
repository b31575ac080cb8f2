import Phpce.Hash.Valid

/-!
# The stores of the HashTable operations

What the straight-line parts of insertion and deletion do to a valid table and to its entries:
a bucket is appended (`addToHash`, `addToPacked`), gets another value (`setVal`), or becomes a hole
(`zendHashDelElEx`).
-/

namespace Phpce.HashTable

open List hiding beq_eq_decide
open Function (update update_of_ne update_self)

variable {V : Type*} {o ht : HashTable V} {i j n : Nat} {k : HashKey} {v : V} {h : UInt64}
  {prev : Option Nat} {flag : HashFlag}

/-! ## Fields that no lookup reads -/

/-- `ht` with another internal pointer, iterators and next free element. -/
def withCursor (ht : HashTable V) (pos : Nat) (next : Int64) (iters : List HashTableIterator) :
    HashTable V :=
  { ht with nInternalPointer := pos, nNextFreeElement := next, htIterators := iters }

theorem noteInternalPointer_eq (ht : HashTable V) (idx : Nat) :
    ∃ pos, ht.noteInternalPointer idx = ht.withCursor pos ht.nNextFreeElement ht.htIterators := by
  unfold noteInternalPointer
  split
  · exact ⟨idx, rfl⟩
  · exact ⟨ht.nInternalPointer, rfl⟩

theorem zendHashIteratorsUpdate_eq (ht : HashTable V) (fromPos toPos : Nat) :
    ∃ iters, ht.zendHashIteratorsUpdate fromPos toPos =
      ht.withCursor ht.nInternalPointer ht.nNextFreeElement iters := by
  unfold zendHashIteratorsUpdate
  split
  · exact ⟨ht.htIterators, rfl⟩
  · exact ⟨_, rfl⟩

/-- The next free element after an integer key was inserted or updated. -/
def nextFreeAfter (next : Int64) (h : UInt64) : Int64 :=
  if next ≤ h.toInt64 then
    if h < zendLongMax then (h + 1).toInt64 else zendLongMax.toInt64
  else next

theorem raiseNextFreeElement_eq (ht : HashTable V) (h : UInt64) :
    ht.raiseNextFreeElement h =
      ht.withCursor ht.nInternalPointer (nextFreeAfter ht.nNextFreeElement h) ht.htIterators := by
  unfold raiseNextFreeElement nextFreeAfter
  split
  · rename_i hle
    rfl
  · rfl

theorem Valid.withCursor (hv : Valid ht) (pos : Nat) (next : Int64)
    (iters : List HashTableIterator) : Valid (ht.withCursor pos next iters) :=
  ⟨⟨hv.1.1, hv.1.2, hv.1.3, hv.1.4, hv.1.5⟩, hv.2, hv.3, hv.4, hv.5⟩

@[simp] theorem entries_withCursor (pos : Nat) (next : Int64) (iters : List HashTableIterator) :
    (ht.withCursor pos next iters).entries = ht.entries := rfl

/-! ## Appending a bucket -/

theorem chainSlots_congr {x : UInt32} (hmask : ht.nTableMask = o.nTableMask)
    (hdata : ∀ i < n, ht.arData i = o.arData i) : ht.chainSlots n x = o.chainSlots n x := by
  unfold chainSlots
  congr 1
  apply filter_congr
  intro i hi
  rw [isLive, isLive, nIndex, nIndex, hdata i (mem_range.mp hi), hmask]

theorem chainSlots_succ {x : UInt32} (hlive : ht.isLive n = true) :
    ht.chainSlots (n + 1) x =
      if ht.nIndex (ht.arData n).h = x then n :: ht.chainSlots n x else ht.chainSlots n x := by
  unfold chainSlots
  rw [range_succ, filter_append, reverse_append]
  split
  · rename_i hx
    rw [filter_cons_of_pos (by simp [hlive, hx])]
    rfl
  · rename_i hx
    rw [filter_cons_of_neg (by simp [hlive, hx])]
    rfl

/-- A bucket in slot `p`, which becomes the last one in use; the slots before it are holes. -/
structure Appended (o ht : HashTable V) (p : Nat) (k : HashKey) (v : V) : Prop where
  le : o.nNumUsed ≤ p
  used_eq : ht.nNumUsed = p + 1
  elements_eq : ht.nNumOfElements = o.nNumOfElements + 1
  size_eq : ht.nTableSize = o.nTableSize
  data : ∀ i < o.nNumUsed, ht.arData i = o.arData i
  gap : ∀ i, o.nNumUsed ≤ i → i < p → ht.isLive i = false
  last : ht.arData p = ⟨k.hash, k.string, some v⟩

theorem Appended.entries_eq (ha : Appended o ht n k v) : ht.entries = o.entries ++ [(k, v)] := by
  have hlast : ht.slotEntry n = some (k, v) := by
    rw [slotEntry_eq_some, ha.last]
    exact ⟨k.toKey_mk _, rfl⟩
  rw [entries, ha.used_eq, entriesUpTo_succ_of_some hlast, entriesUpTo_of_holes ha.le ha.gap,
    entriesUpTo_congr ha.data, entries]

theorem Appended.isLive_last (ha : Appended o ht n k v) : ht.isLive n = true := by
  rw [isLive, ha.last]
  rfl

theorem Appended.cases (ha : Appended o ht n k v) (hi : i < ht.nNumUsed)
    (hlive : ht.isLive i = true) :
    (i < o.nNumUsed ∧ ht.arData i = o.arData i ∧ o.isLive i = true) ∨ i = n := by
  rcases Nat.lt_or_ge i o.nNumUsed with hlt | hge
  · refine .inl ⟨hlt, ha.data i hlt, ?_⟩
    rwa [isLive, ha.data i hlt] at hlive
  · rcases Nat.lt_or_ge i n with hlt | hge'
    · exact absurd (hlive.symm.trans (ha.gap i hge hlt)) (by decide)
    · rw [ha.used_eq] at hi
      exact .inr (by omega)

theorem Appended.sound (ha : Appended o ht n k v) (ho : Sound o) (hroom : n < o.nTableSize)
    (hk : k ∉ o.entries.map Prod.fst) : Sound ht where
  numOfElements := by
    rw [← length_entriesUpTo, ← entries, ha.entries_eq, length_append, entries,
      length_entriesUpTo, ha.elements_eq, ho.numOfElements]
    rfl
  used_le := by
    rw [ha.used_eq, ha.size_eq]
    exact hroom
  size := ha.size_eq ▸ ho.size
  hashed i hi hlive := by
    rcases ha.cases hi hlive with ⟨hlt, hdata, holive⟩ | rfl
    · rw [hdata]
      exact ho.hashed i hlt holive
    · rw [ha.last, k.toKey_mk]
  distinct i hi j hj hilive hjlive hkey := by
    have hlast : (ht.arData n).toKey = k := by
      rw [ha.last]
      exact k.toKey_mk _
    rcases ha.cases hi hilive with ⟨hilt, hidata, hiolive⟩ | rfl
    · rcases ha.cases hj hjlive with ⟨hjlt, hjdata, hjolive⟩ | rfl
      · rw [hidata, hjdata] at hkey
        exact ho.distinct i hilt j hjlt hiolive hjolive hkey
      · -- the key of the last bucket is new
        rw [hlast, hidata] at hkey
        exact absurd (mem_keys.mpr ⟨i, hilt, hiolive, hkey⟩) hk
    · rcases ha.cases hj hjlive with ⟨hjlt, hjdata, hjolive⟩ | rfl
      · rw [hlast, hjdata] at hkey
        exact absurd (mem_keys.mpr ⟨j, hjlt, hjolive, hkey.symm⟩) hk
      · rfl

theorem Appended.isChain (ha : Appended o ht o.nNumUsed k v) (hmask : ht.nTableMask = o.nTableMask)
    (hhash : ht.hash = update o.hash (o.nIndex k.hash) o.nNumUsed)
    (hnext : ht.zNext = update o.zNext o.nNumUsed (o.hash (o.nIndex k.hash)))
    (hlt : o.nNumUsed < htInvalidIdx) {x : UInt32}
    (ho : Chain.IsChain o.zNext htInvalidIdx (o.hash x) (o.chainSlots o.nNumUsed x)) :
    Chain.IsChain ht.zNext htInvalidIdx (ht.hash x) (ht.chainSlots ht.nNumUsed x) := by
  have hnotin : o.nNumUsed ∉ o.chainSlots o.nNumUsed x := fun hin =>
    Nat.lt_irrefl _ (mem_chainSlots.mp hin).1
  rw [ha.used_eq, chainSlots_succ ha.isLive_last, chainSlots_congr hmask ha.data, ha.last, nIndex,
    hmask, hhash, hnext]
  change Chain.IsChain _ _ _ (if o.nIndex k.hash = x then _ else _)
  split
  · rename_i hx
    subst hx
    rw [update_self]
    exact ho.push (Nat.ne_of_lt hlt) hnotin
  · rename_i hx
    rw [update_of_ne (Ne.symm hx)]
    exact ho.frame fun i hi =>
      update_of_ne (fun heq : i = o.nNumUsed => hnotin (heq ▸ hi)) _ _

/-- What an insertion makes of a table: the entry is appended. -/
structure InsertedAt (o ht : HashTable V) (k : HashKey) (v : V) : Prop where
  valid : ht.Valid
  entries_eq : ht.entries = o.entries ++ [(k, v)]

theorem Sound.used_lt (hs : Sound ht) (hroom : ht.nNumUsed < ht.nTableSize) :
    ht.nNumUsed < htInvalidIdx :=
  hroom.trans_le (hs.size.le.trans (by decide))

theorem addToHash_eq (ht : HashTable V) (h : UInt64) (key : Option ZendString) (v : V) :
    ∃ pos iters, ht.addToHash h key v =
      (link { ht with
        nNumUsed := ht.nNumUsed + 1
        nNumOfElements := ht.nNumOfElements + 1
        arData := update ht.arData ht.nNumUsed ⟨h, key, some v⟩ }
        ht.nNumUsed).withCursor pos ht.nNextFreeElement iters := by
  obtain ⟨pos, hpos⟩ := noteInternalPointer_eq
    { ht with nNumUsed := ht.nNumUsed + 1, nNumOfElements := ht.nNumOfElements + 1 } ht.nNumUsed
  obtain ⟨iters, hiters⟩ := zendHashIteratorsUpdate_eq (HashTable.withCursor
    { ht with nNumUsed := ht.nNumUsed + 1, nNumOfElements := ht.nNumOfElements + 1 } pos
    ht.nNextFreeElement ht.htIterators) htInvalidIdx ht.nNumUsed
  refine ⟨pos, iters, ?_⟩
  unfold HashTable.addToHash
  dsimp only
  rw [hpos, hiters]
  rfl

theorem Valid.addToHash (hv : Valid ht) (hinit : ht.initialized = true)
    (hpacked : ht.packed = false) (hroom : ht.nNumUsed < ht.nTableSize)
    (hk : k ∉ ht.entries.map Prod.fst) :
    InsertedAt ht (ht.addToHash k.hash k.string v) k v ∧
      (ht.addToHash k.hash k.string v).nNextFreeElement = ht.nNextFreeElement := by
  obtain ⟨pos, iters, heq⟩ := addToHash_eq ht k.hash k.string v
  rw [heq]
  refine ⟨?_, rfl⟩
  have ha : Appended ht (link { ht with
        nNumUsed := ht.nNumUsed + 1
        nNumOfElements := ht.nNumOfElements + 1
        arData := update ht.arData ht.nNumUsed ⟨k.hash, k.string, some v⟩ }
        ht.nNumUsed) ht.nNumUsed k v :=
    ⟨le_rfl, rfl, rfl, rfl, fun i hi => update_of_ne (Nat.ne_of_lt hi) _ _,
      fun i hge hlt => absurd hlt (by omega), update_self ..⟩
  have hkey : (update ht.arData ht.nNumUsed ⟨k.hash, k.string, some v⟩
      ht.nNumUsed).h = k.hash := by rw [update_self]
  refine ⟨Valid.withCursor ⟨ha.sound hv.toSound hroom hk, fun huninit => ?_, fun _ x => ?_,
    fun hpack => ?_, fun hpack => ?_⟩ _ _ _, ha.entries_eq⟩
  · exact absurd (hinit.symm.trans huninit) (by decide)
  · refine ha.isChain rfl ?_ ?_ (hv.used_lt hroom) (hv.chains hpacked x)
    · exact congrArg (fun h => update ht.hash (ht.nIndex h) ht.nNumUsed) hkey
    · exact congrArg (fun h => update ht.zNext ht.nNumUsed (ht.hash (ht.nIndex h))) hkey
  · exact absurd (hpacked.symm.trans hpack) (by decide)
  · exact absurd (hpacked.symm.trans hpack) (by decide)

theorem Valid.addToPacked (hv : Valid ht) (hinit : ht.initialized = true)
    (hpacked : ht.packed = true) (hge : ht.nNumUsed ≤ h.toNat) (hroom : h.toNat < ht.nTableSize)
    (hflag : (flag.addNew && flag.addNext) = false) (hk : .index h ∉ ht.entries.map Prod.fst) :
    InsertedAt ht (ht.addToPacked h v flag) (.index h) v ∧
      (ht.addToPacked h v flag).nNextFreeElement = nextFreeAfter ht.nNextFreeElement h := by
  obtain ⟨pos, hpos⟩ := noteInternalPointer_eq
    { ht with
      arData := fun q =>
        if ht.nNumUsed ≤ q ∧ q < h.toNat then { ht.arData q with val := none } else ht.arData q
      nNumUsed := h.toNat + 1
      nNumOfElements := ht.nNumOfElements + 1 } h.toNat
  obtain ⟨iters, hiters⟩ := zendHashIteratorsUpdate_eq (HashTable.withCursor
    { ht with
      arData := fun q =>
        if ht.nNumUsed ≤ q ∧ q < h.toNat then { ht.arData q with val := none } else ht.arData q
      nNumUsed := h.toNat + 1
      nNumOfElements := ht.nNumOfElements + 1 } pos ht.nNextFreeElement ht.htIterators)
    htInvalidIdx h.toNat
  have heq : ht.addToPacked h v flag = HashTable.withCursor { ht with
      arData := update (fun q =>
        if ht.nNumUsed ≤ q ∧ q < h.toNat then { ht.arData q with val := none } else ht.arData q)
        h.toNat ⟨h, none, some v⟩
      nNumUsed := h.toNat + 1
      nNumOfElements := ht.nNumOfElements + 1 }
      pos (nextFreeAfter ht.nNextFreeElement h) iters := by
    unfold HashTable.addToPacked
    dsimp only
    rw [if_neg (by rw [hflag]; decide), if_pos hge, hpos, hiters, raiseNextFreeElement_eq]
    rfl
  rw [heq]
  refine ⟨?_, rfl⟩
  have ha : Appended ht { ht with
      arData := update (fun q =>
        if ht.nNumUsed ≤ q ∧ q < h.toNat then { ht.arData q with val := none } else ht.arData q)
        h.toNat ⟨h, none, some v⟩
      nNumUsed := h.toNat + 1
      nNumOfElements := ht.nNumOfElements + 1 } h.toNat (.index h) v := by
    refine ⟨hge, rfl, rfl, rfl, ?_, ?_, ?_⟩
    · intro i hi
      dsimp only
      rw [update_of_ne (show i ≠ h.toNat by omega), if_neg (by omega)]
    · intro i hi hlt
      rw [isLive]
      dsimp only
      rw [update_of_ne (Nat.ne_of_lt hlt), if_pos ⟨hi, hlt⟩]
      rfl
    · dsimp only
      rw [update_self]
      rfl
  refine ⟨Valid.withCursor ⟨ha.sound hv.toSound hroom hk, fun huninit => ?_, fun hhash => ?_,
    fun _ i hi hlive => ?_, fun _ => ?_⟩ _ _ _, ha.entries_eq⟩
  · exact absurd (hinit.symm.trans huninit) (by decide)
  · exact absurd (hpacked.symm.trans hhash) (by decide)
  · rcases ha.cases hi hlive with ⟨hlt, hdata, holive⟩ | rfl
    · rw [hdata]
      exact hv.slots hpacked i hlt holive
    · rw [ha.last]
      exact ⟨rfl, rfl⟩
  · obtain ⟨bound, hbound, hhash, hslots⟩ := hv.noStrings hpacked
    refine ⟨bound, hbound, hhash, fun i hi => ⟨?_, (hslots i hi).2⟩⟩
    dsimp only
    by_cases hih : i = h.toNat
    · rw [hih, update_self]
    · rw [update_of_ne hih]
      split
      · exact (hslots i hi).1
      · exact (hslots i hi).1

theorem addToPacked_slots (ht : HashTable V) (h : UInt64) (v : V) (flag : HashFlag) :
    (ht.addToPacked h v flag).nNumUsed =
        (if flag.addNew && flag.addNext then h.toNat + 1 else max ht.nNumUsed (h.toNat + 1)) ∧
      (ht.addToPacked h v flag).arData = update
        (fun q => if (flag.addNew && flag.addNext) = false ∧ ht.nNumUsed ≤ q ∧ q < h.toNat then
          { ht.arData q with val := none } else ht.arData q) h.toNat ⟨h, none, some v⟩ := by
  have hcursors : ∀ (ht : HashTable V) (idx : Nat), ∃ pos next iters,
      ((ht.noteInternalPointer idx).zendHashIteratorsUpdate htInvalidIdx idx).raiseNextFreeElement
        h = ht.withCursor pos next iters := by
    intro ht idx
    obtain ⟨pos, hpos⟩ := noteInternalPointer_eq ht idx
    obtain ⟨iters, hiters⟩ := zendHashIteratorsUpdate_eq (ht.noteInternalPointer idx) htInvalidIdx
      idx
    rw [hiters, hpos, raiseNextFreeElement_eq]
    exact ⟨_, _, _, rfl⟩
  unfold HashTable.addToPacked
  dsimp only
  split
  · rename_i hnew
    obtain ⟨pos, next, iters, heq⟩ := hcursors
      { ht with nNumUsed := h.toNat + 1, nNumOfElements := ht.nNumOfElements + 1 } h.toNat
    rw [heq, hnew]
    exact ⟨rfl, by simp [withCursor]⟩
  · rename_i hnew
    rw [Bool.not_eq_true] at hnew
    split
    · rename_i hle
      obtain ⟨pos, next, iters, heq⟩ := hcursors
        { ht with
          arData := fun q =>
            if ht.nNumUsed ≤ q ∧ q < h.toNat then { ht.arData q with val := none } else ht.arData q
          nNumUsed := h.toNat + 1
          nNumOfElements := ht.nNumOfElements + 1 } h.toNat
      rw [heq, hnew]
      refine ⟨?_, by simp [withCursor]⟩
      show h.toNat + 1 = max ht.nNumUsed (h.toNat + 1)
      omega
    · rename_i hlt
      obtain ⟨pos, next, iters, heq⟩ := hcursors
        { ht with nNumOfElements := ht.nNumOfElements + 1 } h.toNat
      rw [heq, hnew]
      refine ⟨?_, ?_⟩
      · show ht.nNumUsed = max ht.nNumUsed (h.toNat + 1)
        omega
      · show update ht.arData h.toNat ⟨h, none, some v⟩ = _
        congr 1
        funext q
        rw [if_neg (by omega)]

/-! ## Another value -/

theorem Valid.setVal (hv : Valid ht) (hi : i < ht.nNumUsed) (hlive : ht.isLive i = true)
    (hkey : (ht.arData i).toKey = k) :
    Valid (ht.setVal i v) ∧ (ht.setVal i v).entries = OrderedMap.replace k v ht.entries := by
  have hsame : ∀ j, ((ht.setVal i v).arData j).h = (ht.arData j).h ∧
      ((ht.setVal i v).arData j).key = (ht.arData j).key ∧
      (ht.setVal i v).isLive j = ht.isLive j := by
    intro j
    by_cases hji : j = i
    · subst hji
      unfold HashTable.setVal HashTable.isLive
      dsimp only
      rw [update_self]
      exact ⟨rfl, rfl, hlive.symm⟩
    · unfold HashTable.setVal HashTable.isLive
      dsimp only
      rw [update_of_ne hji]
      exact ⟨rfl, rfl, rfl⟩
  have htoKey : ∀ j, ((ht.setVal i v).arData j).toKey = (ht.arData j).toKey := by
    intro j
    rw [Bucket.toKey, Bucket.toKey, (hsame j).1, (hsame j).2.1]
  have hentry : ∀ j < ht.nNumUsed, (ht.setVal i v).slotEntry j =
      (ht.slotEntry j).map fun e => if e.1 = k then (k, v) else e := by
    intro j hj
    by_cases hji : j = i
    · subst hji
      obtain ⟨w, hw⟩ := Option.isSome_iff_exists.mp hlive
      rw [slotEntry_eq_some.mpr ⟨hkey, hw⟩, slotEntry_eq_some.mpr ⟨(htoKey j).trans hkey, ?_⟩]
      · rw [Option.map_some, if_pos rfl]
      · unfold HashTable.setVal
        dsimp only
        rw [update_self]
    · have hdata : (ht.setVal i v).arData j = ht.arData j := update_of_ne hji _ _
      rw [slotEntry, hdata, ← slotEntry]
      cases he : ht.slotEntry j with
      | none => rfl
      | some e =>
        obtain ⟨hek, hew⟩ := slotEntry_eq_some.mp he
        rw [Option.map_some, if_neg]
        intro hk
        have hjlive : ht.isLive j = true := by rw [isLive, hew]; rfl
        exact hji (hv.distinct j hj i hi hjlive hlive (by rw [hek, hkey, hk]))
  refine ⟨⟨⟨?_, hv.used_le, hv.size, ?_, ?_⟩, hv.uninit, ?_, ?_, ?_⟩, ?_⟩
  · rw [← length_entriesUpTo, entriesUpTo]
    change ht.nNumOfElements = (List.filterMap _ (List.range ht.nNumUsed)).length
    rw [filterMap_congr fun j hj => hentry j (mem_range.mp hj), ← map_filterMap,
      length_map, hv.numOfElements, ← length_entriesUpTo, entriesUpTo]
  · intro j hj hjlive
    rw [(hsame j).1, htoKey]
    exact hv.hashed j hj ((hsame j).2.2 ▸ hjlive)
  · intro j hj l hl hjlive hllive hjl
    rw [htoKey, htoKey] at hjl
    exact hv.distinct j hj l hl ((hsame j).2.2 ▸ hjlive) ((hsame l).2.2 ▸ hllive) hjl
  · intro hpacked x
    have hslots : (ht.setVal i v).chainSlots ht.nNumUsed x = ht.chainSlots ht.nNumUsed x := by
      unfold chainSlots
      congr 1
      apply filter_congr
      intro j _
      rw [(hsame j).2.2, nIndex, (hsame j).1]
      rfl
    exact hslots ▸ hv.chains hpacked x
  · intro hpacked j hj hjlive
    rw [(hsame j).1, (hsame j).2.1]
    exact hv.slots hpacked j hj ((hsame j).2.2 ▸ hjlive)
  · intro hpacked
    obtain ⟨bound, hbound, hhash, hslots⟩ := hv.noStrings hpacked
    refine ⟨bound, hbound, hhash, fun j hj => ?_⟩
    rw [(hsame j).2.1]
    exact hslots j hj
  · rw [OrderedMap.replace, entries, entriesUpTo]
    change List.filterMap _ (List.range ht.nNumUsed) = _
    rw [filterMap_congr fun j hj => hentry j (mem_range.mp hj), ← map_filterMap,
      entries, entriesUpTo]

/-! ## A hole -/

theorem trimUsed_spec (ht : HashTable V) (n : Nat) :
    ht.trimUsed n ≤ n ∧ ∀ i, ht.trimUsed n ≤ i → i < n → ht.isLive i = false := by
  induction n with
  | zero => exact ⟨le_rfl, fun i _ hi => absurd hi (Nat.not_lt_zero i)⟩
  | succ n ih =>
    unfold trimUsed
    split
    · exact ⟨le_rfl, fun i hge hlt => absurd hlt (by omega)⟩
    · rename_i hhole
      refine ⟨ih.1.trans n.le_succ, fun i hge hlt => ?_⟩
      rcases Nat.lt_or_eq_of_le (Nat.le_of_lt_succ hlt) with hlt' | rfl
      · exact ih.2 i hge hlt'
      · exact Bool.eq_false_iff.mpr hhole

theorem nextLive_spec (ht : HashTable V) (i n : Nat) :
    (ht.nextLive i n = htInvalidIdx ∧ ∀ k, i ≤ k → k < i + n → ht.isLive k = false) ∨
      i ≤ ht.nextLive i n ∧ ht.nextLive i n < i + n ∧ ht.isLive (ht.nextLive i n) = true := by
  -- induction on the slots from `i`
  induction n generalizing i with
  | zero => exact .inl ⟨rfl, fun k hle hlt => absurd hlt (by omega)⟩
  | succ n ih =>
    unfold nextLive
    cases hlive : ht.isLive i with
    | true =>
      rw [if_pos rfl]
      exact .inr ⟨le_rfl, by omega, hlive⟩
    | false =>
      rw [if_neg (by decide)]
      rcases ih (i + 1) with ⟨hend, hholes⟩ | ⟨hle, hlt, hnext⟩
      · refine .inl ⟨hend, fun k hle hlt => ?_⟩
        rcases Nat.lt_or_eq_of_le hle with hlt' | rfl
        · exact hholes k hlt' (by omega)
        · exact hlive
      · exact .inr ⟨by omega, by omega, hnext⟩

/-- The bucket in slot `idx` becomes a hole; no slot behind those in use then has a value. -/
structure Deleted (o ht : HashTable V) (idx : Nat) : Prop where
  used_le : ht.nNumUsed ≤ o.nNumUsed
  elements_eq : ht.nNumOfElements = o.nNumOfElements - 1
  size_eq : ht.nTableSize = o.nTableSize
  data : ∀ i, i ≠ idx → ht.arData i = o.arData i
  hole : ht.arData idx = { o.arData idx with val := none }
  trimmed : ∀ i, ht.nNumUsed ≤ i → i < o.nNumUsed → i ≠ idx → o.isLive i = false

theorem Deleted.isLive_iff (hd : Deleted o ht j) :
    ht.isLive i = true ↔ i ≠ j ∧ o.isLive i = true := by
  by_cases hij : i = j
  · subst hij
    simp [isLive, hd.hole]
  · rw [isLive, hd.data i hij, ← isLive]
    simp [hij]

theorem Deleted.entries_eq (hd : Deleted o ht j) (ho : Sound o) (hj : j < o.nNumUsed)
    (hlive : o.isLive j = true) (hkey : (o.arData j).toKey = k) :
    ht.entries = o.entries.filter fun e => e.1 ≠ k := by
  have htrim : ht.entries = ht.entriesUpTo o.nNumUsed := by
    rw [entries, entriesUpTo_of_holes hd.used_le]
    intro i hge hlt
    by_cases hij : i = j
    · exact Bool.eq_false_iff.mpr fun h => (hd.isLive_iff.mp h).1 hij
    · rw [isLive, hd.data i hij]
      exact hd.trimmed i hge hlt hij
  rw [htrim, entries, entriesUpTo, entriesUpTo, filter_filterMap]
  apply filterMap_congr
  intro i hi
  rw [mem_range] at hi
  by_cases hij : i = j
  · subst hij
    obtain ⟨v, hv⟩ := Option.isSome_iff_exists.mp hlive
    rw [slotEntry_eq_some.mpr ⟨hkey, hv⟩, slotEntry, hd.hole]
    simp [Option.filter]
  · rw [slotEntry, hd.data i hij, ← slotEntry]
    cases he : o.slotEntry i with
    | none => rfl
    | some e =>
      obtain ⟨hek, hew⟩ := slotEntry_eq_some.mp he
      have hilive : o.isLive i = true := by rw [isLive, hew]; rfl
      have hne : e.1 ≠ k := fun hk =>
        hij (ho.distinct i hi j hj hilive hlive (by rw [hek, hkey, hk]))
      simp [Option.filter, hne]

theorem Sound.nodup_keys (hs : Sound ht) : (ht.entries.map Prod.fst).Nodup := by
  have hupTo : ∀ n ≤ ht.nNumUsed, ((ht.entriesUpTo n).map Prod.fst).Nodup := by
    intro n
    induction n with
    | zero => exact fun _ => nodup_nil
    | succ n ih =>
      intro hn
      have hih := ih (by omega)
      cases he : ht.slotEntry n with
      | none => rwa [entriesUpTo_succ_of_hole (slotEntry_eq_none.mp he)]
      | some e =>
        obtain ⟨hek, hew⟩ := slotEntry_eq_some.mp he
        rw [entriesUpTo_succ_of_some he, map_append]
        apply List.Nodup.append hih (nodup_singleton _)
        apply disjoint_singleton.mpr
        intro hmem
        obtain ⟨⟨k, v⟩, hin, hk⟩ := List.mem_map.mp hmem
        obtain ⟨i, hi, hslot⟩ := mem_filterMap.mp hin
        obtain ⟨hik, hiv⟩ := slotEntry_eq_some.mp hslot
        rw [mem_range] at hi
        have heq := hs.distinct i (by omega) n (by omega) (by rw [isLive, hiv]; rfl)
          (by rw [isLive, hew]; rfl) (by rw [hik, hek]; exact hk)
        omega
  exact hupTo _ le_rfl

theorem Sound.length_entries (hs : Sound ht) : ht.entries.length = ht.nNumOfElements := by
  rw [entries, length_entriesUpTo, hs.numOfElements]

theorem Deleted.sound (hd : Deleted o ht j) (ho : Sound o) (hj : j < o.nNumUsed)
    (hlive : o.isLive j = true) : Sound ht where
  numOfElements := by
    have hmem : (o.arData j).toKey ∈ o.entries.map Prod.fst :=
      mem_keys.mpr ⟨j, hj, hlive, rfl⟩
    have hkeys : ht.entries.map Prod.fst = (o.entries.map Prod.fst).erase (o.arData j).toKey := by
      rw [hd.entries_eq ho hj hlive rfl, ho.nodup_keys.erase_eq_filter, filter_map]
      congr 1
      apply filter_congr
      intro e _
      simp [bne, beq_eq_decide]
    rw [← length_entriesUpTo, ← entries, ← length_map Prod.fst, hkeys,
      length_erase_of_mem hmem, length_map, ho.length_entries, hd.elements_eq]
  used_le := by
    rw [hd.size_eq]
    exact hd.used_le.trans ho.used_le
  size := hd.size_eq ▸ ho.size
  hashed i hi hilive := by
    obtain ⟨hij, holive⟩ := hd.isLive_iff.mp hilive
    rw [hd.data i hij]
    exact ho.hashed i (hi.trans_le hd.used_le) holive
  distinct i hi l hl hilive hllive hkey := by
    obtain ⟨hij, hiolive⟩ := hd.isLive_iff.mp hilive
    obtain ⟨hlj, hlolive⟩ := hd.isLive_iff.mp hllive
    rw [hd.data i hij, hd.data l hlj] at hkey
    exact ho.distinct i (hi.trans_le hd.used_le) l (hl.trans_le hd.used_le) hiolive hlolive hkey

theorem Deleted.chainSlots_eq (hd : Deleted o ht j) (hmask : ht.nTableMask = o.nTableMask)
    (x : UInt32) :
    ht.chainSlots ht.nNumUsed x = (o.chainSlots o.nNumUsed x).filter (· ≠ j) := by
  have htrim : ht.chainSlots ht.nNumUsed x = ht.chainSlots o.nNumUsed x := by
    have hsplit : List.range o.nNumUsed = List.range ht.nNumUsed ++
        (List.range (o.nNumUsed - ht.nNumUsed)).map (ht.nNumUsed + ·) := by
      rw [← range_add, Nat.add_sub_cancel' hd.used_le]
    unfold chainSlots
    have hnone : ((List.range (o.nNumUsed - ht.nNumUsed)).map (ht.nNumUsed + ·)).filter
        (fun i => ht.isLive i && ht.nIndex (ht.arData i).h == x) = [] := by
      apply filter_eq_nil_iff.mpr
      intro i hi
      obtain ⟨d, hd', rfl⟩ := List.mem_map.mp hi
      rw [mem_range] at hd'
      intro hlive
      rw [Bool.and_eq_true] at hlive
      obtain ⟨hij, holive⟩ := hd.isLive_iff.mp hlive.1
      rw [hd.trimmed _ (by omega) (by omega) hij] at holive
      cases holive
    rw [hsplit, filter_append, hnone, append_nil]
  rw [htrim]
  unfold chainSlots
  rw [filter_reverse, List.filter_filter]
  congr 1
  apply filter_congr
  intro i _
  by_cases hij : i = j
  · subst hij
    simp [isLive, hd.hole]
  · rw [isLive, nIndex, hd.data i hij, hmask]
    simp [hij, isLive, nIndex]

/-- The stores that take the bucket in slot `idx` out of its chain. -/
def unlink (ht : HashTable V) (idx : Nat) (prev : Option Nat) : HashTable V :=
  if ht.packed then ht
  else match prev with
    | some prev => { ht with zNext := update ht.zNext prev (ht.zNext idx) }
    | none =>
        { ht with hash := update ht.hash (ht.nIndex (ht.arData idx).h) (ht.zNext idx) }

theorem unlink_eq (ht : HashTable V) (idx : Nat) (prev : Option Nat) :
    ∃ hash zNext, ht.unlink idx prev = { ht with hash, zNext } := by
  unfold unlink
  split
  · exact ⟨ht.hash, ht.zNext, rfl⟩
  · split
    · exact ⟨ht.hash, _, rfl⟩
    · exact ⟨_, ht.zNext, rfl⟩

/-- The slots in use after the bucket in slot `idx` became a hole. -/
def usedWithout (ht : HashTable V) (idx : Nat) : Nat :=
  if ht.nNumUsed - 1 = idx then ht.trimUsed (ht.nNumUsed - 1) else ht.nNumUsed

/-- The stores that take the cursors off the bucket in slot `idx`. -/
def leave (ht : HashTable V) (idx : Nat) : HashTable V :=
  if ht.nInternalPointer = idx ∨ ht.nIteratorsCount ≠ 0 then
    let newIdx := ht.nextLive (idx + 1) (ht.nNumUsed - (idx + 1))
    let ht := if ht.nInternalPointer = idx then { ht with nInternalPointer := newIdx } else ht
    ht.zendHashIteratorsUpdate idx newIdx
  else ht

theorem leave_eq (ht : HashTable V) (idx : Nat) :
    ∃ pos iters, ht.leave idx = ht.withCursor pos ht.nNextFreeElement iters := by
  unfold leave
  split
  · dsimp only
    split
    · obtain ⟨iters, hiters⟩ := zendHashIteratorsUpdate_eq
        { ht with nInternalPointer := ht.nextLive (idx + 1) (ht.nNumUsed - (idx + 1)) } idx
        (ht.nextLive (idx + 1) (ht.nNumUsed - (idx + 1)))
      exact ⟨_, iters, hiters⟩
    · obtain ⟨iters, hiters⟩ := zendHashIteratorsUpdate_eq ht idx
        (ht.nextLive (idx + 1) (ht.nNumUsed - (idx + 1)))
      exact ⟨_, iters, hiters⟩
  · exact ⟨ht.nInternalPointer, ht.htIterators, rfl⟩

theorem trimUsed_congr (hdata : ht.arData = o.arData) (n : Nat) : ht.trimUsed n = o.trimUsed n := by
  induction n with
  | zero => rfl
  | succ n ih => rw [trimUsed, trimUsed, ih, isLive, isLive, hdata]

theorem zendHashDelElEx_leave (ht : HashTable V) (idx : Nat) (prev : Option Nat) :
    ht.zendHashDelElEx idx prev =
      let o := HashTable.leave { ht.unlink idx prev with
        nNumUsed := ht.usedWithout idx, nNumOfElements := ht.nNumOfElements - 1 } idx
      { o with arData := update o.arData idx { o.arData idx with val := none } } := by
  have hdef : ht.zendHashDelElEx idx prev =
      let o := ht.unlink idx prev
      let o :=
        if o.nNumUsed - 1 = idx then { o with nNumUsed := o.trimUsed (o.nNumUsed - 1) } else o
      let o := HashTable.leave { o with nNumOfElements := o.nNumOfElements - 1 } idx
      { o with arData := update o.arData idx { o.arData idx with val := none } } := by
    rfl
  obtain ⟨hash, zNext, hun⟩ := unlink_eq ht idx prev
  have hused : (if (ht.unlink idx prev).nNumUsed - 1 = idx then
        { ht.unlink idx prev with
          nNumUsed := (ht.unlink idx prev).trimUsed ((ht.unlink idx prev).nNumUsed - 1) }
      else ht.unlink idx prev) = { ht.unlink idx prev with nNumUsed := ht.usedWithout idx } := by
    rw [trimUsed_congr (show (ht.unlink idx prev).arData = ht.arData by rw [hun]), usedWithout, hun]
    dsimp only
    split
    · rfl
    · rfl
  rw [hdef]
  dsimp only
  rw [hused, hun]

theorem zendHashDelElEx_eq (ht : HashTable V) (idx : Nat) (prev : Option Nat) :
    ∃ pos iters, ht.zendHashDelElEx idx prev = HashTable.withCursor
      { ht.unlink idx prev with
        nNumUsed := ht.usedWithout idx
        nNumOfElements := ht.nNumOfElements - 1
        arData := update ht.arData idx { ht.arData idx with val := none } }
      pos ht.nNextFreeElement iters := by
  obtain ⟨hash, zNext, hun⟩ := unlink_eq ht idx prev
  rw [zendHashDelElEx_leave, hun]
  obtain ⟨pos, iters, hleave⟩ := leave_eq { ht with
    hash, zNext
    nNumUsed := ht.usedWithout idx
    nNumOfElements := ht.nNumOfElements - 1 } idx
  refine ⟨pos, iters, ?_⟩
  dsimp only
  rw [hleave]
  rfl

theorem usedWithout_spec (ht : HashTable V) (idx : Nat) :
    ht.usedWithout idx ≤ ht.nNumUsed ∧
      ∀ i, ht.usedWithout idx ≤ i → i < ht.nNumUsed → i ≠ idx → ht.isLive i = false := by
  obtain ⟨hle, htrim⟩ := ht.trimUsed_spec (ht.nNumUsed - 1)
  unfold usedWithout
  split
  · exact ⟨by omega, fun i hge hlt hne => htrim i hge (by omega)⟩
  · exact ⟨le_rfl, fun i hge hlt => absurd hlt (by omega)⟩

/-- What a deletion makes of a table: the entry of the key is gone. -/
structure DeletedFrom (o ht : HashTable V) (k : HashKey) : Prop where
  valid : ht.Valid
  entries_eq : ht.entries = o.entries.filter fun e => e.1 ≠ k
  next_eq : ht.nNextFreeElement = o.nNextFreeElement

theorem filter_ne_of_nodup {as bs : List Nat} (hnd : (as ++ i :: bs).Nodup) :
    (as ++ i :: bs).filter (· ≠ i) = as ++ bs := by
  rw [nodup_middle, nodup_cons] at hnd
  have hself : ∀ l : List Nat, i ∉ l → l.filter (· ≠ i) = l := fun l hl =>
    filter_eq_self.mpr fun x hx => decide_eq_true (show x ≠ i from fun hxi => hl (hxi ▸ hx))
  rw [mem_append, not_or] at hnd
  rw [filter_append, filter_cons_of_neg (by simp), hself as hnd.1.1, hself bs hnd.1.2]

theorem FoundAt.isChain (hf : FoundAt ht k prev i) (hv : Valid ht) (hpacked : ht.packed = false)
    (x : UInt32) : Chain.IsChain (ht.unlink i prev).zNext htInvalidIdx ((ht.unlink i prev).hash x)
      ((ht.chainSlots ht.nNumUsed x).filter (· ≠ i)) := by
  have hchain := hv.chains hpacked
  have hih : (ht.arData i).h = k.hash := by rw [hv.hashed i hf.lt hf.live, hf.key]
  obtain ⟨as, bs, hlist, hprev⟩ := hf.chain
  have hnd := ht.nodup_chainSlots ht.nNumUsed (ht.nIndex k.hash)
  have hown := hchain (ht.nIndex k.hash)
  rw [hlist] at hnd hown
  unfold unlink
  rw [if_neg (by rw [hpacked]; decide), hih]
  by_cases hx : x = ht.nIndex k.hash
  · rw [hx, hlist, filter_ne_of_nodup hnd]
    rcases eq_nil_or_concat as with rfl | ⟨as', p, rfl⟩
    · -- the bucket heads its chain
      obtain rfl : prev = none := hprev
      dsimp only
      rw [update_self]
      exact hown.2.2
    · obtain rfl : prev = some p := by rw [hprev, concat_eq_append, List.getLast?_concat]
      rw [concat_eq_append, append_assoc] at hnd hown ⊢
      exact hown.bypass hnd
  · have hother : (ht.chainSlots ht.nNumUsed x).filter (· ≠ i) = ht.chainSlots ht.nNumUsed x := by
      apply filter_eq_self.mpr
      intro l hl
      refine decide_eq_true (show l ≠ i from fun hli => hx ?_)
      rw [← (mem_chainSlots.mp hl).2.2, hli, hih]
    rw [hother]
    cases prev with
    | none =>
      dsimp only
      rw [update_of_ne hx]
      exact hchain x
    | some p =>
      refine (hchain x).frame fun l hl => update_of_ne ?_ _ _
      rintro rfl
      have hin : l ∈ ht.chainSlots ht.nNumUsed (ht.nIndex k.hash) := by
        rw [hlist]
        exact mem_append_left _ (mem_of_getLast? hprev.symm)
      exact hx ((mem_chainSlots.mp hl).2.2.symm.trans (mem_chainSlots.mp hin).2.2)

theorem Valid.zendHashDelElEx (hv : Valid ht) (hi : i < ht.nNumUsed) (hlive : ht.isLive i = true)
    (hkey : (ht.arData i).toKey = k) (hf : ht.packed = false → FoundAt ht k prev i) :
    DeletedFrom ht (ht.zendHashDelElEx i prev) k := by
  obtain ⟨pos, iters, heq⟩ := zendHashDelElEx_eq ht i prev
  rw [heq]
  obtain ⟨hash, zNext, hun⟩ := unlink_eq ht i prev
  have hused := ht.usedWithout_spec i
  have hd : Deleted ht { ht.unlink i prev with
      nNumUsed := ht.usedWithout i
      nNumOfElements := ht.nNumOfElements - 1
      arData := update ht.arData i { ht.arData i with val := none } } i := by
    refine ⟨hused.1, rfl, by rw [hun], ?_, ?_, hused.2⟩
    · intro l hne
      dsimp only
      rw [update_of_ne hne]
    · dsimp only
      rw [update_self]
  refine ⟨Valid.withCursor ⟨hd.sound hv.toSound hi hlive, fun huninit => ?_, fun hhashed x => ?_,
    fun hpacked l hl hllive => ?_, fun hpacked => ?_⟩ _ _ _,
    hd.entries_eq hv.toSound hi hlive hkey, rfl⟩
  · rw [hun] at huninit
    exact absurd hi (by rw [(hv.uninit huninit).2.1]; omega)
  · have hpacked : ht.packed = false := by rwa [hun] at hhashed
    rw [hd.chainSlots_eq (by rw [hun])]
    exact (hf hpacked).isChain hv hpacked x
  · obtain ⟨hne, hlive'⟩ := hd.isLive_iff.mp hllive
    rw [hd.data l hne]
    rw [hun] at hpacked
    exact hv.slots hpacked l (Nat.lt_of_lt_of_le hl hd.used_le) hlive'
  · have hpacked' : ht.packed = true := by rwa [hun] at hpacked
    obtain ⟨bound, hbound, hhash, hslots⟩ := hv.noStrings hpacked'
    have hsame : ht.unlink i prev = ht := if_pos hpacked'
    rw [hsame]
    refine ⟨bound, hbound, hhash, fun l hl => ⟨?_, (hslots l hl).2⟩⟩
    dsimp only
    by_cases hli : l = i
    · rw [hli, update_self]
      exact (hslots i (hli ▸ hl)).1
    · rw [update_of_ne hli]
      exact (hslots l hl).1

end Phpce.HashTable
