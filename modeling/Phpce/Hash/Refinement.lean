import Phpce.Hash.Resize
import Phpce.Lib.Run

/-!
# A HashTable is a map in the order of insertion

`MapSpec` says what a HashTable is for: an `OrderedMap` from keys to values, and the key that
`next_index_insert` takes. Sizes and representations are no business of it. `Refines ht S` says
that the table `ht` is the map `S`.

* `Valid.zendHashFind`, `Valid.zendHashIndexFind`: what is looked up.
* `Valid.zendHashAddOrUpdateI_of_mem` and `_of_notMem`, the same for integer keys,
  `Valid.zendHashDel`, `Valid.zendHashIndexDel`: one operation of the source.
* **`Refines.step`**: one operation against one of the map.
* **`refines_orderedMap`**: every sequence of operations.
-/

namespace Phpce

namespace HashTable

variable {V : Type*} {o ht : HashTable V} {i : Nat} {k : HashKey} {v : V} {h : UInt64}
  {key : ZendString} {flag : HashFlag}

/-! ## Lookup -/

def Valid.map (hv : Valid ht) : OrderedMap HashKey V := ⟨ht.entries, hv.toSound.nodup_keys⟩

theorem Valid.findBucket (hv : Valid ht) (hpacked : ht.packed = false) (k : HashKey) :
    ((ht.searchChain k.hash (isKey k)).map (Option.map Prod.snd) = .ok none ∧
        k ∉ ht.entries.map Prod.fst) ∨
      ∃ i < ht.nNumUsed,
        (ht.searchChain k.hash (isKey k)).map (Option.map Prod.snd) = .ok (some i) ∧
        ht.isLive i = true ∧ (ht.arData i).toKey = k := by
  rcases hv.searchChain hpacked k with ⟨heq, hk⟩ | ⟨prev, idx, heq, hf⟩
  · exact .inl ⟨by rw [heq]; rfl, hk⟩
  · exact .inr ⟨idx, hf.lt, by rw [heq]; rfl, hf.live, hf.key⟩

theorem Valid.find_hashed (hv : Valid ht) (hpacked : ht.packed = false) (k : HashKey) :
    ((ht.searchChain k.hash (isKey k)).map (Option.map Prod.snd)).map
      (fun p => p.bind fun i => (ht.arData i).val) = .ok (hv.map.lookup k) := by
  rcases hv.findBucket hpacked k with ⟨heq, hk⟩ | ⟨i, hi, heq, hlive, hkey⟩
  · rw [heq, OrderedMap.lookup_eq_none_iff.mpr hk]
    rfl
  · obtain ⟨v, hval⟩ := Option.isSome_iff_exists.mp hlive
    rw [heq, OrderedMap.lookup_eq_some_iff.mpr (mem_entries.mpr ⟨i, hi, hkey, hval⟩), ← hval]
    rfl

theorem Valid.zendHashFindBucket (hv : Valid ht) (hpacked : ht.packed = false)
    (key : ZendString) :
    (ht.zendHashFindBucket key = .ok none ∧ .str key ∉ ht.entries.map Prod.fst) ∨
      ∃ i < ht.nNumUsed, ht.zendHashFindBucket key = .ok (some i) ∧ ht.isLive i = true ∧
        (ht.arData i).toKey = .str key :=
  hv.findBucket hpacked (.str key)

theorem Valid.zendHashIndexFindBucket (hv : Valid ht) (hpacked : ht.packed = false) (h : UInt64) :
    (ht.zendHashIndexFindBucket h = .ok none ∧ .index h ∉ ht.entries.map Prod.fst) ∨
      ∃ i < ht.nNumUsed, ht.zendHashIndexFindBucket h = .ok (some i) ∧ ht.isLive i = true ∧
        (ht.arData i).toKey = .index h :=
  hv.findBucket hpacked (.index h)

theorem Valid.zendHashFind (hv : Valid ht) (key : ZendString) :
    ht.zendHashFind key = .ok (hv.map.lookup (.str key)) := by
  cases hpacked : ht.packed with
  | false => exact hv.find_hashed hpacked (.str key)
  | true =>
    obtain ⟨heq, hk⟩ := hv.searchChain_packed hpacked key
    unfold HashTable.zendHashFind HashTable.zendHashFindBucket
    dsimp only
    rw [heq, OrderedMap.lookup_eq_none_iff.mpr hk]
    rfl

theorem Valid.mem_keys_packed (hv : Valid ht) (hpacked : ht.packed = true) :
    .index h ∈ ht.entries.map Prod.fst ↔ h.toNat < ht.nNumUsed ∧ ht.isLive h.toNat = true := by
  rw [mem_keys]
  constructor
  · rintro ⟨i, hi, hlive, hkey⟩
    obtain ⟨hnone, hslot⟩ := hv.slots hpacked i hi hlive
    rw [Bucket.toKey, hnone] at hkey
    obtain rfl : (ht.arData i).h = h := HashKey.index.inj hkey
    rw [hslot]
    exact ⟨hi, hlive⟩
  · rintro ⟨hlt, hlive⟩
    obtain ⟨hnone, hslot⟩ := hv.slots hpacked _ hlt hlive
    refine ⟨_, hlt, hlive, ?_⟩
    rw [Bucket.toKey, hnone]
    exact congrArg HashKey.index (UInt64.toNat_inj.mp hslot)

theorem Valid.toKey_packed (hv : Valid ht) (hpacked : ht.packed = true)
    (hlt : h.toNat < ht.nNumUsed) (hlive : ht.isLive h.toNat = true) :
    (ht.arData h.toNat).toKey = .index h := by
  obtain ⟨hnone, hslot⟩ := hv.slots hpacked _ hlt hlive
  rw [Bucket.toKey, hnone]
  exact congrArg HashKey.index (UInt64.toNat_inj.mp hslot)

theorem Valid.zendHashIndexFind (hv : Valid ht) (h : UInt64) :
    ht.zendHashIndexFind h = .ok (hv.map.lookup (.index h)) := by
  unfold HashTable.zendHashIndexFind
  cases hpacked : ht.packed with
  | false => exact hv.find_hashed hpacked (.index h)
  | true =>
    rw [if_pos rfl]
    congr 1
    split
    · rename_i hlt
      cases hval : (ht.arData h.toNat).val with
      | none =>
        refine (OrderedMap.lookup_eq_none_iff.mpr fun hk => ?_).symm
        have hlive := ((hv.mem_keys_packed hpacked).mp hk).2
        rw [isLive, hval] at hlive
        cases hlive
      | some v =>
        have hlive : ht.isLive h.toNat = true := by rw [isLive, hval]; rfl
        exact (OrderedMap.lookup_eq_some_iff.mpr (mem_entries.mpr
          ⟨_, hlt, hv.toKey_packed hpacked hlt hlive, hval⟩)).symm
    · rename_i hge
      exact (OrderedMap.lookup_eq_none_iff.mpr fun hk =>
        hge ((hv.mem_keys_packed hpacked).mp hk).1).symm

/-! ## Insertion -/

/-- The outcome of an insertion of a new key: the entry is appended, or there is no memory. -/
def Inserts (o : HashTable V) (k : HashKey) (v : V) (next : Int64) :
    Except HashStop (Option Nat × HashTable V) → Prop
  | .error stop => stop = .possibleIntegerOverflow
  | .ok r => InsertedAt o r.2 k v ∧ r.2.nNextFreeElement = next

/-- The outcome of an operation on a known key: the entry gets the value, or is left alone. -/
def Overwrites (o : HashTable V) (k : HashKey) (v : V) (add : Bool) (next : Int64) :
    Except HashStop (Option Nat × HashTable V) → Prop
  | .error _ => False
  | .ok r => r.2.Valid ∧
      r.2.entries = (if add then o.entries else OrderedMap.replace k v o.entries) ∧
      r.2.nNextFreeElement = if add then o.nNextFreeElement else next

theorem Ready.addToHash (hr : Ready o ht) (hk : k ∉ o.entries.map Prod.fst) (next : Int64) :
    InsertedAt o (HashTable.addToHash (ht.withCursor ht.nInternalPointer next ht.htIterators)
      k.hash k.string v) k v ∧
    (HashTable.addToHash (ht.withCursor ht.nInternalPointer next ht.htIterators)
      k.hash k.string v).nNextFreeElement = next := by
  have hv := hr.valid.withCursor ht.nInternalPointer next ht.htIterators
  have hins := hv.addToHash (k := k) (v := v) hr.initialized hr.hashed hr.room
    (by rw [entries_withCursor, hr.entries_eq]; exact hk)
  refine ⟨⟨hins.1.valid, ?_⟩, hins.2⟩
  rw [hins.1.entries_eq, entries_withCursor, hr.entries_eq]

theorem Hashed.insertStr (hh : Hashed o ht) (hk : .str key ∉ o.entries.map Prod.fst) :
    Inserts o (.str key) v o.nNextFreeElement (ht.ifFullDoResize.map fun ht =>
      (some ht.nNumUsed, ht.addToHash (zendInlineHashFunc key) (some key) v)) := by
  rcases hh.ifFullDoResize with heq | ⟨ht', heq, hr⟩
  · rw [heq]
    rfl
  · rw [heq]
    have hins := hr.addToHash (v := v) hk ht'.nNextFreeElement
    exact ⟨hins.1, hins.2.trans hr.next_eq⟩

theorem Hashed.insertIndex (hh : Hashed o ht) (hk : .index h ∉ o.entries.map Prod.fst) :
    Inserts o (.index h) v (nextFreeAfter o.nNextFreeElement h) (ht.ifFullDoResize.map fun ht =>
      (some ht.nNumUsed, (ht.raiseNextFreeElement h).addToHash h none v)) := by
  rcases hh.ifFullDoResize with heq | ⟨ht', heq, hr⟩
  · rw [heq]
    rfl
  · rw [heq]
    have hins := hr.addToHash (v := v) hk (nextFreeAfter ht'.nNextFreeElement h)
    rw [hr.next_eq] at hins
    change InsertedAt _ (HashTable.addToHash (ht'.raiseNextFreeElement h) h none v) _ _ ∧
      (HashTable.addToHash (ht'.raiseNextFreeElement h) h none v).nNextFreeElement = _
    rw [raiseNextFreeElement_eq, hr.next_eq]
    exact hins

theorem Valid.entries_of_uninit (hv : Valid ht) (huninit : ht.initialized = false) :
    ht.entries = [] := by
  rw [entries, (hv.uninit huninit).2.1]
  rfl

theorem Valid.ready_of_uninit (hv : Valid ht) (huninit : ht.initialized = false) :
    Ready ht (ht.zendHashRealInitEx false) := by
  obtain ⟨hc, hinit, hpacked⟩ := hv.zendHashRealInitEx huninit false
  refine ⟨⟨hc, hinit, hpacked⟩, ?_⟩
  change ht.nNumUsed < ht.nTableSize
  rw [(hv.uninit huninit).2.1]
  exact hv.size.pos

theorem Valid.overwrite (hv : Valid ht) (hi : i < ht.nNumUsed) (hlive : ht.isLive i = true)
    (hkey : (ht.arData i).toKey = k) (add : Bool) :
    Overwrites ht k v add ht.nNextFreeElement
      (.ok (if add then (none, ht) else (some i, ht.setVal i v))) := by
  cases add with
  | true => exact ⟨hv, rfl, rfl⟩
  | false =>
    obtain ⟨hset, hentries⟩ := hv.setVal (v := v) hi hlive hkey
    exact ⟨hset, hentries, rfl⟩

theorem Valid.overwriteIndex (hv : Valid ht) (hi : i < ht.nNumUsed) (hlive : ht.isLive i = true)
    (hkey : (ht.arData i).toKey = .index h) (add : Bool) :
    Overwrites ht (.index h) v add (nextFreeAfter ht.nNextFreeElement h)
      (.ok (if add then (none, ht) else (some i, (ht.setVal i v).raiseNextFreeElement h))) := by
  cases add with
  | true => exact ⟨hv, rfl, rfl⟩
  | false =>
    obtain ⟨hset, hentries⟩ := hv.setVal (v := v) hi hlive hkey
    rw [raiseNextFreeElement_eq]
    exact ⟨hset.withCursor _ _ _, hentries, rfl⟩

theorem Valid.zendHashAddOrUpdateI_of_mem (hv : Valid ht) (hk : .str key ∈ ht.entries.map Prod.fst)
    (flag : HashFlag) (hflag : flag.addNew = false) :
    Overwrites ht (.str key) v flag.add ht.nNextFreeElement
      (ht.zendHashAddOrUpdateI key v flag) := by
  unfold HashTable.zendHashAddOrUpdateI
  dsimp only
  cases hinit : ht.initialized with
  | false =>
    rw [hv.entries_of_uninit hinit] at hk
    cases hk
  | true =>
    rw [if_neg (by decide)]
    cases hpacked : ht.packed with
    | true => exact absurd hk (hv.searchChain_packed hpacked key).2
    | false =>
      rw [if_neg (by decide), if_pos (by rw [hflag]; rfl)]
      rcases hv.zendHashFindBucket hpacked key with ⟨-, hnot⟩ | ⟨i, hi, hfind, hlive, hkey⟩
      · exact absurd hk hnot
      · rw [hfind]
        exact hv.overwrite hi hlive hkey flag.add

theorem Valid.zendHashAddOrUpdateI_of_notMem (hv : Valid ht)
    (hk : .str key ∉ ht.entries.map Prod.fst) (flag : HashFlag) :
    Inserts ht (.str key) v ht.nNextFreeElement (ht.zendHashAddOrUpdateI key v flag) := by
  unfold HashTable.zendHashAddOrUpdateI
  dsimp only
  cases hinit : ht.initialized with
  | false =>
    rw [if_pos (by decide)]
    exact (hv.ready_of_uninit hinit).addToHash hk ht.nNextFreeElement
  | true =>
    rw [if_neg (by decide)]
    cases hpacked : ht.packed with
    | true =>
      rw [if_pos rfl]
      exact (hv.zendHashPackedToHash hpacked).insertStr hk
    | false =>
      rw [if_neg (by decide)]
      have hinsert := (hv.toHashed hinit hpacked).insertStr (v := v) hk
      split
      · rcases hv.zendHashFindBucket hpacked key with ⟨hfind, -⟩ | ⟨i, hi, -, hlive, hkey⟩
        · rw [hfind]
          exact hinsert
        · exact absurd (mem_keys.mpr ⟨i, hi, hlive, hkey⟩) hk
      · exact hinsert

theorem Valid.zendHashIndexAddOrUpdateI_of_mem (hv : Valid ht)
    (hk : .index h ∈ ht.entries.map Prod.fst) (flag : HashFlag) (hflag : flag.addNew = false) :
    Overwrites ht (.index h) v flag.add (nextFreeAfter ht.nNextFreeElement h)
      (ht.zendHashIndexAddOrUpdateI h v flag) := by
  unfold HashTable.zendHashIndexAddOrUpdateI
  dsimp only
  cases hinit : ht.initialized with
  | false =>
    rw [hv.entries_of_uninit hinit] at hk
    cases hk
  | true =>
    rw [if_neg (by decide)]
    cases hpacked : ht.packed with
    | true =>
      obtain ⟨hlt, hlive⟩ := (hv.mem_keys_packed hpacked).mp hk
      rw [if_pos rfl, if_pos hlt, if_pos hlive]
      exact hv.overwriteIndex hlt hlive (hv.toKey_packed hpacked hlt hlive) flag.add
    | false =>
      rw [if_neg (by decide), if_pos (by rw [hflag]; rfl)]
      rcases hv.zendHashIndexFindBucket hpacked h with ⟨-, hnot⟩ | ⟨i, hi, hfind, hlive, hkey⟩
      · exact absurd hk hnot
      · rw [hfind]
        exact hv.overwriteIndex hi hlive hkey flag.add

theorem Converted.insertPacked (hc : Converted o ht) (hinit : ht.initialized = true)
    (hpacked : ht.packed = true) (hge : ht.nNumUsed ≤ h.toNat) (hroom : h.toNat < ht.nTableSize)
    (hflag : (flag.addNew && flag.addNext) = false) (hk : .index h ∉ o.entries.map Prod.fst) :
    Inserts o (.index h) v (nextFreeAfter o.nNextFreeElement h)
      (.ok (some h.toNat, ht.addToPacked h v flag)) := by
  have hins := hc.valid.addToPacked (v := v) hinit hpacked hge hroom hflag
    (by rw [hc.entries_eq]; exact hk)
  rw [hc.next_eq] at hins
  refine ⟨⟨hins.1.valid, ?_⟩, hins.2⟩
  rw [hins.1.entries_eq, hc.entries_eq]

theorem Valid.zendHashIndexAddOrUpdateI_of_notMem (hv : Valid ht)
    (hk : .index h ∉ ht.entries.map Prod.fst) (flag : HashFlag)
    (hflag : (flag.addNew && flag.addNext) = false) :
    Inserts ht (.index h) v (nextFreeAfter ht.nNextFreeElement h)
      (ht.zendHashIndexAddOrUpdateI h v flag) := by
  unfold HashTable.zendHashIndexAddOrUpdateI
  dsimp only
  cases hinit : ht.initialized with
  | false =>
    rw [if_pos (by decide), nTableSize_realInitEx]
    split
    · rename_i hlt
      obtain ⟨hc, hinit', hpacked'⟩ :=
        hv.zendHashRealInitEx hinit (decide (h.toNat < ht.nTableSize))
      refine hc.insertPacked hinit' (hpacked'.trans (decide_eq_true hlt)) ?_ ?_ hflag hk
      · rw [nNumUsed_realInitEx, (hv.uninit hinit).2.1]
        exact Nat.zero_le _
      · rw [nTableSize_realInitEx]
        exact hlt
    · rename_i hge
      rw [decide_eq_false hge]
      have hr := hv.ready_of_uninit hinit
      have hins := hr.addToHash (v := v) hk (nextFreeAfter ht.nNextFreeElement h)
      rw [raiseNextFreeElement_eq]
      exact hins
  | true =>
    rw [if_neg (by decide)]
    cases hpacked : ht.packed with
    | true =>
      rw [if_pos rfl]
      have hconvert := (hv.zendHashPackedToHash hpacked).insertIndex (v := v) hk
      split
      · rename_i hlt
        rw [if_neg fun hlive => hk ((hv.mem_keys_packed hpacked).mpr ⟨hlt, hlive⟩)]
        exact hconvert
      · rename_i hge
        split
        · rename_i hroom
          exact hv.converted.insertPacked hinit hpacked (by omega) hroom hflag hk
        · split
          · rename_i hgrow
            unfold zendHashPackedGrow
            split
            · exact rfl
            · rename_i hmax
              have hc := hv.withTableSize (hv.size.double (by omega)) (by omega)
              refine hc.insertPacked hinit hpacked (show ht.nNumUsed ≤ h.toNat by omega) ?_ hflag hk
              change h.toNat < ht.nTableSize + ht.nTableSize
              omega
          · exact hconvert
    | false =>
      rw [if_neg (by decide)]
      have hinsert := (hv.toHashed hinit hpacked).insertIndex (v := v) hk
      split
      · rcases hv.zendHashIndexFindBucket hpacked h with ⟨hfind, -⟩ | ⟨i, hi, -, hlive, hkey⟩
        · rw [hfind]
          exact hinsert
        · exact absurd (mem_keys.mpr ⟨i, hi, hlive, hkey⟩) hk
      · exact hinsert

/-! ## Deletion -/

theorem Valid.deletedFrom_self (hv : Valid ht) (hk : k ∉ ht.entries.map Prod.fst) :
    DeletedFrom ht ht k := by
  refine ⟨hv, (List.filter_eq_self.mpr fun e he => decide_eq_true ?_).symm, rfl⟩
  exact fun hek : e.1 = k => hk (hek ▸ List.mem_map_of_mem he)

theorem Valid.delete_hashed (hv : Valid ht) (hpacked : ht.packed = false) (k : HashKey) :
    ∃ r, ((ht.searchChain k.hash (isKey k)).map fun
      | some (prev, idx) => (true, ht.zendHashDelElEx idx prev)
      | none => (false, ht)) = .ok r ∧ DeletedFrom ht r.2 k := by
  rcases hv.searchChain hpacked k with ⟨heq, hk⟩ | ⟨prev, idx, heq, hf⟩
  · rw [heq]
    exact ⟨_, rfl, hv.deletedFrom_self hk⟩
  · rw [heq]
    exact ⟨_, rfl, hv.zendHashDelElEx hf.lt hf.live hf.key fun _ => hf⟩

theorem Valid.zendHashDel (hv : Valid ht) (key : ZendString) :
    ∃ r, ht.zendHashDel key = .ok r ∧ DeletedFrom ht r.2 (.str key) := by
  cases hpacked : ht.packed with
  | false => exact hv.delete_hashed hpacked (.str key)
  | true =>
    obtain ⟨heq, hk⟩ := hv.searchChain_packed hpacked key
    unfold HashTable.zendHashDel
    dsimp only
    rw [heq]
    exact ⟨_, rfl, hv.deletedFrom_self hk⟩

theorem Valid.zendHashIndexDel (hv : Valid ht) (h : UInt64) :
    ∃ r, ht.zendHashIndexDel h = .ok r ∧ DeletedFrom ht r.2 (.index h) := by
  unfold HashTable.zendHashIndexDel
  cases hpacked : ht.packed with
  | false => exact hv.delete_hashed hpacked (.index h)
  | true =>
    rw [if_pos rfl]
    refine ⟨_, rfl, ?_⟩
    split
    · rename_i hmem
      have hdel : DeletedFrom ht (ht.zendHashDelElEx h.toNat none) (.index h) :=
        hv.zendHashDelElEx hmem.1 hmem.2 (hv.toKey_packed hpacked hmem.1 hmem.2) fun hhash =>
          absurd (hpacked.symm.trans hhash) (by decide)
      exact hdel
    · rename_i hnot
      exact hv.deletedFrom_self fun hk => hnot ((hv.mem_keys_packed hpacked).mp hk)

end HashTable

/-! ## The operations and what they are for -/

/-- The operations on a HashTable. -/
inductive HashOp (V : Type*) where
  | add (key : ZendString) (v : V)
  | update (key : ZendString) (v : V)
  | addNew (key : ZendString) (v : V)
  | del (key : ZendString)
  | indexAdd (h : UInt64) (v : V)
  | indexUpdate (h : UInt64) (v : V)
  | indexAddNew (h : UInt64) (v : V)
  | nextIndexInsert (v : V)
  | indexDel (h : UInt64)
  | realInit (packed : Bool)
  | extend (nSize : Nat) (packed : Bool)
  | rehash
  | packedToHash
  | toPacked
  deriving DecidableEq, Repr

variable {V : Type*}

/-- The table that an operation leaves. -/
def HashOp.apply (ht : HashTable V) : HashOp V → Except HashStop (HashTable V)
  | .add key v => (ht.zendHashAdd key v).map Prod.snd
  | .update key v => (ht.zendHashUpdate key v).map Prod.snd
  | .addNew key v => (ht.zendHashAddNew key v).map Prod.snd
  | .del key => (ht.zendHashDel key).map Prod.snd
  | .indexAdd h v => (ht.zendHashIndexAdd h v).map Prod.snd
  | .indexUpdate h v => (ht.zendHashIndexUpdate h v).map Prod.snd
  | .indexAddNew h v => (ht.zendHashIndexAddNew h v).map Prod.snd
  | .nextIndexInsert v => (ht.zendHashNextIndexInsert v).map Prod.snd
  | .indexDel h => (ht.zendHashIndexDel h).map Prod.snd
  | .realInit packed => .ok (ht.zendHashRealInitEx packed)
  | .extend nSize packed => ht.zendHashExtend nSize packed
  | .rehash => .ok ht.zendHashRehash
  | .packedToHash => .ok ht.zendHashPackedToHash
  | .toPacked => .ok ht.zendHashToPacked

/-- A map in the order of insertion, with the key of the next element without one of its own. -/
structure MapSpec (V : Type*) where
  map : OrderedMap HashKey V
  next : Int64

namespace MapSpec

def empty : MapSpec V := ⟨.empty, 0⟩

/-- An integer key is inserted unless it is known, and the next one is a higher one. -/
def addIndex (S : MapSpec V) (h : UInt64) (v : V) : MapSpec V :=
  if .index h ∈ S.map.keys then S else ⟨S.map.put (.index h) v, HashTable.nextFreeAfter S.next h⟩

def apply (S : MapSpec V) : HashOp V → MapSpec V
  | .add key v => { S with map := S.map.add (.str key) v }
  | .update key v | .addNew key v => { S with map := S.map.put (.str key) v }
  | .del key => { S with map := S.map.erase (.str key) }
  | .indexAdd h v | .indexAddNew h v => S.addIndex h v
  | .indexUpdate h v => ⟨S.map.put (.index h) v, HashTable.nextFreeAfter S.next h⟩
  | .nextIndexInsert v => S.addIndex S.next.toUInt64 v
  | .indexDel h => { S with map := S.map.erase (.index h) }
  -- sizes and representations are no business of the map
  | .realInit _ | .extend _ _ | .rehash | .packedToHash | .toPacked => S

end MapSpec

/-- What the callers of an operation see to: `add_new` is for absent keys, a table is initialised
once, `packed` says what the table is, and conversions are applied to tables that they are for. -/
def HashOp.Allowed (ht : HashTable V) : HashOp V → Prop
  | .addNew key _ => .str key ∉ ht.entries.map Prod.fst
  | .indexAddNew h _ => .index h ∉ ht.entries.map Prod.fst
  | .realInit _ => ht.initialized = false
  | .extend _ packed => ht.initialized = true → packed = ht.packed
  | .rehash => ht.Rehashable
  | .packedToHash => ht.packed = true
  | .toPacked => ht.Packable
  | _ => True

namespace HashTable

/-- The table `ht` is the map `S`. -/
structure Refines (ht : HashTable V) (S : MapSpec V) : Prop where
  valid : ht.Valid
  entries_eq : ht.entries = S.map.entries
  next_eq : ht.nNextFreeElement = S.next

variable {o ht : HashTable V} {S : MapSpec V} {k : HashKey} {v : V} {next : Int64}

/-- An operation leaves a table that is the map `S`, or stops because there is no memory. -/
def Reaches (S : MapSpec V) : Except HashStop (HashTable V) → Prop
  | .error stop => stop = .possibleIntegerOverflow
  | .ok ht => Refines ht S

theorem Refines.inserts (hr : Refines o S) {res : Except HashStop (Option Nat × HashTable V)}
    (hk : k ∉ S.map.keys) (hins : Inserts o k v next res) :
    Reaches ⟨S.map.put k v, next⟩ (res.map Prod.snd) := by
  cases res with
  | error stop => exact hins
  | ok r =>
    refine ⟨hins.1.valid, ?_, hins.2⟩
    rw [OrderedMap.entries_put_of_notMem hk, hins.1.entries_eq, hr.entries_eq]

theorem Refines.overwrites (hr : Refines o S) {res : Except HashStop (Option Nat × HashTable V)}
    (hk : k ∈ S.map.keys) (hover : Overwrites o k v false next res) :
    Reaches ⟨S.map.put k v, next⟩ (res.map Prod.snd) := by
  cases res with
  | error stop => exact hover.elim
  | ok r =>
    refine ⟨hover.1, ?_, hover.2.2⟩
    rw [OrderedMap.entries_put_of_mem hk, ← hr.entries_eq]
    exact hover.2.1

theorem Refines.keeps (hr : Refines o S) {res : Except HashStop (Option Nat × HashTable V)}
    (hover : Overwrites o k v true next res) : Reaches S (res.map Prod.snd) := by
  cases res with
  | error stop => exact hover.elim
  | ok r => exact ⟨hover.1, hover.2.1.trans hr.entries_eq, hover.2.2.trans hr.next_eq⟩

theorem Refines.converted (hr : Refines o S) (hc : Converted o ht) : Refines ht S :=
  ⟨hc.valid, hc.entries_eq.trans hr.entries_eq, hc.next_eq.trans hr.next_eq⟩

theorem Refines.deletedFrom (hr : Refines o S) (hd : DeletedFrom o ht k) :
    Refines ht { S with map := S.map.erase k } := by
  refine ⟨hd.valid, ?_, hd.next_eq.trans hr.next_eq⟩
  rw [hd.entries_eq, hr.entries_eq]
  rfl

theorem Refines.mem_keys (hr : Refines o S) : k ∈ o.entries.map Prod.fst ↔ k ∈ S.map.keys := by
  rw [hr.entries_eq]
  rfl

theorem Refines.addIndex (hr : Refines ht S) (h : UInt64) (v : V) (flag : HashFlag)
    (hadd : flag.add = true) (hnext : (flag.addNew && flag.addNext) = false)
    (hnew : flag.addNew = true → .index h ∉ S.map.keys) :
    Reaches (S.addIndex h v) ((ht.zendHashIndexAddOrUpdateI h v flag).map Prod.snd) := by
  unfold MapSpec.addIndex
  split
  · rename_i hk
    have hflag : flag.addNew = false := Bool.eq_false_iff.mpr fun h => hnew h hk
    have hover := hr.valid.zendHashIndexAddOrUpdateI_of_mem (v := v) (hr.mem_keys.mpr hk) flag hflag
    rw [hadd] at hover
    exact hr.keeps hover
  · rename_i hk
    have hins := hr.valid.zendHashIndexAddOrUpdateI_of_notMem (v := v)
      (fun h => hk (hr.mem_keys.mp h)) flag hnext
    rw [hr.next_eq] at hins
    exact hr.inserts hk hins

theorem Refines.step (hr : Refines ht S) (op : HashOp V) (hop : op.Allowed ht) :
    Reaches (S.apply op) (op.apply ht) := by
  cases op with
  | add key v =>
    by_cases hk : .str key ∈ S.map.keys
    · have hover := hr.valid.zendHashAddOrUpdateI_of_mem (v := v)
        (hr.mem_keys.mpr hk) HASH_ADD rfl
      rw [show S.apply (.add key v) = S by simp [MapSpec.apply, OrderedMap.add, hk]]
      exact hr.keeps hover
    · have hins := hr.valid.zendHashAddOrUpdateI_of_notMem (v := v)
        (fun h => hk (hr.mem_keys.mp h)) HASH_ADD
      rw [hr.next_eq] at hins
      rw [show S.apply (.add key v) = ⟨S.map.put (.str key) v, S.next⟩ by
        simp [MapSpec.apply, OrderedMap.add, hk]]
      exact hr.inserts hk hins
  | update key v =>
    by_cases hk : .str key ∈ S.map.keys
    · have hover := hr.valid.zendHashAddOrUpdateI_of_mem (v := v)
        (hr.mem_keys.mpr hk) HASH_UPDATE rfl
      rw [hr.next_eq] at hover
      exact hr.overwrites hk hover
    · have hins := hr.valid.zendHashAddOrUpdateI_of_notMem (v := v)
        (fun h => hk (hr.mem_keys.mp h)) HASH_UPDATE
      rw [hr.next_eq] at hins
      exact hr.inserts hk hins
  | addNew key v =>
    have hins := hr.valid.zendHashAddOrUpdateI_of_notMem (v := v) hop HASH_ADD_NEW
    rw [hr.next_eq] at hins
    exact hr.inserts (fun h => hop (hr.mem_keys.mpr h)) hins
  | del key =>
    obtain ⟨r, heq, hd⟩ := hr.valid.zendHashDel key
    unfold HashOp.apply
    dsimp only
    rw [heq]
    exact hr.deletedFrom hd
  | indexAdd h v => exact hr.addIndex h v HASH_ADD rfl rfl fun h => absurd h (by decide)
  | indexUpdate h v =>
    by_cases hk : .index h ∈ S.map.keys
    · have hover := hr.valid.zendHashIndexAddOrUpdateI_of_mem (v := v)
        (hr.mem_keys.mpr hk) HASH_UPDATE rfl
      rw [hr.next_eq] at hover
      exact hr.overwrites hk hover
    · have hins := hr.valid.zendHashIndexAddOrUpdateI_of_notMem (v := v)
        (fun h => hk (hr.mem_keys.mp h)) HASH_UPDATE rfl
      rw [hr.next_eq] at hins
      exact hr.inserts hk hins
  | indexAddNew h v =>
    exact hr.addIndex h v (HASH_ADD.or HASH_ADD_NEW) rfl rfl fun _ hk =>
      hop (hr.mem_keys.mpr hk)
  | nextIndexInsert v =>
    unfold HashOp.apply zendHashNextIndexInsert
    dsimp only
    rw [hr.next_eq]
    exact hr.addIndex _ v (HASH_ADD.or HASH_ADD_NEXT) rfl rfl fun h =>
      absurd h (by decide)
  | indexDel h =>
    obtain ⟨r, heq, hd⟩ := hr.valid.zendHashIndexDel h
    unfold HashOp.apply
    dsimp only
    rw [heq]
    exact hr.deletedFrom hd
  | realInit packed => exact hr.converted (hr.valid.zendHashRealInitEx hop packed).1
  | extend nSize packed =>
    rcases hr.valid.zendHashExtend nSize hop with heq | ⟨ht', heq, hc⟩
    · unfold HashOp.apply
      dsimp only
      rw [heq]
      rfl
    · unfold HashOp.apply
      dsimp only
      rw [heq]
      exact hr.converted hc
  | rehash => exact hr.converted (hr.valid.zendHashRehash hop)
  | packedToHash => exact hr.converted (hr.valid.zendHashPackedToHash hop).toConverted
  | toPacked => exact hr.converted (hr.valid.zendHashToPacked hop)

theorem refines_empty (hv : Valid ht) (hentries : ht.entries = [])
    (hnext : ht.nNextFreeElement = 0) : Refines ht .empty := ⟨hv, hentries, hnext⟩

theorem Refines.numOfElements (hr : Refines ht S) : ht.nNumOfElements = S.map.entries.length := by
  rw [← hr.valid.toSound.length_entries, hr.entries_eq]

theorem Refines.map_eq (hr : Refines ht S) : hr.valid.map = S.map := OrderedMap.ext hr.entries_eq

/-- HashTables under their operations; no step stands for an `E_ERROR`. -/
def system (V : Type*) : EventSystem (HashTable V) (HashOp V) where
  step ht op := (op.apply ht).toOption

/-- What one can see of the table `ht` when it is the map `S`. -/
structure IsMap (ht : HashTable V) (S : MapSpec V) : Prop where
  find : ∀ key, ht.zendHashFind key = .ok (S.map.lookup (.str key))
  indexFind : ∀ h, ht.zendHashIndexFind h = .ok (S.map.lookup (.index h))
  iterated : ht.entries = S.map.entries
  numOfElements : ht.nNumOfElements = S.map.keys.length

theorem Refines.isMap (hr : Refines ht S) : IsMap ht S where
  find key := by rw [hr.valid.zendHashFind, hr.map_eq]
  indexFind h := by rw [hr.valid.zendHashIndexFind, hr.map_eq]
  iterated := hr.entries_eq
  numOfElements := by rw [hr.numOfElements, OrderedMap.keys, List.length_map]

theorem Refines.run {ops : List (HashOp V)}
    (hrun : (system V).Run (fun ht op => op.Allowed ht) o ops ht) (hr : Refines o S) :
    Refines ht (ops.foldl MapSpec.apply S) := by
  -- induction on the run
  induction hrun generalizing S with
  | nil ht => exact hr
  | @cons o mid ht op ops hop hstep _ ih =>
    have hreach := hr.step op hop
    cases happly : op.apply o with
    | error stop =>
      cases hstep.symm.trans (congrArg Except.toOption happly)
    | ok ht' =>
      obtain rfl : mid = ht' :=
        Option.some.inj (hstep.symm.trans (congrArg Except.toOption happly))
      rw [happly] at hreach
      exact ih hreach

/-- **A HashTable is a map in the order of insertion**, after every sequence of operations on an
empty table, and no loop over a chain is without end. -/
theorem refines_orderedMap {self nSize : Nat} {arData : Nat → Bucket V} {zNext : Nat → Nat}
    {iters : List HashTableIterator} {ops : List (HashOp V)}
    (hinit : HashTable.zendHashInit self arData zNext iters nSize = .ok o)
    (hrun : (system V).Run (fun ht op => op.Allowed ht) o ops ht) :
    IsMap ht (ops.foldl MapSpec.apply .empty) ∧
      ∀ op : HashOp V, op.Allowed ht → op.apply ht ≠ .error .endless := by
  obtain ⟨hv, hentries, hnext⟩ := Valid.zendHashInit hinit
  have hr := Refines.run hrun (refines_empty hv hentries hnext)
  refine ⟨hr.isMap, fun op hop herr => ?_⟩
  have hreach := hr.step op hop
  rw [herr] at hreach
  cases hreach

def emptyTable : HashTable Nat where
  self := 0
  initialized := false
  packed := false
  nIteratorsCount := 0
  nTableMask := htMinMask
  arData _ := ⟨0, none, none⟩
  zNext _ := htInvalidIdx
  hash _ := htInvalidIdx
  nNumUsed := 0
  nNumOfElements := 0
  nTableSize := 8
  nInternalPointer := htInvalidIdx
  nNextFreeElement := 0
  htIterators := []

theorem refines_orderedMap_emptyTable :
    ∃ ht, (system Nat).exec emptyTable
        [.indexAdd 1 5, .update [0x61] 6, .indexDel 1, .rehash, .nextIndexInsert 7] = some ht ∧
      IsMap ht ([HashOp.indexAdd 1 5, .update [0x61] 6, .indexDel 1, .rehash,
        .nextIndexInsert 7].foldl MapSpec.apply .empty) := by
  have hinit : HashTable.zendHashInit 0 (fun _ => ⟨0, none, none⟩) (fun _ => htInvalidIdx) [] 8 =
      .ok emptyTable := rfl
  refine ⟨_, rfl, And.left (refines_orderedMap hinit (EventSystem.Run.cons ?_ rfl
    (.cons ?_ rfl (.cons ?_ rfl (.cons ?_ rfl (.cons ?_ rfl (.nil _)))))))⟩
  · trivial
  · trivial
  · trivial
  · exact fun h => absurd h (by decide)
  · trivial

/-- Rehashing a packed table with a hole moves elements away from the slots of their keys. -/
theorem not_isMap_rehash_packed :
    HashTable.zendHashInit 0 (fun _ => ⟨0, none, none⟩) (fun _ => htInvalidIdx) [] 8 =
        .ok emptyTable ∧
      (((system Nat).exec emptyTable [.indexAdd 0 5, .indexAdd 1 6, .indexDel 0, .rehash]).map
        fun ht => ht.zendHashIndexFind 1) = some (.ok none) ∧
      ([HashOp.indexAdd 0 5, .indexAdd 1 6, .indexDel 0, .rehash].foldl
        MapSpec.apply .empty).map.lookup (.index 1) = some 6 := by
  refine ⟨rfl, ?_, ?_⟩
  · decide
  · decide

/-! ## Representations -/

end HashTable

end Phpce
