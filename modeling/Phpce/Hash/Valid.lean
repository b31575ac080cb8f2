import Mathlib.Tactic.IntervalCases
import Phpce.Hash.Rehash
import Phpce.Lib.OrderedMap

/-!
# What a HashTable stands for

* `entries`: the keys and values of the buckets, in the order of their slots.
* `Sound` says what holds of the buckets, `Valid` adds what holds of the chains (of a hashed table)
  or of the slot numbers (of a packed one).
* `Valid.searchChain`: the loops over a chain find the bucket of a key, or that there is none.
* `Sound.rehash`: rehashing keeps the entries and makes a hashed table valid.
-/

namespace Phpce

open Option

open List hiding beq_eq_decide

inductive HashKey where
  | index (h : UInt64)
  | str (key : ZendString)
  deriving DecidableEq, Repr

def Bucket.toKey {V : Type*} (p : Bucket V) : HashKey :=
  match p.key with
  | none => .index p.h
  | some key => .str key

def HashKey.hash : HashKey → UInt64
  | .index h => h
  | .str key => zendInlineHashFunc key

/-- The string of a key, `NULL` for an integer. -/
def HashKey.string : HashKey → Option ZendString
  | .index _ => none
  | .str key => some key

theorem HashKey.toKey_mk {V : Type*} (k : HashKey) (val : Option V) :
    Bucket.toKey ⟨k.hash, k.string, val⟩ = k := by
  cases k <;> rfl

namespace HashTable

variable {V : Type*} {o ht : HashTable V} {i j n : Nat} {k : HashKey} {v : V}

/-! ## Entries -/

def slotEntry (ht : HashTable V) (i : Nat) : Option (HashKey × V) :=
  (ht.arData i).val.map fun v => ((ht.arData i).toKey, v)

/-- The entries of the slots below `n`. -/
def entriesUpTo (ht : HashTable V) (n : Nat) : List (HashKey × V) :=
  (List.range n).filterMap ht.slotEntry

/-- What forward iteration over the used slots meets. -/
def entries (ht : HashTable V) : List (HashKey × V) := ht.entriesUpTo ht.nNumUsed

theorem slotEntry_eq_some : ht.slotEntry i = some (k, v) ↔
    (ht.arData i).toKey = k ∧ (ht.arData i).val = some v := by
  rw [slotEntry, map_eq_some_iff]
  constructor
  · rintro ⟨v', hval, heq⟩
    obtain ⟨rfl, rfl⟩ := Prod.mk.inj heq
    exact ⟨rfl, hval⟩
  · rintro ⟨rfl, hval⟩
    exact ⟨v, hval, rfl⟩

theorem slotEntry_eq_none : ht.slotEntry i = none ↔ ht.isLive i = false := by
  rw [slotEntry, map_eq_none_iff, isLive, isSome_eq_false_iff,
    isNone_iff_eq_none]

theorem entriesUpTo_succ_of_hole (h : ht.isLive n = false) :
    ht.entriesUpTo (n + 1) = ht.entriesUpTo n := by
  rw [entriesUpTo, range_succ, filterMap_append, filterMap_cons_none
    (slotEntry_eq_none.mpr h), filterMap_nil, append_nil, entriesUpTo]

theorem entriesUpTo_succ_of_some {e : HashKey × V} (h : ht.slotEntry n = some e) :
    ht.entriesUpTo (n + 1) = ht.entriesUpTo n ++ [e] := by
  rw [entriesUpTo, range_succ, filterMap_append, filterMap_cons_some h,
    filterMap_nil, entriesUpTo]

theorem entriesUpTo_congr (h : ∀ i < n, ht.arData i = o.arData i) :
    ht.entriesUpTo n = o.entriesUpTo n := by
  apply filterMap_congr
  intro i hi
  rw [slotEntry, h i (mem_range.mp hi), slotEntry]

theorem entriesUpTo_of_holes (hjn : j ≤ n) (h : ∀ i, j ≤ i → i < n → ht.isLive i = false) :
    ht.entriesUpTo n = ht.entriesUpTo j := by
  induction n with
  | zero =>
    obtain rfl : j = 0 := by omega
    rfl
  | succ n ih =>
    rcases Nat.lt_or_ge n j with hlt | hge
    · obtain rfl : j = n + 1 := by omega
      rfl
    · rw [entriesUpTo_succ_of_hole (h n hge n.lt_succ_self)]
      exact ih hge fun i hji hi => h i hji (by omega)

theorem length_entriesUpTo (ht : HashTable V) (n : Nat) :
    (ht.entriesUpTo n).length = ht.rank n := by
  induction n with
  | zero => rfl
  | succ n ih =>
    cases hlive : ht.isLive n with
    | false => rw [entriesUpTo_succ_of_hole hlive, rank_succ_of_hole hlive, ih]
    | true =>
      obtain ⟨e, he⟩ := ne_none_iff_exists'.mp
        (show ht.slotEntry n ≠ none from fun hnone => by
          rw [slotEntry_eq_none, hlive] at hnone
          cases hnone)
      rw [entriesUpTo_succ_of_some he, rank_succ_of_live hlive, length_append, ih]
      rfl

theorem mem_entries : (k, v) ∈ ht.entries ↔
    ∃ i < ht.nNumUsed, (ht.arData i).toKey = k ∧ (ht.arData i).val = some v := by
  rw [entries, entriesUpTo, mem_filterMap]
  simp only [mem_range, slotEntry_eq_some]

theorem mem_keys : k ∈ ht.entries.map Prod.fst ↔
    ∃ i < ht.nNumUsed, ht.isLive i = true ∧ (ht.arData i).toKey = k := by
  rw [List.mem_map]
  constructor
  · rintro ⟨⟨k', v⟩, hmem, rfl⟩
    obtain ⟨i, hi, hkey, hval⟩ := mem_entries.mp hmem
    exact ⟨i, hi, by rw [isLive, hval]; rfl, hkey⟩
  · rintro ⟨i, hi, hlive, hkey⟩
    obtain ⟨v, hval⟩ := isSome_iff_exists.mp hlive
    exact ⟨(k, v), mem_entries.mpr ⟨i, hi, hkey, hval⟩, rfl⟩

/-! ## Tables in a good state -/

/-- A power of two between the smallest and the largest size. -/
def IsTableSize (n : Nat) : Prop := ∃ e ≥ 3, e ≤ 31 ∧ n = 1 <<< e

structure Sound (ht : HashTable V) : Prop where
  numOfElements : ht.nNumOfElements = ht.rank ht.nNumUsed
  used_le : ht.nNumUsed ≤ ht.nTableSize
  size : IsTableSize ht.nTableSize
  hashed : ∀ i < ht.nNumUsed, ht.isLive i = true → (ht.arData i).h = (ht.arData i).toKey.hash
  distinct : ∀ i < ht.nNumUsed, ∀ j < ht.nNumUsed, ht.isLive i = true → ht.isLive j = true →
    (ht.arData i).toKey = (ht.arData j).toKey → i = j

/-- The slots of the buckets with one `nIndex`, the newest first. -/
def chainSlots (ht : HashTable V) (n : Nat) (x : UInt32) : List Nat :=
  ((List.range n).filter fun i => ht.isLive i && ht.nIndex (ht.arData i).h == x).reverse

/-- What is left of chains in a packed table: they end, and hold no string key. -/
def NoStrings (ht : HashTable V) (bound : Nat) : Prop :=
  (∀ x, ht.hash x = htInvalidIdx ∨ ht.hash x < bound) ∧
    ∀ i < bound, (ht.arData i).key = none ∧ (ht.zNext i = htInvalidIdx ∨ ht.zNext i < i)

structure Valid (ht : HashTable V) : Prop extends Sound ht where
  uninit : ht.initialized = false → ht.packed = false ∧ ht.nNumUsed = 0 ∧
    ∀ x, ht.hash x = htInvalidIdx
  chains : ht.packed = false → ∀ x, Chain.IsChain ht.zNext htInvalidIdx (ht.hash x)
    (ht.chainSlots ht.nNumUsed x)
  slots : ht.packed = true → ∀ i < ht.nNumUsed, ht.isLive i = true →
    (ht.arData i).key = none ∧ (ht.arData i).h.toNat = i
  noStrings : ht.packed = true → ∃ bound ≤ ht.nTableSize, ht.NoStrings bound

theorem IsTableSize.le (h : IsTableSize n) : n ≤ htMaxSize := by
  obtain ⟨e, -, he, rfl⟩ := h
  interval_cases e <;> decide

theorem IsTableSize.pos (h : IsTableSize n) : 0 < n := by
  obtain ⟨e, -, he, rfl⟩ := h
  interval_cases e <;> decide

theorem IsTableSize.double (h : IsTableSize n) (hlt : n < htMaxSize) : IsTableSize (n + n) := by
  obtain ⟨e, he, he', rfl⟩ := h
  refine ⟨e + 1, by omega, ?_, ?_⟩
  · rcases Nat.lt_or_eq_of_le he' with hlt' | rfl
    · exact hlt'
    · exact absurd hlt (by decide)
  · rw [Nat.shiftLeft_succ]
    omega

theorem zendHashCheckSize_ok {nSize : Nat} (h : zendHashCheckSize nSize = .ok n) :
    IsTableSize n ∧ nSize ≤ n := by
  have hpow : ∀ m, 1 ≤ m → m + 1 ≤ 2 <<< Nat.log2 m := by
    intro m hm
    have hlt := Nat.lt_log2_self (n := m)
    rw [Nat.shiftLeft_eq]
    rw [Nat.pow_succ] at hlt
    omega
  unfold zendHashCheckSize at h
  split at h
  · obtain rfl := Except.ok.inj h
    rename_i hlt
    exact ⟨⟨3, by decide, by decide, by decide⟩, by
      unfold htMinSize at hlt
      have : 2 <<< Nat.log2 (htMinSize - 1) = 8 := by decide
      omega⟩
  · rename_i hge
    split at h
    · cases h
    · rename_i hmax
      obtain rfl := Except.ok.inj h
      unfold htMinSize at hge
      unfold htMaxSize at hmax
      have hle := hpow (nSize - 1) (by omega)
      refine ⟨⟨Nat.log2 (nSize - 1) + 1, ?_, ?_, ?_⟩, by omega⟩
      · have h2 : 2 ≤ Nat.log2 (nSize - 1) := (Nat.le_log2 (by omega)).mpr (by omega)
        omega
      · have h31 : Nat.log2 (nSize - 1) < 31 := (Nat.log2_lt (by omega)).mpr (by omega)
        omega
      · rw [Nat.shiftLeft_eq, Nat.shiftLeft_eq, Nat.pow_succ]
        omega

/-! ## Rehashing -/

theorem Compacted.entriesUpTo (h : Compacted o ht) (hn : n ≤ o.nNumUsed) :
    ht.entriesUpTo (o.rank n) = o.entriesUpTo n := by
  induction n with
  | zero => rw [rank_zero]; rfl
  | succ n ih =>
    have hn' := ih (by omega)
    cases hlive : o.isLive n with
    | false => rw [rank_succ_of_hole hlive, hn', entriesUpTo_succ_of_hole hlive]
    | true =>
      obtain ⟨v, hval⟩ := isSome_iff_exists.mp hlive
      have hdata := h.done n (by omega) hlive
      have he : o.slotEntry n = some ((o.arData n).toKey, v) := slotEntry_eq_some.mpr ⟨rfl, hval⟩
      have he' : ht.slotEntry (o.rank n) = some ((o.arData n).toKey, v) := by
        rw [slotEntry_eq_some, hdata]
        exact ⟨rfl, hval⟩
      rw [rank_succ_of_live hlive, entriesUpTo_succ_of_some he', entriesUpTo_succ_of_some he, hn']

theorem Compacted.entries_eq (h : Compacted o ht) : ht.entries = o.entries := by
  rw [HashTable.entries, h.numUsed_eq, h.entriesUpTo le_rfl, HashTable.entries]

theorem Compacted.sound (h : Compacted o ht) (ho : Sound o) : Sound ht where
  numOfElements := by
    rw [h.rank_eq, h.numOfElements_eq, ho.numOfElements, h.numUsed_eq]
  used_le := by
    rw [h.numUsed_eq, h.tableSize_eq]
    exact (o.rank_le _).trans ho.used_le
  size := h.tableSize_eq ▸ ho.size
  hashed i hi _ := by
    obtain ⟨k, hk, hlive, -, hdata⟩ := h.exists_bucket hi
    rw [hdata]
    exact ho.hashed k hk hlive
  distinct i hi j hj _ _ hkey := by
    obtain ⟨k, hk, hklive, rfl, hkdata⟩ := h.exists_bucket hi
    obtain ⟨l, hl, hllive, rfl, hldata⟩ := h.exists_bucket hj
    rw [hkdata, hldata] at hkey
    rw [ho.distinct k hk l hl hklive hllive hkey]

theorem Rehashed.isChain (h : Rehashed o ht) (x : UInt32) :
    Chain.IsChain ht.zNext htInvalidIdx (ht.hash x) (ht.chainSlots ht.nNumUsed x) := by
  have heq : ht.chainSlots ht.nNumUsed x =
      ((List.range ht.nNumUsed).filter fun k => ht.nIndex (ht.arData k).h = x).reverse := by
    unfold chainSlots
    congr 1
    apply filter_congr
    intro i hi
    rw [h.compacted.isLive (mem_range.mp hi), Bool.true_and, beq_eq_decide]
  rw [heq]
  exact h.chains x

theorem Sound.counted (h : Sound o)
    (huninit : o.initialized = false → o.nNumUsed = 0 ∧ ∀ x, o.hash x = htInvalidIdx) :
    Counted o where
  numOfElements := h.numOfElements
  bound := h.used_le.trans (h.size.le.trans (by decide))
  uninit := huninit

/-- What holds of a table after rehashing: no holes, and the entries of before. -/
structure RehashedFrom (o ht : HashTable V) : Prop where
  valid : ht.Valid
  entries_eq : ht.entries = o.entries
  used_eq : ht.nNumUsed = ht.nNumOfElements
  head : SameHead o ht

theorem Rehashed.valid (h : Rehashed o ht) (ho : Sound o) (hinit : o.initialized = true)
    (hpacked : o.packed = false) : ht.Valid := by
  have hp : ht.packed = false := h.head.packed_eq.trans hpacked
  refine ⟨h.compacted.sound ho, fun huninit => ?_, fun _ => h.isChain, fun hpack => ?_,
    fun hpack => ?_⟩
  · rw [h.head.initialized_eq, hinit] at huninit
    cases huninit
  · rw [hp] at hpack
    cases hpack
  · rw [hp] at hpack
    cases hpack

theorem Sound.rehash (h : Sound o) (hinit : o.initialized = true) (hpacked : o.packed = false) :
    RehashedFrom o o.zendHashRehash := by
  have hdone := (h.counted fun huninit => absurd (hinit.symm.trans huninit) (by decide)).rehashed
  have hvalid := hdone.valid h hinit hpacked
  exact ⟨hvalid, hdone.compacted.entries_eq, by
    rw [hvalid.numOfElements, hdone.compacted.rank_eq], hdone.head⟩

/-! ## Searching a chain -/

def isKey : HashKey → Bucket V → Bool
  | .index h => isIndex h
  | .str key => isStr (zendInlineHashFunc key) key

theorem isKey_iff {b : Bucket V} (hb : b.h = b.toKey.hash) : isKey k b = true ↔ b.toKey = k := by
  cases k with
  | index h =>
    cases hkey : b.key with
    | none => simp [isKey, isIndex, Bucket.toKey, hkey]
    | some key => simp [isKey, isIndex, Bucket.toKey, hkey]
  | str key =>
    cases hkey : b.key with
    | none => simp [isKey, isStr, Bucket.toKey, hkey]
    | some key' =>
      have hh : b.h = zendInlineHashFunc key' := by
        rw [hb, Bucket.toKey, hkey]
        rfl
      simp only [isKey, isStr, Bucket.toKey, hkey, hh, Bool.and_eq_true, beq_iff_eq,
        some.injEq, HashKey.str.injEq]
      constructor
      · exact fun h => h.2
      · rintro rfl
        exact ⟨rfl, rfl⟩

theorem mem_chainSlots {x : UInt32} : i ∈ ht.chainSlots n x ↔
    i < n ∧ ht.isLive i = true ∧ ht.nIndex (ht.arData i).h = x := by
  rw [chainSlots, mem_reverse, mem_filter, mem_range, Bool.and_eq_true, beq_iff_eq]

theorem nodup_chainSlots (ht : HashTable V) (n : Nat) (x : UInt32) : (ht.chainSlots n x).Nodup :=
  nodup_reverse.mpr (nodup_range.filter _)

theorem length_chainSlots_le (ht : HashTable V) (n : Nat) (x : UInt32) :
    (ht.chainSlots n x).length ≤ n := by
  rw [chainSlots, length_reverse]
  exact (length_filter_le _ _).trans_eq length_range

/-- The bucket that a search finds, and what stands before it in its chain. -/
structure FoundAt (ht : HashTable V) (k : HashKey) (prev : Option Nat) (idx : Nat) : Prop where
  lt : idx < ht.nNumUsed
  live : ht.isLive idx = true
  key : (ht.arData idx).toKey = k
  chain : ∃ as bs, ht.chainSlots ht.nNumUsed (ht.nIndex k.hash) = as ++ idx :: bs ∧
    prev = as.getLast?

/-- **The loops over a chain** end, with the bucket of the key if there is one. -/
theorem Valid.searchChain (h : Valid ht) (hpacked : ht.packed = false) (k : HashKey) :
    (ht.searchChain k.hash (isKey k) = .ok none ∧ k ∉ ht.entries.map Prod.fst) ∨
      ∃ prev idx, ht.searchChain k.hash (isKey k) = .ok (some (prev, idx)) ∧
        FoundAt ht k prev idx := by
  have hchain := h.chains hpacked (ht.nIndex k.hash)
  have hfuel : (ht.chainSlots ht.nNumUsed (ht.nIndex k.hash)).length < ht.nTableSize + 1 :=
    Nat.lt_succ_of_le ((ht.length_chainSlots_le _ _).trans h.used_le)
  unfold HashTable.searchChain
  rcases hchain.search_eq (p := fun i => isKey k (ht.arData i)) hfuel with
    ⟨heq, hnone⟩ | ⟨as, idx, bs, hlist, hkey, -, heq⟩
  · refine .inl ⟨by rw [heq], fun hmem => ?_⟩
    obtain ⟨i, hi, hlive, hik⟩ := mem_keys.mp hmem
    have hih := h.hashed i hi hlive
    have hin : i ∈ ht.chainSlots ht.nNumUsed (ht.nIndex k.hash) :=
      mem_chainSlots.mpr ⟨hi, hlive, by rw [hih, hik]⟩
    have hfalse := hnone i hin
    rw [(isKey_iff hih).mpr hik] at hfalse
    cases hfalse
  · refine .inr ⟨as.getLast?, idx, by rw [heq], ?_⟩
    have hmem : idx ∈ ht.chainSlots ht.nNumUsed (ht.nIndex k.hash) := by
      rw [hlist]
      simp
    obtain ⟨hidx, hlive, -⟩ := mem_chainSlots.mp hmem
    exact ⟨hidx, hlive, (isKey_iff (h.hashed idx hidx hlive)).mp hkey, as, bs, hlist, rfl⟩

theorem NoStrings.exists_chain {bound : Nat} (h : ht.NoStrings bound) (hbound : bound ≤ htMaxSize)
    (x : UInt32) : ∃ l, Chain.IsChain ht.zNext htInvalidIdx (ht.hash x) l ∧ l.length ≤ bound ∧
      ∀ i ∈ l, i < bound ∧ (ht.arData i).key = none := by
  obtain ⟨hhash, hslots⟩ := h
  -- links lead to lower slots
  have hlt : ∀ i < bound, ∃ l, Chain.IsChain ht.zNext htInvalidIdx i l ∧ l.length ≤ i + 1 ∧
      ∀ j ∈ l, j < bound := by
    intro i
    induction i using Nat.strong_induction_on with
    | _ i ih =>
      intro hi
      have hne : i ≠ htInvalidIdx := by
        have : htMaxSize < htInvalidIdx := by decide
        omega
      rcases (hslots i hi).2 with hnil | hdown
      · refine ⟨[i], ⟨rfl, hne, hnil⟩, by simp, ?_⟩
        intro j hj
        rwa [mem_singleton.mp hj]
      · obtain ⟨l, hl, hlen, hmem⟩ := ih _ hdown (by omega)
        refine ⟨i :: l, ⟨rfl, hne, hl⟩, by rw [length_cons]; omega, ?_⟩
        intro j hj
        rcases mem_cons.mp hj with rfl | hj
        · exact hi
        · exact hmem j hj
  rcases hhash x with hnil | hx
  · exact ⟨[], hnil, Nat.zero_le _, fun i hi => by cases hi⟩
  · obtain ⟨l, hl, hlen, hmem⟩ := hlt _ hx
    exact ⟨l, hl, by omega, fun i hi => ⟨hmem i hi, (hslots i (hmem i hi)).1⟩⟩

theorem Valid.searchChain_packed (h : Valid ht) (hpacked : ht.packed = true) (key : ZendString) :
    ht.searchChain (zendInlineHashFunc key) (isStr (zendInlineHashFunc key) key) = .ok none ∧
      HashKey.str key ∉ ht.entries.map Prod.fst := by
  obtain ⟨bound, hbound, hstrings⟩ := h.noStrings hpacked
  constructor
  · obtain ⟨l, hl, hlen, hmem⟩ := hstrings.exists_chain (hbound.trans h.size.le)
      (ht.nIndex (zendInlineHashFunc key))
    unfold HashTable.searchChain
    rw [Chain.search_nil hl (by omega)]
    intro i hi
    simp [isStr, (hmem i hi).2]
  · intro hmem
    obtain ⟨i, hi, hlive, hkey⟩ := mem_keys.mp hmem
    have hnone := (h.slots hpacked i hi hlive).1
    rw [Bucket.toKey, hnone] at hkey
    cases hkey

end HashTable

end Phpce
