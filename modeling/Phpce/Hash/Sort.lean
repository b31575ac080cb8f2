import Phpce.Hash.Refinement
import Phpce.Sort.Run

/-!
# Sorting a HashTable

`zend_hash_sort_ex` closes the gaps, has the buckets sorted, and renumbers the keys or builds the
chains anew. What it does to the buckets is right for every table; a packed table that is renumbered
keeps the chains that are left in it, with the links at other slots.

* `Closed`: what the loop over the gaps does.
* `Sound.sort_run`, `Sound.values_sortedTable`: what sorting does to the buckets.
* **`zendHashSortEx_iff`**: the table is sorted and well formed if and only if the links end at the
  slots where they are then.
-/

namespace Phpce

open SwapProgram List Option
open Function (update update_of_ne update_self)

/-- What the table says of a bucket, `none` for a hole. -/
def Bucket.entry {V : Type*} (p : Bucket V) : Option (HashKey × V) :=
  p.val.map fun v => (p.toKey, v)

def zendHashBucketSwap {V : Type*} (p q : Bucket V) : Bucket V × Bucket V :=
  ({ val := q.val, h := q.h, key := q.key }, { val := p.val, h := p.h, key := p.key })

def zendHashBucketRenumSwap {V : Type*} (p q : Bucket V) : Bucket V × Bucket V :=
  ({ p with val := q.val }, { q with val := p.val })

def zendHashBucketPackedSwap {V : Type*} (p q : Bucket V) : Bucket V × Bucket V :=
  ({ p with val := q.val, h := q.h }, { q with val := p.val, h := p.h })

namespace HashTable

universe u v

variable {V : Type v} {σ : Type u} {o c t r ht : HashTable V} {renumber packed : Bool}
  {i j k n : Nat} {sort : Nat → Nat → SwapProgram Unit}
  {compar : σ → Bucket V → Bucket V → Int × σ} {s : σ}

/-- `ht->arData[i] = *p`, with the link that is in the bucket. -/
def copyBucket (ht : HashTable V) (i j : Nat) : HashTable V :=
  { ht with
    arData := update ht.arData i (ht.arData j)
    zNext := update ht.zNext i (ht.zNext j) }

/-- The loop over the buckets of a table with holes, over `n` slots from `j`. -/
def closeGaps (ht : HashTable V) (i j : Nat) : (n : Nat) → HashTable V × Nat
  | 0 => (ht, i)
  | n + 1 =>
      if ht.isLive j then closeGaps (if i ≠ j then ht.copyBucket i j else ht) (i + 1) (j + 1) n
      else closeGaps ht i (j + 1) n

def withoutGaps (ht : HashTable V) : HashTable V × Nat :=
  if ht.isWithoutHoles then (ht, ht.nNumUsed) else ht.closeGaps 0 0 ht.nNumUsed

/-- The `swap_func_t` for `sort`. -/
def bucketSwap (renumber packed : Bool) : Bucket V → Bucket V → Bucket V × Bucket V :=
  if renumber then zendHashBucketRenumSwap
  else if packed then zendHashBucketPackedSwap
  else zendHashBucketSwap

/-- The loop that gives the buckets the keys from `j` on, `n` of them. -/
def renumberFrom (ht : HashTable V) (j : Nat) : (n : Nat) → HashTable V
  | 0 => ht
  | n + 1 =>
      let p : Bucket V := { ht.arData j with h := UInt64.ofNat j, key := none }
      renumberFrom { ht with arData := update ht.arData j p } (j + 1) n

/-- What comes after the buckets are sorted. -/
def rebuild (ht : HashTable V) (renumber : Bool) : HashTable V :=
  let i := ht.nNumUsed
  let ht := if renumber then { ht.renumberFrom 0 i with nNextFreeElement := Int64.ofNat i } else ht
  if ht.packed then if renumber then ht else ht.zendHashPackedToHash
  else if renumber then { ht.hashReset with packed := true, nTableMask := htMinMask }
  else ht.zendHashRehash

/-- `compar` may have a state of its own. -/
def zendHashSortEx (ht : HashTable V) (sort : Nat → Nat → SwapProgram Unit)
    (compar : σ → Bucket V → Bucket V → Int × σ) (s : σ) (renumber : Bool) : HashTable V × σ :=
  -- Doesn't require sorting
  if ¬ht.nNumOfElements > 1 ∧ ¬(renumber = true ∧ ht.nNumOfElements > 0) then (ht, s)
  else
    let (ht, i) := ht.withoutGaps
    let (_, s, arData) := (sort 0 i).run compar (bucketSwap renumber ht.packed) s ht.arData
    (rebuild { ht with arData, nNumUsed := i, nInternalPointer := 0 } renumber, s)

/-- `zend_hash_sort` -/
def zendHashSort (ht : HashTable V) (compar : σ → Bucket V → Bucket V → Int × σ) (s : σ)
    (renumber : Bool) : HashTable V × σ := ht.zendHashSortEx zendSort compar s renumber

/-! ## The gaps -/

/-- Of the buckets of `o` those below slot `j` are done, the next one goes to slot `i`. -/
structure Closed (o ht : HashTable V) (i j : Nat) : Prop where
  rank_eq : o.rank j = i
  others : { ht with arData := o.arData, zNext := o.zNext } = o
  moved : ∀ k < j, o.isLive k = true →
    ht.arData (o.rank k) = o.arData k ∧ ht.zNext (o.rank k) = o.zNext k
  kept : ∀ k ≥ i, ht.arData k = o.arData k ∧ ht.zNext k = o.zNext k

theorem closed_start (o : HashTable V) : Closed o o 0 0 :=
  ⟨rank_zero, rfl, fun k hk => absurd hk (Nat.not_lt_zero k), fun _ _ => ⟨rfl, rfl⟩⟩

theorem Closed.skip (h : Closed o ht i j) (hole : o.isLive j = false) : Closed o ht i (j + 1) where
  rank_eq := (rank_succ_of_hole hole).trans h.rank_eq
  others := h.others
  moved k hk hlive := by
    refine h.moved k (Nat.lt_of_le_of_ne (Nat.le_of_lt_succ hk) ?_) hlive
    rintro rfl
    rw [hole] at hlive
    cases hlive
  kept := h.kept

theorem Closed.copy (h : Closed o ht i j) (hlive : o.isLive j = true) :
    Closed o (if i ≠ j then ht.copyBucket i j else ht) (i + 1) (j + 1) := by
  have hij : i ≤ j := h.rank_eq ▸ o.rank_le j
  obtain ⟨hdata, hnext⟩ := h.kept j hij
  split
  · refine ⟨by rw [rank_succ_of_live hlive, h.rank_eq], h.others, fun k hk hklive => ?_,
      fun k hk => ?_⟩
    · show update ht.arData i (ht.arData j) (o.rank k) = _ ∧
        update ht.zNext i (ht.zNext j) (o.rank k) = _
      rcases Nat.eq_or_lt_of_le (Nat.le_of_lt_succ hk) with rfl | hkj
      · rw [h.rank_eq, update_self, update_self]
        exact ⟨hdata, hnext⟩
      · have hne : o.rank k ≠ i := by
          have hlt := rank_lt_of_live hklive hkj
          rw [h.rank_eq] at hlt
          exact Nat.ne_of_lt hlt
        rw [update_of_ne hne, update_of_ne hne]
        exact h.moved k hkj hklive
    · show update ht.arData i (ht.arData j) k = _ ∧
        update ht.zNext i (ht.zNext j) k = _
      have hne : k ≠ i := Nat.ne_of_gt hk
      rw [update_of_ne hne, update_of_ne hne]
      exact h.kept k (Nat.le_of_succ_le hk)
  · rename_i heq
    obtain rfl : i = j := not_not.mp heq
    refine ⟨by rw [rank_succ_of_live hlive, h.rank_eq], h.others, fun k hk hklive => ?_,
      fun k hk => h.kept k (Nat.le_of_succ_le hk)⟩
    rcases Nat.eq_or_lt_of_le (Nat.le_of_lt_succ hk) with rfl | hki
    · rw [h.rank_eq]
      exact ⟨hdata, hnext⟩
    · exact h.moved k hki hklive

theorem Closed.isLive_eq (h : Closed o ht i j) : ht.isLive j = o.isLive j := by
  rw [isLive, (h.kept j (h.rank_eq ▸ o.rank_le j)).1, isLive]

theorem Closed.closeGaps (h : Closed o ht i j) :
    Closed o (ht.closeGaps i j n).1 (ht.closeGaps i j n).2 (j + n) := by
  -- induction on the slots from `j`
  induction n generalizing ht i j with
  | zero => exact h
  | succ n ih =>
    unfold HashTable.closeGaps
    rw [h.isLive_eq, show j + (n + 1) = j + 1 + n by omega]
    cases hlive : o.isLive j with
    | true =>
      rw [if_pos rfl]
      exact ih (h.copy hlive)
    | false =>
      rw [if_neg (by decide)]
      exact ih (h.skip hlive)

/-- **The loop over the gaps** brings the buckets to the first slots, and their links with them. -/
theorem Sound.withoutGaps (hs : Sound o) :
    Closed o o.withoutGaps.1 o.nNumOfElements o.nNumUsed ∧ o.withoutGaps.2 = o.nNumOfElements := by
  unfold HashTable.withoutGaps
  split
  · rename_i hwhole
    have hall := hs.rank_eq_of_withoutHoles hwhole
    have hused : o.nNumUsed = o.nNumOfElements := beq_iff_eq.mp hwhole
    refine ⟨⟨hs.numOfElements.symm, rfl, fun k hk _ => ?_, fun _ _ => ⟨rfl, rfl⟩⟩, hused⟩
    have hrank : o.rank k = k := rank_eq_of_live fun l hl => live_of_rank_eq hall (hl.trans hk)
    rw [hrank]
    exact ⟨rfl, rfl⟩
  · have hclosed := (closed_start o).closeGaps (n := o.nNumUsed)
    rw [Nat.zero_add] at hclosed
    have hcount : (o.closeGaps 0 0 o.nNumUsed).2 = o.nNumOfElements := by
      rw [← hclosed.rank_eq, hs.numOfElements]
    rw [hcount] at hclosed
    exact ⟨hclosed, hcount⟩

theorem Closed.eq (h : Closed o c i j) : c = { o with arData := c.arData, zNext := c.zNext } :=
  congrArg (fun ht : HashTable V => { ht with arData := c.arData, zNext := c.zNext }) h.others

theorem Closed.compacted (h : Closed o c o.nNumOfElements o.nNumUsed) :
    Compacted o { c with nNumUsed := o.nNumOfElements } where
  numUsed_eq := h.rank_eq.symm
  numOfElements_eq := by
    have hnum := congrArg nNumOfElements h.others
    exact hnum
  tableSize_eq := by
    have hsize := congrArg nTableSize h.others
    exact hsize
  done k hk hlive := (h.moved k hk hlive).1

/-! ## The buckets -/

theorem entries_eq_seen (ht : HashTable V) :
    ht.entries = seen Bucket.entry ht.arData 0 ht.nNumUsed := by
  unfold seen cells
  rw [filterMap_map, ← range_eq_range']
  rfl

theorem values_eq_seen (ht : HashTable V) :
    ht.entries.map Prod.snd = seen Bucket.val ht.arData 0 ht.nNumUsed := by
  unfold entries entriesUpTo seen cells
  rw [map_filterMap, filterMap_map, ← range_eq_range']
  refine filterMap_congr fun i _ => ?_
  rw [slotEntry, Option.map_map]
  exact map_id'

structure Element (packed : Bool) (p : Bucket V) : Prop where
  live : p.val.isSome = true
  hashed : p.h = p.toKey.hash
  keyless : packed = true → p.key = none

theorem exchanges_entry (packed : Bool) :
    Exchanges (Element packed) (Bucket.entry (V := V)) (bucketSwap false packed) := by
  intro p q hp hq
  cases packed with
  | false => exact ⟨⟨rfl, rfl⟩, hq, hp⟩
  | true =>
    -- no key is left behind
    have hswap : bucketSwap false true p q = (q, p) := by
      obtain ⟨hp', kp, vp⟩ := p
      obtain ⟨hq', kq, vq⟩ := q
      obtain rfl : kp = none := hp.keyless rfl
      obtain rfl : kq = none := hq.keyless rfl
      rfl
    rw [hswap]
    exact ⟨⟨rfl, rfl⟩, hq, hp⟩

theorem exchanges_val (packed : Bool) :
    Exchanges (fun p : Bucket V => p.val.isSome = true) Bucket.val (bucketSwap true packed) :=
  fun _ _ hp hq => ⟨⟨rfl, rfl⟩, hq, hp⟩

theorem Sound.isLive_of_whole (hc : Sound c) (hwhole : c.nNumUsed = c.nNumOfElements)
    (hk : k < c.nNumUsed) : c.isLive k = true :=
  live_of_rank_eq (hc.numOfElements.symm.trans hwhole.symm) hk

theorem Sound.sort_run (hc : Sound c) (hwhole : c.nNumUsed = c.nNumOfElements)
    (hf : SortFunc.{v} sort) (compar : σ → Bucket V → Bucket V → Int × σ) (s : σ)
    (hkeys : packed = true → ∀ k < c.nNumUsed, (c.arData k).key = none)
    (hdata : t.arData =
      ((sort 0 c.nNumUsed).run compar (bucketSwap false packed) s c.arData).2.2)
    (hused : t.nNumUsed = c.nNumUsed) (hnum : t.nNumOfElements = c.nNumOfElements)
    (hsize : t.nTableSize = c.nTableSize) :
    Sound t ∧ t.entries.Perm c.entries ∧
      ∀ le, Orders compar Bucket.entry le → t.entries.Pairwise le := by
  have helem : ∀ k, InArray 0 c.nNumUsed k → Element packed (c.arData k) := by
    intro k hk
    have hlt : k < c.nNumUsed := by
      have := hk.2
      omega
    have hlive := hc.isLive_of_whole hwhole hlt
    exact ⟨hlive, hc.hashed k hlt hlive, fun hp => hkeys hp k hlt⟩
  obtain ⟨-, hafter, e, hfix, he⟩ := (hf.within 0 c.nNumUsed).run_perm compar s
    (exchanges_entry packed) helem
  rw [← hdata] at hafter he
  have hin : ∀ k < c.nNumUsed, InArray 0 c.nNumUsed k := fun k hk => ⟨Nat.zero_le k, by omega⟩
  have hlive : ∀ k < c.nNumUsed, t.isLive k = true := fun k hk => (hafter k (hin k hk)).live
  have hentries : t.entries = seen Bucket.entry t.arData 0 c.nNumUsed := by
    rw [entries_eq_seen, hused]
  refine ⟨⟨?_, ?_, hsize ▸ hc.size, fun k hk _ => ?_, fun k hk l hl _ _ hkey => ?_⟩, ?_,
    fun le h => ?_⟩
  · rw [hnum, hused, rank_eq_of_live hlive, hwhole]
  · rw [hused, hsize]
    exact hc.used_le
  · exact (hafter k (hin k (hused ▸ hk))).hashed
  · -- equal keys come from one slot
    rw [hused] at hk hl
    have hmoved : ∀ k < c.nNumUsed, e k < c.nNumUsed ∧
        (c.arData (e k)).toKey = (t.arData k).toKey := by
      intro k hk
      obtain ⟨v, hv⟩ := isSome_iff_exists.mp (hlive k hk)
      have heq := he k
      unfold Bucket.entry at heq
      rw [hv, map_some] at heq
      obtain ⟨w, -, hw⟩ := map_eq_some_iff.mp heq.symm
      refine ⟨?_, congrArg Prod.fst hw⟩
      have := (mem_of_fixes hfix (hin k hk)).2
      omega
    obtain ⟨hek, hkeyk⟩ := hmoved k hk
    obtain ⟨hel, hkeyl⟩ := hmoved l hl
    have hkl := hc.distinct (e k) hek (e l) hel (hc.isLive_of_whole hwhole hek)
      (hc.isLive_of_whole hwhole hel) (by rw [hkeyk, hkeyl, hkey])
    exact e.injective hkl
  · rw [hentries, entries_eq_seen, hdata]
    exact hf.perm_seen (exchanges_entry packed) helem
  · rw [hentries, hdata]
    exact hf.pairwise_seen h (exchanges_entry packed)
      (fun p hp => by
        obtain ⟨v, hv⟩ := isSome_iff_exists.mp hp.live
        exact ⟨(p.toKey, v), by rw [Bucket.entry, hv, map_some]⟩) helem

/-! ## The keys -/

theorem renumberFrom_eq (ht : HashTable V) (j n : Nat) : ht.renumberFrom j n =
    { ht with arData := fun k =>
        if j ≤ k ∧ k < j + n then { ht.arData k with h := UInt64.ofNat k, key := none }
        else ht.arData k } := by
  -- induction on the buckets from `j`
  induction n generalizing ht j with
  | zero =>
    have hnone : ∀ k, ¬(j ≤ k ∧ k < j + 0) := fun k hk => by omega
    simp only [hnone, if_false]
    rfl
  | succ n ih =>
    unfold renumberFrom
    rw [ih]
    congr 1
    funext k
    dsimp only
    by_cases hkj : k = j
    · subst hkj
      rw [update_self, if_neg (by omega), if_pos (by omega)]
    · rw [update_of_ne hkj]
      by_cases hin : j + 1 ≤ k ∧ k < j + 1 + n
      · rw [if_pos hin, if_pos (by omega)]
      · rw [if_neg hin, if_neg (by omega)]

/-- The keys of `n` elements that are numbered. -/
def numberedKeys (n : Nat) : List HashKey := (List.range n).map fun j => .index (UInt64.ofNat j)

/-- The elements of `t`, under the numbers of their slots. -/
structure Renumbered (t r : HashTable V) : Prop where
  numUsed_eq : r.nNumUsed = t.nNumUsed
  numOfElements_eq : r.nNumOfElements = t.nNumOfElements
  tableSize_eq : r.nTableSize = t.nTableSize
  data : ∀ k < t.nNumUsed, r.arData k = { t.arData k with h := UInt64.ofNat k, key := none }

theorem Renumbered.values_eq (h : Renumbered t r) :
    r.entries.map Prod.snd = t.entries.map Prod.snd := by
  rw [values_eq_seen, values_eq_seen, h.numUsed_eq]
  unfold seen cells
  rw [filterMap_map, filterMap_map]
  refine filterMap_congr fun k hk => ?_
  have hlt : k < t.nNumUsed := by
    have := (List.mem_range'_1.mp hk).2
    omega
  rw [Function.comp_apply, Function.comp_apply, h.data k hlt]

theorem Renumbered.keys_eq (h : Renumbered t r) (hlive : ∀ k < t.nNumUsed, t.isLive k = true) :
    r.entries.map Prod.fst = numberedKeys t.nNumUsed := by
  unfold entries entriesUpTo numberedKeys
  rw [map_filterMap, h.numUsed_eq, ← filterMap_eq_map]
  refine filterMap_congr fun k hk => ?_
  have hlt := mem_range.mp hk
  obtain ⟨v, hv⟩ := isSome_iff_exists.mp (hlive k hlt)
  rw [slotEntry, h.data k hlt]
  dsimp only
  rw [hv]
  rfl

theorem Renumbered.toNat_h (h : Renumbered t r) (hle : t.nNumUsed ≤ htMaxSize)
    (hk : k < t.nNumUsed) : (r.arData k).h.toNat = k := by
  rw [h.data k hk]
  refine UInt64.toNat_ofNat_of_lt' ?_
  have : htMaxSize < UInt64.size := by decide
  omega

theorem Renumbered.sound (h : Renumbered t r) (hlive : ∀ k < t.nNumUsed, t.isLive k = true)
    (hwhole : t.nNumUsed = t.nNumOfElements) (hle : t.nNumUsed ≤ t.nTableSize)
    (hsize : IsTableSize t.nTableSize) : Sound r := by
  have hkey : ∀ k < t.nNumUsed, (r.arData k).key = none := fun k hk => by rw [h.data k hk]
  have hlive' : ∀ k < t.nNumUsed, r.isLive k = true := by
    intro k hk
    rw [isLive, h.data k hk]
    exact hlive k hk
  refine ⟨?_, ?_, h.tableSize_eq ▸ hsize, fun k hk _ => ?_, fun k hk l hl _ _ hkl => ?_⟩
  · rw [h.numOfElements_eq, h.numUsed_eq, rank_eq_of_live hlive', hwhole]
  · rw [h.numUsed_eq, h.tableSize_eq]
    exact hle
  · rw [h.numUsed_eq] at hk
    rw [Bucket.toKey, hkey k hk]
    rfl
  · rw [h.numUsed_eq] at hk hl
    rw [Bucket.toKey, Bucket.toKey, hkey k hk, hkey l hl] at hkl
    have hmax := hle.trans hsize.le
    rw [← h.toNat_h hmax hk, HashKey.index.inj hkl, h.toNat_h hmax hl]

/-! ## Chains -/

/-- Following `next` from the heads, one meets buckets without a string key only, and then the
end. -/
def StringsEnd (ht : HashTable V) (next : Nat → Nat) : Prop :=
  ∀ x, ∃ slots, Chain.IsChain next htInvalidIdx (ht.hash x) slots ∧
    ∀ i ∈ slots, i < ht.nTableSize ∧ (ht.arData i).key = none

structure WellFormed (ht : HashTable V) : Prop extends Sound ht where
  uninit : ht.initialized = false → ht.packed = false ∧ ht.nNumUsed = 0 ∧
    ∀ x, ht.hash x = htInvalidIdx
  chains : ht.packed = false → ∀ x, Chain.IsChain ht.zNext htInvalidIdx (ht.hash x)
    (ht.chainSlots ht.nNumUsed x)
  slots : ht.packed = true → ∀ i < ht.nNumUsed, ht.isLive i = true →
    (ht.arData i).key = none ∧ (ht.arData i).h.toNat = i
  strings : ht.packed = true → ht.StringsEnd ht.zNext

theorem Valid.wellFormed (hv : Valid ht) : WellFormed ht where
  toSound := hv.toSound
  uninit := hv.uninit
  chains := hv.chains
  slots := hv.slots
  strings hpacked x := by
    obtain ⟨bound, hbound, hstrings⟩ := hv.noStrings hpacked
    obtain ⟨l, hl, -, hmem⟩ := hstrings.exists_chain (hbound.trans hv.size.le) x
    exact ⟨l, hl, fun i hi => ⟨(hmem i hi).1.trans_le hbound, (hmem i hi).2⟩⟩

theorem WellFormed.searchChain_packed (h : WellFormed ht) (hpacked : ht.packed = true)
    (key : ZendString) :
    ht.searchChain (zendInlineHashFunc key) (isStr (zendInlineHashFunc key) key) = .ok none := by
  obtain ⟨l, hl, hmem⟩ := h.strings hpacked (ht.nIndex (zendInlineHashFunc key))
  have hlen : l.length ≤ ht.nTableSize := by
    have hsub : l ⊆ List.range ht.nTableSize := fun i hi => mem_range.mpr (hmem i hi).1
    rw [← length_range (n := ht.nTableSize)]
    exact (subperm_of_subset hl.nodup hsub).length_le
  unfold HashTable.searchChain
  rw [Chain.search_nil hl (Nat.lt_succ_of_le hlen)]
  intro i hi
  simp [isStr, (hmem i hi).2]

/-- The link at slot `i` when the elements stand at the first slots, each with its link. -/
def movedLink (ht : HashTable V) (i : Nat) : Nat :=
  match (List.range ht.nNumUsed).find? fun k => ht.isLive k && ht.rank k == i with
  | some k => ht.zNext k
  | none => ht.zNext i

theorem movedLink_rank (hk : k < ht.nNumUsed) (hlive : ht.isLive k = true) :
    ht.movedLink (ht.rank k) = ht.zNext k := by
  unfold movedLink
  cases hfind : (List.range ht.nNumUsed).find? fun l => ht.isLive l && ht.rank l == ht.rank k with
  | none =>
    have hnot := List.find?_eq_none.mp hfind k (mem_range.mpr hk)
    rw [hlive, beq_self_eq_true] at hnot
    exact absurd rfl hnot
  | some l =>
    have hl := List.find?_some hfind
    rw [Bool.and_eq_true, beq_iff_eq] at hl
    rw [rank_injective hl.1 hlive hl.2]

theorem Sound.movedLink_of_le (hs : Sound ht) (hi : ht.nNumOfElements ≤ i) :
    ht.movedLink i = ht.zNext i := by
  unfold movedLink
  cases hfind : (List.range ht.nNumUsed).find? fun l => ht.isLive l && ht.rank l == i with
  | none => rfl
  | some l =>
    have hl := List.find?_some hfind
    have hmem := mem_range.mp (mem_of_find?_eq_some hfind)
    rw [Bool.and_eq_true, beq_iff_eq] at hl
    have hlt := rank_lt_of_live hl.1 hmem
    have hnum := hs.numOfElements
    omega

theorem Closed.zNext_eq (hs : Sound o) (h : Closed o c o.nNumOfElements o.nNumUsed) :
    c.zNext = o.movedLink := by
  funext i
  rcases Nat.lt_or_ge i o.nNumOfElements with hlt | hge
  · rw [hs.numOfElements] at hlt
    obtain ⟨k, hk, hlive, rfl⟩ := exists_rank_eq hlt
    rw [movedLink_rank hk hlive, (h.moved k hk hlive).2]
  · rw [hs.movedLink_of_le hge, (h.kept i hge).2]

/-- The chains that are left in a packed table end when the elements stand at the first slots. -/
def LinksEnd (ht : HashTable V) : Prop :=
  ∀ x, ∃ slots, Chain.IsChain ht.movedLink htInvalidIdx (ht.hash x) slots ∧
    ∀ i ∈ slots, i < ht.nTableSize ∧ (ht.nNumOfElements ≤ i → (ht.arData i).key = none)

/-! ## What zend_hash_sort_ex does -/

/-- `ht` holds what `o` does in the order of `compar`, or the values under new keys. -/
structure SortedFrom (o ht : HashTable V) (compar : σ → Bucket V → Bucket V → Int × σ)
    (renumber : Bool) : Prop where
  wellFormed : WellFormed ht
  pairs : renumber = false → ht.entries.Perm o.entries ∧
    ∀ le, Orders compar Bucket.entry le → ht.entries.Pairwise le
  values : renumber = true → (ht.entries.map Prod.snd).Perm (o.entries.map Prod.snd) ∧
    ∀ le, Orders compar Bucket.val le → (ht.entries.map Prod.snd).Pairwise le
  keys : renumber = true → ht.entries.map Prod.fst = numberedKeys o.nNumOfElements

def sortedData (o : HashTable V) (sort : Nat → Nat → SwapProgram Unit)
    (compar : σ → Bucket V → Bucket V → Int × σ) (s : σ) (renumber : Bool) : Nat → Bucket V :=
  ((sort 0 o.nNumOfElements).run compar (bucketSwap renumber o.packed) s
    o.withoutGaps.1.arData).2.2

def sortedTable (o : HashTable V) (sort : Nat → Nat → SwapProgram Unit)
    (compar : σ → Bucket V → Bucket V → Int × σ) (s : σ) (renumber : Bool) : HashTable V :=
  { o with
    arData := o.sortedData sort compar s renumber, zNext := o.movedLink
    nNumUsed := o.nNumOfElements, nInternalPointer := 0 }

theorem Sound.zendHashSortEx_eq (hs : Sound o)
    (hmany : ¬(¬o.nNumOfElements > 1 ∧ ¬(renumber = true ∧ o.nNumOfElements > 0))) :
    (o.zendHashSortEx sort compar s renumber).1 =
      (o.sortedTable sort compar s renumber).rebuild renumber := by
  obtain ⟨hclosed, hcount⟩ := hs.withoutGaps
  have hlink := hclosed.zNext_eq hs
  have heq := hclosed.eq
  unfold zendHashSortEx sortedTable sortedData
  rw [if_neg hmany]
  dsimp only
  rw [hcount]
  generalize o.withoutGaps.1 = c at heq hlink
  rw [← hlink, heq]

theorem Sound.gapless (hs : Sound o) :
    Compacted o { o with arData := o.withoutGaps.1.arData, nNumUsed := o.nNumOfElements } := by
  have hcompacted := hs.withoutGaps.1.compacted
  exact ⟨hcompacted.numUsed_eq, rfl, rfl, hcompacted.done⟩

theorem Valid.sound_sortedTable (hv : Valid o) (hf : SortFunc.{v} sort)
    (compar : σ → Bucket V → Bucket V → Int × σ) (s : σ) :
    Sound (o.sortedTable sort compar s false) ∧
      (o.sortedTable sort compar s false).entries.Perm o.entries ∧
      ∀ le, Orders compar Bucket.entry le →
        (o.sortedTable sort compar s false).entries.Pairwise le := by
  have hgapless := hv.toSound.gapless
  have hkeys : o.packed = true → ∀ k < o.nNumOfElements, (o.withoutGaps.1.arData k).key = none := by
    intro hpacked k hk
    obtain ⟨l, hl, hlive, -, hdata⟩ := hgapless.exists_bucket hk
    exact (congrArg Bucket.key hdata).trans (hv.slots hpacked l hl hlive).1
  rw [← hgapless.entries_eq]
  exact (hgapless.sound hv.toSound).sort_run rfl hf compar s hkeys rfl rfl rfl rfl

theorem rebuild_false (ht : HashTable V) : ht.rebuild false =
    if ht.packed then ht.zendHashPackedToHash else ht.zendHashRehash := by
  unfold rebuild
  simp only [Bool.false_eq_true, if_false]

theorem Sound.rebuild (hs : Sound t) (hinit : t.initialized = true) :
    (t.rebuild false).Valid ∧ (t.rebuild false).entries = t.entries := by
  rw [rebuild_false]
  cases hpacked : t.packed with
  | true =>
    have hhashed : Sound { t with packed := false, nTableMask := tableMask t.nTableSize } :=
      ⟨hs.1, hs.2, hs.3, hs.4, hs.5⟩
    have hr := hhashed.rehash hinit rfl
    exact ⟨hr.valid, hr.entries_eq⟩
  | false =>
    have hr := hs.rehash hinit hpacked
    exact ⟨hr.valid, hr.entries_eq⟩

theorem Sound.values_sortedTable (hs : Sound o) (hf : SortFunc.{v} sort)
    (compar : σ → Bucket V → Bucket V → Int × σ) (s : σ) :
    (∀ k < o.nNumOfElements, (o.sortedTable sort compar s true).isLive k = true) ∧
      ((o.sortedTable sort compar s true).entries.map Prod.snd).Perm (o.entries.map Prod.snd) ∧
      ∀ le, Orders compar Bucket.val le →
        ((o.sortedTable sort compar s true).entries.map Prod.snd).Pairwise le := by
  have hgapless := hs.gapless
  have hlive : ∀ k, InArray 0 o.nNumOfElements k →
      (o.withoutGaps.1.arData k).val.isSome = true := by
    intro k hk
    have hlt : k < o.nNumOfElements := by
      have := hk.2
      omega
    exact hgapless.isLive hlt
  obtain ⟨-, hafter, -⟩ := (hf.within 0 o.nNumOfElements).run_perm compar s
    (exchanges_val o.packed) hlive
  have hvalues : (o.sortedTable sort compar s true).entries.map Prod.snd =
      seen Bucket.val (o.sortedData sort compar s true) 0 o.nNumOfElements := values_eq_seen _
  refine ⟨fun k hk => hafter k ⟨Nat.zero_le k, by omega⟩, ?_, fun le h => ?_⟩
  · have hbefore : o.entries.map Prod.snd =
        seen Bucket.val o.withoutGaps.1.arData 0 o.nNumOfElements := by
      rw [← hgapless.entries_eq]
      exact values_eq_seen _
    rw [hvalues, hbefore]
    exact hf.perm_seen (exchanges_val o.packed) hlive
  · rw [hvalues]
    exact hf.pairwise_seen h (exchanges_val o.packed)
      (fun p hp => isSome_iff_exists.mp hp) hlive

theorem rebuild_true (ht : HashTable V) : ∃ next : Int64,
    ht.rebuild true = { ht with
      arData := fun k =>
        if 0 ≤ k ∧ k < 0 + ht.nNumUsed then
          { ht.arData k with h := UInt64.ofNat k, key := none }
        else ht.arData k
      packed := true
      nTableMask := if ht.packed then ht.nTableMask else htMinMask
      hash := if ht.packed then ht.hash else fun _ => htInvalidIdx
      nNextFreeElement := next } := by
  refine ⟨Int64.ofNat ht.nNumUsed, ?_⟩
  unfold HashTable.rebuild
  simp only [renumberFrom_eq, if_true]
  cases hpacked : ht.packed with
  | true =>
    simp only [if_true]
  | false =>
    simp only [Bool.false_eq_true, if_false]
    rfl

theorem renumbered_rebuild (t : HashTable V) : Renumbered t (t.rebuild true) := by
  obtain ⟨next, heq⟩ := t.rebuild_true
  rw [heq]
  refine ⟨rfl, rfl, rfl, fun k hk => ?_⟩
  exact if_pos ⟨Nat.zero_le k, by omega⟩

theorem Sound.sortedData_of_le (hs : Sound o) (hf : SortFunc.{v} sort)
    (hk : o.nNumOfElements ≤ k) : o.sortedData sort compar s renumber k = o.arData k := by
  have hout : ¬InArray 0 o.nNumOfElements k := fun hin => by
    have := hin.2
    omega
  exact ((hf.within 0 o.nNumOfElements).run_outside hout).trans (hs.withoutGaps.1.kept k hk).1

theorem Sound.key_rebuild (hs : Sound o) (hf : SortFunc.{v} sort)
    (compar : σ → Bucket V → Bucket V → Int × σ) (s : σ) (k : Nat) :
    (((o.sortedTable sort compar s true).rebuild true).arData k).key = none ↔
      (o.nNumOfElements ≤ k → (o.arData k).key = none) := by
  obtain ⟨next, heq⟩ := (o.sortedTable sort compar s true).rebuild_true
  rw [heq]
  dsimp only
  rcases Nat.lt_or_ge k o.nNumOfElements with hlt | hge
  · rw [if_pos ⟨Nat.zero_le k, show k < 0 + o.nNumOfElements by omega⟩]
    exact ⟨fun _ hle => absurd hle (Nat.not_le.mpr hlt), fun _ => rfl⟩
  · have hout : ¬(0 ≤ k ∧ k < 0 + (o.sortedTable sort compar s true).nNumUsed) := fun hin => by
      have : k < 0 + o.nNumOfElements := hin.2
      omega
    rw [if_neg hout]
    show (o.sortedData sort compar s true k).key = none ↔ _
    rw [hs.sortedData_of_le hf hge]
    exact ⟨fun hkey _ => hkey, fun hkey => hkey hge⟩

/-- **A renumbered table** is well formed, but for the chains that a packed one has had. -/
theorem Valid.wellFormed_rebuild (hv : Valid o) (hinit : o.initialized = true)
    (hf : SortFunc.{v} sort) (compar : σ → Bucket V → Bucket V → Int × σ) (s : σ) :
    WellFormed ((o.sortedTable sort compar s true).rebuild true) ↔
      (o.packed = true → o.LinksEnd) := by
  obtain ⟨hlive, -⟩ := hv.toSound.values_sortedTable hf compar s
  have hkey := hv.toSound.key_rebuild hf compar s
  have hren := (o.sortedTable sort compar s true).renumbered_rebuild
  obtain ⟨next, heq⟩ := (o.sortedTable sort compar s true).rebuild_true
  have hle : o.nNumOfElements ≤ o.nTableSize :=
    (hv.numOfElements.trans_le (o.rank_le _)).trans hv.used_le
  have hsound := hren.sound hlive rfl hle hv.size
  have hslots : ∀ i < ((o.sortedTable sort compar s true).rebuild true).nNumUsed,
      (((o.sortedTable sort compar s true).rebuild true).arData i).key = none ∧
        (((o.sortedTable sort compar s true).rebuild true).arData i).h.toNat = i := by
    intro i hi
    rw [hren.numUsed_eq] at hi
    have hlt : i < o.nNumOfElements := hi
    exact ⟨(hkey i).mpr fun hge => absurd hlt (Nat.not_lt.mpr hge),
      hren.toNat_h (hle.trans hv.size.le) hi⟩
  generalize (o.sortedTable sort compar s true).rebuild true = r at heq hkey hsound hslots
  have hpacked : r.packed = true := by rw [heq]
  have hsize : r.nTableSize = o.nTableSize := by rw [heq]; rfl
  have hnext : r.zNext = o.movedLink := by rw [heq]; rfl
  have hiff : WellFormed r ↔ r.StringsEnd r.zNext := by
    refine ⟨fun h => h.strings hpacked, fun h => ⟨hsound, fun huninit => ?_, fun hhash => ?_,
      fun _ i hi _ => hslots i hi, fun _ => h⟩⟩
    · have : r.initialized = o.initialized := by rw [heq]; rfl
      rw [huninit, hinit] at this
      cases this
    · rw [hpacked] at hhash
      cases hhash
  rw [hiff]
  cases ho : o.packed with
  | false =>
    have hhash : r.hash = fun _ => htInvalidIdx := by
      rw [heq]
      exact if_neg (by rw [show (o.sortedTable sort compar s true).packed = false from ho]; decide)
    refine ⟨fun _ hp => (by cases hp), fun _ x => ⟨[], ?_, fun i hi => (by cases hi)⟩⟩
    rw [hhash]
    rfl
  | true =>
    have hhash : r.hash = o.hash := by
      rw [heq]
      exact if_pos ho
    unfold StringsEnd LinksEnd
    rw [hnext, hhash, hsize]
    simp only [hkey, forall_const]

theorem Sound.pairwise_of_few (hs : Sound o) (hfew : o.nNumOfElements ≤ 1)
    (le : HashKey × V → HashKey × V → Prop) : o.entries.Pairwise le := by
  have hlen := hs.length_entries
  cases hentries : o.entries with
  | nil => exact List.Pairwise.nil
  | cons a rest =>
    cases rest with
    | nil => exact pairwise_singleton _ _
    | cons b rest =>
      rw [hentries, length_cons, length_cons] at hlen
      omega

theorem Valid.linksEnd_of_empty (hv : Valid o) (hnone : o.nNumOfElements = 0)
    (hpacked : o.packed = true) : o.LinksEnd := by
  have hlink : o.movedLink = o.zNext :=
    funext fun i => hv.toSound.movedLink_of_le (hnone.trans_le (Nat.zero_le i))
  intro x
  obtain ⟨slots, hchain, hmem⟩ := hv.wellFormed.strings hpacked x
  rw [hlink]
  exact ⟨slots, hchain, fun i hi => ⟨(hmem i hi).1, fun _ => (hmem i hi).2⟩⟩

theorem Valid.sortedFrom_iff (hv : Valid o) (hf : SortFunc.{v} sort) :
    SortedFrom o (o.zendHashSortEx sort compar s renumber).1 compar renumber ↔
      (o.packed = true → renumber = true → o.LinksEnd) := by
  by_cases hmany : ¬o.nNumOfElements > 1 ∧ ¬(renumber = true ∧ o.nNumOfElements > 0)
  · -- the table is left as it is
    unfold zendHashSortEx
    rw [if_pos hmany]
    have hnone : renumber = true → o.nNumOfElements = 0 := fun hr =>
      Nat.eq_zero_of_not_pos fun hpos => hmany.2 ⟨hr, hpos⟩
    refine ⟨fun _ hp hr => hv.linksEnd_of_empty (hnone hr) hp, fun _ => ⟨hv.wellFormed,
      fun _ => ⟨List.Perm.refl _, fun le _ =>
        hv.toSound.pairwise_of_few (Nat.not_lt.mp hmany.1) le⟩, fun hr => ?_, fun hr => ?_⟩⟩
    · have hnil : o.entries = [] :=
        length_eq_zero_iff.mp (hv.toSound.length_entries.trans (hnone hr))
      refine ⟨List.Perm.refl _, fun le _ => ?_⟩
      show (o.entries.map Prod.snd).Pairwise le
      rw [hnil]
      exact List.Pairwise.nil
    · have hnil : o.entries = [] :=
        length_eq_zero_iff.mp (hv.toSound.length_entries.trans (hnone hr))
      show o.entries.map Prod.fst = _
      rw [hnil, hnone hr]
      rfl
  · rw [hv.toSound.zendHashSortEx_eq hmany]
    have hinit : o.initialized = true := by
      cases hinit : o.initialized with
      | true => rfl
      | false =>
        have hnone : o.nNumOfElements = 0 := by
          rw [hv.numOfElements, (hv.uninit hinit).2.1]
          exact rank_zero
        exact absurd ⟨by omega, fun h => by omega⟩ hmany
    cases renumber with
    | false =>
      obtain ⟨hsound, hperm, hsorted⟩ := hv.sound_sortedTable hf compar s
      obtain ⟨hvalid, hentries⟩ := hsound.rebuild hinit
      refine ⟨fun _ _ hr => (by cases hr), fun _ => ⟨hvalid.wellFormed, fun _ => ?_,
        fun hr => (by cases hr), fun hr => (by cases hr)⟩⟩
      rw [hentries]
      exact ⟨hperm, hsorted⟩
    | true =>
      obtain ⟨hlive, hperm, hsorted⟩ := hv.toSound.values_sortedTable hf compar s
      have hren := (o.sortedTable sort compar s true).renumbered_rebuild
      have hwf := hv.wellFormed_rebuild hinit hf compar s
      refine ⟨fun h hp _ => hwf.mp h.wellFormed hp, fun h => ⟨hwf.mpr fun hp => h hp rfl,
        fun hr => (by cases hr), fun _ => ?_, fun _ => hren.keys_eq hlive⟩⟩
      rw [hren.values_eq]
      exact ⟨hperm, hsorted⟩

/-- `zend_sort` **sorts arrays, and `zend_hash_sort_ex` tables**, these if and only if the chains
end that are left in a packed table which is renumbered. -/
theorem zendHashSortEx_iff (hv : Valid o) (compar : σ → Bucket V → Bucket V → Int × σ) (s : σ)
    (renumber : Bool) : SortsArrays.{u, v} zendSort ∧
      (SortedFrom o (o.zendHashSortEx zendSort compar s renumber).1 compar renumber ↔
        (o.packed = true → renumber = true → o.LinksEnd)) :=
  ⟨sortsArrays_zendSort, hv.sortedFrom_iff sortFunc_zendSort⟩

theorem linksEnd_of_reset (h : ∀ x, ht.hash x = htInvalidIdx) : ht.LinksEnd :=
  fun x => ⟨[], h x, fun i hi => (by cases hi)⟩

def compareData (s : Unit) (p q : Bucket Nat) : Int × Unit :=
  ((p.val.getD 0 : Int) - (q.val.getD 0 : Int), s)

theorem valid_of_run {ht : HashTable Nat} (ops : List (HashOp Nat))
    (hrun : (system Nat).Run (fun ht op => op.Allowed ht) emptyTable ops ht) : Valid ht := by
  have hinit : HashTable.zendHashInit 0 (fun _ => ⟨0, none, none⟩) (fun _ => htInvalidIdx) [] 8 =
      .ok emptyTable := rfl
  obtain ⟨hv, hentries, hnext⟩ := Valid.zendHashInit hinit
  exact (Refines.run hrun (refines_empty hv hentries hnext)).valid

theorem zendHashSortEx_iff_packed :
    ∃ ht, (system Nat).exec emptyTable [.indexAdd 0 5, .indexAdd 1 6, .indexAdd 2 4, .indexDel 0] =
        some ht ∧
      SortedFrom ht (ht.zendHashSortEx zendSort compareData () true).1 compareData true := by
  refine ⟨_, rfl, (zendHashSortEx_iff (valid_of_run [.indexAdd 0 5, .indexAdd 1 6, .indexAdd 2 4,
    .indexDel 0] (.cons ?_ rfl (.cons ?_ rfl (.cons ?_ rfl (.cons ?_ rfl (.nil _))))))
    compareData () true).2.mpr fun _ _ => linksEnd_of_reset fun _ => rfl⟩
  · trivial
  · trivial
  · trivial
  · trivial

theorem Sound.zendHashSortEx_of_le (hs : Sound o) (h : o.nNumOfElements ≤ 16) :
    (o.zendHashSortEx zendSort compar s renumber).1 =
      (o.zendHashSortEx zendInsertSort compar s renumber).1 := by
  by_cases hmany : ¬o.nNumOfElements > 1 ∧ ¬(renumber = true ∧ o.nNumOfElements > 0)
  · unfold zendHashSortEx
    rw [if_pos hmany, if_pos hmany]
  · rw [hs.zendHashSortEx_eq hmany, hs.zendHashSortEx_eq hmany]
    unfold sortedTable sortedData
    rw [zendSort, dif_pos h]

/-- A packed table with chains, of which two elements are deleted. -/
def rehashedTable : HashTable Nat :=
  ((system Nat).exec emptyTable [.indexAdd 0 5, .indexAdd 1 6, .indexAdd 2 4, .rehash,
    .indexDel 0, .indexDel 1]).getD emptyTable

/-- The link of the element that is left goes with it to slot `0`, and leads there. -/
theorem not_sortedFrom_rehashedTable :
    Valid rehashedTable ∧
      (rehashedTable.zendHashSortEx zendSort compareData () true).1.zendHashFind [0x61] =
        .error .endless ∧
      ¬SortedFrom rehashedTable (rehashedTable.zendHashSortEx zendSort compareData () true).1
        compareData true := by
  have hv : Valid rehashedTable := by
    refine valid_of_run [.indexAdd 0 5, .indexAdd 1 6, .indexAdd 2 4, .rehash, .indexDel 0,
      .indexDel 1] (.cons ?_ rfl (.cons ?_ rfl (.cons ?_ rfl (.cons ?_ rfl (.cons ?_ rfl
      (.cons ?_ rfl (.nil _)))))))
    · trivial
    · trivial
    · trivial
    · exact fun _ => .inl rfl
    · trivial
    · trivial
  have hfew : rehashedTable.nNumOfElements ≤ 16 := by decide
  have hfind : (rehashedTable.zendHashSortEx zendSort compareData () true).1.zendHashFind [0x61] =
      .error .endless := by
    rw [hv.toSound.zendHashSortEx_of_le hfew]
    decide
  have hpacked :
      (rehashedTable.zendHashSortEx zendSort compareData () true).1.packed = true := by
    rw [hv.toSound.zendHashSortEx_of_le hfew]
    decide
  refine ⟨hv, hfind, fun h => ?_⟩
  have hends := h.wellFormed.searchChain_packed hpacked [0x61]
  unfold HashTable.zendHashFind HashTable.zendHashFindBucket at hfind
  dsimp only at hfind
  rw [hends] at hfind
  cases hfind

/-! ## One result -/

/-- **A total order leaves one result**: by whatever functions two tables with the same elements are
sorted, and in whatever order and slots these stand before. -/
theorem zendHashSortEx_canonical {o' : HashTable V} {sort sort' : Nat → Nat → SwapProgram Unit}
    (hf : SortFunc.{v} sort) (hf' : SortFunc.{v} sort') (hv : Valid o) (hv' : Valid o')
    {compar : σ → Bucket V → Bucket V → Int × σ} {le : HashKey × V → HashKey × V → Prop}
    (h : Orders compar Bucket.entry le)
    (hanti : ∀ a ∈ o.entries, ∀ b ∈ o.entries, le a b → le b a → a = b)
    (hperm : o.entries.Perm o'.entries) (s s' : σ) :
    (o.zendHashSortEx sort compar s false).1.entries =
      (o'.zendHashSortEx sort' compar s' false).1.entries := by
  have hsorted : SortedFrom o (o.zendHashSortEx sort compar s false).1 compar false :=
    (hv.sortedFrom_iff hf).mpr fun _ hr => by cases hr
  have hsorted' : SortedFrom o' (o'.zendHashSortEx sort' compar s' false).1 compar false :=
    (hv'.sortedFrom_iff hf').mpr fun _ hr => by cases hr
  obtain ⟨hleft, hle⟩ := hsorted.pairs rfl
  obtain ⟨hright, hle'⟩ := hsorted'.pairs rfl
  refine Perm.eq_of_pairwise (fun a b ha hb => ?_) (hle le h) (hle' le h)
    (hleft.trans (hperm.trans hright.symm))
  exact hanti a (hleft.subset ha) b ((hright.trans hperm.symm).subset hb)

theorem orders_compareData : Orders compareData Bucket.entry fun x y => x.2 ≤ y.2 where
  total x y := Nat.le_total x.2 y.2
  trans _ _ _ := Nat.le_trans
  answers _ a b x y hx hy := by
    obtain ⟨v, hv, rfl⟩ := Option.map_eq_some_iff.mp hx
    obtain ⟨w, hw, rfl⟩ := Option.map_eq_some_iff.mp hy
    show 0 < ((a.val.getD 0 : Int) - (b.val.getD 0 : Int)) ↔ ¬v ≤ w
    rw [hv, hw]
    show 0 < (v : Int) - w ↔ _
    omega

theorem zendHashSortEx_canonical_packed :
    ∃ ht ht', (system Nat).exec emptyTable [.indexAdd 0 5, .indexAdd 1 6, .indexAdd 2 4,
        .indexDel 0] = some ht ∧
      (system Nat).exec emptyTable [.indexAdd 2 4, .indexAdd 1 6] = some ht' ∧
      (ht.zendHashSortEx zendSort compareData () false).1.entries =
        (ht'.zendHashSortEx zendInsertSort compareData () false).1.entries := by
  refine ⟨_, _, rfl, rfl, zendHashSortEx_canonical sortFunc_zendSort
    ⟨within_zendInsertSort, sortedOn_zendInsertSort⟩ (valid_of_run [.indexAdd 0 5, .indexAdd 1 6,
      .indexAdd 2 4, .indexDel 0] (.cons ?_ rfl (.cons ?_ rfl (.cons ?_ rfl (.cons ?_ rfl
      (.nil _)))))) (valid_of_run [.indexAdd 2 4, .indexAdd 1 6] (.cons ?_ rfl (.cons ?_ rfl
      (.nil _)))) orders_compareData (by decide) (by decide) () ()⟩
  all_goals trivial

end HashTable

end Phpce
