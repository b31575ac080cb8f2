import Phpce.Sort.Basic

/-!
# What zend_sort does with a total preorder

* `exec_insertAt`: an element is inserted into the sorted cells before it.
* `exec_scan`: what stands before the pivot is not larger, what stands behind it is not smaller.
* **`sortedOn_zendSort`**: the array is sorted.
-/

namespace Phpce

open SwapProgram List

universe v

variable {α : Type v} {gt : α → α → Bool} {le : α → α → Prop} {mem : Nat → α}
  {a b c d e i j k n start nmemb lo hi : Nat} {x : α}

/-- `gt` says of two elements that the first one is larger in the total preorder `le`. -/
structure Compares (gt : α → α → Bool) (le : α → α → Prop) : Prop where
  total : ∀ a b, le a b ∨ le b a
  trans : ∀ a b c, le a b → le b c → le a c
  gt_iff : ∀ a b, gt a b = true ↔ ¬le a b

theorem Compares.le_of_gt (h : Compares gt le) {a b : α} (hgt : gt a b = true) : le b a :=
  (h.total a b).resolve_left ((h.gt_iff a b).mp hgt)

theorem Compares.le_of_not_gt (h : Compares gt le) {a b : α} (hgt : ¬gt a b = true) : le a b := by
  by_contra hnot
  exact hgt ((h.gt_iff a b).mpr hnot)

/-- The cells from `lo` up to `hi` are in order. -/
def SortedOn (le : α → α → Prop) (mem : Nat → α) (lo hi : Nat) : Prop :=
  ∀ i j, lo ≤ i → i < j → j < hi → le (mem i) (mem j)

/-! ## Small arrays -/

theorem exec_zendSort3 (h : Compares gt le) (mem : Nat → α) (hab : a ≠ b) (hac : a ≠ c)
    (hbc : b ≠ c) :
    le (((zendSort3 a b c).exec gt mem).2 a) (((zendSort3 a b c).exec gt mem).2 b) ∧
      le (((zendSort3 a b c).exec gt mem).2 b) (((zendSort3 a b c).exec gt mem).2 c) := by
  unfold zendSort3
  rw [exec_cmp_bind]
  split
  · rename_i hgtab
    rw [exec_cmp_bind]
    split
    · rename_i hgtcb
      rw [exec_swp_bind, exec_cmp_bind, comp_swap_right, comp_swap_of_ne mem hac.symm hbc.symm]
      split
      · rename_i hgtac
        rw [exec_swp]
        dsimp only
        rw [comp_swap_of_ne _ hab hac, comp_swap_left, comp_swap_left, comp_swap_right,
          comp_swap_of_ne _ hac.symm hbc.symm, comp_swap_right]
        exact ⟨h.le_of_gt hgtcb, h.le_of_gt hgtac⟩
      · rename_i hgtac
        rw [exec_pure]
        dsimp only
        rw [comp_swap_left, comp_swap_right, comp_swap_of_ne _ hac.symm hbc.symm]
        exact ⟨h.le_of_gt hgtab, h.le_of_not_gt hgtac⟩
    · rename_i hgtcb
      rw [exec_swp]
      dsimp only
      rw [comp_swap_left, comp_swap_right, comp_swap_of_ne _ hab.symm hbc]
      exact ⟨h.le_of_not_gt hgtcb, h.le_of_gt hgtab⟩
  · rename_i hgtab
    rw [exec_cmp_bind]
    split
    · rename_i hgtbc
      rw [exec_swp_bind, exec_cmp_bind, comp_swap_left, comp_swap_of_ne mem hab hac]
      split
      · rename_i hgtac
        rw [exec_swp]
        dsimp only
        rw [comp_swap_left, comp_swap_right, comp_swap_of_ne _ hac.symm hbc.symm, comp_swap_left,
          comp_swap_of_ne _ hab hac, comp_swap_right]
        exact ⟨h.le_of_gt hgtac, h.le_of_not_gt hgtab⟩
      · rename_i hgtac
        rw [exec_pure]
        dsimp only
        rw [comp_swap_left, comp_swap_right, comp_swap_of_ne _ hab hac]
        exact ⟨h.le_of_not_gt hgtac, h.le_of_gt hgtbc⟩
    · rename_i hgtbc
      exact ⟨h.le_of_not_gt hgtab, h.le_of_not_gt hgtbc⟩

theorem exec_sink (h : Compares gt le) {before : List Nat} (hnd : (c :: before).Nodup)
    (hsorted : before.Pairwise fun p q => le (mem q) (mem p)) :
    (c :: before).Pairwise fun p q =>
      le (((sink c before).exec gt mem).2 q) (((sink c before).exec gt mem).2 p) := by
  -- induction on the cells before
  induction before generalizing c mem with
  | nil => exact pairwise_singleton _ _
  | cons b before ih =>
    obtain ⟨hc, hnd'⟩ := nodup_cons.mp hnd
    obtain ⟨hb, hrest⟩ := pairwise_cons.mp hsorted
    unfold sink
    rw [exec_cmp_bind]
    split
    · rename_i hgt
      rw [exec_swp_bind]
      have hle := h.le_of_gt hgt
      have hcb : c ≠ b := fun heq => hc (heq ▸ mem_cons_self)
      obtain ⟨hbnot, -⟩ := nodup_cons.mp hnd'
      have hstay : ∀ q ∈ before, (mem ∘ Equiv.swap b c) q = mem q := by
        intro q hq
        refine comp_swap_of_ne mem ?_ ?_
        · exact fun heq => hbnot (heq ▸ hq)
        · exact fun heq => hc (heq ▸ mem_cons_of_mem b hq)
      have hb' : (mem ∘ Equiv.swap b c) b = mem c := comp_swap_left mem
      have hc' : (mem ∘ Equiv.swap b c) c = mem b := comp_swap_right mem
      have hwithin : (sink b before).Within (fun k => k ∈ b :: before) fun _ => True :=
        within_sink mem_cons_self fun k hk => mem_cons_of_mem b hk
      refine pairwise_cons.mpr ⟨fun q hq => ?_, ih hnd' ?_⟩
      · -- the cells before hold what is not larger than what stood in the last one of them
        rw [hwithin.exec_outside hc, hc']
        refine hwithin.exec_forall (T := fun x => le x (mem b)) (fun k hk => ?_) hq
        rcases mem_cons.mp hk with rfl | hk
        · rw [hb']
          exact hle
        · rw [hstay k hk]
          exact hb k hk
      · refine List.Pairwise.imp_of_mem ?_ hrest
        intro p q hp hq hpq
        rw [hstay p hp, hstay q hq]
        exact hpq
    · rename_i hgt
      have hle := h.le_of_not_gt hgt
      refine pairwise_cons.mpr ⟨fun q hq => ?_, hsorted⟩
      rcases mem_cons.mp hq with rfl | hq
      · exact hle
      · exact h.trans _ _ _ (hb q hq) hle

theorem exec_zendSort4 (h : Compares gt le) (mem : Nat → α) (hnd : [d, c, b, a].Nodup) :
    [d, c, b, a].Pairwise fun p q =>
      le (((zendSort4 a b c d).exec gt mem).2 q) (((zendSort4 a b c d).exec gt mem).2 p) := by
  obtain ⟨-, hnd'⟩ := nodup_cons.mp hnd
  have hne : a ≠ b ∧ a ≠ c ∧ b ≠ c := by
    simp only [nodup_cons, mem_cons, not_mem_nil, or_false, not_or] at hnd'
    exact ⟨Ne.symm hnd'.2.1, Ne.symm hnd'.1.2, Ne.symm hnd'.1.1⟩
  obtain ⟨hab, hbc⟩ := exec_zendSort3 h mem hne.1 hne.2.1 hne.2.2
  unfold zendSort4
  rw [exec_bind]
  refine exec_sink h hnd ?_
  simp only [pairwise_cons, mem_cons, not_mem_nil, or_false, forall_eq_or_imp,
    forall_eq, IsEmpty.forall_iff, implies_true, List.Pairwise.nil, and_true]
  exact ⟨⟨hbc, h.trans _ _ _ hab hbc⟩, hab⟩

theorem exec_zendSort5 (h : Compares gt le) (mem : Nat → α) (hnd : [e, d, c, b, a].Nodup) :
    [e, d, c, b, a].Pairwise fun p q =>
      le (((zendSort5 a b c d e).exec gt mem).2 q) (((zendSort5 a b c d e).exec gt mem).2 p) := by
  obtain ⟨-, hnd'⟩ := nodup_cons.mp hnd
  unfold zendSort5
  rw [exec_bind]
  exact exec_sink h hnd (exec_zendSort4 h mem hnd')

theorem sortedOn_of_pairwise (h : (List.range' lo n).Pairwise fun p q => le (mem p) (mem q)) :
    SortedOn le mem lo (lo + n) := by
  intro i j hi hij hj
  have hlen : (List.range' lo n).length = n := length_range'
  have hget := pairwise_iff_getElem.mp h (i - lo) (j - lo) (by omega) (by omega) (by omega)
  rw [getElem_range', getElem_range'] at hget
  rw [show lo + 1 * (i - lo) = i by omega, show lo + 1 * (j - lo) = j by omega] at hget
  exact hget

/-! ## Insertion -/

/-- The element in cell `i` belongs into cell `j` of the cells before it. -/
structure Place (le : α → α → Prop) (mem : Nat → α) (start i j : Nat) : Prop where
  below : ∀ k, start ≤ k → k < j → le (mem k) (mem i)
  above : ∀ k, j ≤ k → k < i → le (mem i) (mem k)

theorem SortedOn.place (hsorted : SortedOn le mem start i) (h : Compares gt le) (hji : j ≤ i)
    (hstart : start ≤ j) (hbelow : start < j → le (mem (j - 1)) (mem i))
    (habove : j < i → le (mem i) (mem j)) : Place le mem start i j := by
  refine ⟨fun k hk hkj => ?_, fun k hk hki => ?_⟩
  · have hle := hbelow (by omega)
    rcases Nat.lt_or_ge k (j - 1) with hlt | hge
    · exact h.trans _ _ _ (hsorted k (j - 1) hk hlt (by omega)) hle
    · rw [show k = j - 1 by omega]
      exact hle
  · have hle := habove (by omega)
    rcases Nat.eq_or_lt_of_le hk with rfl | hlt
    · exact hle
    · exact h.trans _ _ _ hle (hsorted j k hstart hlt hki)

theorem exec_found (h : Place le mem start i j) :
    ((pure j : SwapProgram Nat).exec gt mem).2 = mem ∧
      Place le mem start i ((pure j : SwapProgram Nat).exec gt mem).1 := ⟨rfl, h⟩

theorem exec_probe (h : Compares gt le) (hsorted : SortedOn le mem start i) (hd : start + d < i)
    (habove : le (mem i) (mem (start + d))) :
    ((probe start i d).exec gt mem).2 = mem ∧
      Place le mem start i ((probe start i d).exec gt mem).1 := by
  -- induction on the distance from the start
  induction d with
  | zero =>
    exact exec_found (hsorted.place h (by omega) le_rfl (fun hlt => absurd hlt (by omega))
      fun _ => habove)
  | succ d ih =>
    unfold probe
    rw [exec_cmp_bind]
    split
    · rename_i hgt
      exact ih (by omega) (h.le_of_gt hgt)
    · rename_i hgt
      exact exec_found (hsorted.place h (by omega) (by omega) (fun _ => h.le_of_not_gt hgt)
        fun _ => habove)

theorem exec_probe2 (h : Compares gt le) (hsorted : SortedOn le mem start i)
    (hd : start + d + 2 < i) (habove : le (mem i) (mem (start + d + 2))) :
    ((probe2 start i d).exec gt mem).2 = mem ∧
      Place le mem start i ((probe2 start i d).exec gt mem).1 := by
  have hlast : ∀ k, start ≤ k → k + 2 < i → le (mem i) (mem (k + 2)) →
      ¬gt (mem k) (mem i) = true →
      ((do
        if ← SwapProgram.cmp (k + 1) i then pure (k + 1)
        else pure (k + 2)).exec gt mem).2 = mem ∧
      Place le mem start i ((do
        if ← SwapProgram.cmp (k + 1) i then pure (k + 1)
        else pure (k + 2)).exec gt mem).1 := by
    intro k hk hki hle hgt
    rw [exec_cmp_bind]
    split
    · rename_i hgt'
      exact exec_found (hsorted.place h (by omega) (by omega) (fun _ => h.le_of_not_gt hgt)
        fun _ => h.le_of_gt hgt')
    · rename_i hgt'
      exact exec_found (hsorted.place h (by omega) (by omega) (fun _ => h.le_of_not_gt hgt')
        fun _ => hle)
  -- by two steps of the distance, as the loop goes
  induction d using Nat.twoStepInduction with
  | zero =>
    unfold probe2
    rw [exec_cmp_bind]
    split
    · rename_i hgt
      exact exec_found (hsorted.place h (by omega) le_rfl (fun hlt => absurd hlt (by omega))
        fun _ => h.le_of_gt hgt)
    · rename_i hgt
      exact hlast start le_rfl (by omega) habove hgt
  | one =>
    unfold probe2
    rw [exec_cmp_bind]
    split
    · rename_i hgt
      rw [exec_cmp_bind]
      split
      · rename_i hgt'
        exact exec_found (hsorted.place h (by omega) (by omega) (fun _ => h.le_of_gt hgt')
          fun _ => h.le_of_gt hgt)
      · rename_i hgt'
        exact exec_found (hsorted.place h (by omega) le_rfl (fun hlt => absurd hlt (by omega))
          fun _ => h.le_of_not_gt hgt')
    · rename_i hgt
      exact hlast (start + 1) (by omega) (by omega) habove hgt
  | more d ih _ =>
    unfold probe2
    rw [exec_cmp_bind]
    split
    · rename_i hgt
      exact ih (by omega) (h.le_of_gt hgt)
    · rename_i hgt
      exact hlast (start + (d + 2)) (by omega) (by omega) habove hgt

theorem exec_rotate (gt : α → α → Bool) (mem : Nat → α) (j n : Nat) :
    ((rotate j n).exec gt mem).2 j = mem (j + n) ∧
      (∀ k, j ≤ k → k < j + n → ((rotate j n).exec gt mem).2 (k + 1) = mem k) ∧
      ∀ k, k < j ∨ j + n < k → ((rotate j n).exec gt mem).2 k = mem k := by
  induction n generalizing mem with
  | zero => exact ⟨rfl, fun k hle hlt => absurd hlt (by omega), fun k _ => rfl⟩
  | succ n ih =>
    unfold rotate
    rw [exec_swp_bind]
    obtain ⟨hfirst, hup, hother⟩ := ih (mem ∘ Equiv.swap (j + n + 1) (j + n))
    have hstay : ∀ k, k ≠ j + n + 1 → k ≠ j + n →
        (mem ∘ Equiv.swap (j + n + 1) (j + n)) k = mem k :=
      fun k hne hne' => comp_swap_of_ne mem hne hne'
    refine ⟨?_, fun k hle hlt => ?_, fun k hk => ?_⟩
    · rw [hfirst, Function.comp_apply, Equiv.swap_apply_right]
      rfl
    · rcases Nat.lt_or_ge k (j + n) with hlt' | hge
      · rw [hup k hle hlt', hstay k (by omega) (by omega)]
      · obtain rfl : k = j + n := by omega
        rw [hother _ (by omega), Function.comp_apply, Equiv.swap_apply_left]
    · rw [hother k (by omega), hstay k (by omega) (by omega)]

theorem exec_insertAt {find : SwapProgram Nat} (h : Compares gt le)
    (hsorted : SortedOn le mem start i) (hlt : start < i)
    (hbounds : start ≤ (find.exec gt mem).1 ∧ (find.exec gt mem).1 ≤ i)
    (hfind : le (mem i) (mem (i - 1)) → (find.exec gt mem).2 = mem ∧
      Place le mem start i (find.exec gt mem).1) :
    SortedOn le ((insertAt find i).exec gt mem).2 start (i + 1) := by
  unfold insertAt
  rw [exec_cmp_bind]
  split
  · rename_i hgt
    obtain ⟨hmem, hbelow, habove⟩ := hfind (h.le_of_gt hgt)
    rw [exec_bind, hmem]
    obtain ⟨hlo, hhi⟩ := hbounds
    generalize (find.exec gt mem).1 = j at hlo hhi hbelow habove
    obtain ⟨hfirst, hup, hother⟩ := exec_rotate gt mem j (i - j)
    rw [show j + (i - j) = i by omega] at hfirst hup hother
    intro k l hk hkl hl
    have hcell : ∀ k, j < k → k ≤ i →
        ((rotate j (i - j)).exec gt mem).2 k = mem (k - 1) := by
      intro k hjk hki
      have hk := hup (k - 1) (by omega) (by omega)
      rwa [show k - 1 + 1 = k by omega] at hk
    rcases Nat.lt_trichotomy k j with hkj | rfl | hjk
    · rw [hother k (.inl hkj)]
      rcases Nat.lt_trichotomy l j with hlj | rfl | hjl
      · rw [hother l (.inl hlj)]
        exact hsorted k l hk hkl (by omega)
      · rw [hfirst]
        exact hbelow k hk hkj
      · rw [hcell l hjl (by omega)]
        exact hsorted k (l - 1) hk (by omega) (by omega)
    · rw [hfirst, hcell l hkl (by omega)]
      exact habove (l - 1) (by omega) (by omega)
    · rw [hcell k hjk (by omega), hcell l (by omega) (by omega)]
      exact hsorted (k - 1) (l - 1) (by omega) (by omega) (by omega)
  · rename_i hgt
    -- the element is where it belongs
    intro k l hk hkl hl
    rcases Nat.lt_or_ge l i with hlt' | hge
    · exact hsorted k l hk hkl hlt'
    · obtain rfl : l = i := by omega
      have hle := h.le_of_not_gt hgt
      rcases Nat.lt_or_ge k (l - 1) with hlt' | hge'
      · exact h.trans _ _ _ (hsorted k (l - 1) hk hlt' (by omega)) hle
      · rw [show k = l - 1 by omega]
        exact hle

theorem sortedOn_insertFirst (h : Compares gt le) (hsorted : SortedOn le mem start i)
    (hlt : start < i) : SortedOn le ((insertFirst start i n).exec gt mem).2 start (i + n) := by
  -- induction on the elements still to be inserted
  induction n generalizing i mem with
  | zero => exact hsorted
  | succ n ih =>
    unfold insertFirst
    rw [exec_bind, show i + (n + 1) = i + 1 + n by omega]
    refine ih (exec_insertAt h hsorted hlt ?_ fun habove => ?_) (by omega)
    · have hbounds := (within_probe (R := fun _ => True) (d := i - 1 - start) trivial
        (fun k _ _ => trivial) (show start + (i - 1 - start) ≤ i by omega)).exec_result
        gt mem
      exact ⟨hbounds.1, by omega⟩
    · refine exec_probe h hsorted (by omega) ?_
      rwa [show start + (i - 1 - start) = i - 1 by omega]

theorem sortedOn_insertRest (h : Compares gt le) (hsorted : SortedOn le mem start i)
    (hlt : start + 3 ≤ i) : SortedOn le ((insertRest start i n).exec gt mem).2 start (i + n) := by
  -- induction on the elements still to be inserted
  induction n generalizing i mem with
  | zero => exact hsorted
  | succ n ih =>
    unfold insertRest
    rw [exec_bind, show i + (n + 1) = i + 1 + n by omega]
    refine ih (exec_insertAt h hsorted (by omega) ?_ fun habove => ?_) (by omega)
    · have hbounds := (within_probe2 (R := fun _ => True) (d := i - 1 - start - 2) trivial
        (fun k _ _ => trivial) (show start + (i - 1 - start - 2) + 2 ≤ i by omega)).exec_result
        gt mem
      exact ⟨hbounds.1, by omega⟩
    · refine exec_probe2 h hsorted (by omega) ?_
      rwa [show start + (i - 1 - start - 2) + 2 = i - 1 by omega]

theorem sortedOn_of_reverse (cells : List Nat) (hcells : cells.reverse = List.range' lo n)
    (h : cells.Pairwise fun p q => le (mem q) (mem p)) : SortedOn le mem lo (lo + n) := by
  refine sortedOn_of_pairwise ?_
  rw [← hcells]
  exact pairwise_reverse.mpr h

theorem sortedOn_zendInsertSort (h : Compares gt le) (start nmemb : Nat) (mem : Nat → α) :
    SortedOn le ((zendInsertSort start nmemb).exec gt mem).2 start (start + nmemb) := by
  unfold zendInsertSort
  split
  · exact fun k l hk hkl hl => absurd hl (by omega)
  · exact fun k l hk hkl hl => absurd hl (by omega)
  · -- two elements are one that goes down
    have hsink : zendSort2 start (start + 1) = sink (start + 1) [start] := rfl
    rw [hsink]
    exact sortedOn_of_reverse [start + 1, start] rfl
      (exec_sink h (by simp) (pairwise_singleton _ _))
  · obtain ⟨hab, hbc⟩ := exec_zendSort3 h mem (show start ≠ start + 1 by omega)
      (show start ≠ start + 2 by omega) (show start + 1 ≠ start + 2 by omega)
    refine sortedOn_of_pairwise ?_
    refine pairwise_cons.mpr ⟨fun q hq => ?_, pairwise_pair.mpr hbc⟩
    rcases mem_cons.mp hq with rfl | hq
    · exact hab
    · rw [mem_singleton.mp hq]
      exact h.trans _ _ _ hab hbc
  · exact sortedOn_of_reverse [start + 3, start + 2, start + 1, start] rfl
      (exec_zendSort4 h mem (by simp))
  · exact sortedOn_of_reverse [start + 4, start + 3, start + 2, start + 1, start] rfl
      (exec_zendSort5 h mem (by simp))
  · rename_i h0 h1 h2 h3 h4 h5
    have hlarge : 6 ≤ nmemb := six_le h0 h1 h2 h3 h4 h5
    rw [exec_bind]
    have hfirst : SortedOn le ((insertFirst start (start + 1) 5).exec gt mem).2 start
        (start + 6) :=
      sortedOn_insertFirst h (fun k l hk hkl hl => absurd hl (by omega)) (by omega)
    have hrest := sortedOn_insertRest (n := nmemb - 6) h hfirst (by omega)
    rwa [show start + 6 + (nmemb - 6) = start + nmemb by omega] at hrest

/-! ## Partition -/

/-- The cells from `i` up to `hi` are not larger than `x` below `r`, and not smaller from `r` on. -/
structure Partitioned (le : α → α → Prop) (mem mem' : Nat → α) (x : α) (i hi r : Nat) : Prop where
  lower : i ≤ r
  below : ∀ k, i ≤ k → k < r → le (mem' k) x
  above : ∀ k, r ≤ k → k < hi → le x (mem' k)
  outside : ∀ k, k < i ∨ hi ≤ k → mem' k = mem k

theorem exec_scan (h : Compares gt le) (n : Nat) :
    (∀ i mem, c < i → mem c = x →
      Partitioned le mem ((scanUp c i n).exec gt mem).2 x i (i + n + 1)
        ((scanUp c i n).exec gt mem).1) ∧
    ∀ i mem, c < i → mem c = x → le x (mem i) →
      Partitioned le mem ((scanDown c i n).exec gt mem).2 x i (i + n + 2)
        ((scanDown c i n).exec gt mem).1 := by
  -- induction on the distance between the ends
  induction n with
  | zero =>
    refine ⟨fun i mem hc hx => ?_, fun i mem hc hx hle => ?_⟩
    · unfold scanUp
      rw [exec_cmp_bind, hx]
      split
      · rename_i hgt
        refine ⟨Nat.le_succ i, fun k hk hlt => ?_, fun k hk hlt => absurd hk (Nat.not_le.mpr hlt),
          fun k _ => rfl⟩
        obtain rfl : k = i := Nat.le_antisymm (Nat.le_of_lt_succ hlt) hk
        exact h.le_of_gt hgt
      · rename_i hgt
        refine ⟨le_rfl, fun k hk hlt => absurd hk (Nat.not_le.mpr hlt), fun k hk hlt => ?_,
          fun k _ => rfl⟩
        obtain rfl : k = i := Nat.le_antisymm (Nat.le_of_lt_succ hlt) hk
        exact h.le_of_not_gt hgt
    · unfold scanDown
      rw [exec_cmp_bind, hx]
      split
      · rename_i hgt
        refine ⟨le_rfl, fun k hk hlt => absurd hk (Nat.not_le.mpr hlt), fun k hk hlt => ?_,
          fun k _ => rfl⟩
        rcases Nat.eq_or_lt_of_le hk with rfl | hik
        · exact hle
        · obtain rfl : k = i + 1 := Nat.le_antisymm (Nat.le_of_lt_succ hlt) hik
          exact h.le_of_gt hgt
      · rename_i hgt
        rw [exec_swp_bind, exec_pure]
        dsimp only
        refine ⟨Nat.le_succ i, fun k hk hlt => ?_, fun k hk hlt => ?_, fun k hk => ?_⟩
        · obtain rfl : k = i := Nat.le_antisymm (Nat.le_of_lt_succ hlt) hk
          rw [comp_swap_left]
          exact h.le_of_not_gt hgt
        · obtain rfl : k = i + 1 := Nat.le_antisymm (Nat.le_of_lt_succ hlt) hk
          rw [comp_swap_right]
          exact hle
        · exact comp_swap_of_ne mem (by omega) (by omega)
  | succ n ih =>
    refine ⟨fun i mem hc hx => ?_, fun i mem hc hx hle => ?_⟩
    · unfold scanUp
      rw [exec_cmp_bind, hx]
      split
      · rename_i hgt
        -- the cell that is passed over is not larger than the pivot
        have hscan := ih.1 (i + 1) mem (by omega) hx
        refine ⟨by have := hscan.lower; omega, fun k hk hlt => ?_,
          fun k hk hlt => hscan.above k hk (by omega), fun k hk => hscan.outside k (by omega)⟩
        rcases Nat.eq_or_lt_of_le hk with rfl | hik
        · rw [hscan.outside i (.inl (Nat.lt_succ_self i))]
          exact h.le_of_gt hgt
        · exact hscan.below k hik hlt
      · rename_i hgt
        exact ih.2 i mem hc hx (h.le_of_not_gt hgt)
    · unfold scanDown
      rw [exec_cmp_bind, hx]
      split
      · rename_i hgt
        have hscan := ih.2 i mem hc hx hle
        refine ⟨hscan.lower, hscan.below, fun k hk hlt => ?_,
          fun k hk => hscan.outside k (by omega)⟩
        rcases Nat.lt_or_ge k (i + n + 2) with hk' | hk'
        · exact hscan.above k hk hk'
        · obtain rfl : k = i + n + 2 := by omega
          rw [hscan.outside _ (.inr le_rfl)]
          exact h.le_of_gt hgt
      · rename_i hgt
        rw [exec_swp_bind]
        have hpivot : (mem ∘ Equiv.swap i (i + n + 2)) c = x :=
          (comp_swap_of_ne mem (by omega) (by omega)).trans hx
        have hscan := ih.1 (i + 1) (mem ∘ Equiv.swap i (i + n + 2)) (by omega) hpivot
        refine ⟨by have := hscan.lower; omega, fun k hk hlt => ?_, fun k hk hlt => ?_,
          fun k hk => ?_⟩
        · rcases Nat.eq_or_lt_of_le hk with rfl | hik
          · rw [hscan.outside i (.inl (Nat.lt_succ_self i)), comp_swap_left]
            exact h.le_of_not_gt hgt
          · exact hscan.below k hik hlt
        · rcases Nat.lt_or_ge k (i + n + 2) with hk' | hk'
          · exact hscan.above k hk (by omega)
          · obtain rfl : k = i + n + 2 := by omega
            rw [hscan.outside _ (.inr (by omega)), comp_swap_right]
            exact hle
        · rw [hscan.outside k (by omega)]
          exact comp_swap_of_ne mem (by omega) (by omega)

theorem exec_pickPivot (h : Compares gt le) (start : Nat) (mem : Nat → α) (hlarge : ¬nmemb ≤ 16) :
    le (((pickPivot start nmemb).exec gt mem).2 start)
        (((pickPivot start nmemb).exec gt mem).2 (start + 1)) ∧
      le (((pickPivot start nmemb).exec gt mem).2 (start + 1))
        (((pickPivot start nmemb).exec gt mem).2 (start + nmemb - 1)) := by
  have hhalf : nmemb >>> 1 = nmemb / 2 := Nat.shiftRight_eq_div_pow nmemb 1
  have hquarter : nmemb >>> 1 >>> 1 = nmemb / 2 / 2 := by
    rw [hhalf]
    exact Nat.shiftRight_eq_div_pow _ 1
  have hswp : ∀ m : Nat → α, le (m start) (m (start + nmemb >>> 1)) →
      le (m (start + nmemb >>> 1)) (m (start + nmemb - 1)) →
      le ((m ∘ Equiv.swap (start + 1) (start + nmemb >>> 1)) start)
          ((m ∘ Equiv.swap (start + 1) (start + nmemb >>> 1)) (start + 1)) ∧
        le ((m ∘ Equiv.swap (start + 1) (start + nmemb >>> 1)) (start + 1))
          ((m ∘ Equiv.swap (start + 1) (start + nmemb >>> 1)) (start + nmemb - 1)) := by
    intro m hfirst hlast
    rw [comp_swap_left, comp_swap_of_ne m (by omega) (by omega),
      comp_swap_of_ne m (by omega) (by omega)]
    exact ⟨hfirst, hlast⟩
  unfold pickPivot
  dsimp only
  split
  · rename_i hhuge
    have hsize : 1024 ≤ nmemb := by
      have hshift : nmemb >>> 10 = nmemb / 1024 := Nat.shiftRight_eq_div_pow nmemb 10
      omega
    have hsorted := exec_zendSort5 (a := start) (b := start + nmemb >>> 1 >>> 1)
      (c := start + nmemb >>> 1) (d := start + nmemb >>> 1 + nmemb >>> 1 >>> 1)
      (e := start + nmemb - 1) h mem (by
        simp only [nodup_cons, mem_cons, not_mem_nil, or_false, not_or,
          not_false_eq_true, nodup_nil, and_true]
        omega)
    rw [exec_bind, exec_swp]
    obtain ⟨hlast, hrest⟩ := pairwise_cons.mp hsorted
    obtain ⟨-, hrest⟩ := pairwise_cons.mp hrest
    obtain ⟨hfirst, -⟩ := pairwise_cons.mp hrest
    exact hswp _ (hfirst start (by simp)) (hlast _ (by simp))
  · obtain ⟨hfirst, hlast⟩ := exec_zendSort3 h mem
      (show start ≠ start + nmemb >>> 1 by omega) (show start ≠ start + nmemb - 1 by omega)
      (show start + nmemb >>> 1 ≠ start + nmemb - 1 by omega)
    rw [exec_bind, exec_swp]
    exact hswp _ hfirst hlast

/-! ## The array -/

/-- What stands before the pivot in cell `c` is not larger, what stands behind it not smaller. -/
structure Split (le : α → α → Prop) (mem : Nat → α) (lo c hi : Nat) : Prop where
  left : ∀ k, lo ≤ k → k < c → le (mem k) (mem c)
  right : ∀ k, c < k → k < hi → le (mem c) (mem k)

theorem Partitioned.split {mem' : Nat → α}
    (hscan : Partitioned le mem mem' (mem (lo + 1)) (lo + 2) hi i) (hi' : i ≤ hi)
    (hfirst : le (mem lo) (mem (lo + 1))) (hlast : le (mem (lo + 1)) (mem hi)) :
    Split le (mem' ∘ Equiv.swap (lo + 1) (i - 1)) lo (i - 1) (hi + 1) := by
  have hlower := hscan.lower
  have hpivot : mem' (lo + 1) = mem (lo + 1) := hscan.outside _ (.inl (by omega))
  constructor
  · intro k hk hki
    rw [comp_swap_right, hpivot]
    rcases Nat.lt_trichotomy k (lo + 1) with hlt | rfl | hgt
    · obtain rfl : k = lo := by omega
      rw [comp_swap_of_ne mem' (by omega) (by omega), hscan.outside k (.inl (by omega))]
      exact hfirst
    · rw [comp_swap_left]
      exact hscan.below _ (by omega) (by omega)
    · rw [comp_swap_of_ne mem' (by omega) (by omega)]
      exact hscan.below k (by omega) (by omega)
  · intro k hik hk
    rw [comp_swap_right, hpivot, comp_swap_of_ne mem' (by omega) (by omega)]
    rcases Nat.lt_or_ge k hi with hlt | hge
    · exact hscan.above k (by omega) hlt
    · obtain rfl : k = hi := by omega
      rw [hscan.outside k (.inr le_rfl)]
      exact hlast

theorem Split.exec {β : Type*} {R : Nat → Prop} {Q : β → Prop} {p : SwapProgram β}
    (hsplit : Split le mem lo c hi) (gt : α → α → Bool) (hp : p.Within R Q)
    (hR : (∀ k, R k → lo ≤ k ∧ k < c) ∨ ∀ k, R k → c < k ∧ k < hi) :
    Split le (p.exec gt mem).2 lo c hi := by
  have hc : ¬R c := by
    intro hRc
    rcases hR with hR | hR
    · exact absurd (hR c hRc).2 (Nat.lt_irrefl c)
    · exact absurd (hR c hRc).1 (Nat.lt_irrefl c)
  constructor
  · intro k hk hkc
    rw [hp.exec_outside hc]
    by_cases hRk : R k
    · rcases hR with hR | hR
      · exact hp.exec_forall (T := fun x => le x (mem c))
          (fun l hl => hsplit.left l (hR l hl).1 (hR l hl).2) hRk
      · exact absurd (hR k hRk).1 (by omega)
    · rw [hp.exec_outside hRk]
      exact hsplit.left k hk hkc
  · intro k hck hk
    rw [hp.exec_outside hc]
    by_cases hRk : R k
    · rcases hR with hR | hR
      · exact absurd (hR k hRk).2 (by omega)
      · exact hp.exec_forall (T := fun x => le (mem c) x)
          (fun l hl => hsplit.right l (hR l hl).1 (hR l hl).2) hRk
    · rw [hp.exec_outside hRk]
      exact hsplit.right k hck hk

theorem Split.sortedOn (h : Compares gt le) (hsplit : Split le mem lo c hi)
    (hleft : SortedOn le mem lo c) (hright : SortedOn le mem (c + 1) hi) :
    SortedOn le mem lo hi := by
  intro k l hk hkl hl
  rcases Nat.lt_trichotomy l c with hlc | rfl | hcl
  · exact hleft k l hk hkl hlc
  · exact hsplit.left k hk hkl
  · have hle := hsplit.right l hcl hl
    rcases Nat.lt_trichotomy k c with hkc | rfl | hck
    · exact h.trans _ _ _ (hsplit.left k hk hkc) hle
    · exact hle
    · exact hright k l hck hkl hl

theorem SortedOn.exec {β : Type*} {R : Nat → Prop} {Q : β → Prop} {p : SwapProgram β}
    (hsorted : SortedOn le mem lo hi) (hp : p.Within R Q) (hR : ∀ k, R k → k < lo ∨ hi ≤ k) :
    SortedOn le (p.exec gt mem).2 lo hi := by
  have hout : ∀ k, lo ≤ k → k < hi → (p.exec gt mem).2 k = mem k :=
    fun k hk hkhi => hp.exec_outside fun hRk => by
      rcases hR k hRk with hlt | hge
      · exact absurd hlt (by omega)
      · exact absurd hge (by omega)
  intro k l hk hkl hl
  rw [hout k hk (by omega), hout l (by omega) hl]
  exact hsorted k l hk hkl hl

theorem sortedOn_zendSort (h : Compares gt le) (start nmemb : Nat) (mem : Nat → α) :
    SortedOn le ((zendSort start nmemb).exec gt mem).2 start (start + nmemb) := by
  induction nmemb using Nat.strong_induction_on generalizing start mem with
  | _ nmemb ih =>
    rw [zendSort]
    split
    · exact sortedOn_zendInsertSort h start nmemb mem
    · rename_i hlarge
      rw [exec_bind, exec_bind]
      obtain ⟨hfirst, hlast⟩ := exec_pickPivot h start mem hlarge
      generalize ((pickPivot start nmemb).exec gt mem).2 = mem at hfirst hlast
      -- the partition
      obtain ⟨hres, hmem⟩ := exec_attach gt mem (within_partition start hlarge)
      have hscan := (exec_scan h (nmemb - 4)).1 (start + 2) mem (Nat.lt_succ_self (start + 1)) rfl
      rw [← hres, ← hmem, show start + 2 + (nmemb - 4) + 1 = start + nmemb - 1 by omega] at hscan
      generalize ((scanUp (start + 1) (start + 2) (nmemb - 4)).attach
        (within_partition start hlarge)).exec gt mem = scanned at hscan
      obtain ⟨⟨i, hlo, hhi⟩, mem'⟩ := scanned
      have hsplit := hscan.split hhi hfirst hlast
      rw [show start + nmemb - 1 + 1 = start + nmemb by omega] at hsplit
      dsimp only
      rw [exec_swp_bind]
      generalize mem' ∘ Equiv.swap (start + 1) (i - 1) = mem' at hsplit
      -- the two parts
      have hleft := within_zendSort start (i - start - 1)
      have hright := within_zendSort i (start + nmemb - i)
      have hsortedLeft := ih (i - start - 1) (by omega) start
      have hsortedRight := ih (start + nmemb - i) (by omega) i
      rw [show start + (i - start - 1) = i - 1 by omega] at hsortedLeft
      rw [show i + (start + nmemb - i) = start + nmemb by omega] at hsortedRight
      have hinLeft : ∀ k, InArray start (i - start - 1) k → start ≤ k ∧ k < i - 1 :=
        fun k hk => ⟨hk.1, by have := hk.2; omega⟩
      have hinRight : ∀ k, InArray i (start + nmemb - i) k → i - 1 < k ∧ k < start + nmemb :=
        fun k hk => ⟨by have := hk.1; omega, by have := hk.2; omega⟩
      have hnext : i - 1 + 1 = i := by omega
      split
      · rw [exec_bind]
        have hboth := (hsplit.exec gt hleft (.inl hinLeft)).exec gt hright
          (.inr hinRight)
        refine hboth.sortedOn h ?_ ?_
        · exact (hsortedLeft mem').exec hright fun k hk => .inr (by have := hinRight k hk; omega)
        · rw [hnext]
          exact hsortedRight _
      · rw [exec_bind]
        have hboth := (hsplit.exec gt hright (.inr hinRight)).exec gt hleft
          (.inl hinLeft)
        refine hboth.sortedOn h (hsortedLeft _) ?_
        rw [hnext]
        exact (hsortedRight mem').exec hleft fun k hk => .inl (by have := hinLeft k hk; omega)

end Phpce
