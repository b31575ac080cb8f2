import Phpce.Lib.SwapProgram

/-!
# zend_sort

The hybrid of insertion sort and quicksort of `zend_sort.c`, on cells that are numbered instead of
being `siz` bytes apart. All that it does with them is to compare them, by whether `cmp` is
positive, and to exchange them; that it has a tree of comparisons and exchanges at all says that it
ends, whatever `cmp` answers.

* `within_partition`: the loops of the partition stay between their two ends.
* **`within_zendSort`**: only cells of the array are touched.
-/

namespace Phpce

open SwapProgram

/-! ## Small arrays -/

def zendSort2 (a b : Nat) : SwapProgram Unit := do
  if ← cmp a b then swp a b

def zendSort3 (a b c : Nat) : SwapProgram Unit := do
  if ← cmp a b then
    if ← cmp c b then
      swp a b
      if ← cmp b c then swp b c
    else swp a c
  else
    if ← cmp b c then
      swp b c
      if ← cmp a b then swp a b

/-- The nested exchanges of `zend_sort_4` and `zend_sort_5`: the content of a cell goes down,
through the cells before it, to where it belongs. -/
def sink (c : Nat) : (before : List Nat) → SwapProgram Unit
  | [] => pure ()
  | b :: before => do
      if ← cmp b c then
        swp b c
        sink b before

def zendSort4 (a b c d : Nat) : SwapProgram Unit := do
  zendSort3 a b c
  sink d [c, b, a]

def zendSort5 (a b c d e : Nat) : SwapProgram Unit := do
  zendSort4 a b c d
  sink e [d, c, b, a]

/-! ## Insertion sort -/

/-- `while (j != start)`, with `j` at `start + d`: where the element in cell `i` is to go. -/
def probe (start i : Nat) : (d : Nat) → SwapProgram Nat
  | 0 => pure start
  | d + 1 => do
      if ← cmp (start + d) i then probe start i d
      else pure (start + d + 1)

/-- The loop that goes down by two, with `j` at `start + d` after `j -= siz2`. -/
def probe2 (start i : Nat) : (d : Nat) → SwapProgram Nat
  | 0 => do
      if ← cmp start i then pure start
      else if ← cmp (start + 1) i then pure (start + 1)
      else pure (start + 2)
  | 1 => do
      if ← cmp (start + 1) i then
        if ← cmp i start then pure (start + 1)
        else pure start
      else if ← cmp (start + 2) i then pure (start + 2)
      else pure (start + 3)
  | d + 2 => do
      if ← cmp (start + (d + 2)) i then probe2 start i d
      else if ← cmp (start + (d + 2) + 1) i then pure (start + (d + 2) + 1)
      else pure (start + (d + 2) + 2)

/-- `for (k = i; k > j; k -= siz) swp(k, k - siz)`, with `k` at `j + n`. -/
def rotate (j : Nat) : (n : Nat) → SwapProgram Unit
  | 0 => pure ()
  | n + 1 => do
      swp (j + n + 1) (j + n)
      rotate j n

/-- The body of the loops over `i`; `find` looks for the place of the element in cell `i`. -/
def insertAt (find : SwapProgram Nat) (i : Nat) : SwapProgram Unit := do
  if ← cmp (i - 1) i then
    let j ← find
    rotate j (i - j)

/-- `for (i = start + 1; i < sentry; i += siz)`, with `n` elements to go. -/
def insertFirst (start i : Nat) : (n : Nat) → SwapProgram Unit
  | 0 => pure ()
  | n + 1 => do
      insertAt (probe start i (i - 1 - start)) i
      insertFirst start (i + 1) n

/-- `for (i = sentry; i < end; i += siz)`, with `n` elements to go. -/
def insertRest (start i : Nat) : (n : Nat) → SwapProgram Unit
  | 0 => pure ()
  | n + 1 => do
      insertAt (probe2 start i (i - 1 - start - 2)) i
      insertRest start (i + 1) n

def zendInsertSort (base nmemb : Nat) : SwapProgram Unit :=
  match nmemb with
  | 0 => pure ()
  | 1 => pure ()
  | 2 => zendSort2 base (base + 1)
  | 3 => zendSort3 base (base + 1) (base + 2)
  | 4 => zendSort4 base (base + 1) (base + 2) (base + 3)
  | 5 => zendSort5 base (base + 1) (base + 2) (base + 3) (base + 4)
  | nmemb => do
      insertFirst base (base + 1) 5
      insertRest base (base + 6) (nmemb - 6)

/-! ## Quicksort -/

mutual

/-- `while (cmp(pivot, i) > 0)`, with `j` at `i + n + 1`: where `i` is in the end. -/
def scanUp (pivot i : Nat) : (n : Nat) → SwapProgram Nat
  | 0 => do
      if ← cmp pivot i then pure (i + 1)
      else pure i
  | n + 1 => do
      if ← cmp pivot i then scanUp pivot (i + 1) n
      else scanDown pivot i n

/-- `while (cmp(j, pivot) > 0)`, with `j` at `i + n + 1`. -/
def scanDown (pivot i : Nat) : (n : Nat) → SwapProgram Nat
  | 0 => do
      if ← cmp (i + 1) pivot then pure i
      else
        swp i (i + 1)
        pure (i + 1)
  | n + 1 => do
      if ← cmp (i + n + 2) pivot then scanDown pivot i n
      else
        swp i (i + n + 2)
        scanUp pivot (i + 1) n

end

theorem within_scan {R : Nat → Prop} {pivot lo hi : Nat} (hpivot : R pivot)
    (hR : ∀ k, lo ≤ k → k < hi → R k) (n : Nat) :
    (∀ i, lo ≤ i → i + n + 1 ≤ hi →
        (scanUp pivot i n).Within R fun r => lo ≤ r ∧ r ≤ hi) ∧
      ∀ i, lo ≤ i → i + n + 2 ≤ hi →
        (scanDown pivot i n).Within R fun r => lo ≤ r ∧ r ≤ hi := by
  -- induction on the distance between the ends
  induction n with
  | zero =>
    refine ⟨fun i hlo hhi => ⟨hpivot, hR i hlo (by omega), fun gt => ?_⟩,
      fun i hlo hhi => ⟨hR (i + 1) (by omega) (by omega), hpivot, fun gt => ?_⟩⟩
    · cases gt with
      | true => exact within_pure ⟨by omega, by omega⟩
      | false => exact within_pure ⟨by omega, by omega⟩
    · cases gt with
      | true => exact within_pure ⟨by omega, by omega⟩
      | false =>
        exact ⟨hR i hlo (by omega), hR (i + 1) (by omega) (by omega), by omega, by omega⟩
  | succ n ih =>
    refine ⟨fun i hlo hhi => ⟨hpivot, hR i hlo (by omega), fun gt => ?_⟩,
      fun i hlo hhi => ⟨hR (i + n + 2) (by omega) (by omega), hpivot, fun gt => ?_⟩⟩
    · cases gt with
      | true => exact ih.1 (i + 1) (by omega) (by omega)
      | false => exact ih.2 i hlo (by omega)
    · cases gt with
      | true => exact ih.2 i hlo (by omega)
      | false =>
        exact ⟨hR i hlo (by omega), hR (i + n + 2) (by omega) (by omega),
          ih.1 (i + 1) (by omega) (by omega)⟩

def InArray (start nmemb k : Nat) : Prop := start ≤ k ∧ k < start + nmemb

theorem within_partition (start : Nat) {nmemb : Nat} (h : ¬nmemb ≤ 16) :
    (scanUp (start + 1) (start + 2) (nmemb - 4)).Within (InArray start nmemb)
      fun i => start + 2 ≤ i ∧ i ≤ start + nmemb - 1 :=
  (within_scan (R := InArray start nmemb) ⟨by omega, by omega⟩
    (fun k hlo hhi => ⟨by omega, by omega⟩) (nmemb - 4)).1 (start + 2) le_rfl (by omega)

/-- The median of three or five elements goes to the second cell, to be the pivot. -/
def pickPivot (start nmemb : Nat) : SwapProgram Unit := do
  let offset := nmemb >>> 1
  let pivot := start + offset
  let last := start + nmemb - 1
  if nmemb >>> 10 ≠ 0 then
    let delta := offset >>> 1
    zendSort5 start (start + delta) pivot (pivot + delta) last
  else
    zendSort3 start pivot last
  swp (start + 1) pivot

def zendSort (start nmemb : Nat) : SwapProgram Unit :=
  if h : nmemb ≤ 16 then zendInsertSort start nmemb
  else do
    pickPivot start nmemb
    let i ← (scanUp (start + 1) (start + 2) (nmemb - 4)).attach (within_partition start h)
    swp (start + 1) (i.val - 1)
    if i.val - 1 - start < start + nmemb - i.val then
      zendSort start (i.val - start - 1)
      zendSort i.val (start + nmemb - i.val)
    else
      zendSort i.val (start + nmemb - i.val)
      zendSort start (i.val - start - 1)
termination_by nmemb
decreasing_by
  all_goals
    have _ := i.property
    omega

/-! ## Which cells are touched -/

variable {R : Nat → Prop} {a b c d e i j n start nmemb : Nat}

theorem within_zendSort3 (ha : R a) (hb : R b) (hc : R c) :
    (zendSort3 a b c).Within R fun _ => True := by
  refine ⟨ha, hb, fun gt => ?_⟩
  cases gt with
  | true =>
    refine ⟨hc, hb, fun gt => ?_⟩
    cases gt with
    | true =>
      refine ⟨ha, hb, hb, hc, fun gt => ?_⟩
      cases gt with
      | true => exact ⟨hb, hc, trivial⟩
      | false => trivial
    | false => exact ⟨ha, hc, trivial⟩
  | false =>
    refine ⟨hb, hc, fun gt => ?_⟩
    cases gt with
    | true =>
      refine ⟨hb, hc, ha, hb, fun gt => ?_⟩
      cases gt with
      | true => exact ⟨ha, hb, trivial⟩
      | false => trivial
    | false => trivial

theorem within_sink {before : List Nat} (hc : R c) (hbefore : ∀ b ∈ before, R b) :
    (sink c before).Within R fun _ => True := by
  -- induction on the cells before
  induction before generalizing c with
  | nil => trivial
  | cons b before ih =>
    have hb := hbefore b List.mem_cons_self
    refine ⟨hb, hc, fun gt => ?_⟩
    cases gt with
    | true => exact ⟨hb, hc, ih hb fun k hk => hbefore k (List.mem_cons_of_mem b hk)⟩
    | false => trivial

theorem within_zendSort4 (ha : R a) (hb : R b) (hc : R c) (hd : R d) :
    (zendSort4 a b c d).Within R fun _ => True :=
  (within_zendSort3 ha hb hc).bind fun _ _ => within_sink hd (by simp [ha, hb, hc])

theorem within_zendSort5 (ha : R a) (hb : R b) (hc : R c) (hd : R d) (he : R e) :
    (zendSort5 a b c d e).Within R fun _ => True :=
  (within_zendSort4 ha hb hc hd).bind fun _ _ => within_sink he (by simp [ha, hb, hc, hd])

theorem within_probe (hi : R i) (hR : ∀ k, start ≤ k → k < i → R k) (hd : start + d ≤ i) :
    (probe start i d).Within R fun j => start ≤ j ∧ j ≤ start + d := by
  induction d with
  | zero => exact within_pure ⟨le_rfl, le_rfl⟩
  | succ d ih =>
    refine ⟨hR _ (by omega) (by omega), hi, fun gt => ?_⟩
    cases gt with
    | true => exact (ih (by omega)).mono (fun _ h => h) fun j hj => ⟨hj.1, by omega⟩
    | false => exact within_pure ⟨by omega, by omega⟩

theorem within_probe2 (hi : R i) (hR : ∀ k, start ≤ k → k < i → R k) (hd : start + d + 2 ≤ i) :
    (probe2 start i d).Within R fun j => start ≤ j ∧ j ≤ start + d + 2 := by
  -- by two steps of the distance, as the loop goes
  induction d using Nat.twoStepInduction with
  | zero =>
    refine ⟨hR _ (by omega) (by omega), hi, fun gt => ?_⟩
    cases gt with
    | true => exact within_pure ⟨by omega, by omega⟩
    | false =>
      refine ⟨hR _ (by omega) (by omega), hi, fun gt => ?_⟩
      cases gt with
      | true => exact within_pure ⟨by omega, by omega⟩
      | false => exact within_pure ⟨by omega, by omega⟩
  | one =>
    refine ⟨hR _ (by omega) (by omega), hi, fun gt => ?_⟩
    cases gt with
    | true =>
      refine ⟨hi, hR _ (by omega) (by omega), fun gt => ?_⟩
      cases gt with
      | true => exact within_pure ⟨by omega, by omega⟩
      | false => exact within_pure ⟨by omega, by omega⟩
    | false =>
      refine ⟨hR _ (by omega) (by omega), hi, fun gt => ?_⟩
      cases gt with
      | true => exact within_pure ⟨by omega, by omega⟩
      | false => exact within_pure ⟨by omega, by omega⟩
  | more d ih _ =>
    refine ⟨hR _ (by omega) (by omega), hi, fun gt => ?_⟩
    cases gt with
    | true => exact (ih (by omega)).mono (fun _ h => h) fun j hj => ⟨hj.1, by omega⟩
    | false =>
      refine ⟨hR _ (by omega) (by omega), hi, fun gt => ?_⟩
      cases gt with
      | true => exact within_pure ⟨by omega, by omega⟩
      | false => exact within_pure ⟨by omega, by omega⟩

theorem within_rotate (hR : ∀ k, j ≤ k → k ≤ j + n → R k) :
    (rotate j n).Within R fun _ => True := by
  induction n with
  | zero => trivial
  | succ n ih =>
    exact ⟨hR _ (by omega) (by omega), hR _ (by omega) (by omega),
      ih fun k hle hk => hR k hle (by omega)⟩

theorem within_insertAt {find : SwapProgram Nat} (hlt : start < i)
    (hR : ∀ k, start ≤ k → k ≤ i → R k)
    (hfind : find.Within R fun j => start ≤ j ∧ j ≤ i) :
    (insertAt find i).Within R fun _ => True := by
  refine ⟨hR _ (by omega) (by omega), hR i (by omega) le_rfl, fun gt => ?_⟩
  cases gt with
  | true =>
    exact hfind.bind fun j hj => within_rotate fun k hle hk => hR k (by omega) (by omega)
  | false => trivial

theorem within_insertFirst (hlt : start < i) (hR : ∀ k, start ≤ k → k < i + n → R k) :
    (insertFirst start i n).Within R fun _ => True := by
  -- induction on the elements still to be inserted
  induction n generalizing i with
  | zero => trivial
  | succ n ih =>
    have hfind := within_probe (d := i - 1 - start) (hR i (by omega) (by omega))
      (fun k hle hk => hR k hle (by omega)) (by omega)
    have hinsert := within_insertAt hlt (fun k hle hk => hR k hle (by omega))
      (hfind.mono (fun _ h => h) fun j hj => ⟨hj.1, by omega⟩)
    exact hinsert.bind fun _ _ => ih (by omega) fun k hle hk => hR k hle (by omega)

theorem within_insertRest (hlt : start + 3 ≤ i) (hR : ∀ k, start ≤ k → k < i + n → R k) :
    (insertRest start i n).Within R fun _ => True := by
  -- induction on the elements still to be inserted
  induction n generalizing i with
  | zero => trivial
  | succ n ih =>
    have hfind := within_probe2 (d := i - 1 - start - 2) (hR i (by omega) (by omega))
      (fun k hle hk => hR k hle (by omega)) (by omega)
    have hinsert := within_insertAt (show start < i by omega) (fun k hle hk => hR k hle (by omega))
      (hfind.mono (fun _ h => h) fun j hj => ⟨hj.1, by omega⟩)
    exact hinsert.bind fun _ _ => ih (by omega) fun k hle hk => hR k hle (by omega)

theorem six_le (h0 : nmemb ≠ 0) (h1 : nmemb ≠ 1) (h2 : nmemb ≠ 2) (h3 : nmemb ≠ 3)
    (h4 : nmemb ≠ 4) (h5 : nmemb ≠ 5) : 6 ≤ nmemb := by
  omega

theorem within_zendInsertSort (start nmemb : Nat) :
    (zendInsertSort start nmemb).Within (InArray start nmemb) fun _ => True := by
  unfold zendInsertSort
  split
  · trivial
  · trivial
  · refine ⟨⟨by omega, by omega⟩, ⟨by omega, by omega⟩, fun gt => ?_⟩
    cases gt with
    | true => exact ⟨⟨by omega, by omega⟩, ⟨by omega, by omega⟩, trivial⟩
    | false => trivial
  · exact within_zendSort3 ⟨by omega, by omega⟩ ⟨by omega, by omega⟩ ⟨by omega, by omega⟩
  · exact within_zendSort4 ⟨by omega, by omega⟩ ⟨by omega, by omega⟩ ⟨by omega, by omega⟩
      ⟨by omega, by omega⟩
  · exact within_zendSort5 ⟨by omega, by omega⟩ ⟨by omega, by omega⟩ ⟨by omega, by omega⟩
      ⟨by omega, by omega⟩ ⟨by omega, by omega⟩
  · rename_i h0 h1 h2 h3 h4 h5
    have hlarge : 6 ≤ nmemb := six_le h0 h1 h2 h3 h4 h5
    have hfirst : (insertFirst start (start + 1) 5).Within (InArray start nmemb) fun _ => True :=
      within_insertFirst (by omega) fun k hle hk => ⟨hle, by omega⟩
    exact hfirst.bind fun _ _ =>
      within_insertRest (by omega) fun k hle hk => ⟨hle, by omega⟩

theorem within_pickPivot (h : ¬nmemb ≤ 16) :
    (pickPivot start nmemb).Within (InArray start nmemb) fun _ => True := by
  have hhalf : nmemb >>> 1 = nmemb / 2 := Nat.shiftRight_eq_div_pow nmemb 1
  have hquarter : nmemb >>> 1 >>> 1 = nmemb / 2 / 2 := by
    rw [hhalf]
    exact Nat.shiftRight_eq_div_pow _ 1
  have hin : ∀ k, k < nmemb → InArray start nmemb (start + k) :=
    fun k hk => ⟨by omega, by omega⟩
  have hlast : InArray start nmemb (start + nmemb - 1) := ⟨by omega, by omega⟩
  have hswp : (swp (start + 1) (start + nmemb >>> 1)).Within (InArray start nmemb)
      fun _ => True := ⟨hin 1 (by omega), hin _ (by omega), trivial⟩
  unfold pickPivot
  dsimp only
  split
  · refine Within.bind (within_zendSort5 ?_ (hin _ (by omega)) (hin _ (by omega)) ?_ hlast)
      fun _ _ => hswp
    · exact hin 0 (by omega)
    · rw [Nat.add_assoc]
      exact hin _ (by omega)
  · exact Within.bind (within_zendSort3 (hin 0 (by omega)) (hin _ (by omega)) hlast)
      fun _ _ => hswp

theorem within_zendSort (start nmemb : Nat) :
    (zendSort start nmemb).Within (InArray start nmemb) fun _ => True := by
  induction nmemb using Nat.strong_induction_on generalizing start with
  | _ nmemb ih =>
    rw [zendSort]
    split
    · exact within_zendInsertSort start nmemb
    · rename_i h
      refine (within_pickPivot h).bind fun _ _ =>
        (within_partition start h).attach.bind fun i _ => ?_
      obtain ⟨i, hlo, hhi⟩ := i
      dsimp only
      have hleft : (zendSort start (i - start - 1)).Within (InArray start nmemb) fun _ => True :=
        (ih _ (by omega) start).mono (fun k hk => ⟨hk.1, by have := hk.2; omega⟩) fun _ h => h
      have hright : (zendSort i (start + nmemb - i)).Within (InArray start nmemb) fun _ => True :=
        (ih _ (by omega) i).mono
          (fun k hk => ⟨by have := hk.1; omega, by have := hk.2; omega⟩) fun _ h => h
      refine ⟨⟨by omega, by omega⟩, ⟨by omega, by omega⟩, ?_⟩
      split
      · exact hleft.bind fun _ _ => hright
      · exact hright.bind fun _ _ => hleft

end Phpce
