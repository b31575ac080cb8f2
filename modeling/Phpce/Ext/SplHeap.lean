import Mathlib.Algebra.Order.Group.Multiset
import Phpce.Lib.HeapOrder

/-!
# The SPL heap

`spl_ptr_heap_insert` and `spl_ptr_heap_delete_top`, with the comparisons that they are used with. A
comparison may run a method of the script: it has a state, and it may leave an exception behind.

* **`splPtrHeap_keepsElements`** — with any comparison, what is stored and what has been removed is
  what has been inserted; and with a total preorder the array stays a heap, whose largest element is
  the next to be removed.
-/

namespace Phpce

namespace SplHeap

open HeapOrder Option
open Function (update update_eq_self update_of_ne update_self)

/-- What a comparison runs in: `EG(exception)`, and the state of the script. -/
structure World (σ : Type*) where
  state : σ
  exception : Bool

/-- `spl_ptr_heap_cmp_func`. -/
abbrev Cmp (σ α : Type*) := World σ → α → α → Int × World σ

/-- `spl_ptr_heap`: `corrupted` is the flag `SPL_HEAP_CORRUPTED`. -/
structure Heap (α : Type*) where
  elements : Nat → α
  count : Nat
  maxSize : Nat
  corrupted : Bool

variable {σ α : Type*}

def PTR_HEAP_BLOCK_SIZE : Nat := 64

/-! ## The comparisons -/

/-- `spl_ptr_heap_init`; `ecalloc` clears the elements. -/
def splPtrHeapInit [Inhabited α] : Heap α := ⟨fun _ => default, 0, PTR_HEAP_BLOCK_SIZE, false⟩

structure Sifted (σ α : Type*) where
  i : Nat
  elements : Nat → α
  world : World σ

/-- The loop of `spl_ptr_heap_insert`. -/
def siftUp (cmp : Cmp σ α) (elem : α) (i : Nat) (elements : Nat → α) (w : World σ) : Sifted σ α :=
  if 0 < i then
    let r := cmp w (elements ((i - 1) / 2)) elem
    if r.1 < 0 then
      siftUp cmp elem ((i - 1) / 2) (update elements i (elements ((i - 1) / 2))) r.2
    else ⟨i, elements, r.2⟩
  else ⟨i, elements, w⟩
  termination_by i
  decreasing_by omega

/-- The block is made twice as large. None if the new size is not an `int`. -/
def grow [Inhabited α] (h : Heap α) : Option (Heap α) :=
  if h.count + 1 > h.maxSize then
    if h.maxSize * 2 > 0x7FFFFFFF then none
    else
      some { h with
        elements := fun i =>
          if h.maxSize ≤ i ∧ i < h.maxSize + h.maxSize then default else h.elements i
        maxSize := h.maxSize * 2 }
  else some h

/-- `spl_ptr_heap_insert`. -/
def splPtrHeapInsert [Inhabited α] (cmp : Cmp σ α) (h : Heap α) (w : World σ) (elem : α) :
    Option (Heap α × World σ) :=
  match grow h with
  | none => none
  | some h =>
    let s := siftUp cmp elem h.count h.elements w
    some ({ h with
      elements := update s.elements s.i elem
      count := h.count + 1
      corrupted := h.corrupted || s.world.exception }, s.world)

/-- The child of `i` that is to move up. -/
def biggerChild (cmp : Cmp σ α) (count i : Nat) (elements : Nat → α) (w : World σ) :
    Nat × World σ :=
  let j := i * 2 + 1
  if j ≠ count then
    let r := cmp w (elements (j + 1)) (elements j)
    if r.1 > 0 then (j + 1, r.2) else (j, r.2)
  else (j, w)

theorem biggerChild_eq (cmp : Cmp σ α) (count i : Nat) (elements : Nat → α) (w : World σ) :
    (biggerChild cmp count i elements w).1 = i * 2 + 1 ∨
      (biggerChild cmp count i elements w).1 = i * 2 + 2 := by
  unfold biggerChild
  dsimp only
  split
  · split
    · exact .inr rfl
    · exact .inl rfl
  · exact .inl rfl

/-- The loop of `spl_ptr_heap_delete_top`; `bottom` is the cell at `count`. -/
def siftDown (cmp : Cmp σ α) (count limit : Nat) (i : Nat) (elements : Nat → α) (w : World σ) :
    Sifted σ α :=
  if i < limit then
    let child := biggerChild cmp count i elements w
    let r := cmp child.2 (elements count) (elements child.1)
    if r.1 < 0 then
      siftDown cmp count limit child.1 (update elements i (elements child.1)) r.2
    else ⟨i, elements, r.2⟩
  else ⟨i, elements, w⟩
  termination_by limit - i
  decreasing_by
    have hchild := biggerChild_eq cmp count i elements w
    omega

/-- `spl_ptr_heap_delete_top`; `elem` is none where it is set to `UNDEF`. -/
def splPtrHeapDeleteTop (cmp : Cmp σ α) (h : Heap α) (w : World σ) :
    Heap α × World σ × Option α :=
  let limit := (h.count - 1) / 2
  if h.count = 0 then (h, w, none)
  else
    let count := h.count - 1
    let s := siftDown cmp count limit 0 h.elements w
    ({ h with
      elements := update s.elements s.i (s.elements count)
      count := count
      corrupted := h.corrupted || s.world.exception }, s.world, some (h.elements 0))

/-! ## Calls -/

inductive Op (α : Type*) where
  | insert (elem : α)
  | deleteTop

/-- A call, and the world in which it is made: the script has run since the last one. -/
structure Call (σ α : Type*) where
  world : World σ
  op : Op α

def call [Inhabited α] (cmp : Cmp σ α) (h : Heap α) (c : Call σ α) :
    Option (Heap α × World σ × Option α) :=
  match c.op with
  | .insert elem => (splPtrHeapInsert cmp h c.world elem).map fun (h, w) => (h, w, none)
  | .deleteTop => some (splPtrHeapDeleteTop cmp h c.world)

def calls [Inhabited α] (cmp : Cmp σ α) (h : Heap α) : List (Call σ α) → Option (Heap α × List α)
  | [] => some (h, [])
  | c :: cs =>
    match call cmp h c with
    | none => none
    | some (h, _, elem) =>
      (calls cmp h cs).map fun (h, removed) => (h, elem.toList ++ removed)

def Op.elem : Op α → Option α
  | .insert elem => some elem
  | .deleteTop => none

def inserted (cs : List (Call σ α)) : Multiset α := cs.filterMap fun c => c.op.elem

/-! ## Any comparison -/

variable {cmp : Cmp σ α} {elem : α} {f : Nat → α} {w : World σ} {n i limit : Nat}

theorem siftUp_others (cmp : Cmp σ α) (elem : α) (f : Nat → α) (w : World σ) (hi : i < n) :
    (siftUp cmp elem i f w).i < n ∧
      others (siftUp cmp elem i f w).elements n (siftUp cmp elem i f w).i = others f n i := by
  -- induction on the rounds
  fun_induction siftUp cmp elem i f w with
  | case1 i f w hpos r hless ih =>
    obtain ⟨hlt, hothers⟩ := ih (by omega)
    exact ⟨hlt, hothers.trans (others_move hi (by omega) (by omega))⟩
  | case2 => exact ⟨hi, rfl⟩
  | case3 => exact ⟨hi, rfl⟩

theorem siftDown_others (cmp : Cmp σ α) (f : Nat → α) (w : World σ) (hi : i ≤ n)
    (hlimit : limit ≤ n / 2) :
    (siftDown cmp n limit i f w).i ≤ n ∧ (siftDown cmp n limit i f w).elements n = f n ∧
      others (siftDown cmp n limit i f w).elements (n + 1) (siftDown cmp n limit i f w).i =
        others f (n + 1) i := by
  fun_induction siftDown cmp n limit i f w with
  | case1 i f w hlt child r hless ih =>
    have hchild : child.1 = i * 2 + 1 ∨ child.1 = i * 2 + 2 := biggerChild_eq cmp n i f w
    have hle : child.1 ≤ n := by omega
    obtain ⟨hin, hbottom, hothers⟩ := ih hle
    rw [update_of_ne (by omega)] at hbottom
    exact ⟨hin, hbottom, hothers.trans (others_move (by omega) (by omega) (by omega))⟩
  | case2 => exact ⟨hi, rfl, rfl⟩
  | case3 => exact ⟨hi, rfl, rfl⟩

/-- The elements fit in the block, and the block has been doubled so many times. -/
structure WellSized (h : Heap α) : Prop where
  count_le : h.count ≤ h.maxSize
  maxSize : ∃ k, k ≤ 30 ∧ h.maxSize = 2 ^ k

theorem wellSized_init [Inhabited α] : WellSized (splPtrHeapInit : Heap α) :=
  ⟨Nat.zero_le _, 6, by decide, rfl⟩

theorem grow_spec [Inhabited α] {h g : Heap α} (hsize : WellSized h) (hgrow : grow h = some g) :
    g.count = h.count ∧ g.corrupted = h.corrupted ∧ (∀ k < h.count, g.elements k = h.elements k) ∧
      h.count + 1 ≤ g.maxSize ∧ ∃ k, k ≤ 30 ∧ g.maxSize = 2 ^ k := by
  obtain ⟨hle, k, hk, hmax⟩ := hsize
  have hpos : 0 < h.maxSize := hmax ▸ Nat.two_pow_pos k
  unfold grow at hgrow
  split at hgrow
  · split at hgrow
    · cases hgrow
    next hfits =>
      cases hgrow
      refine ⟨rfl, rfl, fun i hi => if_neg (by omega), ?_, k + 1, ?_, ?_⟩
      · show h.count + 1 ≤ h.maxSize * 2
        omega
      · have hlt : 2 ^ (k + 1) < 2 ^ 31 := by
          rw [Nat.pow_succ, ← hmax]
          omega
        exact Nat.le_of_lt_succ ((Nat.pow_lt_pow_iff_right (by decide)).mp hlt)
      · show h.maxSize * 2 = 2 ^ (k + 1)
        rw [hmax, Nat.pow_succ]
  next hroom =>
    cases hgrow
    exact ⟨rfl, rfl, fun _ _ => rfl, Nat.not_lt.mp hroom, k, hk, hmax⟩

theorem grow_isSome [Inhabited α] {h : Heap α} (hsize : WellSized h) (hlt : h.count < 2 ^ 30) :
    (grow h).isSome := by
  obtain ⟨hle, k, hk, hmax⟩ := hsize
  unfold grow
  split
  next hfull =>
    have hk' : k < 30 := by
      rw [← Nat.pow_lt_pow_iff_right (a := 2) (by decide), ← hmax]
      omega
    have hfits : 2 ^ k ≤ 2 ^ 29 := Nat.pow_le_pow_right (by decide) (by omega)
    rw [if_neg (by omega)]
    rfl
  next => rfl

theorem insert_spec [Inhabited α] {h h' : Heap α} {w' : World σ} (hsize : WellSized h)
    (hinsert : splPtrHeapInsert cmp h w elem = some (h', w')) :
    WellSized h' ∧ slots h'.elements h'.count = elem ::ₘ slots h.elements h.count := by
  unfold splPtrHeapInsert at hinsert
  cases hgrow : grow h with
  | none =>
    rw [hgrow] at hinsert
    cases hinsert
  | some g =>
    rw [hgrow] at hinsert
    cases hinsert
    obtain ⟨hcount, -, hkept, hroom, hmax⟩ := grow_spec hsize hgrow
    obtain ⟨hi, hothers⟩ := siftUp_others cmp elem g.elements w (Nat.lt_succ_self g.count)
    refine ⟨⟨by show g.count + 1 ≤ g.maxSize; omega, hmax⟩, ?_⟩
    show slots (update _ _ elem) (g.count + 1) = _
    rw [slots_update _ hi, hothers, others_last, hcount, slots_congr hkept]

theorem deleteTop_spec {h : Heap α} (cmp : Cmp σ α) (w : World σ) (hsize : WellSized h) :
    WellSized (splPtrHeapDeleteTop cmp h w).1 ∧
      slots (splPtrHeapDeleteTop cmp h w).1.elements (splPtrHeapDeleteTop cmp h w).1.count +
          ((splPtrHeapDeleteTop cmp h w).2.2.toList : Multiset α) =
        slots h.elements h.count := by
  unfold splPtrHeapDeleteTop
  cases hcount : h.count with
  | zero =>
    rw [if_pos rfl]
    exact ⟨hsize, by rw [hcount]; rfl⟩
  | succ n =>
    rw [if_neg (Nat.succ_ne_zero n), Nat.add_sub_cancel]
    obtain ⟨hi, hbottom, hothers⟩ :=
      siftDown_others cmp h.elements w (Nat.zero_le n) (Nat.le_refl (n / 2))
    have hle := hsize.count_le
    refine ⟨⟨by show n ≤ h.maxSize; omega, hsize.maxSize⟩, ?_⟩
    show slots (update _ _ _) n + (([h.elements 0] : List α) : Multiset α) = _
    have hstored : slots (update (siftDown cmp n (n / 2) 0 h.elements w).elements
        (siftDown cmp n (n / 2) 0 h.elements w).i
        ((siftDown cmp n (n / 2) 0 h.elements w).elements n)) n = others h.elements (n + 1) 0 := by
      rcases Nat.lt_or_eq_of_le hi with hlt | heq
      · rw [slots_update _ hlt, ← others_succ _ hlt, hothers]
      · -- the hole is where the bottom is
        rw [heq] at hothers ⊢
        rw [update_eq_self, ← others_last, hothers]
    rw [hstored, slots_eq_cons h.elements (Nat.succ_pos n), Multiset.coe_singleton,
      Multiset.add_comm, Multiset.singleton_add]

theorem call_spec [Inhabited α] {h h' : Heap α} {c : Call σ α} {w' : World σ} {out : Option α}
    (hsize : WellSized h) (hcall : call cmp h c = some (h', w', out)) :
    WellSized h' ∧ slots h'.elements h'.count + (out.toList : Multiset α) =
      slots h.elements h.count + (c.op.elem.toList : Multiset α) := by
  obtain ⟨w, op⟩ := c
  cases op with
  | insert elem =>
    obtain ⟨⟨g, w''⟩, hinsert, hout⟩ := map_eq_some_iff.mp hcall
    cases hout
    obtain ⟨hsize', hslots⟩ := insert_spec hsize hinsert
    refine ⟨hsize', ?_⟩
    rw [hslots, Op.elem]
    show _ + (([] : List α) : Multiset α) = _ + (([elem] : List α) : Multiset α)
    rw [Multiset.coe_nil, Multiset.add_zero, Multiset.coe_singleton, Multiset.add_comm,
      Multiset.singleton_add]
  | deleteTop =>
    have hout : splPtrHeapDeleteTop cmp h w = (h', w', out) := some.inj hcall
    have hspec := deleteTop_spec cmp w hsize
    rw [hout] at hspec
    rw [Op.elem, hspec.2.symm]
    exact ⟨hspec.1, (Multiset.add_zero _).symm⟩

theorem calls_spec [Inhabited α] {h h' : Heap α} {cs : List (Call σ α)} {removed : List α}
    (hsize : WellSized h) (hcalls : calls cmp h cs = some (h', removed)) :
    WellSized h' ∧
      slots h'.elements h'.count + (removed : Multiset α) =
        slots h.elements h.count + inserted cs := by
  -- induction on the calls
  induction cs generalizing h removed with
  | nil =>
    cases hcalls
    exact ⟨hsize, rfl⟩
  | cons c cs ih =>
    rw [calls] at hcalls
    cases hcall : call cmp h c with
    | none =>
      rw [hcall] at hcalls
      cases hcalls
    | some out =>
      obtain ⟨g, w', elem⟩ := out
      rw [hcall] at hcalls
      obtain ⟨⟨h'', rest⟩, hrest, hout⟩ := map_eq_some_iff.mp hcalls
      cases hout
      obtain ⟨hsize', hslots⟩ := call_spec hsize hcall
      obtain ⟨hsize'', hslots'⟩ := ih hsize' hrest
      refine ⟨hsize'', ?_⟩
      have hinserted : inserted (c :: cs) = (c.op.elem.toList : Multiset α) + inserted cs := by
        rw [inserted, List.filterMap_cons]
        cases c.op.elem <;> rfl
      calc slots h'.elements h'.count + ((elem.toList ++ rest : List α) : Multiset α)
          = slots h'.elements h'.count + (rest : Multiset α) + (elem.toList : Multiset α) := by
            rw [← Multiset.coe_add, add_comm (elem.toList : Multiset α), add_assoc]
        _ = slots g.elements g.count + (elem.toList : Multiset α) + inserted cs := by
            rw [hslots', add_right_comm]
        _ = slots h.elements h.count + inserted (c :: cs) := by
            rw [hslots, hinserted, add_assoc]

theorem call_isSome [Inhabited α] (cmp : Cmp σ α) {h : Heap α} {c : Call σ α} (hsize : WellSized h)
    (hroom : h.count + c.op.elem.toList.length ≤ 2 ^ 30) : (call cmp h c).isSome := by
  obtain ⟨w, op⟩ := c
  cases op with
  | insert elem =>
    have hlt : h.count < 2 ^ 30 := hroom
    obtain ⟨g, hgrow⟩ := isSome_iff_exists.mp (grow_isSome hsize hlt)
    simp only [call, splPtrHeapInsert, hgrow, map_some, isSome_some]
  | deleteTop => rfl

theorem calls_isSome [Inhabited α] {h : Heap α} {cs : List (Call σ α)} (hsize : WellSized h)
    (hroom : h.count + (inserted cs).card ≤ 2 ^ 30) : (calls cmp h cs).isSome := by
  -- induction on the calls
  induction cs generalizing h with
  | nil => rfl
  | cons c cs ih =>
    have hinserted : (inserted (c :: cs)).card = c.op.elem.toList.length + (inserted cs).card := by
      rw [inserted, List.filterMap_cons]
      cases c.op.elem with
      | none => exact (Nat.zero_add _).symm
      | some elem => exact Nat.add_comm _ 1
    obtain ⟨⟨g, w', out⟩, hcall⟩ := isSome_iff_exists.mp
      (call_isSome cmp hsize (show h.count + c.op.elem.toList.length ≤ 2 ^ 30 by omega))
    obtain ⟨hsize', hslots⟩ := call_spec hsize hcall
    have hcard := congrArg Multiset.card hslots
    rw [Multiset.card_add, Multiset.card_add, card_slots, card_slots, Multiset.coe_card,
      Multiset.coe_card] at hcard
    rw [calls, hcall]
    have hrest := ih hsize' (by omega)
    rw [isSome_map]
    exact hrest

/-! ## A total preorder -/

/-- `c` compares as a total preorder does: a positive number if its first argument is the larger
one. -/
structure TotalPreorder (c : α → α → Int) : Prop where
  swap : ∀ x y, c x y < 0 ↔ 0 < c y x
  trans : ∀ x y z, 0 ≤ c x y → 0 ≤ c y z → 0 ≤ c x z

/-- In a world that is `fine`, the comparison gives what `c` says, and leaves a world that is. -/
def Honest (cmp : Cmp σ α) (fine : World σ → Prop) (c : α → α → Int) : Prop :=
  ∀ w x y, fine w → (cmp w x y).1 = c x y ∧ fine (cmp w x y).2

/-- `x` is not less than `y`. -/
def GE (c : α → α → Int) (x y : α) : Prop := 0 ≤ c x y

variable {c : α → α → Int} {fine : World σ → Prop} {x y : α}

theorem TotalPreorder.ge_refl (hc : TotalPreorder c) (x : α) : GE c x x := by
  have hswap := hc.swap x x
  unfold GE
  omega

theorem TotalPreorder.ge_of_neg (hc : TotalPreorder c) (h : c x y < 0) : GE c y x :=
  Int.le_of_lt ((hc.swap x y).mp h)

theorem TotalPreorder.ge_of_not_pos (hc : TotalPreorder c) (h : ¬0 < c x y) : GE c y x := by
  have hswap := hc.swap y x
  unfold GE
  omega

theorem siftUp_ordered (hc : TotalPreorder c) (hcmp : Honest cmp fine c) (hw : fine w)
    (hole : HoleOrdered (GE c) f n i) (hcovers : Covers (GE c) f n i elem) :
    fine (siftUp cmp elem i f w).world ∧
      Ordered (GE c) (update (siftUp cmp elem i f w).elements (siftUp cmp elem i f w).i
        elem) n := by
  -- induction on the rounds
  fun_induction siftUp cmp elem i f w with
  | case1 i f w hpos r hless ih =>
    obtain ⟨hr, hw'⟩ := hcmp w (f ((i - 1) / 2)) elem hw
    have hge : GE c elem (f ((i - 1) / 2)) := hc.ge_of_neg (hr ▸ hless)
    exact ih hw' (hole.up hc.trans hpos) (Covers.up hc.trans hole hpos hge)
  | case2 i f w hpos r hnot =>
    obtain ⟨hr, hw'⟩ := hcmp w (f ((i - 1) / 2)) elem hw
    refine ⟨hw', hole.fill (fun _ => ?_) hcovers⟩
    have hge : 0 ≤ (cmp w (f ((i - 1) / 2)) elem).1 := Int.not_lt.mp hnot
    rw [hr] at hge
    exact hge
  | case3 i f w hroot => exact ⟨hw, hole.fill (fun hpos => absurd hpos hroot) hcovers⟩

theorem biggerChild_spec (hc : TotalPreorder c) (hcmp : Honest cmp fine c) (hw : fine w)
    (hi : i < n / 2) :
    fine (biggerChild cmp n i f w).2 ∧
      Covers (GE c) f n i (f (biggerChild cmp n i f w).1) := by
  obtain ⟨hr, hw'⟩ := hcmp w (f (i * 2 + 1 + 1)) (f (i * 2 + 1)) hw
  unfold biggerChild
  dsimp only
  rw [if_pos (by omega)]
  split
  next hpos =>
    rw [hr] at hpos
    have hge : GE c (f (i * 2 + 1 + 1)) (f (i * 2 + 1)) := Int.le_of_lt hpos
    refine ⟨hw', fun k hk _ hparent => ?_⟩
    rcases (by omega : k = i * 2 + 1 ∨ k = i * 2 + 1 + 1) with rfl | rfl
    · exact hge
    · exact hc.ge_refl _
  next hnot =>
    rw [hr] at hnot
    refine ⟨hw', fun k hk _ hparent => ?_⟩
    rcases (by omega : k = i * 2 + 1 ∨ k = i * 2 + 1 + 1) with rfl | rfl
    · exact hc.ge_refl _
    · exact hc.ge_of_not_pos hnot

theorem siftDown_ordered (hc : TotalPreorder c) (hcmp : Honest cmp fine c) (hw : fine w)
    (hole : HoleOrdered (GE c) f n i) (hparent : 0 < i → GE c (f ((i - 1) / 2)) (f n)) :
    fine (siftDown cmp n (n / 2) i f w).world ∧
      Ordered (GE c) (update (siftDown cmp n (n / 2) i f w).elements
        (siftDown cmp n (n / 2) i f w).i (f n)) n := by
  -- induction on the rounds
  fun_induction siftDown cmp n (n / 2) i f w with
  | case1 i f w hlt child r hless ih =>
    obtain ⟨hchild, hcovers⟩ := biggerChild_spec hc hcmp hw hlt
    obtain ⟨hr, hw'⟩ := hcmp child.2 (f n) (f child.1) hchild
    have hneg : c (f n) (f child.1) < 0 := hr ▸ hless
    have heq : child.1 = i * 2 + 1 ∨ child.1 = i * 2 + 2 := biggerChild_eq cmp n i f w
    -- the bottom is not less than itself
    have hne : child.1 ≠ n := by
      intro hn
      rw [hn] at hneg
      have hrefl := hc.ge_refl (f n)
      unfold GE at hrefl
      omega
    have hbottom : update f i (f child.1) n = f n := update_of_ne (by omega) _ _
    rw [← hbottom]
    refine ih hw' (hole.down (by omega) (by omega) (by omega) hcovers) fun _ => ?_
    rw [hbottom, show (child.1 - 1) / 2 = i from by omega, update_self]
    exact hc.ge_of_neg hneg
  | case2 i f w hlt child r hnot =>
    obtain ⟨hchild, hcovers⟩ := biggerChild_spec hc hcmp hw hlt
    obtain ⟨hr, hw'⟩ := hcmp child.2 (f n) (f child.1) hchild
    have hge : GE c (f n) (f child.1) := by
      have hle : 0 ≤ (cmp child.2 (f n) (f child.1)).1 := Int.not_lt.mp hnot
      rw [hr] at hle
      exact hle
    refine ⟨hw', hole.fill hparent fun k hk hkn hkp => ?_⟩
    exact hc.trans _ _ _ hge (hcovers k hk hkn hkp)
  | case3 i f w hend =>
    refine ⟨hw, hole.fill hparent fun k hk hkn hkp => ?_⟩
    omega

theorem call_ordered [Inhabited α] {h h' : Heap α} {cl : Call σ α} {w' : World σ} {out : Option α}
    (hc : TotalPreorder c) (hcmp : Honest cmp fine c) (hw : fine cl.world) (hsize : WellSized h)
    (hordered : Ordered (GE c) h.elements h.count) (hcall : call cmp h cl = some (h', w', out)) :
    Ordered (GE c) h'.elements h'.count := by
  obtain ⟨w, op⟩ := cl
  cases op with
  | insert elem =>
    obtain ⟨⟨g, w''⟩, hinsert, hout⟩ := map_eq_some_iff.mp hcall
    cases hout
    unfold splPtrHeapInsert at hinsert
    cases hgrow : grow h with
    | none =>
      rw [hgrow] at hinsert
      cases hinsert
    | some g =>
      rw [hgrow] at hinsert
      cases hinsert
      obtain ⟨hcount, -, hkept, -⟩ := grow_spec hsize hgrow
      have hgrown : Ordered (GE c) g.elements g.count := by
        rw [hcount]
        exact hordered.congr hkept
      exact (siftUp_ordered hc hcmp hw hgrown.holeLast (covers_last _ _ _ _)).2
  | deleteTop =>
    have hout : splPtrHeapDeleteTop cmp h w = (h', w', out) := some.inj hcall
    unfold splPtrHeapDeleteTop at hout
    split at hout
    · cases hout
      exact hordered
    · cases hout
      have hshort := hordered.mono (Nat.sub_le h.count 1)
      obtain ⟨-, hdone⟩ := siftDown_ordered hc hcmp hw hshort.holeRoot
        (fun hroot => absurd hroot (Nat.lt_irrefl 0))
      obtain ⟨-, hbottom, -⟩ := siftDown_others cmp h.elements w (Nat.zero_le (h.count - 1))
        (Nat.le_refl ((h.count - 1) / 2))
      show Ordered (GE c) (update _ _ _) (h.count - 1)
      rw [hbottom]
      exact hdone

theorem calls_ordered [Inhabited α] {h h' : Heap α} {cs : List (Call σ α)} {removed : List α}
    (hc : TotalPreorder c) (hcmp : Honest cmp fine c) (hw : ∀ cl ∈ cs, fine cl.world)
    (hsize : WellSized h) (hordered : Ordered (GE c) h.elements h.count)
    (hcalls : calls cmp h cs = some (h', removed)) : Ordered (GE c) h'.elements h'.count := by
  -- induction on the calls
  induction cs generalizing h removed with
  | nil =>
    cases hcalls
    exact hordered
  | cons cl cs ih =>
    rw [calls] at hcalls
    cases hcall : call cmp h cl with
    | none =>
      rw [hcall] at hcalls
      cases hcalls
    | some out =>
      obtain ⟨g, w', elem⟩ := out
      rw [hcall] at hcalls
      obtain ⟨⟨h'', rest⟩, hrest, hout⟩ := map_eq_some_iff.mp hcalls
      cases hout
      have hstep := call_ordered hc hcmp (hw cl List.mem_cons_self) hsize hordered hcall
      exact ih (fun cl hcl => hw cl (List.mem_cons_of_mem _ hcl)) (call_spec hsize hcall).1 hstep
        hrest

/-! ## Exceptions -/

theorem deleteTop_count (cmp : Cmp σ α) (h : Heap α) (w : World σ) :
    (splPtrHeapDeleteTop cmp h w).1.count = h.count - 1 := by
  unfold splPtrHeapDeleteTop
  dsimp only
  split
  next hzero => rw [hzero]
  next => rfl

theorem deleteTop_root (cmp : Cmp σ α) (h : Heap α) (w : World σ)
    (hx : x ∈ (splPtrHeapDeleteTop cmp h w).2.2) : x = h.elements 0 := by
  unfold splPtrHeapDeleteTop at hx
  dsimp only at hx
  split at hx
  · cases hx
  · exact (some.inj hx).symm

theorem inserted_deleteTop (ws : List (World σ)) :
    inserted (ws.map fun w => (⟨w, .deleteTop⟩ : Call σ α)) = 0 := by
  induction ws with
  | nil => rfl
  | cons w ws ih => exact ih

theorem calls_deleteTop [Inhabited α] {h h' : Heap α} {ws : List (World σ)} {drained : List α}
    (hc : TotalPreorder c) (hcmp : Honest cmp fine c) (hws : ∀ w ∈ ws, fine w)
    (hsize : WellSized h) (hordered : Ordered (GE c) h.elements h.count)
    (hcalls : calls cmp h (ws.map fun w => ⟨w, .deleteTop⟩) = some (h', drained)) :
    drained.Pairwise (GE c) ∧ h'.count = h.count - ws.length := by
  induction ws generalizing h drained with
  | nil =>
    obtain ⟨rfl, rfl⟩ := Prod.ext_iff.mp (some.inj hcalls)
    exact ⟨.nil, rfl⟩
  | cons w ws ih =>
    obtain ⟨hsize', hslots⟩ := deleteTop_spec cmp w hsize
    have hpop := deleteTop_count cmp h w
    have hroot (x : α) := deleteTop_root (x := x) cmp h w
    obtain ⟨⟨g, w', out⟩, hdelete⟩ : ∃ r, splPtrHeapDeleteTop cmp h w = r := ⟨_, rfl⟩
    rw [hdelete] at hsize' hslots hpop hroot
    have hcall : call cmp h ⟨w, .deleteTop⟩ = some (g, w', out) := congrArg some hdelete
    rw [List.map_cons, calls, hcall] at hcalls
    obtain ⟨⟨h'', rest⟩, hrest, heq⟩ := Option.map_eq_some_iff.mp hcalls
    obtain ⟨rfl, rfl⟩ := Prod.mk.inj heq
    obtain ⟨hsorted, hcount⟩ := ih (fun w hw => hws w (List.mem_cons_of_mem _ hw)) hsize'
      (call_ordered hc hcmp (hws w List.mem_cons_self) hsize hordered hcall) hrest
    refine ⟨List.pairwise_append.mpr ⟨?_, hsorted, fun x hx y hy => ?_⟩, ?_⟩
    · cases out with
      | none => exact .nil
      | some x => exact List.pairwise_singleton _ _
    · -- `x` was the root, and `y` was in the heap
      have hmem : y ∈ slots h.elements h.count := by
        have hleft := (calls_spec hsize' hrest).2
        rw [inserted_deleteTop, add_zero] at hleft
        rw [← hslots, ← hleft]
        exact Multiset.mem_add.mpr (.inl (Multiset.mem_add.mpr (.inr (Multiset.mem_coe.mpr hy))))
      obtain ⟨k, hk, rfl⟩ := Multiset.mem_map.mp hmem
      rw [hroot x (Option.mem_toList.mp hx)]
      exact hordered.root_ge hc.trans hc.ge_refl (Multiset.mem_range.mp hk)
    · rw [hcount, hpop, List.length_cons]
      omega

/-- **A heap is emptied in order**, whatever was done with it before. -/
theorem splPtrHeap_drains [Inhabited α] {cs : List (Call σ α)} {ws : List (World σ)} {h : Heap α}
    {removed : List α} (hc : TotalPreorder c) (hcmp : Honest cmp fine c)
    (hcs : ∀ cl ∈ cs, fine cl.world) (hws : ∀ w ∈ ws, fine w)
    (hcalls : calls cmp splPtrHeapInit cs = some (h, removed)) (hlen : ws.length = h.count) :
    ∃ h' drained, calls cmp h (ws.map fun w => ⟨w, .deleteTop⟩) = some (h', drained) ∧
      h'.count = 0 ∧ drained.Pairwise (GE c) ∧
      (removed : Multiset α) + (drained : Multiset α) = inserted cs := by
  obtain ⟨hsize, hslots⟩ := calls_spec wellSized_init hcalls
  obtain ⟨k, hk, hmax⟩ := hsize.maxSize
  have hroom : h.count + (inserted (ws.map fun w => (⟨w, .deleteTop⟩ : Call σ α))).card ≤
      2 ^ 30 := by
    rw [inserted_deleteTop, Multiset.card_zero]
    exact hsize.count_le.trans (hmax.trans_le (Nat.pow_le_pow_right (by decide) hk))
  have hdrains : (calls cmp h (ws.map fun w => ⟨w, .deleteTop⟩)).isSome := calls_isSome hsize hroom
  obtain ⟨⟨h', drained⟩, hdrain⟩ := isSome_iff_exists.mp hdrains
  have hordered := calls_ordered hc hcmp hcs wellSized_init
    (fun k _ hk => absurd hk (Nat.not_lt_zero k)) hcalls
  obtain ⟨hsorted, hcount⟩ := calls_deleteTop hc hcmp hws hsize hordered hdrain
  rw [hlen, Nat.sub_self] at hcount
  have hall := (calls_spec hsize hdrain).2
  rw [hcount, inserted_deleteTop, add_zero] at hall
  refine ⟨h', drained, hdrain, hcount, hsorted, ?_⟩
  rw [show (drained : Multiset α) = slots h.elements h.count from (zero_add _).symm.trans hall,
    add_comm, hslots]
  exact zero_add _

theorem splPtrHeap_drains_two :
    let cs : List (Call Unit Int) := [⟨⟨(), false⟩, .insert 3⟩, ⟨⟨(), false⟩, .insert 5⟩]
    ∃ h h' drained, calls (fun w x y => (x - y, w)) splPtrHeapInit cs = some (h, []) ∧
      calls (fun w x y => (x - y, w)) h
        ([⟨(), false⟩, ⟨(), false⟩].map fun w => ⟨w, .deleteTop⟩) = some (h', drained) ∧
      drained.Pairwise (GE fun x y => x - y) := by
  intro cs
  have hpreorder : TotalPreorder fun x y : Int => x - y :=
    ⟨fun x y => by omega, fun x y z hxy hyz => by omega⟩
  have hhonest : Honest (σ := Unit) (fun w x y => (x - y, w)) (fun _ => True) fun x y => x - y :=
    fun _ _ _ _ => ⟨rfl, trivial⟩
  have hcalls : calls (fun w x y => (x - y, w)) splPtrHeapInit cs = some (_, []) := rfl
  have hworlds : ∀ w ∈ [(⟨(), false⟩ : World Unit), ⟨(), false⟩], True := fun _ _ => trivial
  obtain ⟨h', drained, hdrain, -, hsorted, -⟩ :=
    splPtrHeap_drains hpreorder hhonest (fun _ _ => trivial) hworlds hcalls rfl
  exact ⟨_, h', drained, rfl, hdrain, hsorted⟩

end SplHeap

end Phpce
