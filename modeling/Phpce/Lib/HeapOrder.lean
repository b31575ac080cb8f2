import Mathlib.Data.Multiset.MapFold
import Mathlib.Data.Multiset.Range
import Mathlib.Logic.Function.Basic

/-!
# Binary heaps with a hole

A heap is the first `n` cells of a memory; `(k - 1) / 2` is the parent of the cell `k`. While an
item is sifted, one cell is a hole: its content does not count.

* `others_move`: moving the hole does not change what is stored outside it.
* `HoleOrdered.up`, `HoleOrdered.down`: the hole moves to its parent, or to its largest child.
* `HoleOrdered.fill`: what is put into the hole.
-/

namespace HeapOrder

open Function (update update_of_ne update_self)

variable {α : Type*}

/-! ## What is stored -/

def slots (f : Nat → α) (n : Nat) : Multiset α := (Multiset.range n).map f

def others (f : Nat → α) (n i : Nat) : Multiset α := ((Multiset.range n).erase i).map f

variable {f g : Nat → α} {n i j : Nat} {x : α}

theorem slots_succ (f : Nat → α) (n : Nat) : slots f (n + 1) = f n ::ₘ slots f n := by
  rw [slots, Multiset.range_succ, Multiset.map_cons]
  rfl

@[simp] theorem card_slots (f : Nat → α) (n : Nat) : (slots f n).card = n := by
  rw [slots, Multiset.card_map, Multiset.card_range]

theorem slots_congr (h : ∀ k < n, f k = g k) : slots f n = slots g n :=
  Multiset.map_congr rfl fun k hk => h k (Multiset.mem_range.mp hk)

theorem slots_eq_cons (f : Nat → α) (hi : i < n) : slots f n = f i ::ₘ others f n i := by
  rw [slots, others, ← Multiset.map_cons, Multiset.cons_erase (Multiset.mem_range.mpr hi)]

theorem others_last (f : Nat → α) (n : Nat) : others f (n + 1) n = slots f n := by
  have hsucc := slots_eq_cons f (Nat.lt_succ_self n)
  rw [slots_succ] at hsucc
  exact ((Multiset.cons_inj_right _).mp hsucc).symm

theorem others_succ (f : Nat → α) (hi : i < n) : others f (n + 1) i = f n ::ₘ others f n i := by
  have hsucc := slots_succ f n
  rw [slots_eq_cons f (Nat.lt_succ_of_lt hi), slots_eq_cons f hi, Multiset.cons_swap] at hsucc
  exact (Multiset.cons_inj_right _).mp hsucc

theorem others_update (f : Nat → α) (n i : Nat) (x : α) :
    others (update f i x) n i = others f n i := by
  refine Multiset.map_congr rfl fun k hk => update_of_ne ?_ _ _
  rintro rfl
  exact (Multiset.nodup_range n).notMem_erase hk

theorem slots_update (f : Nat → α) (hi : i < n) (x : α) :
    slots (update f i x) n = x ::ₘ others f n i := by
  rw [slots_eq_cons _ hi, update_self, others_update]

theorem others_move (hi : i < n) (hj : j < n) (hne : i ≠ j) :
    others (update f i (f j)) n j = others f n i := by
  have hslots := slots_update f hi (f j)
  rw [slots_eq_cons _ hj, update_of_ne hne.symm] at hslots
  exact (Multiset.cons_inj_right _).mp hslots

/-! ## Order -/

variable {ge : α → α → Prop}

def Ordered (ge : α → α → Prop) (f : Nat → α) (n : Nat) : Prop :=
  ∀ k, 0 < k → k < n → ge (f ((k - 1) / 2)) (f k)

/-- The heap is ordered but for the hole `i`, and where it is left out. -/
structure HoleOrdered (ge : α → α → Prop) (f : Nat → α) (n i : Nat) : Prop where
  edge : ∀ k, 0 < k → k < n → k ≠ i → (k - 1) / 2 ≠ i → ge (f ((k - 1) / 2)) (f k)
  bypass : ∀ k, 0 < i → 0 < k → k < n → (k - 1) / 2 = i → ge (f ((i - 1) / 2)) (f k)

/-- `x` is not less than the children of `i`. -/
def Covers (ge : α → α → Prop) (f : Nat → α) (n i : Nat) (x : α) : Prop :=
  ∀ k, 0 < k → k < n → (k - 1) / 2 = i → ge x (f k)

theorem Ordered.mono {m : Nat} (h : Ordered ge f n) (hm : m ≤ n) : Ordered ge f m :=
  fun k hpos hlt => h k hpos (Nat.lt_of_lt_of_le hlt hm)

theorem Ordered.congr (h : Ordered ge f n) (heq : ∀ k < n, g k = f k) : Ordered ge g n := by
  intro k hpos hlt
  rw [heq k hlt, heq ((k - 1) / 2) (by omega)]
  exact h k hpos hlt

theorem Ordered.holeLast (h : Ordered ge f n) : HoleOrdered ge f (n + 1) n where
  edge k hpos hlt hne _ := h k hpos (by omega)
  bypass _ _ _ _ _ := by omega

theorem covers_last (ge : α → α → Prop) (f : Nat → α) (n : Nat) (x : α) :
    Covers ge f (n + 1) n x := by
  intro k hpos hlt hparent
  omega

theorem Ordered.holeRoot (h : Ordered ge f n) : HoleOrdered ge f n 0 where
  edge k hpos hlt _ _ := h k hpos hlt
  bypass _ hroot _ _ _ := absurd hroot (Nat.lt_irrefl 0)

theorem HoleOrdered.fill (h : HoleOrdered ge f n i)
    (hparent : 0 < i → ge (f ((i - 1) / 2)) x) (hchildren : Covers ge f n i x) :
    Ordered ge (update f i x) n := by
  intro k hpos hlt
  by_cases hki : k = i
  · rw [hki, update_self, update_of_ne (by omega)]
    exact hparent (by omega)
  · rw [update_of_ne hki]
    by_cases hpi : (k - 1) / 2 = i
    · rw [hpi, update_self]
      exact hchildren k hpos hlt hpi
    · rw [update_of_ne hpi]
      exact h.edge k hpos hlt hki hpi

theorem Ordered.root_ge (htrans : ∀ x y z, ge x y → ge y z → ge x z) (hrefl : ∀ x, ge x x)
    (h : Ordered ge f n) {k : Nat} (hk : k < n) : ge (f 0) (f k) := by
  -- induction up the tree
  induction k using Nat.strongRecOn with
  | ind k ih =>
    cases Nat.eq_zero_or_pos k with
    | inl hzero =>
      rw [hzero]
      exact hrefl _
    | inr hpos => exact htrans _ _ _ (ih ((k - 1) / 2) (by omega) (by omega)) (h k hpos hk)

theorem HoleOrdered.up (htrans : ∀ x y z, ge x y → ge y z → ge x z) (h : HoleOrdered ge f n i)
    (hi : 0 < i) :
    HoleOrdered ge (update f i (f ((i - 1) / 2))) n ((i - 1) / 2) where
  edge k hpos hlt hne hparent := by
    have hki : k ≠ i := fun hki => hparent (by rw [hki])
    rw [update_of_ne hki]
    by_cases hpi : (k - 1) / 2 = i
    · rw [hpi, update_self]
      exact h.bypass k hi hpos hlt hpi
    · rw [update_of_ne hpi]
      exact h.edge k hpos hlt hki hpi
  bypass k hup hpos hlt hparent := by
    have habove := h.edge ((i - 1) / 2) hup (by omega) (by omega) (by omega)
    rw [update_of_ne (by omega)]
    by_cases hki : k = i
    · rw [hki, update_self]
      exact habove
    · rw [update_of_ne hki]
      refine htrans _ _ _ habove ?_
      rw [← hparent]
      exact h.edge k hpos hlt hki (by omega)

theorem Covers.up (htrans : ∀ x y z, ge x y → ge y z → ge x z) (h : HoleOrdered ge f n i)
    (hi : 0 < i) (hx : ge x (f ((i - 1) / 2))) :
    Covers ge (update f i (f ((i - 1) / 2))) n ((i - 1) / 2) x := by
  intro k hpos hlt hparent
  by_cases hki : k = i
  · rw [hki, update_self]
    exact hx
  · rw [update_of_ne hki]
    refine htrans _ _ _ hx ?_
    rw [← hparent]
    exact h.edge k hpos hlt hki (by omega)

theorem HoleOrdered.down (h : HoleOrdered ge f n i) (hj : 0 < j) (hjn : j < n)
    (hparent : (j - 1) / 2 = i) (hmax : Covers ge f n i (f j)) :
    HoleOrdered ge (update f i (f j)) n j where
  edge k hpos hlt hne hkj := by
    by_cases hki : k = i
    · rw [hki, update_self, update_of_ne (by omega)]
      exact h.bypass j (by omega) hj hjn hparent
    · rw [update_of_ne hki]
      by_cases hpi : (k - 1) / 2 = i
      · rw [hpi, update_self]
        exact hmax k hpos hlt hpi
      · rw [update_of_ne hpi]
        exact h.edge k hpos hlt hki hpi
  bypass k _ hpos hlt hkj := by
    rw [hparent, update_self, update_of_ne (by omega)]
    rw [← hkj]
    exact h.edge k hpos hlt (by omega) (by omega)

end HeapOrder
