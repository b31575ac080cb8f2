import Mathlib.Data.List.Lex
import Mathlib.Data.Prod.Lex

/-!
# Three-way comparison

`threeWay x y` is negative, zero or positive as `x` is below, at or above `y`.

* `threeWay_self`, `threeWay_swap`, `threeWay_nonpos_iff`: the laws of an order, from those of the
  linear order.
* `threeWay_cons`, `threeWay_toLex`: lists and pairs are compared at their first difference.
-/

namespace ThreeWay

variable {α β : Type} [LinearOrder α] [LinearOrder β] {x y : α}

def threeWay (x y : α) : Int := if x < y then -1 else if y < x then 1 else 0

theorem threeWay_of_lt (h : x < y) : threeWay x y = -1 := if_pos h

theorem threeWay_of_gt (h : y < x) : threeWay x y = 1 :=
  (if_neg h.asymm).trans (if_pos h)

@[simp] theorem threeWay_self (x : α) : threeWay x x = 0 :=
  (if_neg (lt_irrefl x)).trans (if_neg (lt_irrefl x))

theorem threeWay_swap (x y : α) : threeWay y x = -threeWay x y := by
  rcases lt_trichotomy x y with h | rfl | h
  · rw [threeWay_of_lt h, threeWay_of_gt h]
    rfl
  · rw [threeWay_self]
    rfl
  · rw [threeWay_of_lt h, threeWay_of_gt h]

theorem threeWay_nonpos_iff : threeWay x y ≤ 0 ↔ x ≤ y := by
  rcases lt_trichotomy x y with h | rfl | h
  · rw [threeWay_of_lt h]
    exact iff_of_true (by decide) h.le
  · rw [threeWay_self]
    exact iff_of_true (by decide) le_rfl
  · rw [threeWay_of_gt h]
    exact iff_of_false (by decide) h.not_ge

theorem threeWay_eq_zero_iff : threeWay x y = 0 ↔ x = y := by
  rcases lt_trichotomy x y with h | rfl | h
  · rw [threeWay_of_lt h]
    exact iff_of_false (by decide) h.ne
  · exact iff_of_true (threeWay_self x) rfl
  · rw [threeWay_of_gt h]
    exact iff_of_false (by decide) h.ne'

theorem threeWay_cons (x y : α) (s t : List α) :
    threeWay (x :: s) (y :: t) = if threeWay x y ≠ 0 then threeWay x y else threeWay s t := by
  rcases lt_trichotomy x y with h | rfl | h
  · rw [threeWay_of_lt h, if_pos (by decide)]
    exact threeWay_of_lt (List.Lex.rel h)
  · rw [threeWay_self, if_neg (not_not_intro rfl)]
    rcases lt_trichotomy s t with hst | rfl | hst
    · rw [threeWay_of_lt hst]
      exact threeWay_of_lt (List.Lex.cons hst)
    · rw [threeWay_self, threeWay_self]
    · rw [threeWay_of_gt hst]
      exact threeWay_of_gt (List.Lex.cons hst)
  · rw [threeWay_of_gt h, if_pos (by decide)]
    exact threeWay_of_gt (List.Lex.rel h)

theorem threeWay_toLex (x y : α) (u v : β) :
    threeWay (toLex (x, u)) (toLex (y, v)) =
      if threeWay x y ≠ 0 then threeWay x y else threeWay u v := by
  rcases lt_trichotomy x y with h | rfl | h
  · rw [threeWay_of_lt h, if_pos (by decide)]
    exact threeWay_of_lt (Prod.Lex.toLex_lt_toLex.mpr (.inl h))
  · rw [threeWay_self, if_neg (not_not_intro rfl)]
    rcases lt_trichotomy u v with huv | rfl | huv
    · rw [threeWay_of_lt huv]
      exact threeWay_of_lt (Prod.Lex.toLex_lt_toLex.mpr (.inr ⟨rfl, huv⟩))
    · rw [threeWay_self, threeWay_self]
    · rw [threeWay_of_gt huv]
      exact threeWay_of_gt (Prod.Lex.toLex_lt_toLex.mpr (.inr ⟨rfl, huv⟩))
  · rw [threeWay_of_gt h, if_pos (by decide)]
    exact threeWay_of_gt (Prod.Lex.toLex_lt_toLex.mpr (.inl h))

end ThreeWay
