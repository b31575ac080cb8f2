import Mathlib.Data.List.Range

/-!
# A memory of cells, its stores and slices

* `store mem pos data` writes `data` from the cell `pos` on, and `slice mem pos n` reads the `n`
  cells from `pos` on.
* `slice_add` and `drop_slice` split a slice; `slice_store_self`, `slice_store_before` and
  `slice_store_after` read back what was stored, and what was not touched.
-/

namespace Buffer

open List

variable {α : Type*}

def store (mem : Nat → α) (pos : Nat) (data : List α) : Nat → α := fun i =>
  if pos ≤ i then (data[i - pos]?).getD (mem i) else mem i

def slice (mem : Nat → α) (pos n : Nat) : List α :=
  (List.range n).map fun i => mem (pos + i)

variable {mem : Nat → α} {pos pos' n : Nat} {data : List α}

@[simp] theorem length_slice : (slice mem pos n).length = n := by
  simp [slice]

@[simp] theorem slice_zero : slice mem pos 0 = [] := rfl

theorem store_nil (mem : Nat → α) (pos : Nat) : store mem pos [] = mem := by
  funext i
  simp [store]

theorem slice_add (mem : Nat → α) (pos m n : Nat) :
    slice mem pos (m + n) = slice mem pos m ++ slice mem (pos + m) n := by
  simp [slice, range_add, Nat.add_assoc]

theorem slice_succ (mem : Nat → α) (pos n : Nat) :
    slice mem pos (n + 1) = mem pos :: slice mem (pos + 1) n := by
  rw [Nat.add_comm, slice_add]
  simp [slice]

theorem store_before {i : Nat} (h : i < pos) : store mem pos data i = mem i :=
  if_neg (Nat.not_le.mpr h)

theorem store_after {i : Nat} (h : pos + data.length ≤ i) : store mem pos data i = mem i := by
  unfold store
  rw [List.getElem?_eq_none (by omega)]
  simp

theorem store_at {i : Nat} (h : i < data.length) : store mem pos data (pos + i) = data[i] := by
  unfold store
  rw [if_pos (Nat.le_add_right pos i), Nat.add_sub_cancel_left, List.getElem?_eq_getElem h]
  rfl

theorem store_append (mem : Nat → α) (pos : Nat) (s t : List α) :
    store mem pos (s ++ t) = store (store mem pos s) (pos + s.length) t := by
  funext i
  by_cases hs : i < pos + s.length
  · rw [store_before hs]
    by_cases hpos : i < pos
    · rw [store_before hpos, store_before hpos]
    · obtain ⟨k, rfl⟩ := Nat.exists_eq_add_of_le (Nat.not_lt.mp hpos)
      have hk : k < s.length := Nat.lt_of_add_lt_add_left hs
      have hk' : k < (s ++ t).length := by
        rw [length_append]
        omega
      rw [store_at hk', store_at hk, getElem_append_left hk]
  · obtain ⟨k, rfl⟩ := Nat.exists_eq_add_of_le (Nat.not_lt.mp hs)
    by_cases ht : k < t.length
    · have hk' : s.length + k < (s ++ t).length := by
        rw [length_append]
        omega
      rw [store_at ht, Nat.add_assoc, store_at hk',
        getElem_append_right (Nat.le_add_right _ _)]
      simp only [Nat.add_sub_cancel_left]
    · have hlen : pos + (s ++ t).length ≤ pos + s.length + k := by
        rw [length_append]
        omega
      rw [store_after hlen, store_after (by omega), store_after (by omega)]

theorem slice_store_self (mem : Nat → α) (pos : Nat) (data : List α) :
    slice (store mem pos data) pos data.length = data := by
  refine ext_getElem (by simp) fun i h _ => ?_
  have hi : i < data.length := by simpa using h
  simp [slice, store_at hi]

theorem slice_store_before (h : pos' + n ≤ pos) :
    slice (store mem pos data) pos' n = slice mem pos' n := by
  refine map_congr_left fun i hi => ?_
  have hlt : i < n := mem_range.mp hi
  exact store_before (by omega)

theorem slice_store_after (h : pos + data.length ≤ pos') :
    slice (store mem pos data) pos' n = slice mem pos' n :=
  map_congr_left fun i _ => store_after (by omega)

theorem slice_store_append (mem : Nat → α) (pos n : Nat) (data : List α) :
    slice (store mem (pos + n) data) pos (n + data.length) = slice mem pos n ++ data := by
  rw [slice_add, slice_store_before (Nat.le_refl _), slice_store_self]

theorem slice_isPrefix {m : Nat} (h : m ≤ n) : slice mem pos m <+: slice mem pos n := by
  refine ⟨slice mem (pos + m) (n - m), ?_⟩
  rw [← slice_add, Nat.add_sub_cancel' h]

theorem slice_store_take (mem : Nat → α) (pos : Nat) (h : n ≤ data.length) :
    slice (store mem pos data) pos n = data.take n := by
  have hprefix : slice (store mem pos data) pos n <+: slice (store mem pos data) pos data.length :=
    slice_isPrefix h
  rw [slice_store_self] at hprefix
  rw [prefix_iff_eq_take.mp hprefix, length_slice]

theorem slice_of_isPrefix (h : data <+: slice mem pos n) : slice mem pos data.length = data := by
  have hle : data.length ≤ n := by
    have hlen := h.length_le
    rw [length_slice] at hlen
    exact hlen
  have hbegins := prefix_of_prefix_length_le (slice_isPrefix hle) h (Nat.le_of_eq length_slice)
  exact hbegins.eq_of_length length_slice

theorem drop_slice (mem : Nat → α) (pos n k : Nat) :
    (slice mem pos n).drop k = slice mem (pos + k) (n - k) := by
  by_cases h : k ≤ n
  · obtain ⟨m, rfl⟩ := Nat.exists_eq_add_of_le h
    rw [slice_add, drop_left' length_slice, Nat.add_sub_cancel_left]
  · rw [drop_of_length_le (by rw [length_slice]; omega), Nat.sub_eq_zero_of_le (by omega),
      slice_zero]

end Buffer
