import Mathlib.Data.List.Nodup

/-!
# Records with a key and an owner

A table is a list of records, each with a key that no other record has and with an owner.
`of owner c xs` are the records that `c` owns.

* `of_remove_self`: removing the only record of an owner by its key leaves that owner none.
* `of_remove_ne`: removing a record by its key leaves the other owners theirs.
* `map_key_erase`: a record takes its key with it.
-/

namespace Owned

open List

variable {α κ ω : Type*} [DecidableEq ω] {key : α → κ} {owner : α → ω} {xs : List α} {x : α}
  {c : ω}

/-- The records that `c` owns. -/
def of (owner : α → ω) (c : ω) (xs : List α) : List α :=
  xs.filter fun x => owner x = c

theorem mem_of : x ∈ of owner c xs ↔ x ∈ xs ∧ owner x = c := by
  simp [of]

theorem of_cons_self (h : owner x = c) : of owner c (x :: xs) = x :: of owner c xs := by
  simp [of, h]

theorem of_cons_ne (h : owner x ≠ c) : of owner c (x :: xs) = of owner c xs := by
  simp [of, h]

omit [DecidableEq ω] in
theorem eq_of_key_eq (hnd : (xs.map key).Nodup) {y : α} (hx : x ∈ xs) (hy : y ∈ xs)
    (h : key x = key y) : x = y :=
  inj_on_of_nodup_map hnd hx hy h

theorem of_remove_self [DecidableEq κ] (h : of owner c xs = [x]) :
    of owner c (xs.filter fun y => key y ≠ key x) = [] := by
  have hx : x ∈ of owner c xs := by simp [h]
  rw [eq_nil_iff_forall_not_mem]
  intro y hy
  obtain ⟨hfilter, howner⟩ := mem_of.mp hy
  obtain ⟨hyxs, hkey⟩ := mem_filter.mp hfilter
  -- the only record of `c` is the one removed
  have hyc : y ∈ of owner c xs := mem_of.mpr ⟨hyxs, howner⟩
  obtain rfl : y = x := by simpa [h] using hyc
  simp at hkey

theorem of_remove_ne [DecidableEq κ] (hnd : (xs.map key).Nodup) (hx : x ∈ xs) (hne : owner x ≠ c) :
    of owner c (xs.filter fun y => key y ≠ key x) = of owner c xs := by
  unfold of
  rw [List.filter_filter]
  refine filter_congr fun y hy => ?_
  by_cases howner : owner y = c
  · -- a record of `c` is not `x`, so its key is another one
    have hkey : key y ≠ key x := fun e => hne (eq_of_key_eq hnd hy hx e ▸ howner)
    simp [howner, hkey]
  · simp [howner]

omit [DecidableEq ω] in
theorem map_key_erase [DecidableEq α] [DecidableEq κ] (hnd : (xs.map key).Nodup) (hx : x ∈ xs) :
    (xs.erase x).map key = (xs.map key).erase (key x) := by
  -- induction on the table, up to the record
  induction xs with
  | nil => rfl
  | cons y xs ih =>
    by_cases hy : y = x
    · rw [hy, erase_cons_head, map_cons, erase_cons_head]
    · have htail : x ∈ xs := by simpa [Ne.symm hy] using hx
      rw [map_cons, nodup_cons] at hnd
      have hkey : key y ≠ key x := fun heq => hnd.1 (heq ▸ mem_map_of_mem htail)
      rw [erase_cons_tail (by simpa using hy), map_cons, map_cons,
        erase_cons_tail (by simpa using hkey), ih hnd.2 htail]

end Owned
