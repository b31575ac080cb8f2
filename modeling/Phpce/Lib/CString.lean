import Mathlib.Data.List.GetD
import Phpce.Lib.Buffer
import Phpce.Lib.Bytes

/-!
# C strings in a memory

`CString.Holds mem s`: the memory starts with the bytes of `s`, none of them NUL, and a NUL.

* `strlen_eq`: `strlen` is the length of the string that is held.
* `Holds.strncat`: appending up to `n` bytes of a source adds its bytes before the first NUL.
-/

namespace CString

open Bytes Buffer List

structure Holds (mem : Nat → UInt8) (s : Bytes) : Prop where
  slice_eq : slice mem 0 (s.length + 1) = s ++ [0]
  noNul : (0 : UInt8) ∉ s

/-- The first NUL, which is looked for below `bound`. -/
def strlen (bound : Nat) (mem : Nat → UInt8) : Nat :=
  ((List.range bound).find? fun i => mem i = 0).getD bound

/-- `strncat` to the string that ends at `len`: the NUL behind it is stored in any case. -/
def strncat (mem : Nat → UInt8) (len : Nat) (src : Bytes) (n : Nat) : Nat → UInt8 :=
  store mem len (cstr (src.take n) ++ [0])

theorem noNul_cstr (b : Bytes) : (0 : UInt8) ∉ cstr b := fun h => by
  simpa using mem_takeWhile_imp h

theorem cstr_eq_self_iff {b : Bytes} : cstr b = b ↔ (0 : UInt8) ∉ b := by
  rw [cstr, takeWhile_eq_self_iff]
  refine ⟨fun h h0 => by simpa using h 0 h0, fun h x hx => ?_⟩
  have hne : x ≠ 0 := fun h0 => h (h0 ▸ hx)
  simpa using hne

theorem cstr_append_zero (s r : Bytes) : cstr (s ++ 0 :: r) = cstr s := by
  rw [cstr, cstr]
  induction s with
  | nil => rfl
  | cons c s ih => rw [cons_append, takeWhile_cons, takeWhile_cons, ih]

theorem length_cstr_le (b : Bytes) : (cstr b).length ≤ b.length :=
  (takeWhile_sublist _).length_le

variable {mem : Nat → UInt8} {s : Bytes}

theorem Holds.get {i : Nat} (h : Holds mem s) (hi : i ≤ s.length) :
    mem i = (s ++ [0]).getD i 0 := by
  rw [← h.slice_eq, getD_eq_getElem?_getD, slice, List.getElem?_map,
    List.getElem?_range (Nat.lt_succ_of_le hi), Option.map_some, Option.getD_some, Nat.zero_add]

theorem strlen_eq {bound : Nat} (h : Holds mem s) (hlt : s.length < bound) :
    strlen bound mem = s.length := by
  have hfind : (List.range bound).find? (fun i => mem i = 0) = some s.length := by
    refine List.find?_range_eq_some.mpr ⟨?_, mem_range.mpr hlt, fun j hj => ?_⟩
    · rw [h.get (Nat.le_refl _), getD_append_right _ _ _ _ (Nat.le_refl _), Nat.sub_self]
      rfl
    · have hne : s[j] ≠ 0 := fun h0 => h.noNul (h0 ▸ getElem_mem hj)
      rw [h.get (Nat.le_of_lt hj), getD_append _ _ _ _ hj, getD_eq_getElem _ _ hj]
      simpa using hne
  rw [strlen, hfind]
  rfl

theorem holds_store_nul (mem : Nat → UInt8) : Holds (store mem 0 [0]) [] :=
  ⟨slice_store_self mem 0 [0], not_mem_nil⟩

theorem Holds.strncat (h : Holds mem s) (src : Bytes) (n : Nat) :
    Holds (strncat mem s.length src n) (s ++ cstr (src.take n)) := by
  have hslice : slice mem 0 s.length = s := by
    have hall := h.slice_eq
    rw [slice_add] at hall
    exact (List.append_inj hall (by rw [length_slice])).1
  refine ⟨?_, fun h0 => ?_⟩
  · have happ := slice_store_append mem 0 s.length (cstr (src.take n) ++ [0])
    rw [Nat.zero_add, hslice, ← append_assoc] at happ
    rw [CString.strncat, ← happ, length_append, length_append, length_singleton,
      Nat.add_assoc]
  · rcases mem_append.mp h0 with h0 | h0
    · exact h.noNul h0
    · exact noNul_cstr _ h0

end CString
