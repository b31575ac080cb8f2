import Mathlib.Data.List.Nodup
import Mathlib.Data.List.Perm.Subperm

/-!
# A table of slots with a hint

A fixed number of slots, each free or holding a value. `alloc` takes the slot that the hint names if
it is free, and searches the table otherwise; the next hint is the slot behind it, or the first one.
`free` names the slot that it frees.

`t.HeldBy is` says that the slots in `is`, all different, are those that are not free.

* `exists_alloc`: a table with fewer holders than slots has a slot to give out.
* `HeldBy.alloc`, `HeldBy.free`: an operation gives a slot to a new holder, or takes it back.
-/

structure SlotTable (α : Type*) where
  slots : List (Option α)
  hint : Nat
  deriving Repr

namespace SlotTable

open List

variable {α : Type*} {t t' : SlotTable α} {a : α} {i j : Nat} {is : List Nat}

/-- `n` free slots. -/
def empty (n : Nat) : SlotTable α := ⟨List.replicate n none, 0⟩

def size (t : SlotTable α) : Nat := t.slots.length

def value (t : SlotTable α) (i : Nat) : Option α := t.slots[i]?.join

def pick (t : SlotTable α) : Option Nat :=
  match t.slots[t.hint]? with
  | some none => some t.hint
  | _ => t.slots.findIdx? Option.isNone

def alloc (t : SlotTable α) (a : α) : Option (Nat × SlotTable α) :=
  t.pick.map fun i =>
    (i, ⟨t.slots.set i (some a), if t.slots.length ≤ i + 1 then 0 else i + 1⟩)

def free (t : SlotTable α) (i : Nat) : SlotTable α :=
  if i < t.slots.length then ⟨t.slots.set i none, i⟩ else t

/-- What a slot in use holds is changed. -/
def update (t : SlotTable α) (i : Nat) (f : α → α) : SlotTable α :=
  { t with slots := t.slots.modify i (Option.map f) }

/-- The slots in `is` are those in use. -/
structure HeldBy (t : SlotTable α) (is : List Nat) : Prop where
  nodup : is.Nodup
  mem_iff : ∀ i, i ∈ is ↔ ∃ a, t.slots[i]? = some (some a)

theorem HeldBy.lt_size (h : t.HeldBy is) (hi : i ∈ is) : i < t.size := by
  obtain ⟨a, ha⟩ := (h.mem_iff i).mp hi
  exact (List.getElem?_eq_some_iff.mp ha).1

theorem heldBy_empty (n : Nat) : (empty n : SlotTable α).HeldBy [] where
  nodup := nodup_nil
  mem_iff i := by
    simp only [empty, List.getElem?_replicate, not_mem_nil, false_iff, not_exists]
    intro a
    split <;> simp

theorem pick_eq_some (h : t.pick = some i) : t.slots[i]? = some none := by
  unfold pick at h
  split at h
  · rename_i hnone
    rw [← Option.some.inj h]
    exact hnone
  · obtain ⟨hlt, hnone, -⟩ := List.findIdx?_eq_some_iff_getElem.mp h
    rw [List.getElem?_eq_getElem hlt, Option.isNone_iff_eq_none.mp hnone]

theorem HeldBy.exists_free (h : t.HeldBy is) (hlt : is.length < t.size) :
    ∃ i : Nat, t.slots[i]? = some none := by
  by_contra hfull
  -- every slot is in use, so there are as many holders as slots
  have hsubset : List.range t.size ⊆ is := by
    intro i hi
    have hsize : i < t.slots.length := mem_range.mp hi
    apply (h.mem_iff i).mpr
    cases hslot : t.slots[i] with
    | none => exact absurd ⟨i, by rw [List.getElem?_eq_getElem hsize, hslot]⟩ hfull
    | some a => exact ⟨a, by rw [List.getElem?_eq_getElem hsize, hslot]⟩
  have hle := (nodup_range.subperm hsubset).length_le
  rw [length_range] at hle
  omega

theorem exists_alloc (h : t.HeldBy is) (hlt : is.length < t.size) (a : α) :
    ∃ i t', t.alloc a = some (i, t') := by
  obtain ⟨i, hi⟩ := h.exists_free hlt
  have hpick : t.pick ≠ none := by
    unfold pick
    split
    · simp
    · intro hnone
      have hused := List.findIdx?_eq_none_iff.mp hnone none (mem_of_getElem? hi)
      simp at hused
  obtain ⟨j, hj⟩ := Option.ne_none_iff_exists'.mp hpick
  exact ⟨j, _, by rw [alloc, hj]; rfl⟩

theorem alloc_eq_some (h : t.alloc a = some (i, t')) :
    t.slots[i]? = some none ∧ t'.slots = t.slots.set i (some a) := by
  obtain ⟨j, hpick, hj⟩ := Option.map_eq_some_iff.mp h
  obtain ⟨rfl, rfl⟩ := Prod.mk.inj hj
  exact ⟨pick_eq_some hpick, rfl⟩

theorem size_alloc (h : t.alloc a = some (i, t')) : t'.size = t.size := by
  rw [size, (alloc_eq_some h).2, length_set]
  rfl

theorem size_free : (t.free i).size = t.size := by
  unfold free
  split
  · exact length_set
  · rfl

theorem size_update {f : α → α} : (t.update i f).size = t.size := length_modify ..

theorem HeldBy.alloc (h : t.HeldBy is) (halloc : t.alloc a = some (i, t')) :
    t'.HeldBy (i :: is) := by
  obtain ⟨hfree, hset⟩ := alloc_eq_some halloc
  have hsize : i < t.slots.length := (List.getElem?_eq_some_iff.mp hfree).1
  have hnot : i ∉ is := by
    intro hi
    obtain ⟨b, hb⟩ := (h.mem_iff i).mp hi
    rw [hfree] at hb
    cases hb
  refine ⟨nodup_cons.mpr ⟨hnot, h.nodup⟩, fun j => ?_⟩
  rw [hset]
  by_cases hj : i = j
  · rw [← hj, List.getElem?_set_self hsize]
    exact ⟨fun _ => ⟨a, rfl⟩, fun _ => mem_cons_self⟩
  · rw [List.getElem?_set_ne hj, ← h.mem_iff j, mem_cons]
    exact ⟨fun hmem => hmem.resolve_left (Ne.symm hj), .inr⟩

theorem HeldBy.free (h : t.HeldBy is) (hi : i ∈ is) : (t.free i).HeldBy (is.erase i) := by
  have hsize : i < t.slots.length := h.lt_size hi
  refine ⟨h.nodup.erase i, fun j => ?_⟩
  rw [h.nodup.mem_erase_iff, SlotTable.free, if_pos hsize]
  dsimp only
  by_cases hj : i = j
  · rw [← hj, List.getElem?_set_self hsize]
    simp
  · rw [List.getElem?_set_ne hj, ← h.mem_iff j]
    exact ⟨fun hmem => hmem.2, fun hmem => ⟨Ne.symm hj, hmem⟩⟩

theorem map_erase_of_nodup {ι : Type*} [DecidableEq ι] {slot : ι → Nat} {x : ι} {xs : List ι}
    (hnodup : (xs.map slot).Nodup) (hx : x ∈ xs) :
    (xs.erase x).map slot = (xs.map slot).erase (slot x) := by
  -- induction on the holders
  induction xs with
  | nil => exact absurd hx not_mem_nil
  | cons y ys ih =>
    rw [map_cons, nodup_cons] at hnodup
    by_cases hxy : y = x
    · rw [hxy, erase_cons_head, map_cons, erase_cons_head]
    · have hys : x ∈ ys := (mem_cons.mp hx).resolve_left (Ne.symm hxy)
      have hne : slot y ≠ slot x := fun heq => hnodup.1 (heq ▸ mem_map_of_mem hys)
      rw [erase_cons_tail (by simpa using hxy), map_cons, map_cons,
        erase_cons_tail (by simpa using hne), ih hnodup.2 hys]

theorem HeldBy.update (h : t.HeldBy is) (i : Nat) (f : α → α) : (t.update i f).HeldBy is := by
  refine ⟨h.nodup, fun j => ?_⟩
  rw [h.mem_iff j, SlotTable.update]
  dsimp only
  by_cases hj : i = j
  · rw [← hj, List.getElem?_modify_eq]
    cases t.slots[i]? with
    | none => simp
    | some slot => cases slot <;> simp
  · rw [List.getElem?_modify_ne (Option.map f) t.slots hj]

end SlotTable
