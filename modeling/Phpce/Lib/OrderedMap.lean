import Mathlib.Data.List.Nodup

/-!
# Maps in the order of insertion

A finite map as the list of its entries, each key once, oldest first. A new key is added behind
the entries, a known one keeps its place, and a key that is deleted and added again is a new one.

* `lookup_eq_some_iff`: what is read back.
* `entries_put_of_mem`, `entries_put_of_notMem`: what becomes of the order.
-/

/-- A map whose entries stand in the order in which their keys were inserted. -/
structure OrderedMap (κ β : Type*) where
  entries : List (κ × β)
  nodup : (entries.map Prod.fst).Nodup

namespace OrderedMap

open List

variable {κ β : Type*}

def keys (m : OrderedMap κ β) : List κ := m.entries.map Prod.fst

@[ext] theorem ext {m m' : OrderedMap κ β} (h : m.entries = m'.entries) : m = m' := by
  cases m
  cases m'
  cases h
  rfl

def empty : OrderedMap κ β := ⟨[], nodup_nil⟩

variable [DecidableEq κ] {m : OrderedMap κ β} {k k' : κ} {b : β}

def lookup (m : OrderedMap κ β) (k : κ) : Option β :=
  (m.entries.find? fun e => e.1 = k).map Prod.snd

theorem find?_of_mem {es : List (κ × β)} (hnd : (es.map Prod.fst).Nodup) (h : (k, b) ∈ es) :
    es.find? (fun e => e.1 = k) = some (k, b) := by
  induction es with
  | nil => cases h
  | cons e es ih =>
    rw [map_cons, nodup_cons] at hnd
    rcases mem_cons.mp h with rfl | h
    · simp
    · have hne : e.1 ≠ k := fun hek => hnd.1 (hek ▸ mem_map_of_mem h)
      rw [List.find?_cons_of_neg (by simpa using hne)]
      exact ih hnd.2 h

theorem lookup_eq_some_iff : m.lookup k = some b ↔ (k, b) ∈ m.entries := by
  constructor
  · intro h
    obtain ⟨⟨k', b'⟩, hfind, rfl⟩ := Option.map_eq_some_iff.mp h
    have hk : k' = k := by simpa using List.find?_some hfind
    exact hk ▸ mem_of_find?_eq_some hfind
  · intro h
    rw [lookup, find?_of_mem m.nodup h]
    rfl

theorem lookup_eq_none_iff : m.lookup k = none ↔ k ∉ m.keys := by
  rw [lookup, Option.map_eq_none_iff, List.find?_eq_none]
  simp only [keys, List.mem_map, not_exists, not_and, decide_eq_true_eq]

/-- Entries under other keys are left as they are, those of `k` get the value `b`. -/
def replace (k : κ) (b : β) (es : List (κ × β)) : List (κ × β) :=
  es.map fun e => if e.1 = k then (k, b) else e

@[simp] theorem map_fst_replace (es : List (κ × β)) :
    (replace k b es).map Prod.fst = es.map Prod.fst := by
  rw [replace, List.map_map]
  apply map_congr_left
  intro e _
  by_cases he : e.1 = k
  · simp [he]
  · simp [he]

/-- The value of a known key is overwritten where it stands, a new key goes to the end. -/
def put (m : OrderedMap κ β) (k : κ) (b : β) : OrderedMap κ β :=
  if h : k ∈ m.keys then ⟨replace k b m.entries, by rw [map_fst_replace]; exact m.nodup⟩
  else ⟨m.entries ++ [(k, b)], by
    rw [map_append]
    apply List.Nodup.append m.nodup (nodup_singleton k)
    exact disjoint_singleton.mpr h⟩

def add (m : OrderedMap κ β) (k : κ) (b : β) : OrderedMap κ β :=
  if k ∈ m.keys then m else m.put k b

def erase (m : OrderedMap κ β) (k : κ) : OrderedMap κ β where
  entries := m.entries.filter fun e => e.1 ≠ k
  nodup := m.nodup.sublist (filter_sublist.map Prod.fst)

theorem entries_put_of_mem (h : k ∈ m.keys) : (m.put k b).entries = replace k b m.entries := by
  rw [put, dif_pos h]

theorem entries_put_of_notMem (h : k ∉ m.keys) : (m.put k b).entries = m.entries ++ [(k, b)] := by
  rw [put, dif_neg h]

end OrderedMap
