import Phpce.Lib.Buffer

/-!
# Arenas

An arena keeps copies of lists of cells in segments: a copy goes behind those of the newest
segment, or into a new segment. A pointer is the address of a segment and an offset.

* **`Holds.put`**, **`Holds.push`** — a copy stays where it is and what it is.
* **`holds_put`** — the new copy.
* **`Inside.put`** — no copy reaches over the end of its segment.
-/

/-- A segment that is filled up to `pos`. -/
structure Segment where
  addr : Nat
  pos : Nat
  size : Nat
  deriving DecidableEq, Repr

structure Arena (α : Type*) where
  seg : Segment
  older : List Segment
  mem : Nat → Nat → α

namespace Arena

open Buffer List

variable {α : Type*}

def segments (a : Arena α) : List Segment := a.seg :: a.older

/-- A new segment. -/
def push (a : Arena α) (addr size : Nat) : Arena α :=
  { a with seg := ⟨addr, 0, size⟩, older := a.seg :: a.older }

/-- A copy in the newest segment, and the pointer to it. -/
def put (a : Arena α) (data : List α) : Arena α × (Nat × Nat) :=
  ({ a with
      seg := { a.seg with pos := a.seg.pos + data.length }
      mem := Function.update a.mem a.seg.addr (store (a.mem a.seg.addr) a.seg.pos data) },
    (a.seg.addr, a.seg.pos))

/-- The `n` cells at a pointer. -/
def read (a : Arena α) (p : Nat × Nat) (n : Nat) : List α := slice (a.mem p.1) p.2 n

/-- The copy of `data` at a pointer. -/
def Holds (a : Arena α) (p : Nat × Nat) (data : List α) : Prop :=
  (∃ s ∈ a.segments, s.addr = p.1 ∧ p.2 + data.length ≤ s.pos) ∧ a.read p data.length = data

def Separate (a : Arena α) : Prop := (a.segments.map Segment.addr).Nodup

def Inside (a : Arena α) : Prop := ∀ s ∈ a.segments, s.pos ≤ s.size

variable {a : Arena α} {addr size : Nat} {p : Nat × Nat} {data data' : List α}

theorem Separate.push (h : a.Separate) (hnew : ∀ s ∈ a.segments, s.addr ≠ addr) :
    (a.push addr size).Separate := by
  refine nodup_cons.mpr ⟨fun hmem => ?_, h⟩
  obtain ⟨s, hs, haddr⟩ := List.mem_map.mp hmem
  exact hnew s hs haddr

theorem Separate.put (h : a.Separate) : (a.put data).1.Separate := h

theorem Inside.push (h : a.Inside) : (a.push addr size).Inside :=
  forall_mem_cons.mpr ⟨Nat.zero_le _, h⟩

theorem Inside.put (h : a.Inside) (hroom : a.seg.pos + data.length ≤ a.seg.size) :
    (a.put data).1.Inside :=
  forall_mem_cons.mpr ⟨hroom, (forall_mem_cons.mp h).2⟩

theorem Holds.push (h : a.Holds p data) : (a.push addr size).Holds p data := by
  obtain ⟨⟨s, hs, haddr, hle⟩, hread⟩ := h
  exact ⟨⟨s, mem_cons_of_mem _ hs, haddr, hle⟩, hread⟩

theorem Holds.put (hsep : a.Separate) (h : a.Holds p data) : (a.put data').1.Holds p data := by
  obtain ⟨⟨s, hs, haddr, hle⟩, hread⟩ := h
  by_cases hp : p.1 = a.seg.addr
  · have hseg : s = a.seg := by
      rcases mem_cons.mp hs with rfl | hs
      · rfl
      · refine absurd (List.mem_map.mpr ⟨s, hs, ?_⟩) (nodup_cons.mp hsep).1
        rw [haddr, hp]
    subst hseg
    refine ⟨⟨_, mem_cons_self, haddr, Nat.le_trans hle (Nat.le_add_right _ _)⟩, ?_⟩
    rw [read, Arena.put, hp]
    dsimp only
    rw [Function.update_self, slice_store_before hle, ← hp]
    exact hread
  · refine ⟨⟨s, ?_, haddr, hle⟩, ?_⟩
    · rcases mem_cons.mp hs with rfl | hs
      · exact absurd haddr.symm hp
      · exact mem_cons_of_mem _ hs
    · rw [read, Arena.put]
      dsimp only
      rw [Function.update_of_ne hp]
      exact hread

theorem holds_put (a : Arena α) (data : List α) : (a.put data).1.Holds (a.put data).2 data := by
  refine ⟨⟨_, mem_cons_self, rfl, Nat.le_refl _⟩, ?_⟩
  rw [read, put]
  dsimp only
  rw [Function.update_self, slice_store_self]

theorem Holds.read_append {data₁ data₂ : List α} (h : a.Holds p (data₁ ++ data₂)) :
    a.read p data₁.length = data₁ := by
  have hread := h.2
  rw [read, length_append, slice_add] at hread
  exact (List.append_inj hread length_slice).1

end Arena
