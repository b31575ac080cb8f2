import Mathlib.Data.List.Pairwise

/-!
# The stack of a C program

Activations of functions get a number each, upwards. A frame is entered on top of the stack and
left when its function returns; a `longjmp` leaves all frames above its target.

* **`Dead.enter`**, **`Dead.leave`**, **`Dead.unwindTo`** — the frame of a function that has
  returned never becomes active again.
-/

/-- The active frames, the innermost first, and the number of the next one. -/
structure CStack where
  active : List Nat
  next : Nat
  sorted : (next :: active).Pairwise (· > ·)

namespace CStack

open List

variable {s : CStack} {f g : Nat}

def empty : CStack where
  active := []
  next := 0
  sorted := List.pairwise_singleton _ _

theorem lt_next (h : f ∈ s.active) : f < s.next :=
  rel_of_pairwise_cons s.sorted h

/-- A function is called; its frame gets the number `s.next`. -/
def enter (s : CStack) : CStack where
  active := s.next :: s.active
  next := s.next + 1
  sorted := by
    refine List.pairwise_cons.mpr ⟨fun f hf => ?_, s.sorted⟩
    rcases List.mem_cons.mp hf with rfl | hf
    · exact Nat.lt_succ_self _
    · exact Nat.lt_succ_of_lt (lt_next hf)

def leave (s : CStack) : CStack where
  active := s.active.tail
  next := s.next
  sorted := s.sorted.sublist ((List.tail_sublist _).cons_cons _)

/-- `longjmp` to a `setjmp` in the frame `f`. -/
def unwindTo (s : CStack) (f : Nat) : CStack where
  active := s.active.dropWhile (· ≠ f)
  next := s.next
  sorted := s.sorted.sublist ((List.dropWhile_sublist _).cons_cons _)

structure Dead (s : CStack) (f : Nat) : Prop where
  lt : f < s.next
  notMem : f ∉ s.active

@[simp] theorem active_enter : s.enter.active = s.next :: s.active := rfl

@[simp] theorem next_enter : s.enter.next = s.next + 1 := rfl

@[simp] theorem active_leave : s.leave.active = s.active.tail := rfl

@[simp] theorem next_leave : s.leave.next = s.next := rfl

@[simp] theorem active_unwindTo : (s.unwindTo f).active = s.active.dropWhile (· ≠ f) := rfl

@[simp] theorem next_unwindTo : (s.unwindTo f).next = s.next := rfl

@[simp] theorem unwindTo_next : s.enter.unwindTo s.next = s.enter := by
  simp [unwindTo, enter]

theorem unwindTo_enter (h : f ∈ s.active) :
    (s.enter.unwindTo f).active = (s.unwindTo f).active := by
  have hne : s.next ≠ f := Nat.ne_of_gt (lt_next h)
  rw [active_unwindTo, active_enter, dropWhile_cons_of_pos (by simpa using hne),
    active_unwindTo]

theorem Dead.enter (h : s.Dead f) : s.enter.Dead f where
  lt := Nat.lt_succ_of_lt h.lt
  notMem := by
    rw [active_enter, mem_cons, not_or]
    exact ⟨Nat.ne_of_lt h.lt, h.notMem⟩

theorem Dead.leave (h : s.Dead f) : s.leave.Dead f where
  lt := h.lt
  notMem hmem := h.notMem (mem_of_mem_tail hmem)

theorem dead_leave {rest : List Nat} (h : s.active = f :: rest) : s.leave.Dead f where
  lt := by
    have hmem : f ∈ s.active := h ▸ mem_cons_self
    exact (lt_next hmem : f < s.next)
  notMem hmem := by
    have hsorted := s.sorted
    rw [active_leave, h] at hmem
    rw [h] at hsorted
    exact absurd (rel_of_pairwise_cons hsorted.of_cons hmem) (Nat.lt_irrefl f)

theorem dead_unwindTo (h : f ∈ s.active) : (s.enter.unwindTo f).Dead s.next where
  lt := Nat.lt_succ_self _
  notMem hmem := by
    rw [unwindTo_enter h] at hmem
    have hmem : s.next ∈ s.active := (dropWhile_sublist _).subset hmem
    exact absurd (lt_next hmem) (Nat.lt_irrefl _)

end CStack
