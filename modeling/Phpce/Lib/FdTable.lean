import Mathlib.Data.List.Basic
import Mathlib.Logic.Function.Basic

/-!
# The descriptors of a process

The kernel's table of open descriptors: who holds each of them. A new descriptor gets the lowest
number that is free.
-/

/-- A table of open descriptors. All of them are below `bound`. -/
structure FdTable (α : Type*) where
  holder : Nat → Option α
  bound : Nat
  free_of_le : ∀ fd, bound ≤ fd → holder fd = none

namespace FdTable

variable {α : Type*} {t : FdTable α} {fd fd' : Nat} {a : α}

/-- The table in which the numbers below `n` are held by `a`. -/
def initial (n : Nat) (a : α) : FdTable α where
  holder fd := if fd < n then some a else none
  bound := n
  free_of_le _ h := if_neg (Nat.not_lt.mpr h)

def lowestFree (t : FdTable α) : Nat :=
  ((List.range t.bound).find? fun fd => (t.holder fd).isNone).getD t.bound

/-- The lowest free number is given to `a`. -/
def install (t : FdTable α) (a : α) : FdTable α where
  holder := Function.update t.holder t.lowestFree (some a)
  bound := max t.bound (t.lowestFree + 1)
  free_of_le fd h := by
    have hne : fd ≠ t.lowestFree := by omega
    rw [Function.update_of_ne hne]
    exact t.free_of_le fd (by omega)

/-- `close` of a number, which may be free already. -/
def close (t : FdTable α) (fd : Nat) : FdTable α where
  holder := Function.update t.holder fd none
  bound := t.bound
  free_of_le fd' h := by
    by_cases hfd : fd' = fd
    · rw [hfd, Function.update_self]
    · rw [Function.update_of_ne hfd]
      exact t.free_of_le fd' h

theorem holder_lowestFree : t.holder t.lowestFree = none := by
  unfold lowestFree
  cases hfind : (List.range t.bound).find? fun fd => (t.holder fd).isNone with
  | none => exact t.free_of_le _ (Nat.le_refl _)
  | some fd =>
    have hfree := List.find?_some hfind
    simpa using hfree

theorem holder_install (h : t.holder fd = some a) (a' : α) : (t.install a').holder fd = some a := by
  have hne : fd ≠ t.lowestFree := by
    rintro rfl
    rw [holder_lowestFree] at h
    cases h
  exact (Function.update_of_ne hne _ _).trans h

theorem holder_install_self : (t.install a).holder t.lowestFree = some a :=
  Function.update_self ..

theorem holder_close (h : t.holder fd = some a) (hne : fd ≠ fd') :
    (t.close fd').holder fd = some a :=
  (Function.update_of_ne hne _ _).trans h

end FdTable
