import Mathlib.Data.Option.Basic

/-!
# A one-shot interval timer

A timer that counts down the time that passes and expires once. Time is counted in the timer's
smallest unit.
-/

/-- The time so far, and the time that is left to a timer that runs. -/
structure IntervalTimer where
  now : Nat
  left : Option Nat
  deriving DecidableEq, Repr

namespace IntervalTimer

open Option

variable {t t' : IntervalTimer} {n : Nat}

def expiry (t : IntervalTimer) : Option Nat := t.left.map (t.now + ·)

def set (t : IntervalTimer) (n : Nat) : IntervalTimer :=
  { t with left := if n = 0 then none else some n }

/-- Time passes, at most up to the expiry: whether the timer has expired. -/
def elapse (t : IntervalTimer) (n : Nat) : Option (IntervalTimer × Bool) :=
  match t.left with
  | none => some ({ t with now := t.now + n }, false)
  | some left =>
      if n < left then some (⟨t.now + n, some (left - n)⟩, false)
      else if n = left then some (⟨t.now + n, none⟩, true)
      else none

theorem expiry_set (h : 0 < n) : (t.set n).expiry = some (t.now + n) := by
  simp [expiry, set, Nat.ne_of_gt h]

theorem elapse_cases {expired : Bool} (h : t.elapse n = some (t', expired)) :
    t'.now = t.now + n ∧
      (expired = false ∧ t.left = none ∧ t'.left = none ∨
        (∃ left, expired = false ∧ t.left = some left ∧ n < left ∧ t'.left = some (left - n)) ∨
        expired = true ∧ t.left = some n ∧ t'.left = none) := by
  unfold elapse at h
  split at h
  · rename_i hleft
    obtain ⟨rfl, rfl⟩ := Prod.mk.inj (some.inj h)
    exact ⟨rfl, .inl ⟨rfl, hleft, hleft⟩⟩
  · rename_i left hleft
    split at h
    · rename_i hlt
      obtain ⟨rfl, rfl⟩ := Prod.mk.inj (some.inj h)
      exact ⟨rfl, .inr (.inl ⟨left, rfl, hleft, hlt, rfl⟩)⟩
    · split at h
      · rename_i heq
        obtain ⟨rfl, rfl⟩ := Prod.mk.inj (some.inj h)
        exact ⟨rfl, .inr (.inr ⟨rfl, heq ▸ hleft, rfl⟩)⟩
      · cases h

theorem expiry_elapse (h : t.elapse n = some (t', false)) : t'.expiry = t.expiry := by
  obtain ⟨hnow, ⟨-, hleft, hleft'⟩ | ⟨left, -, hleft, hlt, hleft'⟩ | ⟨hexpired, -⟩⟩ :=
    elapse_cases h
  · rw [expiry, expiry, hleft, hleft']
    rfl
  · have hsum : t'.now + (left - n) = t.now + left := by omega
    rw [expiry, expiry, hleft, hleft', map_some, map_some, hsum]
  · cases hexpired

theorem elapse_expired (h : t.elapse n = some (t', true)) :
    t.left = some n ∧ t.expiry = some t'.now ∧ t'.expiry = none := by
  obtain ⟨hnow, ⟨hexpired, -⟩ | ⟨left, hexpired, -⟩ | ⟨-, hleft, hleft'⟩⟩ := elapse_cases h
  · cases hexpired
  · cases hexpired
  · refine ⟨hleft, ?_, ?_⟩
    · rw [expiry, hleft, map_some, hnow]
    · rw [expiry, hleft', map_none]

end IntervalTimer
