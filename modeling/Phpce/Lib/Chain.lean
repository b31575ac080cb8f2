import Mathlib.Data.List.Nodup
import Mathlib.Logic.Function.Basic

/-!
# Singly linked lists threaded through a pointer memory

`IsChain next nil head xs`: following `next` from `head` meets the cells `xs`, in this order, and
then the null pointer `nil`.

* `IsChain.frame`: a chain reads only the `next` fields of its own cells.
* `IsChain.push`, `IsChain.bypass`: a cell is linked in at the head, or unlinked behind another.
* `search` is the loop that follows a chain up to the first cell with a property, with the cell
  before it; `IsChain.search_eq` says what it finds.
-/

namespace Chain

open List

variable {α : Type*}

def IsChain (next : α → α) (nil : α) : α → List α → Prop
  | head, [] => head = nil
  | head, x :: xs => head = x ∧ x ≠ nil ∧ IsChain next nil (next x) xs

section Cells

variable {next next' : α → α} {nil head : α} {x y : α} {xs ys : List α}

@[simp] theorem isChain_nil : IsChain next nil head [] ↔ head = nil := Iff.rfl

theorem IsChain.frame (h : IsChain next nil head xs) (hnext : ∀ x ∈ xs, next' x = next x) :
    IsChain next' nil head xs := by
  induction xs generalizing head with
  | nil => exact h
  | cons x xs ih =>
    refine ⟨h.1, h.2.1, ?_⟩
    rw [hnext x mem_cons_self]
    exact ih h.2.2 fun y hy => hnext y (mem_cons_of_mem x hy)

theorem IsChain.unique (hx : IsChain next nil head xs) (hy : IsChain next nil head ys) :
    xs = ys := by
  induction xs generalizing head ys with
  | nil =>
    cases ys with
    | nil => rfl
    | cons y ys => exact absurd (hy.1.symm.trans hx) hy.2.1
  | cons x xs ih =>
    cases ys with
    | nil => exact absurd (hx.1.symm.trans hy) hx.2.1
    | cons y ys =>
      have hxy : x = y := hx.1.symm.trans hy.1
      subst hxy
      rw [ih hx.2.2 hy.2.2]

theorem IsChain.suffix {as bs : List α} (h : IsChain next nil head (as ++ x :: bs)) :
    IsChain next nil (next x) bs := by
  induction as generalizing head with
  | nil => exact h.2.2
  | cons a as ih => exact ih h.2.2

theorem IsChain.nodup (h : IsChain next nil head xs) : xs.Nodup := by
  induction xs generalizing head with
  | nil => exact nodup_nil
  | cons x xs ih =>
    obtain ⟨-, -, hrest⟩ := h
    refine nodup_cons.mpr ⟨fun hx => ?_, ih hrest⟩
    -- the rest of the chain behind the second `x` would be the whole of it
    obtain ⟨as, bs, rfl⟩ := append_of_mem hx
    have hlen := congrArg List.length (hrest.unique hrest.suffix)
    rw [length_append, length_cons] at hlen
    omega

variable [DecidableEq α]

theorem IsChain.push (h : IsChain next nil head xs) (hx : x ≠ nil) (hfresh : x ∉ xs) :
    IsChain (Function.update next x head) nil x (x :: xs) := by
  refine ⟨rfl, hx, ?_⟩
  rw [Function.update_self]
  apply h.frame
  intro y hy
  exact Function.update_of_ne (show y ≠ x from fun hyx => hfresh (hyx ▸ hy)) _ _

theorem IsChain.bypass {as bs : List α} (h : IsChain next nil head (as ++ x :: y :: bs))
    (hnd : (as ++ x :: y :: bs).Nodup) :
    IsChain (Function.update next x (next y)) nil head (as ++ x :: bs) := by
  induction as generalizing head with
  | nil =>
    obtain ⟨hhead, hx, -, -, hrest⟩ := h
    refine ⟨hhead, hx, ?_⟩
    rw [Function.update_self]
    apply hrest.frame
    intro z hz
    have hxz : z ≠ x := by
      rintro rfl
      simp [hz] at hnd
    exact Function.update_of_ne hxz _ _
  | cons a as ih =>
    obtain ⟨hhead, ha, hrest⟩ := h
    obtain ⟨hnot, hnd⟩ := nodup_cons.mp hnd
    have hax : a ≠ x := by
      rintro rfl
      exact hnot (by simp)
    refine ⟨hhead, ha, ?_⟩
    rw [Function.update_of_ne hax]
    exact ih hrest hnd

end Cells

/-! ## The search loop -/

section Search

variable [DecidableEq α]

/-- The first cell of the chain from `x` with the property `p` and the cell before it. `none`: the
end of the chain is not met within `fuel` steps. -/
def search (next : α → α) (nil : α) (p : α → Bool) :
    (fuel : Nat) → (prev : Option α) → α → Option (Option (Option α × α))
  | 0, _, _ => none
  | fuel + 1, prev, x =>
      if x = nil then some none
      else if p x then some (some (prev, x))
      else search next nil p fuel (some x) (next x)

variable {next : α → α} {nil head x : α} {p : α → Bool} {prev : Option α} {xs as bs : List α}
  {fuel : Nat}

theorem search_nil (h : IsChain next nil head xs) (hfuel : xs.length < fuel)
    (hp : ∀ x ∈ xs, p x = false) : search next nil p fuel prev head = some none := by
  induction xs generalizing head prev fuel with
  | nil =>
    obtain ⟨fuel, rfl⟩ := Nat.exists_eq_succ_of_ne_zero (show fuel ≠ 0 by omega)
    rw [search, if_pos (isChain_nil.mp h)]
  | cons x xs ih =>
    obtain ⟨rfl, hx, hrest⟩ := h
    obtain ⟨fuel, rfl⟩ := Nat.exists_eq_succ_of_ne_zero (show fuel ≠ 0 by omega)
    rw [search, if_neg hx, if_neg (by simp [hp head mem_cons_self])]
    refine ih hrest ?_ fun y hy => hp y (mem_cons_of_mem _ hy)
    simpa using hfuel

theorem search_append (h : IsChain next nil head (as ++ x :: bs))
    (hfuel : (as ++ x :: bs).length < fuel) (has : ∀ y ∈ as, p y = false) (hx : p x = true) :
    search next nil p fuel prev head = some (some (as.getLast?.or prev, x)) := by
  induction as generalizing head prev fuel with
  | nil =>
    obtain ⟨rfl, hne, -⟩ := h
    obtain ⟨fuel, rfl⟩ := Nat.exists_eq_succ_of_ne_zero (show fuel ≠ 0 by omega)
    rw [search, if_neg hne, if_pos hx]
    rfl
  | cons a as ih =>
    obtain ⟨rfl, ha, hrest⟩ := h
    obtain ⟨fuel, rfl⟩ := Nat.exists_eq_succ_of_ne_zero (show fuel ≠ 0 by omega)
    rw [search, if_neg ha, if_neg (by simp [has head mem_cons_self])]
    have hlast : (head :: as).getLast?.or prev = as.getLast?.or (some head) := by
      cases as <;> simp [List.getLast?_cons]
    rw [hlast]
    refine ih hrest ?_ fun y hy => has y (mem_cons_of_mem _ hy)
    simpa using hfuel

theorem IsChain.search_eq (h : IsChain next nil head xs) (hfuel : xs.length < fuel) :
    (search next nil p fuel none head = some none ∧ ∀ x ∈ xs, p x = false) ∨
      ∃ as x bs, xs = as ++ x :: bs ∧ p x = true ∧ (∀ y ∈ as, p y = false) ∧
        search next nil p fuel none head = some (some (as.getLast?, x)) := by
  cases hfind : xs.find? p with
  | none =>
    refine .inl ?_
    have hp : ∀ x ∈ xs, p x = false := fun x hx => by
      simpa using List.find?_eq_none.mp hfind x hx
    exact ⟨search_nil h hfuel hp, hp⟩
  | some x =>
    refine .inr ?_
    obtain ⟨hx, as, bs, rfl, has⟩ := List.find?_eq_some_iff_append.mp hfind
    have hfirst : ∀ y ∈ as, p y = false := fun y hy => by simpa using has y hy
    refine ⟨as, x, bs, rfl, hx, hfirst, ?_⟩
    rw [search_append h hfuel hfirst hx, Option.or_none]

end Search

end Chain
