import Phpce.Lib.Dll

/-!
# Linked lists with a tail and a count

A doubly linked list with a pointer to its last cell and the number of its cells. `add` links a cell
in behind the last one; `removeWhere` goes through the list and unlinks the cells whose data has a
property, saving the next cell before it does.

`Cells l xs`: the list is well formed, and its cells are `xs`.

* `Cells.add`, `Cells.unlink`: one cell is linked in or unlinked.
* `Cells.removeWhere`: the cells with the property are gone, the others keep their order.
* `Cells.toList`: what following the list reads.
-/

structure LList (α β : Type*) where
  links : Links α
  data : α → β
  head : Option α
  tail : Option α
  count : Nat

namespace LList

open List

variable {α β : Type*} [DecidableEq α]

def empty (links : Links α) (data : α → β) : LList α β := ⟨links, data, none, none, 0⟩

/-- The cell `x` is filled with `d` and linked in at the end. -/
def add (l : LList α β) (x : α) (d : β) : LList α β where
  links :=
    let links := (l.links.setPrev x l.tail).setNext x none
    match l.tail with
    | some last => links.setNext last (some x)
    | none => links
  data := Function.update l.data x d
  head := if l.tail = none then some x else l.head
  tail := some x
  count := l.count + 1

/-- The neighbours of the cell `x` are linked to each other. -/
def unlink (l : LList α β) (x : α) : LList α β :=
  let links := match l.links.prev x with
    | some p => l.links.setNext p (l.links.next x)
    | none => l.links
  { l with
    links := match l.links.next x with
      | some n => links.setPrev n (l.links.prev x)
      | none => links
    head := if l.links.prev x = none then l.links.next x else l.head
    tail := if l.links.next x = none then l.links.prev x else l.tail
    count := l.count - 1 }

/-- The loop of `removeWhere` from the cell `current`, for so many cells. -/
def removeFrom (p : β → Bool) : Nat → Option α → LList α β → LList α β
  | 0, _, l => l
  | _ + 1, none, l => l
  | fuel + 1, some x, l =>
    let next := l.links.next x
    removeFrom p fuel next (if p (l.data x) then l.unlink x else l)

def removeWhere (l : LList α β) (p : β → Bool) : LList α β := removeFrom p l.count l.head l

/-- So many cells from `start`. -/
def cellsFrom (l : LList α β) : Nat → Option α → List α
  | 0, _ => []
  | _ + 1, none => []
  | fuel + 1, some x => x :: l.cellsFrom fuel (l.links.next x)

def cells (l : LList α β) : List α := l.cellsFrom l.count l.head

def toList (l : LList α β) : List β := l.cells.map l.data

/-- The list is well formed, with the cells `xs`. -/
structure Cells (l : LList α β) (xs : List α) : Prop where
  isDll : l.links.IsDll l.head xs
  tail_eq : l.tail = xs.getLast?
  count_eq : l.count = xs.length

def WellFormed (l : LList α β) : Prop := ∃ xs, l.Cells xs

variable {l : LList α β} {xs as bs : List α} {x : α} {d : β} {p : β → Bool}

omit [DecidableEq α] in
theorem cells_empty (links : Links α) (data : α → β) : (empty links data).Cells [] :=
  ⟨Links.isDll_nil_iff.mpr rfl, rfl, rfl⟩

theorem Cells.add (h : l.Cells xs) (hx : x ∉ xs) : (l.add x d).Cells (xs ++ [x]) := by
  have hlast_ne : ∀ last, l.tail = some last → x ≠ last := fun last hlast heq =>
    hx (heq ▸ mem_of_getLast? (h.tail_eq ▸ hlast))
  have hnext : ∀ y, (l.add x d).links.next y =
      if l.tail = some y then some x else if y = x then none else l.links.next y := by
    intro y
    unfold LList.add
    cases htail : l.tail with
    | none => simp [Links.setNext_next]
    | some last => simp [Links.setNext_next, eq_comm (a := y)]
  have hne : ∀ y ∈ xs, y ≠ x := fun y hy heq => hx (heq ▸ hy)
  have hprev : ∀ y, (l.add x d).links.prev y = if y = x then l.tail else l.links.prev y := by
    intro y
    unfold LList.add
    cases htail : l.tail with
    | none => simp [Links.setPrev_prev]
    | some last => simp [Links.setPrev_prev]
  have hhead : (l.add x d).head = l.head.or (some x) := by
    have hor : l.tail = none ↔ l.head = none := by
      rw [h.tail_eq, h.isDll.head_eq, getLast?_eq_none_iff, List.head?_eq_none_iff]
    rw [LList.add]
    dsimp only
    split
    · rename_i hnone
      rw [hor.mp hnone]
      rfl
    · rename_i hsome
      rw [hor] at hsome
      rw [Option.or_of_isSome (Option.isSome_iff_ne_none.mpr hsome)]
  refine ⟨?_, (getLast?_concat ..).symm, ?_⟩
  · rw [hhead]
    apply h.isDll.pushBack hx
    · rw [hnext, if_neg fun heq => hlast_ne x heq rfl, if_pos rfl]
    · rw [hprev, if_pos rfl, h.tail_eq]
    · intro e he
      rw [hnext, if_pos (h.tail_eq.trans he)]
    · intro y hy
      rw [hprev, if_neg (hne y hy)]
    · intro y hy hlast
      rw [hnext, h.tail_eq, if_neg hlast, if_neg (hne y hy)]
  · rw [length_append, ← h.count_eq]
    rfl

theorem Cells.unlink (h : l.Cells (as ++ x :: bs)) : (l.unlink x).Cells (as ++ bs) := by
  obtain ⟨hx, hx'⟩ := h.isDll.links_at
  have hnd := h.isDll.nodup
  refine ⟨h.isDll.unlink rfl (fun y _ => ?_) fun y _ => ?_, ?_, ?_⟩
  · unfold LList.unlink
    cases hprev : l.links.prev x with
    | none => cases l.links.next x <;> simp
    | some p => cases l.links.next x <;> simp [Links.setNext_next, eq_comm]
  · unfold LList.unlink
    cases hnext : l.links.next x with
    | none => cases l.links.prev x <;> simp
    | some n => cases l.links.prev x <;> simp [Links.setPrev_prev, eq_comm]
  · rw [LList.unlink]
    dsimp only
    rw [hx', hx, h.tail_eq, getLast?_append, getLast?_append, getLast?_cons]
    cases bs with
    | nil => simp
    | cons b bs => simp [getLast?_cons]
  · have hcount := h.count_eq
    rw [length_append, length_cons] at hcount
    rw [LList.unlink, length_append]
    dsimp only
    omega

omit [DecidableEq α] in
theorem cellsFrom_eq {before : Option α} (h : l.links.Seg before xs none) :
    l.cellsFrom xs.length xs.head? = xs := by
  -- induction on the cells
  induction xs generalizing before with
  | nil => rfl
  | cons x xs ih =>
    obtain ⟨-, hnext, hrest⟩ := h
    rw [Option.or_none] at hnext
    rw [length_cons, List.head?_cons, cellsFrom, hnext, ih hrest]

omit [DecidableEq α] in
theorem Cells.cells_eq (h : l.Cells xs) : l.cells = xs := by
  rw [LList.cells, h.count_eq, h.isDll.head_eq]
  exact cellsFrom_eq h.isDll.seg

omit [DecidableEq α] in
theorem Cells.toList (h : l.Cells xs) : l.toList = xs.map l.data := by
  rw [LList.toList, h.cells_eq]

theorem Cells.toList_add (h : l.Cells xs) (hx : x ∉ xs) :
    (l.add x d).toList = l.toList ++ [d] := by
  have hdata : ∀ y ∈ xs, (l.add x d).data y = l.data y := fun y hy =>
    Function.update_of_ne (fun heq : y = x => hx (heq ▸ hy)) ..
  rw [(h.add hx).toList, h.toList, map_append, map_congr_left hdata, map_singleton]
  exact congrArg (List.map l.data xs ++ [·]) (Function.update_self ..)

@[simp]
theorem data_removeFrom (fuel : Nat) (current : Option α) :
    (removeFrom p fuel current l).data = l.data := by
  -- induction on the cells that are left
  induction fuel generalizing current l with
  | zero => rfl
  | succ fuel ih =>
    cases current with
    | none => rfl
    | some x =>
      rw [removeFrom, ih]
      split
      · rfl
      · rfl

theorem Cells.removeFrom (h : l.Cells (as ++ xs)) :
    (removeFrom p xs.length xs.head? l).Cells (as ++ xs.filter fun x => !p (l.data x)) := by
  -- induction on the cells that are left
  induction xs generalizing as l with
  | nil => exact h
  | cons x xs ih =>
    have hnext : l.links.next x = xs.head? := h.isDll.links_at.2
    rw [length_cons, List.head?_cons, LList.removeFrom, hnext]
    cases hp : p (l.data x) with
    | true =>
      rw [if_pos rfl, filter_cons_of_neg (by simp [hp])]
      exact ih h.unlink
    | false =>
      rw [if_neg Bool.false_ne_true, filter_cons_of_pos (by simp [hp])]
      have hstep : l.Cells ((as ++ [x]) ++ xs) := by
        rw [append_assoc]
        exact h
      have hrest := ih hstep
      rw [append_assoc] at hrest
      exact hrest

theorem Cells.removeWhere (h : l.Cells xs) :
    (l.removeWhere p).Cells (xs.filter fun x => !p (l.data x)) := by
  rw [LList.removeWhere, h.count_eq, h.isDll.head_eq]
  have hnil : l.Cells ([] ++ xs) := h
  exact Cells.removeFrom hnil

theorem Cells.toList_removeWhere (h : l.Cells xs) :
    (l.removeWhere p).toList = l.toList.filter fun d => !p d := by
  rw [h.removeWhere.toList, h.toList, filter_map, LList.removeWhere, data_removeFrom]
  rfl

end LList
