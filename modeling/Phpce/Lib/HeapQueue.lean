import Mathlib.Data.List.Perm.Basic
import Phpce.Lib.Dll

/-!
# Queues of allocated cells

A doubly linked queue whose cells are allocated when an item is put in and freed when it is taken
out. Allocations are numbered: a number stands for one allocation, also when the memory is given
out again later. `live` are the cells that are allocated and not freed.

`q.Holds xs`: the cells of the queue are `xs`, they are the live ones, and no two items are equal.

* `Holds.find_eq`: looking an item up.
* `Holds.push`, `Holds.unlink`: a cell is linked in at the front, or taken out from anywhere.
-/

structure HeapQueue (ι : Type*) where
  links : Links Nat
  item : Nat → ι
  head : Option Nat
  live : List Nat
  fresh : Nat

namespace HeapQueue

open List

variable {ι : Type*}

def empty (links : Links Nat) (item : Nat → ι) : HeapQueue ι := ⟨links, item, none, [], 0⟩

/-- The first cell with the item `e` among so many cells from `start`. -/
def find [DecidableEq ι] (q : HeapQueue ι) (e : ι) : Nat → Option Nat → Option Nat
  | 0, _ => none
  | _ + 1, none => none
  | fuel + 1, some x => if q.item x = e then some x else q.find e fuel (q.links.next x)

/-- A new cell with the item `e` is linked in at the front. -/
def push (q : HeapQueue ι) (e : ι) : HeapQueue ι where
  links :=
    let links := (q.links.setPrev q.fresh none).setNext q.fresh none
    match q.head with
    | some h => (links.setPrev h (some q.fresh)).setNext q.fresh q.head
    | none => links
  item := Function.update q.item q.fresh e
  head := some q.fresh
  live := q.fresh :: q.live
  fresh := q.fresh + 1

/-- The cell `x` is unlinked and freed. -/
def unlink (q : HeapQueue ι) (x : Nat) : HeapQueue ι :=
  let left := match q.links.prev x with
    | some p => q.links.setNext p (q.links.next x)
    | none => q.links
  let right := match left.next x with
    | some n => left.setPrev n (left.prev x)
    | none => left
  { q with
    links :=
      if q.head = some x then
        match right.next x with
        | some h => right.setPrev h none
        | none => right
      else right
    head := if q.head = some x then right.next x else q.head
    live := q.live.erase x }

/-- The queue is well formed, with the cells `xs`. -/
structure Holds (q : HeapQueue ι) (xs : List Nat) : Prop where
  isDll : q.links.IsDll q.head xs
  live : q.live.Perm xs
  fresh : ∀ x ∈ xs, x < q.fresh
  items : (xs.map q.item).Nodup

/-- The queue is well formed, with the items `es`. -/
def Lists (q : HeapQueue ι) (es : List ι) : Prop := ∃ xs, q.Holds xs ∧ xs.map q.item = es

variable {q : HeapQueue ι} {xs as bs : List Nat} {x : Nat} {e : ι} {es : List ι}

theorem holds_empty (links : Links Nat) (item : Nat → ι) : (empty links item).Holds [] :=
  ⟨Links.isDll_nil_iff.mpr rfl, List.Perm.refl [], by simp, nodup_nil⟩

theorem Lists.nodup (h : q.Lists es) : es.Nodup := by
  obtain ⟨xs, hxs, rfl⟩ := h
  exact hxs.items

theorem Holds.length_live (h : q.Holds xs) : q.live.length = xs.length := h.live.length_eq

theorem Holds.mem_map_iff {ys : List Nat} (h : q.Holds xs) (h' : q.Holds ys) :
    e ∈ xs.map q.item ↔ e ∈ ys.map q.item :=
  ((h.live.symm.trans h'.live).map q.item).mem_iff

section Operations

variable [DecidableEq ι]

theorem find_seg {before : Option Nat} (h : q.links.Seg before xs none) :
    q.find e xs.length xs.head? = xs.find? fun x => q.item x = e := by
  -- induction on the cells
  induction xs generalizing before with
  | nil => rfl
  | cons x xs ih =>
    obtain ⟨-, hnext, hrest⟩ := h
    rw [Option.or_none] at hnext
    rw [length_cons, List.head?_cons, find, hnext, ih hrest]
    rw [List.find?_cons]
    by_cases he : q.item x = e
    · simp [he]
    · simp [he]

theorem Holds.find_eq (h : q.Holds xs) :
    q.find e q.live.length q.head = xs.find? fun x => q.item x = e := by
  rw [h.length_live, h.isDll.head_eq]
  exact find_seg h.isDll.seg

theorem Lists.find_isSome (h : q.Lists es) :
    (q.find e q.live.length q.head).isSome = true ↔ e ∈ es := by
  obtain ⟨xs, hxs, rfl⟩ := h
  rw [hxs.find_eq, List.find?_isSome, List.mem_map]
  simp

end Operations

theorem Holds.push (h : q.Holds xs) (he : e ∉ xs.map q.item) :
    (q.push e).Holds (q.fresh :: xs) := by
  have hnew : q.fresh ∉ xs := fun hmem => Nat.lt_irrefl _ (h.fresh _ hmem)
  have hne : ∀ y ∈ xs, y ≠ q.fresh := fun y hy heq => hnew (heq ▸ hy)
  have hitem : ∀ y ∈ xs, (q.push e).item y = q.item y := fun y hy =>
    Function.update_of_ne (hne y hy) ..
  have hhead : ∀ y, q.head = some y → y ∈ xs := fun y hy =>
    mem_of_head? (h.isDll.head_eq ▸ hy)
  have hnext : ∀ y, (q.push e).links.next y =
      if y = q.fresh then q.head else q.links.next y := by
    intro y
    unfold HeapQueue.push
    cases q.head with
    | none => simp [Links.setNext_next]
    | some z =>
      by_cases hy : y = q.fresh
      · simp [hy]
      · simp [Links.setNext_next, hy]
  have hprev : ∀ y, (q.push e).links.prev y =
      if q.head = some y then some q.fresh else if y = q.fresh then none else q.links.prev y := by
    intro y
    unfold HeapQueue.push
    cases q.head with
    | none => simp [Links.setPrev_prev]
    | some z => simp [Links.setPrev_prev, eq_comm (a := y)]
  refine ⟨?_, List.Perm.cons _ h.live, ?_, ?_⟩
  · apply h.isDll.pushFront hnew
    · rw [hprev, if_neg fun hy => hnew (hhead _ hy), if_pos rfl]
    · rw [hnext, if_pos rfl]
    · intro y (hy : q.head = some y)
      rw [hprev, if_pos hy]
    · intro y hy
      rw [hnext, if_neg (hne y hy)]
    · intro y hy hy'
      rw [hprev, if_neg hy', if_neg (hne y hy)]
  · rintro y (_ | ⟨_, hy⟩)
    · exact Nat.lt_succ_self _
    · exact Nat.lt_succ_of_lt (h.fresh y hy)
  · rw [map_cons, map_congr_left hitem]
    refine nodup_cons.mpr ⟨?_, h.items⟩
    rw [show (q.push e).item q.fresh = e from Function.update_self ..]
    exact he

theorem map_item_push (h : q.Holds xs) :
    (q.fresh :: xs).map (q.push e).item = e :: xs.map q.item := by
  rw [map_cons, show (q.push e).item q.fresh = e from Function.update_self ..]
  have hitem : ∀ y ∈ xs, (q.push e).item y = q.item y := fun y hy =>
    Function.update_of_ne (Nat.ne_of_lt (h.fresh y hy)) ..
  rw [map_congr_left hitem]

theorem Lists.push (h : q.Lists es) (he : e ∉ es) : (q.push e).Lists (e :: es) := by
  obtain ⟨xs, hxs, rfl⟩ := h
  exact ⟨_, hxs.push he, map_item_push hxs⟩

theorem Holds.unlink (h : q.Holds (as ++ x :: bs)) : (q.unlink x).Holds (as ++ bs) := by
  obtain ⟨hx, hx'⟩ := h.isDll.links_at
  have hnd := h.isDll.nodup
  have hxas : x ∉ as := fun hmem => (nodup_append.mp hnd).2.2 x hmem x (by simp) rfl
  have hxbs : x ∉ bs := (nodup_cons.mp (nodup_append.mp hnd).2.1).1
  have hsub : as ++ bs ⊆ as ++ x :: bs := fun y hy => by
    rcases mem_append.mp hy with hy | hy
    · exact mem_append_left _ hy
    · exact mem_append_right _ (mem_cons_of_mem x hy)
  have hne : ∀ y ∈ as ++ bs, y ≠ x := by
    rintro y hy rfl
    rcases mem_append.mp hy with hy | hy
    · exact hxas hy
    · exact hxbs hy
  -- the first cell is the one without a cell before it
  have hfirst : q.head = some x ↔ q.links.prev x = none := by
    rw [hx, h.isDll.head_eq, List.head?_append]
    cases as with
    | nil => simp
    | cons a as =>
      have hax : a ≠ x := fun heq => hxas (heq ▸ mem_cons_self)
      simp [List.getLast?_cons, hax]
  have hself : q.links.prev x ≠ some x ∧ q.links.next x ≠ some x := by
    rw [hx, hx']
    exact ⟨fun heq => hxas (mem_of_getLast? heq), fun heq => hxbs (mem_of_head? heq)⟩
  refine ⟨h.isDll.unlink ?_ (fun y hy => ?_) fun y hy => ?_, ?_,
    fun y hy => h.fresh y (hsub hy), ?_⟩
  · unfold HeapQueue.unlink
    simp only [hfirst]
    cases hprev : q.links.prev x with
    | none => cases hnext : q.links.next x <;> simp [hnext]
    | some p => rfl
  · unfold HeapQueue.unlink
    have hyx := hne y hy
    simp only [hfirst]
    cases hprev : q.links.prev x with
    | none => cases hnext : q.links.next x <;> simp [hnext]
    | some p =>
      have hpx : x ≠ p := fun heq => hself.1 (heq ▸ hprev)
      cases hnext : q.links.next x <;> simp [hnext, Links.setNext_next, hpx, eq_comm]
  · unfold HeapQueue.unlink
    have hyx := hne y hy
    simp only [hfirst]
    cases hprev : q.links.prev x with
    | none =>
      cases hnext : q.links.next x with
      | none => simp [hnext]
      | some n =>
        by_cases hyn : n = y
        · simp [hnext, hprev, hyn]
        · simp [hnext, hprev, Links.setPrev_prev, Ne.symm hyn, eq_comm]
    | some p =>
      have hpx : x ≠ p := fun heq => hself.1 (heq ▸ hprev)
      cases hnext : q.links.next x <;>
        simp [hnext, hprev, Links.setNext_next, Links.setPrev_prev, hpx, eq_comm]
  · have hperm := h.live.erase x
    rwa [erase_append_right _ hxas, erase_cons_head] at hperm
  · exact h.items.sublist (((List.Sublist.refl as).append (sublist_cons_self x bs)).map _)

theorem Holds.unlink_of_find [DecidableEq ι] (h : q.Holds xs)
    (hfind : q.find e q.live.length q.head = some x) :
    (q.unlink x).Holds (xs.filter fun y => q.item y ≠ e) := by
  rw [h.find_eq] at hfind
  have hx : q.item x = e := by simpa using List.find?_some hfind
  obtain ⟨as, bs, rfl⟩ := append_of_mem (mem_of_find?_eq_some hfind)
  have hnd := h.items
  rw [map_append, map_cons, nodup_append, nodup_cons] at hnd
  obtain ⟨-, ⟨hbs, -⟩, hdisj⟩ := hnd
  have has : ∀ y ∈ as, decide (q.item y ≠ e) = true := fun y hy => by
    have hne := hdisj _ (mem_map_of_mem hy) _ mem_cons_self
    simpa [hx] using hne
  have hbs' : ∀ y ∈ bs, decide (q.item y ≠ e) = true := fun y hy => by
    have hne : q.item y ≠ q.item x := fun heq => hbs (heq ▸ mem_map_of_mem hy)
    simpa [hx] using hne
  rw [filter_append, filter_cons_of_neg (by simp [hx]), filter_eq_self.mpr has,
    filter_eq_self.mpr hbs']
  exact h.unlink

theorem Holds.filter_of_find_eq_none [DecidableEq ι] (h : q.Holds xs)
    (hfind : q.find e q.live.length q.head = none) :
    (xs.filter fun y => q.item y ≠ e) = xs := by
  rw [h.find_eq, List.find?_eq_none] at hfind
  exact filter_eq_self.mpr fun y hy => by simpa using hfind y hy

theorem Holds.next_unlink (h : q.Holds (as ++ x :: bs)) :
    (q.unlink x).links.next x = bs.head? := by
  obtain ⟨hx, hx'⟩ := h.isDll.links_at
  have hxas : x ∉ as := fun hmem =>
    (nodup_append.mp h.isDll.nodup).2.2 x hmem x (by simp) rfl
  rw [← hx', HeapQueue.unlink]
  cases hprev : q.links.prev x with
  | none =>
    cases hnext : q.links.next x <;> by_cases hhead : q.head = some x <;> simp [hnext, hhead]
  | some p =>
    have hpx : x ≠ p := fun heq => hxas (mem_of_getLast? (hx ▸ heq ▸ hprev))
    cases hnext : q.links.next x <;> by_cases hhead : q.head = some x <;>
      simp [hnext, hhead, Links.setNext_next, hpx]

end HeapQueue
