import Phpce.Sort.Order

/-!
# Sort functions on memory

A run of a sort function on cells with any contents, of which a comparison function and the order
see a part only: the comparison function may answer by anything, and keep a state of its own.

* `SortFunc`: a sort function touches only cells of the array, and sorts by total preorders.
* `SortFunc.perm_seen`, `SortFunc.pairwise_seen`: what it leaves in the array.
* **`sortsArrays_zendSort`**: `zend_sort` on an array.
-/

namespace Phpce

open SwapProgram

universe u v

variable {β : Type*} {δ : Type v} {σ : Type*} {sort : Nat → Nat → SwapProgram Unit}
  {compar : σ → β → β → Int × σ} {swap : β → β → β × β} {see : β → Option δ}
  {le : δ → δ → Prop} {P : β → Prop} {s : σ} {mem : Nat → β} {base nmemb : Nat}

/-- `compar` answers by the total preorder `le` on what `see` sees. -/
structure Orders (compar : σ → β → β → Int × σ) (see : β → Option δ) (le : δ → δ → Prop) :
    Prop where
  total : ∀ x y, le x y ∨ le y x
  trans : ∀ x y z, le x y → le y z → le x z
  answers : ∀ s a b x y, see a = some x → see b = some y → (0 < (compar s a b).1 ↔ ¬le x y)

/-- A `sort_func_t`. -/
structure SortFunc (sort : Nat → Nat → SwapProgram Unit) : Prop where
  within : ∀ base nmemb, (sort base nmemb).Within (InArray base nmemb) fun _ => True
  sortedOn : ∀ {α : Type v} {gt : α → α → Bool} {le : α → α → Prop}, Compares gt le →
    ∀ base nmemb mem, SortedOn le ((sort base nmemb).exec gt mem).2 base (base + nmemb)

theorem sortFunc_zendSort : SortFunc.{v} zendSort := ⟨within_zendSort, sortedOn_zendSort⟩

/-- What `see` sees of the cells of an array. -/
def seen (see : β → Option δ) (mem : Nat → β) (base nmemb : Nat) : List δ :=
  (cells mem base nmemb).filterMap see

theorem SortFunc.perm_seen (hf : SortFunc.{v} sort) (hswap : Exchanges P see swap)
    (hmem : ∀ k, InArray base nmemb k → P (mem k)) :
    (seen see ((sort base nmemb).run compar swap s mem).2.2 base nmemb).Perm
      (seen see mem base nmemb) := by
  obtain ⟨-, -, e, hfix, he⟩ := (hf.within base nmemb).run_perm compar s hswap hmem
  have hperm : (cells (see ∘ ((sort base nmemb).run compar swap s mem).2.2) base nmemb).Perm
      (cells (see ∘ mem) base nmemb) := perm_cells hfix he
  have hseen : ∀ m : Nat → β, seen see m base nmemb =
      (cells (see ∘ m) base nmemb).filterMap id := by
    intro m
    unfold seen cells
    rw [List.filterMap_map, List.filterMap_map]
    rfl
  rw [hseen, hseen]
  exact hperm.filterMap id

/-- A total preorder on what is seen, with what is not seen before everything. -/
def LeSeen (le : δ → δ → Prop) : Option δ → Option δ → Prop
  | none, _ => True
  | some _, none => False
  | some x, some y => le x y

open Classical in
/-- What `compar` answers, by what is seen. -/
noncomputable def gtSeen (le : δ → δ → Prop) (x y : Option δ) : Bool := decide ¬LeSeen le x y

open Classical in
theorem gtSeen_iff {x y : Option δ} : gtSeen le x y = true ↔ ¬LeSeen le x y := decide_eq_true_iff

theorem Orders.compares (h : Orders compar see le) : Compares (gtSeen le) (LeSeen le) where
  total x y := by
    cases x with
    | none => exact .inl trivial
    | some x =>
      cases y with
      | none => exact .inr trivial
      | some y => exact h.total x y
  trans x y z hxy hyz := by
    cases x with
    | none => trivial
    | some x =>
      cases y with
      | none => exact hxy.elim
      | some y =>
        cases z with
        | none => exact hyz.elim
        | some z => exact h.trans x y z hxy hyz
  gt_iff _ _ := gtSeen_iff

theorem SortFunc.pairwise_seen (hf : SortFunc.{v} sort) (h : Orders compar see le)
    (hswap : Exchanges P see swap) (hsee : ∀ a, P a → ∃ x, see a = some x)
    (hmem : ∀ k, InArray base nmemb k → P (mem k)) :
    (seen see ((sort base nmemb).run compar swap s mem).2.2 base nmemb).Pairwise le := by
  have hanswers : ∀ s a b, P a → P b →
      decide (0 < (compar s a b).1) = gtSeen le (see a) (see b) := by
    intro s a b ha hb
    obtain ⟨x, hx⟩ := hsee a ha
    obtain ⟨y, hy⟩ := hsee b hb
    rw [Bool.eq_iff_iff, decide_eq_true_iff, gtSeen_iff, hx, hy]
    exact h.answers s a b x y hx hy
  have hrun := ((hf.within base nmemb).run_eq_exec (s := s) hswap hmem hanswers).2
  have hsorted := hf.sortedOn h.compares base nmemb (see ∘ mem)
  rw [← hrun] at hsorted
  unfold seen cells
  rw [List.pairwise_filterMap, List.pairwise_map]
  refine List.Pairwise.imp_of_mem ?_ (@List.pairwise_lt_range' base nmemb 1 (by decide))
  intro i j hi hj hij x hx y hy
  rw [List.mem_range'_1] at hi hj
  have hle := hsorted i j hi.1 hij hj.2
  rw [Function.comp_apply, Function.comp_apply, hx, hy] at hle
  exact hle

/-- What sorting an array is, with any comparison function and, for one that is a total preorder,
by its order. -/
structure SortsArrays (sort : Nat → Nat → SwapProgram Unit) : Prop where
  within : ∀ base nmemb, (sort base nmemb).Within (InArray base nmemb) fun _ => True
  permutes : ∀ {α : Type v} {σ : Type u} (compar : σ → α → α → Int × σ) s mem base nmemb,
    (cells ((sort base nmemb).run compar (fun a b => (b, a)) s mem).2.2 base nmemb).Perm
        (cells mem base nmemb) ∧
      ∀ k, ¬InArray base nmemb k →
        ((sort base nmemb).run compar (fun a b => (b, a)) s mem).2.2 k = mem k
  sorts : ∀ {α : Type v} {σ : Type u} (compar : σ → α → α → Int × σ) s mem base nmemb le,
    Orders compar some le →
      (cells ((sort base nmemb).run compar (fun a b => (b, a)) s mem).2.2 base nmemb).Pairwise le

theorem SortFunc.sortsArrays (hf : SortFunc.{v} sort) : SortsArrays.{u, v} sort := by
  have hswap : ∀ {α : Type v}, Exchanges (fun _ : α => True) some fun a b => (b, a) :=
    fun a b _ _ => ⟨⟨rfl, rfl⟩, trivial, trivial⟩
  have hseen : ∀ {α : Type v} (m : Nat → α) base nmemb,
      seen some m base nmemb = cells m base nmemb := fun m base nmemb => List.filterMap_some
  refine ⟨hf.within, fun compar s mem base nmemb => ⟨?_, fun k hk => ?_⟩,
    fun compar s mem base nmemb le h => ?_⟩
  · rw [← hseen, ← hseen mem]
    exact hf.perm_seen hswap fun _ _ => trivial
  · exact (hf.within base nmemb).run_outside hk
  · rw [← hseen]
    exact hf.pairwise_seen h hswap (fun a _ => ⟨a, rfl⟩) fun _ _ => trivial

theorem sortsArrays_zendSort : SortsArrays.{u, v} zendSort := sortFunc_zendSort.sortsArrays

end Phpce
