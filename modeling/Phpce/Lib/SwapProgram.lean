import Mathlib.Data.List.Nodup
import Mathlib.Data.List.Perm.Basic
import Mathlib.Data.Nat.Basic
import Mathlib.Logic.Equiv.Basic

/-!
# Programs that compare and exchange cells

A program that sorts in place asks for comparisons and for exchanges, and goes on by the answers.
It is the tree of what it does: each comparison has a branch for each answer, so that there is a
tree only for a program that ends whatever it is answered.

* `Within R Q`: whatever the answers are, only cells in `R` are touched, and the result has the
  property `Q`.
* `Within.run_perm`: the cells are permuted, for every comparison function.
* `Within.run_eq_exec`: a comparison function that always answers the same leads to what `exec`
  says.
-/

inductive SwapProgram (β : Type*) where
  | ret (b : β)
  -- whether the comparison of two cells is positive
  | compare (i j : Nat) (next : Bool → SwapProgram β)
  | exchange (i j : Nat) (next : SwapProgram β)

namespace SwapProgram

open List

open Function (comp_apply update_of_ne update_self)

universe u v

variable {β γ : Type u} {α : Type v} {δ σ : Type*} {R R' : Nat → Prop} {P : α → Prop}
  {Q : β → Prop} {S : γ → Prop} {i j n : Nat}

def bind : SwapProgram β → (β → SwapProgram γ) → SwapProgram γ
  | ret b, f => f b
  | compare i j next, f => compare i j fun gt => (next gt).bind f
  | exchange i j next, f => exchange i j (next.bind f)

instance : Monad SwapProgram where
  pure := ret
  bind := bind

def cmp (i j : Nat) : SwapProgram Bool := compare i j ret

def swp (i j : Nat) : SwapProgram Unit := exchange i j (ret ())

/-! ## Which cells are touched -/

/-- Whatever the answers are, the program touches cells in `R` only, and its result is in `Q`. -/
def Within (R : Nat → Prop) (Q : β → Prop) : SwapProgram β → Prop
  | ret b => Q b
  | compare i j next => R i ∧ R j ∧ ∀ gt, (next gt).Within R Q
  | exchange i j next => R i ∧ R j ∧ next.Within R Q

theorem within_pure {b : β} (h : Q b) : (pure b : SwapProgram β).Within R Q := h

theorem Within.mono {Q' : β → Prop} {p : SwapProgram β} (h : p.Within R Q)
    (hR : ∀ i, R i → R' i) (hQ : ∀ b, Q b → Q' b) : p.Within R' Q' := by
  induction p with
  | ret b => exact hQ b h
  | compare i j next ih => exact ⟨hR i h.1, hR j h.2.1, fun gt => ih gt (h.2.2 gt)⟩
  | exchange i j next ih => exact ⟨hR i h.1, hR j h.2.1, ih h.2.2⟩

theorem Within.bind {p : SwapProgram β} {f : β → SwapProgram γ} (h : p.Within R Q)
    (hf : ∀ b, Q b → (f b).Within R S) : (p >>= f).Within R S := by
  induction p with
  | ret b => exact hf b h
  | compare i j next ih => exact ⟨h.1, h.2.1, fun gt => ih gt (h.2.2 gt)⟩
  | exchange i j next ih => exact ⟨h.1, h.2.1, ih h.2.2⟩

def attach : (p : SwapProgram β) → p.Within R Q → SwapProgram { b // Q b }
  | ret b, h => ret ⟨b, h⟩
  | compare i j next, h => compare i j fun gt => (next gt).attach (h.2.2 gt)
  | exchange i j next, h => exchange i j (next.attach h.2.2)

theorem Within.attach {p : SwapProgram β} (h : p.Within R Q) :
    (p.attach h).Within R fun _ => True := by
  induction p with
  | ret b => trivial
  | compare i j next ih => exact ⟨h.1, h.2.1, fun gt => ih gt (h.2.2 gt)⟩
  | exchange i j next ih => exact ⟨h.1, h.2.1, ih h.2.2⟩

/-! ## Running a program -/

/-- The cells `i` and `j` after `swap` on their contents. -/
def swapCells (swap : α → α → α × α) (mem : Nat → α) (i j : Nat) : Nat → α :=
  Function.update (Function.update mem i (swap (mem i) (mem j)).1) j (swap (mem i) (mem j)).2

def run (compar : σ → α → α → Int × σ) (swap : α → α → α × α) :
    SwapProgram β → σ → (Nat → α) → β × σ × (Nat → α)
  | ret b, s, mem => (b, s, mem)
  | compare i j next, s, mem =>
      let (answer, s) := compar s (mem i) (mem j)
      (next (decide (0 < answer))).run compar swap s mem
  | exchange i j next, s, mem => next.run compar swap s (swapCells swap mem i j)

variable {compar : σ → α → α → Int × σ} {swap : α → α → α × α} {s : σ} {mem : Nat → α}

theorem Within.run_outside {p : SwapProgram β} (h : p.Within R Q) (hi : ¬R i) :
    (p.run compar swap s mem).2.2 i = mem i := by
  induction p generalizing s mem with
  | ret b => rfl
  | compare k l next ih => exact ih _ (h.2.2 _)
  | exchange k l next ih =>
    refine (ih h.2.2).trans ?_
    unfold swapCells
    rw [update_of_ne fun hil : i = l => hi (hil ▸ h.2.1),
      update_of_ne fun hik : i = k => hi (hik ▸ h.1)]

/-- `swap` exchanges what `π` sees, of cells with the property `P`. -/
def Exchanges (P : α → Prop) (π : α → δ) (swap : α → α → α × α) : Prop :=
  ∀ a b, P a → P b → (π (swap a b).1 = π b ∧ π (swap a b).2 = π a) ∧ P (swap a b).1 ∧ P (swap a b).2

theorem Exchanges.swapCells {π : α → δ} (h : Exchanges P π swap) (hmem : ∀ k, R k → P (mem k))
    (hi : R i) (hj : R j) : (∀ k, R k → P (swapCells swap mem i j k)) ∧
      ∀ k, π (swapCells swap mem i j k) = π (mem (Equiv.swap i j k)) := by
  obtain ⟨⟨hfst, hsnd⟩, hPfst, hPsnd⟩ := h (mem i) (mem j) (hmem i hi) (hmem j hj)
  unfold SwapProgram.swapCells
  refine ⟨fun k hk => ?_, fun k => ?_⟩
  · by_cases hkj : k = j
    · rw [hkj, update_self]
      exact hPsnd
    · rw [update_of_ne hkj]
      by_cases hki : k = i
      · rw [hki, update_self]
        exact hPfst
      · rw [update_of_ne hki]
        exact hmem k hk
  · by_cases hkj : k = j
    · rw [hkj, update_self, Equiv.swap_apply_right]
      exact hsnd
    · rw [update_of_ne hkj]
      by_cases hki : k = i
      · rw [hki, update_self, Equiv.swap_apply_left]
        exact hfst
      · rw [update_of_ne hki, Equiv.swap_apply_of_ne_of_ne hki hkj]

theorem Within.run_perm {p : SwapProgram β} {π : α → δ} (h : p.Within R Q)
    (compar : σ → α → α → Int × σ) (s : σ) (hswap : Exchanges P π swap)
    (hmem : ∀ k, R k → P (mem k)) :
    Q (p.run compar swap s mem).1 ∧ (∀ k, R k → P ((p.run compar swap s mem).2.2 k)) ∧
      ∃ e : Equiv.Perm Nat, (∀ k, ¬R k → e k = k) ∧
        ∀ k, π ((p.run compar swap s mem).2.2 k) = π (mem (e k)) := by
  induction p generalizing s mem with
  | ret b => exact ⟨h, hmem, Equiv.refl Nat, fun _ _ => rfl, fun _ => rfl⟩
  | compare i j next ih => exact ih _ (h.2.2 _) _ hmem
  | exchange i j next ih =>
    obtain ⟨hP, hπ⟩ := hswap.swapCells hmem h.1 h.2.1
    obtain ⟨hres, hP', e, hfix, he⟩ := ih h.2.2 s hP
    refine ⟨hres, hP', e.trans (Equiv.swap i j), fun k hk => ?_, fun k => ?_⟩
    · rw [Equiv.trans_apply, hfix k hk]
      exact Equiv.swap_apply_of_ne_of_ne (fun hki => hk (hki ▸ h.1)) fun hkj => hk (hkj ▸ h.2.1)
    · rw [Equiv.trans_apply, ← hπ]
      exact he k

/-! ## Comparisons that always answer the same -/

def exec (gt : α → α → Bool) : SwapProgram β → (Nat → α) → β × (Nat → α)
  | ret b, mem => (b, mem)
  | compare i j next, mem => (next (gt (mem i) (mem j))).exec gt mem
  | exchange i j next, mem => next.exec gt (mem ∘ Equiv.swap i j)

variable {gt : α → α → Bool} {k : Nat}

theorem comp_swap_left (mem : Nat → α) : (mem ∘ Equiv.swap i j) i = mem j :=
  congrArg mem (Equiv.swap_apply_left i j)

theorem comp_swap_right (mem : Nat → α) : (mem ∘ Equiv.swap i j) j = mem i :=
  congrArg mem (Equiv.swap_apply_right i j)

theorem comp_swap_of_ne (mem : Nat → α) (hi : k ≠ i) (hj : k ≠ j) :
    (mem ∘ Equiv.swap i j) k = mem k :=
  congrArg mem (Equiv.swap_apply_of_ne_of_ne hi hj)

@[simp] theorem exec_pure (b : β) : (pure b : SwapProgram β).exec gt mem = (b, mem) := rfl

@[simp] theorem exec_cmp : (cmp i j).exec gt mem = (gt (mem i) (mem j), mem) := rfl

@[simp] theorem exec_swp : (swp i j).exec gt mem = ((), mem ∘ Equiv.swap i j) := rfl

@[simp] theorem exec_bind (p : SwapProgram β) (f : β → SwapProgram γ) :
    (p >>= f).exec gt mem = (f (p.exec gt mem).1).exec gt (p.exec gt mem).2 := by
  induction p generalizing mem with
  | ret b => rfl
  | compare i j next ih => exact ih _
  | exchange i j next ih => exact ih

theorem exec_cmp_bind {β : Type} (p q : SwapProgram β) :
    (cmp i j >>= fun greater => if greater = true then p else q).exec gt mem =
      if gt (mem i) (mem j) = true then p.exec gt mem else q.exec gt mem := by
  rw [exec_bind, exec_cmp]
  split
  · rfl
  · rfl

theorem exec_swp_bind {β : Type} (p : SwapProgram β) :
    (swp i j >>= fun _ => p).exec gt mem = p.exec gt (mem ∘ Equiv.swap i j) := rfl

theorem exec_attach (gt : α → α → Bool) (mem : Nat → α) {p : SwapProgram β} (h : p.Within R Q) :
    ((p.attach h).exec gt mem).1.val = (p.exec gt mem).1 ∧
      ((p.attach h).exec gt mem).2 = (p.exec gt mem).2 := by
  induction p generalizing mem with
  | ret b => exact ⟨rfl, rfl⟩
  | compare i j next ih => exact ih _ mem (h.2.2 _)
  | exchange i j next ih => exact ih _ h.2.2

/-- **A comparison function that always answers the same**, by what `π` sees of the cells. -/
theorem Within.run_eq_exec {p : SwapProgram β} {π : α → δ} {gt : δ → δ → Bool}
    (h : p.Within R Q) (hswap : Exchanges P π swap) (hmem : ∀ k, R k → P (mem k))
    (hgt : ∀ s a b, P a → P b → decide (0 < (compar s a b).1) = gt (π a) (π b)) :
    (p.run compar swap s mem).1 = (p.exec gt (π ∘ mem)).1 ∧
      π ∘ (p.run compar swap s mem).2.2 = (p.exec gt (π ∘ mem)).2 := by
  induction p generalizing s mem with
  | ret b => exact ⟨rfl, rfl⟩
  | compare i j next ih =>
    have hanswer := hgt s (mem i) (mem j) (hmem i h.1) (hmem j h.2.1)
    unfold SwapProgram.run SwapProgram.exec
    dsimp only [comp_apply]
    rw [← hanswer]
    exact ih _ (h.2.2 _) hmem
  | exchange i j next ih =>
    obtain ⟨hP, hπ⟩ := hswap.swapCells hmem h.1 h.2.1
    have hcells : π ∘ swapCells swap mem i j = (π ∘ mem) ∘ Equiv.swap i j := funext hπ
    unfold SwapProgram.run SwapProgram.exec
    rw [← hcells]
    exact ih h.2.2 hP

theorem Within.exec_result {p : SwapProgram β} (h : p.Within R Q) (gt : α → α → Bool)
    (mem : Nat → α) : Q (p.exec gt mem).1 := by
  induction p generalizing mem with
  | ret b => exact h
  | compare i j next ih => exact ih _ (h.2.2 _) mem
  | exchange i j next ih => exact ih h.2.2 _

theorem Within.exec_perm {p : SwapProgram β} (h : p.Within R Q) (gt : α → α → Bool)
    (mem : Nat → α) :
    ∃ e : Equiv.Perm Nat, (∀ k, ¬R k → e k = k) ∧ (p.exec gt mem).2 = mem ∘ e := by
  induction p generalizing mem with
  | ret b => exact ⟨Equiv.refl Nat, fun _ _ => rfl, rfl⟩
  | compare i j next ih => exact ih _ (h.2.2 _) mem
  | exchange i j next ih =>
    obtain ⟨e, hfix, he⟩ := ih h.2.2 (mem ∘ Equiv.swap i j)
    refine ⟨e.trans (Equiv.swap i j), fun k hk => ?_, he⟩
    rw [Equiv.trans_apply, hfix k hk]
    exact Equiv.swap_apply_of_ne_of_ne (fun hki => hk (hki ▸ h.1)) fun hkj => hk (hkj ▸ h.2.1)

theorem Within.exec_outside {p : SwapProgram β} (h : p.Within R Q) (hi : ¬R i) :
    (p.exec gt mem).2 i = mem i := by
  obtain ⟨e, hfix, he⟩ := h.exec_perm gt mem
  rw [he, comp_apply, hfix i hi]

theorem mem_of_fixes {e : Equiv.Perm Nat} (hfix : ∀ k, ¬R k → e k = k) (hi : R i) : R (e i) := by
  by_contra hnot
  have hei : e i = i := e.injective (hfix _ hnot)
  rw [hei] at hnot
  exact hnot hi

theorem Within.exec_forall {p : SwapProgram β} {T : α → Prop} (h : p.Within R Q)
    (hT : ∀ k, R k → T (mem k)) (hi : R i) : T ((p.exec gt mem).2 i) := by
  obtain ⟨e, hfix, he⟩ := h.exec_perm gt mem
  rw [he]
  exact hT _ (mem_of_fixes hfix hi)

/-- The contents of the cells from `i`, `n` of them. -/
def cells (mem : Nat → α) (i n : Nat) : List α := (range' i n).map mem

theorem perm_cells {e : Equiv.Perm Nat} (hfix : ∀ k, ¬(i ≤ k ∧ k < i + n) → e k = k)
    {mem' : Nat → α} (he : ∀ k, mem' k = mem (e k)) : (cells mem' i n).Perm (cells mem i n) := by
  have hrange : ((range' i n).map e).Perm (range' i n) := by
    rw [perm_ext_iff_of_nodup (List.Nodup.map e.injective nodup_range')
      nodup_range']
    intro k
    rw [List.mem_map, List.mem_range'_1]
    constructor
    · rintro ⟨l, hl, rfl⟩
      exact mem_of_fixes hfix (List.mem_range'_1.mp hl)
    · intro hk
      have hinv : ∀ l, ¬(i ≤ l ∧ l < i + n) → e.symm l = l := fun l hl =>
        e.injective (by rw [Equiv.apply_symm_apply, hfix l hl])
      exact ⟨e.symm k, List.mem_range'_1.mpr (mem_of_fixes hinv hk), e.apply_symm_apply k⟩
  have hmap : cells mem' i n = ((range' i n).map e).map mem := by
    rw [List.map_map]
    exact map_congr_left fun k _ => he k
  rw [hmap]
  exact hrange.map mem

end SwapProgram
