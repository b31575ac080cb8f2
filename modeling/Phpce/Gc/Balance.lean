import Mathlib.Algebra.BigOperators.Group.Finset.Basic
import Mathlib.Algebra.BigOperators.Ring.Finset
import Mathlib.Data.Fintype.BigOperators
import Phpce.Gc.Basic

/-!
# What all traversals of the collector keep

The references that a black or purple node holds are counted in the refcounts, those of a grey or
white one are not: `balance`, a refcount less the counted references, stays what it is in every
traversal. In a state where all nodes are black the refcounts are then what they were.
-/

namespace Phpce.Gc

open Finset
open Function (update update_of_ne update_self)

variable {ν : Type*} [DecidableEq ν] {s s' : GcState ν} {ref m n : ν} {cs : List ν}

@[simp] theorem GcState.color_setColor (s : GcState ν) (ref : ν) (color : GcColor) :
    (s.setColor ref color).color = update s.color ref color := rfl

@[simp] theorem GcState.color_addRef (s : GcState ν) (ref : ν) (n : Int) :
    (s.addRef ref n).color = s.color := rfl

@[simp] theorem GcState.refcount_setColor (s : GcState ν) (ref : ν) (color : GcColor) :
    (s.setColor ref color).refcount = s.refcount := rfl

/-- Are the references that a node of this colour holds counted? -/
def GcColor.counted : GcColor → Bool
  | black | purple => true
  | white | grey => false

namespace Heap

variable {H : Heap ν} {fuel : Nat}

/-- The counted references to a node, by a node of the colour `color`. -/
def countedRefs (H : Heap ν) (k : ν) (color : GcColor) (m : ν) : Int :=
  if color.counted then ((H.scanned k).count m : Int) else 0

theorem countedRefs_of_isSymbolTable (h : H.isSymbolTable n = true) (color : GcColor) (m : ν) :
    H.countedRefs n color m = 0 := by
  unfold countedRefs
  rw [scanned_of_isSymbolTable h]
  split <;> rfl

variable [Fintype ν]

def balance (H : Heap ν) (s : GcState ν) (m : ν) : Int :=
  s.refcount m - ∑ k, H.countedRefs k (s.color k) m

theorem balance_setColor (s : GcState ν) (ref : ν) (color : GcColor) (m : ν) :
    H.balance (s.setColor ref color) m =
      H.balance s m + H.countedRefs ref (s.color ref) m - H.countedRefs ref color m := by
  have hsum : ∑ k, (H.countedRefs k (s.color k) m -
        H.countedRefs k (update s.color ref color k) m) =
      H.countedRefs ref (s.color ref) m - H.countedRefs ref color m := by
    rw [Finset.sum_eq_single ref]
    · rw [update_self]
    · intro k _ hk
      rw [update_of_ne hk, sub_self]
    · exact fun h => absurd (mem_univ ref) h
  rw [Finset.sum_sub_distrib] at hsum
  unfold balance
  rw [GcState.color_setColor, GcState.refcount_setColor]
  omega

theorem balance_addRef (s : GcState ν) (ref : ν) (n : Int) (m : ν) :
    H.balance (s.addRef ref n) m = H.balance s m + if m = ref then n else 0 := by
  unfold balance
  rw [GcState.color_addRef]
  split
  · rename_i hm
    subst hm
    change update s.refcount m (s.refcount m + n) m - _ = _
    rw [update_self]
    omega
  · rename_i hm
    change update s.refcount ref (s.refcount ref + n) m - _ = _
    rw [update_of_ne hm]
    omega

theorem balance_visit {T : Traversal (GcState ν) ν} {d : Int} {Inv : GcState ν → Prop}
    (hedge : ∀ s c m, H.balance (T.edge s c) m = H.balance s m + if m = c then d else 0)
    (hedgeInv : ∀ s c, Inv s → Inv (T.edge s c))
    (henter : ∀ s n s₁ cs, Inv s → T.enter s n = some (s₁, cs) →
      Inv s₁ ∧ ∀ m, H.balance s₁ m + d * (cs.count m : Int) = H.balance s m)
    (h : T.visit fuel n s = some s') (hs : Inv s) : Inv s' ∧ ∀ m, H.balance s' m = H.balance s m := by
  refine Traversal.visit_rule
    (R := fun s _ s' => Inv s → Inv s' ∧ ∀ m, H.balance s' m = H.balance s m)
    (L := fun s cs s' => Inv s →
      Inv s' ∧ ∀ m, H.balance s' m = H.balance s m + d * (cs.count m : Int)) ?_ ?_ ?_ h hs
  · intro s hs
    exact ⟨hs, by simp⟩
  · intro s c s₁ cs s₂ hvisit hrest hs
    obtain ⟨hs₁, hbal₁⟩ := hvisit (hedgeInv s c hs)
    obtain ⟨hs₂, hbal₂⟩ := hrest hs₁
    refine ⟨hs₂, fun m => ?_⟩
    rw [hbal₂, hbal₁, hedge, List.count_cons]
    by_cases hm : m = c
    · subst hm
      rw [if_pos rfl, if_pos (beq_self_eq_true m), Nat.cast_add, mul_add]
      omega
    · rw [if_neg hm, if_neg (by simpa using Ne.symm hm), Nat.add_zero]
      omega
  · intro s n s₁ cs s₂ hent hfollow hs
    obtain ⟨hs₁, hbal₁⟩ := henter s n s₁ cs hs hent
    obtain ⟨hs₂, hbal₂⟩ := hfollow hs₁
    exact ⟨hs₂, fun m => (hbal₂ m).trans (hbal₁ m)⟩

def NoWhite (s : GcState ν) : Prop := ∀ n, s.color n ≠ .white

def NoPurple (s : GcState ν) : Prop := ∀ n, s.color n ≠ .purple

omit [Fintype ν] in
theorem ne_of_setColor {c color : GcColor} (hs : ∀ n, s.color n ≠ c) (hc : color ≠ c) (ref n : ν) :
    (s.setColor ref color).color n ≠ c := by
  rw [GcState.color_setColor]
  by_cases hn : n = ref
  · rw [hn, update_self]
    exact hc
  · rw [update_of_ne hn]
    exact hs n

theorem balance_uncount {color : GcColor} (hcount : (s.color ref).counted = true)
    (hcolor : color.counted = false) (m : ν) :
    H.balance (s.setColor ref color) m + (-1) * ((H.scanned ref).count m : Int) =
      H.balance s m := by
  rw [balance_setColor, countedRefs, countedRefs, hcount, hcolor, if_pos rfl,
    if_neg (by decide)]
  omega

theorem balance_count {color : GcColor} (hcount : (s.color ref).counted = false)
    (hcolor : color.counted = true) (m : ν) :
    H.balance (s.setColor ref color) m + 1 * ((H.scanned ref).count m : Int) =
      H.balance s m := by
  rw [balance_setColor, countedRefs, countedRefs, hcount, hcolor, if_pos rfl,
    if_neg (by decide)]
  omega

theorem balance_symbolTable (hsym : H.isSymbolTable ref = true) (color : GcColor) (m : ν) :
    H.balance (s.setColor ref color) m = H.balance s m := by
  rw [balance_setColor, countedRefs_of_isSymbolTable hsym, countedRefs_of_isSymbolTable hsym]
  omega

theorem balance_markGrey (h : H.gcMarkGrey fuel n s = some s') (hs : NoWhite s) :
    NoWhite s' ∧ ∀ m, H.balance s' m = H.balance s m := by
  refine balance_visit (d := -1) (fun s c m => balance_addRef s c (-1) m) (fun s c hs => hs) ?_ h hs
  intro s n s₁ cs hs hent
  rcases markGrey_enter hent with ⟨-, rfl, rfl⟩ | ⟨-, hsym, rfl, rfl⟩ | ⟨hne, hsym, rfl, rfl⟩
  · exact ⟨hs, by simp⟩
  · refine ⟨ne_of_setColor hs (by decide) n, fun m => ?_⟩
    rw [balance_symbolTable hsym, scanned_of_isSymbolTable hsym]
    simp
  · refine ⟨ne_of_setColor hs (by decide) n, balance_uncount ?_ rfl⟩
    have hwhite := hs n
    cases hcolor : s.color n with
    | black => rfl
    | purple => rfl
    | grey => exact absurd hcolor hne
    | white => exact absurd hcolor hwhite

theorem balance_scanBlack (h : H.gcScanBlack fuel n s = some s') (hs : NoPurple s) :
    NoPurple s' ∧ ∀ m, H.balance s' m = H.balance s m := by
  refine balance_visit (d := 1) (fun s c m => balance_addRef s c 1 m) (fun s c hs => hs) ?_ h hs
  intro s n s₁ cs hs hent
  rcases scanBlack_enter hent with ⟨-, rfl, rfl⟩ | ⟨hne, rfl, rfl⟩
  · exact ⟨hs, by simp⟩
  · refine ⟨ne_of_setColor hs (by decide) n, balance_count ?_ rfl⟩
    have hpurple := hs n
    cases hcolor : s.color n with
    | white => rfl
    | grey => rfl
    | black => exact absurd hcolor hne
    | purple => exact absurd hcolor hpurple

def SymbolTableKept (H : Heap ν) (s : GcState ν) : Prop :=
  ∀ n, H.isSymbolTable n = true → s.color n ≠ .white

theorem balance_collect (s : GcState ν) (ref m : ν) :
    H.balance (H.collect s ref) m = H.balance (s.setColor ref .black) m := by
  unfold collect balance
  dsimp only
  split
  · rfl
  · rfl

theorem balance_collectWhite (h : H.gcCollectWhite fuel n s = some s') (hs : H.SymbolTableKept s) :
    H.SymbolTableKept s' ∧ ∀ m, H.balance s' m = H.balance s m := by
  refine balance_visit (d := 1) (fun s c m => balance_addRef s c 1 m) (fun s c hs => hs) ?_ h hs
  intro s n s₁ cs hs hent
  rcases collectWhite_enter hent with ⟨-, rfl, rfl⟩ | ⟨hwhite, rfl, rfl⟩
  · exact ⟨hs, by simp⟩
  · have hsym : H.isSymbolTable n = false := Bool.eq_false_iff.mpr fun h => hs n h hwhite
    refine ⟨fun k hk => ?_, fun m => ?_⟩
    · rw [color_collect]
      by_cases hkn : k = n
      · rw [hkn, update_self]
        decide
      · rw [update_of_ne hkn]
        exact hs k hk
    · rw [balance_collect, ← scanned_of_not hsym]
      exact balance_count (by rw [hwhite]; rfl) rfl m

end Heap

end Phpce.Gc
