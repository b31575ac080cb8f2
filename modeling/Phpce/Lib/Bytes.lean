import Mathlib.Data.List.TakeWhile

/-!
# C strings as lists of bytes

A buffer is a list of bytes; the C string in it is what stands before the first NUL.

* `cutLast` is `strrchr` followed by storing a NUL at the place found; `cutLast_eq_some` says
  where it cuts.
* `Cut sep sep' s p` says that `p` is what is left of `s` after some number of such cuts, made at
  `sep` as long as there is one and then at `sep'`.
* `findCut_eq_none` says that the search through these cuts misses none of them.
-/

abbrev Bytes := List UInt8

namespace Bytes

open List Option

def ascii (s : String) : Bytes := s.toList.map fun c => UInt8.ofNat c.toNat

def cstr (b : Bytes) : Bytes := b.takeWhile (· ≠ 0)

def toLower (b : UInt8) : UInt8 := if 65 ≤ b ∧ b ≤ 90 then b + 32 else b

/-- `strstr` finds `needle`. -/
def hasSubstring (needle : Bytes) : Bytes → Bool
  | [] => needle.isEmpty
  | b :: s => needle.isPrefixOf (b :: s) || hasSubstring needle s

theorem subset_of_hasSubstring {needle s : Bytes} (h : hasSubstring needle s = true) :
    needle ⊆ s := by
  -- induction on the string
  induction s with
  | nil =>
    rw [hasSubstring, List.isEmpty_iff] at h
    rw [h]
    exact List.Subset.refl _
  | cons b s ih =>
    rw [hasSubstring, Bool.or_eq_true] at h
    rcases h with hpre | hrest
    · exact (List.isPrefixOf_iff_prefix.mp hpre).subset
    · exact List.Subset.trans (ih hrest) (subset_cons_self b s)

@[elab_as_elim]
theorem forall_byte {p : UInt8 → Prop} (h : ∀ n < 256, p (UInt8.ofNat n)) (c : UInt8) : p c := by
  have hc := h c.toNat c.toNat_lt
  rwa [UInt8.ofNat_toNat] at hc

/-- Only the bytes of the buffer are tried, not every byte. -/
instance (priority := 1100) decidableBall {p : UInt8 → Prop} [DecidablePred p] (s : Bytes) :
    Decidable (∀ c ∈ s, p c) :=
  List.decidableBAll p s

theorem takeWhile_append_cons_drop {c : UInt8} {s : Bytes} (h : c ∈ s) :
    s.takeWhile (· ≠ c) ++ c :: s.drop ((s.takeWhile (· ≠ c)).length + 1) = s := by
  induction s with
  | nil => exact absurd h not_mem_nil
  | cons b s ih =>
    by_cases hb : b = c
    · subst hb
      rw [takeWhile_cons_of_neg (by simp)]
      rfl
    · have hmem : c ∈ s := (mem_cons.mp h).resolve_left (Ne.symm hb)
      rw [takeWhile_cons_of_pos (by simpa using hb), length_cons, drop_succ_cons,
        cons_append, ih hmem]

/-! ## Cutting at the last separator -/

/-- What stands before the last occurrence of `sep`. -/
def cutLast (sep : UInt8) : Bytes → Option Bytes
  | [] => none
  | b :: s =>
    match cutLast sep s with
    | some p => some (b :: p)
    | none => if b = sep then some [] else none

theorem cutLast_eq_none {sep : UInt8} {s : Bytes} : cutLast sep s = none ↔ sep ∉ s := by
  induction s with
  | nil => simp [cutLast]
  | cons b s ih =>
    rw [cutLast]
    cases hcut : cutLast sep s with
    | some p =>
      have hmem : sep ∈ s := by
        by_contra hmem
        rw [ih.mpr hmem] at hcut
        cases hcut
      simp [hmem]
    | none =>
      have hnot := ih.mp hcut
      by_cases hb : b = sep
      · simp [hb]
      · simp [hb, hnot, Ne.symm hb]

theorem cutLast_eq_some {sep : UInt8} {s p : Bytes} (h : cutLast sep s = some p) :
    ∃ r, s = p ++ sep :: r ∧ sep ∉ r := by
  induction s generalizing p with
  | nil => cases h
  | cons b s ih =>
    rw [cutLast] at h
    cases hcut : cutLast sep s with
    | some q =>
      rw [hcut] at h
      obtain rfl := some.inj h
      obtain ⟨r, rfl, hr⟩ := ih hcut
      exact ⟨r, rfl, hr⟩
    | none =>
      rw [hcut] at h
      by_cases hb : b = sep
      · rw [if_pos hb] at h
        obtain rfl := some.inj h
        exact ⟨s, by rw [hb]; rfl, cutLast_eq_none.mp hcut⟩
      · rw [if_neg hb] at h
        cases h

/-- The cut at the last `sep`, else at the last `sep'`. -/
def cutLast₂ (sep sep' : UInt8) (s : Bytes) : Option Bytes :=
  (cutLast sep s).or (cutLast sep' s)

/-- `p` can be reached from `s` by cutting at `sep`, and at `sep'` where no `sep` is left. -/
def Cut (sep sep' : UInt8) (s p : Bytes) : Prop :=
  (∃ r, s = p ++ sep :: r) ∨ sep ∉ p ∧ ∃ r, s = p ++ sep' :: r

variable {sep sep' : UInt8} {s p q : Bytes}

theorem cutLast₂_eq_none : cutLast₂ sep sep' s = none ↔ sep ∉ s ∧ sep' ∉ s := by
  rw [cutLast₂, or_eq_none_iff, cutLast_eq_none, cutLast_eq_none]

theorem length_cutLast₂ (h : cutLast₂ sep sep' s = some p) : p.length < s.length := by
  have hshape : ∃ c r, s = p ++ c :: r := by
    rcases or_eq_some_iff.mp h with h | ⟨-, h⟩
    · obtain ⟨r, hr, -⟩ := cutLast_eq_some h
      exact ⟨sep, r, hr⟩
    · obtain ⟨r, hr, -⟩ := cutLast_eq_some h
      exact ⟨sep', r, hr⟩
  obtain ⟨c, r, rfl⟩ := hshape
  rw [length_append, length_cons]
  omega

theorem append_cons_eq {c c' : UInt8} {r r' : Bytes} (h : p ++ c :: r = q ++ c' :: r') :
    (∃ t, q = p ++ c :: t) ∨ p = q ∨ ∃ t, p = q ++ c' :: t ∧ r' = t ++ c :: r := by
  rcases append_eq_append_iff.mp h with ⟨t, hq, hr⟩ | ⟨t, hp, hr⟩
  · cases t with
    | nil =>
      rw [append_nil] at hq
      exact .inr (.inl hq.symm)
    | cons d t =>
      obtain ⟨rfl, -⟩ := List.cons.inj hr
      exact .inl ⟨t, hq⟩
  · cases t with
    | nil =>
      rw [append_nil] at hp
      exact .inr (.inl hp)
    | cons d t =>
      obtain ⟨rfl, hr'⟩ := List.cons.inj hr
      exact .inr (.inr ⟨t, hp, hr'⟩)

/-- **One cut.** What can be reached from `s` is what the first cut leaves and what can be reached
from there. -/
theorem cut_iff_of_cutLast₂ (h : cutLast₂ sep sep' s = some q) :
    Cut sep sep' s p ↔ p = q ∨ Cut sep sep' q p := by
  have hback : ∀ {c : UInt8} {r : Bytes}, s = q ++ c :: r → Cut sep sep' q p →
      Cut sep sep' s p := by
    rintro c r rfl (⟨t, rfl⟩ | ⟨hp, t, rfl⟩)
    · exact .inl ⟨t ++ c :: r, by rw [append_assoc, cons_append]⟩
    · exact .inr ⟨hp, t ++ c :: r, by rw [append_assoc, cons_append]⟩
  rcases or_eq_some_iff.mp h with hcut | ⟨hnone, hcut⟩
  · obtain ⟨r, hs, hr⟩ := cutLast_eq_some hcut
    constructor
    · rintro (⟨r', hs'⟩ | ⟨hp, r', hs'⟩)
      · rcases append_cons_eq (hs'.symm.trans hs) with ⟨t, hq⟩ | hpq | ⟨t, -, hrt⟩
        · exact .inr (.inl ⟨t, hq⟩)
        · exact .inl hpq
        · exact absurd (hrt ▸ mem_append_right t mem_cons_self) hr
      · rcases append_cons_eq (hs'.symm.trans hs) with ⟨t, hq⟩ | hpq | ⟨t, hpt, -⟩
        · exact .inr (.inr ⟨hp, t, hq⟩)
        · exact .inl hpq
        · exact absurd (hpt ▸ mem_append_right q mem_cons_self) hp
    · rintro (rfl | hq)
      · exact .inl ⟨r, hs⟩
      · exact hback hs hq
  · have hsep : sep ∉ s := cutLast_eq_none.mp hnone
    obtain ⟨r, hs, hr⟩ := cutLast_eq_some hcut
    constructor
    · rintro (⟨r', hs'⟩ | ⟨hp, r', hs'⟩)
      · exact absurd (hs' ▸ mem_append_right p mem_cons_self) hsep
      · rcases append_cons_eq (hs'.symm.trans hs) with ⟨t, hq⟩ | hpq | ⟨t, -, hrt⟩
        · exact .inr (.inr ⟨hp, t, hq⟩)
        · exact .inl hpq
        · exact absurd (hrt ▸ mem_append_right t mem_cons_self) hr
    · rintro (rfl | hq)
      · exact .inr ⟨fun hmem => hsep (hs ▸ mem_append_left _ hmem), r, hs⟩
      · exact hback hs hq

/-- Cut until `ok` holds; `fuel` bounds the number of cuts. -/
def findCut (sep sep' : UInt8) (ok : Bytes → Bool) : Nat → Bytes → Option Bytes
  | 0, _ => none
  | fuel + 1, s =>
    match cutLast₂ sep sep' s with
    | none => none
    | some p => if ok p then some p else findCut sep sep' ok fuel p

/-- **The search fails only where nothing can be found**, given fuel beyond the buffer's length. -/
theorem findCut_eq_none {ok : Bytes → Bool} {fuel : Nat} (hfuel : s.length < fuel) :
    findCut sep sep' ok fuel s = none ↔ ∀ p, Cut sep sep' s p → ok p = false := by
  -- induction on the fuel
  induction fuel generalizing s with
  | zero => exact absurd hfuel (Nat.not_lt_zero _)
  | succ fuel ih =>
    rw [findCut]
    cases hcut : cutLast₂ sep sep' s with
    | none =>
      obtain ⟨hsep, hsep'⟩ := cutLast₂_eq_none.mp hcut
      refine ⟨fun _ p hp => ?_, fun _ => rfl⟩
      rcases hp with ⟨r, rfl⟩ | ⟨-, r, rfl⟩
      · exact absurd (mem_append_right p mem_cons_self) hsep
      · exact absurd (mem_append_right p mem_cons_self) hsep'
    | some q =>
      have hshort := length_cutLast₂ hcut
      have ihq := @ih q (by omega)
      simp only [cut_iff_of_cutLast₂ hcut]
      cases hq : ok q with
      | true =>
        refine ⟨fun h => by simp at h, fun h => ?_⟩
        exact absurd (h q (.inl rfl)) (by simp [hq])
      | false =>
        rw [if_neg (by simp), ihq]
        refine ⟨?_, fun h p hp => h p (.inr hp)⟩
        rintro h p (rfl | hp)
        · exact hq
        · exact h p hp

theorem findCut_eq_some {ok : Bytes → Bool} {fuel : Nat}
    (h : findCut sep sep' ok fuel s = some p) : ok p = true ∧ Cut sep sep' s p := by
  induction fuel generalizing s with
  | zero => cases h
  | succ fuel ih =>
    rw [findCut] at h
    cases hcut : cutLast₂ sep sep' s with
    | none =>
      rw [hcut] at h
      cases h
    | some q =>
      rw [hcut] at h
      rw [cut_iff_of_cutLast₂ hcut]
      cases hq : ok q with
      | true =>
        simp only [hq, if_true, some.injEq] at h
        subst h
        exact ⟨hq, .inl rfl⟩
      | false =>
        simp only [hq, Bool.false_eq_true, if_false] at h
        obtain ⟨hok, hreach⟩ := ih h
        exact ⟨hok, .inr hreach⟩

end Bytes
