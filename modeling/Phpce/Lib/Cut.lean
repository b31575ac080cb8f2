import Phpce.Lib.Bytes

/-!
# Cutting at the first separator

* `cutAt_eq_some_iff`, `cutAt_eq_none_iff`: what stands before the first separator and behind it.
* `cutAt_append`: what is cut does not depend on what follows.
* `cutAtLast_eq_some_iff`, `cutAtLast_eq_none_iff`: the same for the last separator.
* `cutAll_append`: a text is cut at all of its separators piece by piece.
-/

namespace Bytes

open List Option

/-- What stands before the first `stop`, and what stands behind it. -/
def cutAt (stop : UInt8) : Bytes → Option (Bytes × Bytes)
  | [] => none
  | c :: s => if c = stop then some ([], s) else (cutAt stop s).map fun r => (c :: r.1, r.2)

variable {stop c : UInt8} {s t r : Bytes}

theorem cutAt_cons_self : cutAt stop (stop :: s) = some ([], s) := if_pos rfl

theorem cutAt_cons_of_ne (h : c ≠ stop) :
    cutAt stop (c :: s) = (cutAt stop s).map fun r => (c :: r.1, r.2) := if_neg h

theorem cutAt_append (h : stop ∉ t) (r : Bytes) : cutAt stop (t ++ stop :: r) = some (t, r) := by
  induction t with
  | nil => exact cutAt_cons_self
  | cons c t ih =>
    have hc : c ≠ stop := fun hc => h (hc ▸ mem_cons_self)
    rw [cons_append, cutAt_cons_of_ne hc, ih fun ht => h (mem_cons_of_mem _ ht)]
    rfl

theorem cutAt_eq_some_iff : cutAt stop s = some (t, r) ↔ s = t ++ stop :: r ∧ stop ∉ t := by
  refine ⟨fun h => ?_, fun ⟨hs, ht⟩ => hs ▸ cutAt_append ht r⟩
  induction s generalizing t with
  | nil => exact absurd h (some_ne_none _).symm
  | cons c s ih =>
    by_cases hc : c = stop
    · subst hc
      rw [cutAt_cons_self] at h
      obtain ⟨rfl, rfl⟩ := Prod.mk.inj (some.inj h)
      exact ⟨rfl, not_mem_nil⟩
    · rw [cutAt_cons_of_ne hc] at h
      obtain ⟨⟨t', r'⟩, hcut, heq⟩ := map_eq_some_iff.mp h
      obtain ⟨rfl, rfl⟩ := Prod.mk.inj heq
      obtain ⟨rfl, ht⟩ := ih hcut
      exact ⟨rfl, fun hmem => (mem_cons.mp hmem).elim (fun h => hc h.symm) ht⟩

theorem cutAt_eq_none_iff : cutAt stop s = none ↔ stop ∉ s := by
  constructor
  · intro h hmem
    obtain ⟨t, r, rfl⟩ := append_of_mem hmem
    induction t with
    | nil => exact absurd (cutAt_cons_self.symm.trans h) (some_ne_none _)
    | cons c t ih =>
      by_cases hc : c = stop
      · rw [cons_append, hc] at h
        exact absurd (cutAt_cons_self.symm.trans h) (some_ne_none _)
      · rw [cons_append, cutAt_cons_of_ne hc, map_eq_none_iff] at h
        exact ih h (mem_append_right _ mem_cons_self)
  · intro h
    induction s with
    | nil => rfl
    | cons c s ih =>
      have hc : c ≠ stop := fun hc => h (hc ▸ mem_cons_self)
      rw [cutAt_cons_of_ne hc, ih fun hs => h (mem_cons_of_mem _ hs)]
      rfl

theorem append_cons_inj {t' r' : Bytes} (ht : stop ∉ t) (ht' : stop ∉ t') :
    t ++ stop :: r = t' ++ stop :: r' ↔ t = t' ∧ r = r' := by
  constructor
  · intro h
    have hcut := cutAt_append ht r
    rw [h, cutAt_append ht' r'] at hcut
    exact ⟨(Prod.mk.inj (some.inj hcut)).1.symm, (Prod.mk.inj (some.inj hcut)).2.symm⟩
  · rintro ⟨rfl, rfl⟩
    rfl

theorem append_cons_inj_last {t' r' : Bytes} (hr : stop ∉ r) (hr' : stop ∉ r') :
    t ++ stop :: r = t' ++ stop :: r' ↔ t = t' ∧ r = r' := by
  have hreverse : ∀ t r : Bytes, (t ++ stop :: r).reverse = r.reverse ++ stop :: t.reverse := by
    intro t r
    rw [reverse_append, reverse_cons, append_assoc]
    rfl
  rw [← reverse_inj, hreverse, hreverse,
    append_cons_inj (mt mem_reverse.mp hr) (mt mem_reverse.mp hr'), reverse_inj,
    reverse_inj]
  exact and_comm

/-- What stands before the last `stop`, and what stands behind it. -/
def cutAtLast (stop : UInt8) (s : Bytes) : Option (Bytes × Bytes) :=
  (cutLast stop s).map fun t => (t, s.drop (t.length + 1))

theorem cutAtLast_eq_none_iff : cutAtLast stop s = none ↔ stop ∉ s := by
  rw [cutAtLast, map_eq_none_iff, cutLast_eq_none]

theorem cutAtLast_eq_some_iff :
    cutAtLast stop s = some (t, r) ↔ s = t ++ stop :: r ∧ stop ∉ r := by
  constructor
  · intro h
    obtain ⟨t', hcut, heq⟩ := map_eq_some_iff.mp h
    obtain ⟨rfl, rfl⟩ := Prod.mk.inj heq
    obtain ⟨r, rfl, hr⟩ := cutLast_eq_some hcut
    have hdrop : (t' ++ stop :: r).drop (t'.length + 1) = r := by
      rw [append_cons, drop_left' (by rw [length_append, length_singleton])]
    rw [hdrop]
    exact ⟨rfl, hr⟩
  · rintro ⟨rfl, hr⟩
    cases hcut : cutAtLast stop (t ++ stop :: r) with
    | none =>
      exact absurd (mem_append_right t mem_cons_self) (cutAtLast_eq_none_iff.mp hcut)
    | some cut =>
      obtain ⟨t', hlast, heq⟩ := map_eq_some_iff.mp hcut
      obtain ⟨r', happend, hr'⟩ := cutLast_eq_some hlast
      obtain ⟨rfl, rfl⟩ := (append_cons_inj_last hr hr').mp happend
      rw [← heq, append_cons,
        drop_left' (by rw [length_append, length_singleton])]

/-! ## All separators -/

/-- The pieces that end in a separator, and what stands behind the last one; `pending` is read
already. -/
def cutAll (stop : UInt8) (pending : Bytes) : Bytes → List Bytes × Bytes
  | [] => ([], pending)
  | c :: s =>
    if c = stop then (pending :: (cutAll stop [] s).1, (cutAll stop [] s).2)
    else cutAll stop (pending ++ [c]) s

theorem cutAll_of_notMem (h : stop ∉ s) (pending : Bytes) :
    cutAll stop pending s = ([], pending ++ s) := by
  induction s generalizing pending with
  | nil => rw [cutAll, append_nil]
  | cons c s ih =>
    have hc : c ≠ stop := fun hc => h (hc ▸ mem_cons_self)
    rw [cutAll, if_neg hc, ih fun hs => h (mem_cons_of_mem _ hs), append_assoc]
    rfl

theorem cutAll_append_cons (h : stop ∉ t) (pending r : Bytes) :
    cutAll stop pending (t ++ stop :: r) =
      ((pending ++ t) :: (cutAll stop [] r).1, (cutAll stop [] r).2) := by
  induction t generalizing pending with
  | nil => rw [nil_append, cutAll, if_pos rfl, append_nil]
  | cons c t ih =>
    have hc : c ≠ stop := fun hc => h (hc ▸ mem_cons_self)
    rw [cons_append, cutAll, if_neg hc, ih fun ht => h (mem_cons_of_mem _ ht),
      append_assoc]
    rfl

theorem cutAll_append (pending s t : Bytes) :
    cutAll stop pending (s ++ t) =
      ((cutAll stop pending s).1 ++ (cutAll stop (cutAll stop pending s).2 t).1,
        (cutAll stop (cutAll stop pending s).2 t).2) := by
  induction s generalizing pending with
  | nil => rfl
  | cons c s ih =>
    rw [cons_append, cutAll, cutAll]
    split
    next => rw [ih]; rfl
    next => exact ih _

theorem notMem_cutAll {pending : Bytes} (h : stop ∉ pending) (s : Bytes) :
    stop ∉ (cutAll stop pending s).2 := by
  induction s generalizing pending with
  | nil => exact h
  | cons c s ih =>
    rw [cutAll]
    split
    next => exact ih not_mem_nil
    next hc =>
      refine ih fun hmem => ?_
      exact (mem_append.mp hmem).elim h fun hmem => hc (mem_singleton.mp hmem).symm

end Bytes
