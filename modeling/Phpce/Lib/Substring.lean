import Mathlib.Data.List.Basic
import Mathlib.Data.List.Infix
import Mathlib.Data.Nat.Find

/-!
# Replacing a word in a text

`List.dropInfix?` finds the first occurrence of a word. `replaceAll word sub s` replaces the
occurrences from left to right, and does not look at what it has written.

* `dropInfix?_eq_none_iff`: none is found where there is none.
* `dropInfix?_append`: where the first symbol of a word is in it once, an occurrence behind a text
  without the word is the first one.
-/

namespace Substring

open List

variable {α : Type*} [DecidableEq α] {word sub s p r : List α}

theorem eq_append_of_dropInfix? (h : s.dropInfix? word = some (p, r)) : s = p ++ word ++ r := by
  obtain ⟨⟨i, hs, hi⟩, -⟩ := List.dropInfix?_eq_some_iff.mp h
  rw [hs, eq_of_beq hi]

theorem dropInfix?_eq_some (hs : s = p ++ word ++ r)
    (hfirst : ∀ p' r', s = p' ++ word ++ r' → p.length ≤ p'.length) :
    s.dropInfix? word = some (p, r) := by
  refine List.dropInfix?_eq_some_iff.mpr ⟨⟨word, hs, beq_self_eq_true word⟩, ?_⟩
  intro p' i' r' hs' hi'
  rw [eq_of_beq hi'] at hs'
  exact hfirst p' r' hs'

theorem dropInfix?_eq_none_iff : s.dropInfix? word = none ↔ ¬word <:+: s := by
  constructor
  · rintro hnone ⟨p, r, hs⟩
    -- the occurrence with the least before it would have been found
    have hex : ∃ n, ∃ p r, p.length = n ∧ s = p ++ word ++ r := ⟨p.length, p, r, rfl, hs.symm⟩
    classical
    obtain ⟨p₀, r₀, hlen, hs₀⟩ := Nat.find_spec hex
    have hsome : s.dropInfix? word = some (p₀, r₀) := by
      refine dropInfix?_eq_some hs₀ fun p' r' hs' => ?_
      rw [hlen]
      exact Nat.find_min' hex ⟨p', r', rfl, hs'⟩
    rw [hnone] at hsome
    cases hsome
  · intro hno
    cases hfound : s.dropInfix? word with
    | none => rfl
    | some found => exact absurd ⟨found.1, found.2, (eq_append_of_dropInfix? hfound).symm⟩ hno

/-- **The first occurrence.** The word does not overlap itself, since its first symbol is in it
once, so that an occurrence that begins in a text without the word would have to end in it too. -/
theorem dropInfix?_append {c : α} {t : List α} (hc : c ∉ t) (hp : ¬c :: t <:+: p) :
    (p ++ c :: t ++ r).dropInfix? (c :: t) = some (p, r) := by
  refine dropInfix?_eq_some rfl fun p' r' hs' => Nat.not_lt.mp fun hlt => ?_
  rw [append_assoc, append_assoc] at hs'
  rcases append_eq_append_iff.mp hs' with ⟨a, hp', -⟩ | ⟨a, hpa, hword⟩
  · rw [hp', length_append] at hlt
    omega
  · rcases append_eq_append_iff.mp hword with ⟨b, ha, -⟩ | ⟨b, ht, hr⟩
    · -- it ends in `p`
      exact hp ⟨p', b, by rw [hpa, ha, append_assoc]⟩
    · cases a with
      | nil =>
        rw [hpa, append_nil] at hlt
        omega
      | cons d a =>
        cases b with
        | nil =>
          -- it ends where `p` ends
          rw [append_nil] at ht
          exact hp ⟨p', [], by rw [hpa, ← ht, append_nil]⟩
        | cons e b =>
          -- it ends behind `p`, and the first symbol of the word is inside it
          obtain ⟨-, htail⟩ := List.cons.inj ht
          obtain ⟨hce, -⟩ := List.cons.inj hr
          exact hc (htail ▸ hce ▸ mem_append_right a mem_cons_self)

-- `hs` and `hword` are used in `decreasing_by`.
set_option linter.unusedVariables false in
def replaceAll (word sub s : List α) : List α :=
  match hs : s.dropInfix? word with
  | none => s
  | some (p, r) => if hword : word = [] then s else p ++ sub ++ replaceAll word sub r
  termination_by s.length
  decreasing_by
    have hlen := congrArg List.length (eq_append_of_dropInfix? hs)
    have hpos : 0 < word.length := List.length_pos_iff.mpr hword
    rw [List.length_append, List.length_append] at hlen
    omega

theorem replaceAll_of_eq_none (h : s.dropInfix? word = none) : replaceAll word sub s = s := by
  rw [replaceAll]
  split
  next => rfl
  next hs => rw [h] at hs; cases hs

theorem replaceAll_of_eq_some (hword : word ≠ []) (h : s.dropInfix? word = some (p, r)) :
    replaceAll word sub s = p ++ sub ++ replaceAll word sub r := by
  rw [replaceAll]
  split
  next hs => rw [h] at hs; cases hs
  next hs =>
    rw [h] at hs
    cases hs
    rw [dif_neg hword]

end Substring
