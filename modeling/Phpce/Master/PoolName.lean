import Phpce.Lib.Bytes
import Phpce.Lib.Substring

/-!
# `$pool` in configuration values

`fpm_conf_expand_pool_name`, which looks for `$pool` in what it has written again, from the start.

* **`fpmConfExpandPoolName_iff`** — it ends with every `$pool` of the value replaced by the name if
  and only if there is no `$pool` in the outcome of that replacement.
-/

namespace Phpce

namespace PoolName

open Bytes Substring List

def token : Bytes := ascii "$pool"

/-- `fpm_conf_expand_pool_name`: what it returns, and `*value`, if the loop ends within `fuel`
rounds. `wp` is the name of the pool that is being configured. -/
def fpmConfExpandPoolName (wp : Option Bytes) : Nat → Option Bytes → Option (Int × Option Bytes)
  | 0, _ => none
  | _, none => some (0, none)
  | fuel + 1, some value =>
    match value.dropInfix? token with
    | none => some (0, some value)
    | some (before, p2) =>
      match wp with
      | none => some (-1, some value)
      | some name => fpmConfExpandPoolName wp fuel (some (before ++ name ++ p2))

/-- The loop ends, with the value `s`. -/
def ExpandsTo (name value s : Bytes) : Prop :=
  ∃ fuel, fpmConfExpandPoolName (some name) fuel (some value) = some (0, some s)

variable {name value s before p2 : Bytes}

theorem expandsTo_of_eq_none (h : value.dropInfix? token = none) :
    ExpandsTo name value s ↔ s = value := by
  constructor
  · rintro ⟨fuel, hrun⟩
    cases fuel with
    | zero => cases hrun
    | succ fuel =>
      rw [fpmConfExpandPoolName, h] at hrun
      simpa using hrun.symm
  · rintro rfl
    exact ⟨1, by rw [fpmConfExpandPoolName, h]⟩

theorem expandsTo_of_eq_some (h : value.dropInfix? token = some (before, p2)) :
    ExpandsTo name value s ↔ ExpandsTo name (before ++ name ++ p2) s := by
  constructor
  · rintro ⟨fuel, hrun⟩
    cases fuel with
    | zero => cases hrun
    | succ fuel =>
      rw [fpmConfExpandPoolName, h] at hrun
      exact ⟨fuel, hrun⟩
  · rintro ⟨fuel, hrun⟩
    refine ⟨fuel + 1, ?_⟩
    rw [fpmConfExpandPoolName, h]
    exact hrun

theorem not_infix_of_expandsTo (h : ExpandsTo name value s) : ¬token <:+: s := by
  obtain ⟨fuel, hrun⟩ := h
  -- induction on the rounds
  induction fuel generalizing value with
  | zero => cases hrun
  | succ fuel ih =>
    cases hfound : value.dropInfix? token with
    | none =>
      have hs := (expandsTo_of_eq_none hfound).mp ⟨fuel + 1, hrun⟩
      rw [hs]
      exact dropInfix?_eq_none_iff.mp hfound
    | some found =>
      rw [fpmConfExpandPoolName, hfound] at hrun
      exact ih hrun

theorem expandsTo_append {done rest : Bytes} (h : ¬token <:+: done ++ replaceAll token name rest) :
    ExpandsTo name (done ++ rest) (done ++ replaceAll token name rest) := by
  -- induction on the occurrences in what is behind
  induction hn : rest.length using Nat.strongRecOn generalizing done rest with
  | ind n ih =>
    cases hfound : rest.dropInfix? token with
    | none =>
      rw [replaceAll_of_eq_none hfound] at h ⊢
      exact (expandsTo_of_eq_none (dropInfix?_eq_none_iff.mpr h)).mpr rfl
    | some found =>
      obtain ⟨p, r⟩ := found
      have hrest := eq_append_of_dropInfix? hfound
      have hlen := congrArg List.length hrest
      rw [length_append, length_append, show token.length = 5 from rfl] at hlen
      rw [replaceAll_of_eq_some (by decide) hfound, ← append_assoc, ← append_assoc] at h ⊢
      -- the next `$pool` is the first one in the value
      have hclean : ¬token <:+: done ++ p := by
        intro hin
        rw [append_assoc (done ++ p)] at h
        exact h (hin.trans (prefix_append _ _).isInfix)
      have hfirst : (done ++ rest).dropInfix? token = some (done ++ p, r) := by
        rw [hrest, ← append_assoc, ← append_assoc]
        exact dropInfix?_append (by decide) hclean
      rw [expandsTo_of_eq_some hfirst]
      exact ih r.length (by omega) h rfl

/-- **The expansion.** The loop ends with every `$pool` of the value replaced, from left to right,
if and only if replacing them makes no `$pool`. -/
theorem fpmConfExpandPoolName_iff (name value : Bytes) :
    ExpandsTo name value (replaceAll token name value) ↔
      ¬token <:+: replaceAll token name value := by
  constructor
  · exact not_infix_of_expandsTo
  · intro h
    exact @expandsTo_append _ [] _ h

/-- For the pool `pool`, the value `$$pool` is to be `$pool`, which the loop does not leave. -/
theorem not_expandsTo_dollarPool :
    ¬∀ name value : Bytes, ExpandsTo name value (replaceAll token name value) := by
  intro h
  have hfound : (ascii "$$pool").dropInfix? token = some (ascii "$", []) := by decide
  have hrest : replaceAll token (ascii "pool") [] = [] := replaceAll_of_eq_none (by decide)
  have hreplaced : replaceAll token (ascii "pool") (ascii "$$pool") = ascii "$pool" := by
    rw [replaceAll_of_eq_some (by decide) hfound, hrest]
    rfl
  have hends := h (ascii "pool") (ascii "$$pool")
  rw [hreplaced] at hends
  exact not_infix_of_expandsTo hends (infix_refl _)

end PoolName

end Phpce
