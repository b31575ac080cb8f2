import Mathlib.Data.List.Basic

/-!
# Multimaps in the order of insertion

A list of entries, some of which have a name. An entry is added behind the others, the entries of a
name are deleted, and an entry replaces those that have its name.

* `filter_eq_delete_iff`: what a filter has to do to be a deletion.
-/

namespace Multimap

variable {β κ : Type*} [DecidableEq κ] (name : β → Option κ)

def add (b : β) (es : List β) : List β := es ++ [b]

/-- The entries that have the name `k` are deleted, the others keep their order. -/
def delete (k : κ) (es : List β) : List β := es.filter fun e => name e ≠ some k

/-- `b` comes behind the entries that do not have its name. -/
def replace (b : β) (es : List β) : List β :=
  match name b with
  | some k => add b (delete name k es)
  | none => add b es

variable {name} {k : κ} {b : β} {es : List β} {p : β → Bool}

theorem filter_eq_delete_iff :
    (es.filter fun e => !p e) = delete name k es ↔ ∀ e ∈ es, p e = true ↔ name e = some k := by
  constructor
  · intro heq e he
    have hmem : e ∈ (es.filter fun e => !p e) ↔ e ∈ delete name k es := by rw [heq]
    simp only [delete, List.mem_filter, he, true_and, ne_eq,
      decide_not, Bool.not_eq_eq_eq_not, Bool.not_true, decide_eq_false_iff_not] at hmem
    rw [← not_iff_not, ← hmem, Bool.not_eq_true]
  · intro hiff
    refine List.filter_congr fun e he => ?_
    rw [Bool.eq_iff_iff, Bool.not_eq_true', ← Bool.not_eq_true, hiff e he, decide_eq_true_eq]

end Multimap
