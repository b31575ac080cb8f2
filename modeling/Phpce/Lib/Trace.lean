import Mathlib.Data.List.Count

/-!
# Traces with matched effects

A trace is the list of effects of a run, latest first. `Matched opens closes trace` says that
every `closes` in it was preceded by exactly one `opens` that no earlier `closes` had used up.
-/

namespace Trace

variable {α : Type*} [DecidableEq α] {opens closes e : α} {trace : List α}

/-- Every `closes` comes after exactly one `opens` not yet matched by a `closes`. -/
def Matched (opens closes : α) (trace : List α) : Prop :=
  ∀ later earlier, trace = later ++ closes :: earlier →
    earlier.count opens = earlier.count closes + 1

theorem matched_nil : Matched opens closes [] := by
  intro later earlier h
  simp at h

theorem matched_cons : Matched opens closes (e :: trace) ↔
    Matched opens closes trace ∧ (e = closes → trace.count opens = trace.count closes + 1) := by
  constructor
  · intro h
    refine ⟨fun later earlier heq => h (e :: later) earlier (by simp [heq]), ?_⟩
    rintro rfl
    exact h [] trace rfl
  · rintro ⟨htrace, hhead⟩ later earlier heq
    cases later with
    | nil =>
      obtain ⟨rfl, rfl⟩ : e = closes ∧ trace = earlier := by simpa using heq
      exact hhead rfl
    | cons d later =>
      obtain ⟨-, rfl⟩ : e = d ∧ trace = later ++ closes :: earlier := by simpa using heq
      exact htrace later earlier rfl

theorem Matched.cons_ne (h : Matched opens closes trace) (hne : e ≠ closes) :
    Matched opens closes (e :: trace) :=
  matched_cons.mpr ⟨h, fun heq => absurd heq hne⟩

theorem Matched.cons_self (h : Matched opens closes trace)
    (hcount : trace.count opens = trace.count closes + 1) :
    Matched opens closes (closes :: trace) :=
  matched_cons.mpr ⟨h, fun _ => hcount⟩

theorem Matched.append_of_notMem {delta : List α} (h : Matched opens closes trace)
    (hnot : closes ∉ delta) : Matched opens closes (delta ++ trace) := by
  induction delta with
  | nil => exact h
  | cons d delta ih =>
    rw [List.mem_cons, not_or] at hnot
    exact (ih hnot.2).cons_ne fun e => hnot.1 e.symm

end Trace
