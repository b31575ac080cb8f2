import Mathlib.Data.Option.Basic
import Mathlib.Logic.Basic
import Mathlib.Order.Notation

/-!
# Event systems and their runs

An event system is a partial step function: `step s e = none` means that the event `e`
cannot happen in the state `s`. Runs are lists of events; a run may be *guarded* by a
condition on the state and the event at each of its steps.

* `Run.invariant` packages the induction over a run: an invariant of one guarded step is
  an invariant of every guarded run.
* `Run.simulate` is forward simulation: when every step of the source is matched by a
  step of the target on the same event, so is every run.
* `Along.congr` compares two conditions on the steps of a list of events.
* `Run.throughout_iff`: a property of states that some events keep and all others break holds
  throughout the runs of events that keep it, and no others; `Run.throughout_iff_along` where it
  depends on the state whether an event keeps it.
-/

/-- A labelled transition system whose step is a partial function of state and event. -/
structure EventSystem (σ ε : Type*) where
  step : σ → ε → Option σ

namespace EventSystem

open List Option

variable {σ τ ε : Type*}

/-- `S.Run guard s es s'`: the events `es` lead from `s` to `s'`, and `guard` holds of the
state and the event at every step. -/
inductive Run (S : EventSystem σ ε) (guard : σ → ε → Prop) : σ → List ε → σ → Prop where
  | nil (s : σ) : Run S guard s [] s
  | cons {s s' s'' : σ} {e : ε} {es : List ε} (hguard : guard s e)
      (hstep : S.step s e = some s') (rest : Run S guard s' es s'') :
      Run S guard s (e :: es) s''

abbrev FreeRun (S : EventSystem σ ε) : σ → List ε → σ → Prop :=
  S.Run fun _ _ => True

def exec (S : EventSystem σ ε) (s : σ) : List ε → Option σ
  | [] => some s
  | e :: es => (S.step s e).bind fun s' => S.exec s' es

/-- The state a list of events leads to, when all of them can happen and meet the guard. -/
def execWhile (S : EventSystem σ ε) (guard : σ → ε → Prop) [∀ s e, Decidable (guard s e)] (s : σ) :
    List ε → Option σ
  | [] => some s
  | e :: es => if guard s e then (S.step s e).bind fun s' => S.execWhile guard s' es else none

/-- `P` holds of each of the events in the state in which it is to happen, up to the first that
cannot happen. -/
def Along (S : EventSystem σ ε) (P : σ → ε → Prop) : σ → List ε → Prop
  | _, [] => True
  | s, e :: es => P s e ∧ ∀ s', S.step s e = some s' → S.Along P s' es

/-- `P` holds of each state that the events lead through, from the first. -/
def Throughout (S : EventSystem σ ε) (P : σ → Prop) : σ → List ε → Prop
  | s, [] => P s
  | s, e :: es => P s ∧ ∀ s', S.step s e = some s' → S.Throughout P s' es

variable {S : EventSystem σ ε} {T : EventSystem τ ε} {guard guard' : σ → ε → Prop}

theorem exec_append (s : σ) (es es' : List ε) :
    S.exec s (es ++ es') = (S.exec s es).bind fun s' => S.exec s' es' := by
  induction es generalizing s with
  | nil => rfl
  | cons e es ih => simp only [cons_append, exec, ih, bind_assoc]

theorem run_of_exec {s s' : σ} {es : List ε} (h : S.exec s es = some s') : S.FreeRun s es s' := by
  -- induction on the list
  induction es generalizing s with
  | nil =>
    simp only [exec, some.injEq] at h
    subst h
    exact .nil s
  | cons e es ih =>
    obtain ⟨mid, hstep, hrest⟩ := bind_eq_some_iff.mp h
    exact .cons trivial hstep (ih hrest)

theorem run_of_execWhile [∀ s e, Decidable (guard s e)] {s s' : σ} {es : List ε}
    (h : S.execWhile guard s es = some s') : S.Run guard s es s' := by
  -- induction on the list
  induction es generalizing s with
  | nil =>
    simp only [execWhile, some.injEq] at h
    subst h
    exact .nil s
  | cons e es ih =>
    simp only [execWhile] at h
    split at h
    · rename_i hguard
      obtain ⟨mid, hstep, hrest⟩ := bind_eq_some_iff.mp h
      exact .cons hguard hstep (ih hrest)
    · cases h

theorem Run.mono_of_invariant {Inv : σ → Prop}
    (hpres : ∀ s e s', Inv s → guard s e → S.step s e = some s' → Inv s')
    (hle : ∀ s e s', Inv s → guard s e → S.step s e = some s' → guard' s e)
    {s s' : σ} {es : List ε} (h : S.Run guard s es s') (hs : Inv s) : S.Run guard' s es s' := by
  induction h with
  | nil s => exact .nil s
  | cons hguard hstep _ ih =>
    exact .cons (hle _ _ _ hs hguard hstep) hstep (ih (hpres _ _ _ hs hguard hstep))

/-- **The run rule.** What one guarded step preserves, a guarded run preserves. -/
theorem Run.invariant {Inv : σ → Prop}
    (hpres : ∀ s e s', Inv s → guard s e → S.step s e = some s' → Inv s')
    {s s' : σ} {es : List ε} (h : S.Run guard s es s') (hs : Inv s) : Inv s' := by
  induction h with
  | nil s => exact hs
  | cons hguard hstep _ ih => exact ih (hpres _ _ _ hs hguard hstep)

theorem Run.invariant_along {Inv : σ → Prop} {P : σ → ε → Prop}
    (hpres : ∀ s e s', Inv s → guard s e → P s e → S.step s e = some s' → Inv s')
    {s s' : σ} {es : List ε} (h : S.Run guard s es s') (halong : S.Along P s es) (hs : Inv s) :
    Inv s' := by
  -- induction on the run
  induction h with
  | nil s => exact hs
  | cons hguard hstep _ ih =>
    exact ih (halong.2 _ hstep) (hpres _ _ _ hs hguard halong.1 hstep)

/-- **Forward simulation.** If the target answers every step of the source by a step on the
same event that keeps the relation, it answers every run by a run on the same events. -/
theorem Run.simulate {R : σ → τ → Prop}
    (hsim : ∀ s e s' t, R s t → guard s e → S.step s e = some s' →
      ∃ t', T.step t e = some t' ∧ R s' t')
    {s s' : σ} {es : List ε} (h : S.Run guard s es s') {t : τ} (ht : R s t) :
    ∃ t', T.FreeRun t es t' ∧ R s' t' := by
  induction h generalizing t with
  | nil s => exact ⟨t, .nil t, ht⟩
  | cons hguard hstep _ ih =>
    obtain ⟨mid, hmid, hR⟩ := hsim _ _ _ t ht hguard hstep
    obtain ⟨t', hrun, hR'⟩ := ih hR
    exact ⟨t', .cons trivial hmid hrun, hR'⟩

theorem Along.of_invariant {Inv : σ → Prop} {P : σ → ε → Prop}
    (hpres : ∀ s e s', Inv s → S.step s e = some s' → Inv s')
    (hstep : ∀ s e, Inv s → P s e) {s : σ} (es : List ε) (hs : Inv s) : S.Along P s es := by
  -- induction on the events
  induction es generalizing s with
  | nil => trivial
  | cons e es ih => exact ⟨hstep s e hs, fun s' h => ih (hpres s e s' hs h)⟩

theorem Along.congr {Inv : σ → Prop} {P Q : σ → ε → Prop}
    (hpres : ∀ s e s', Inv s → S.step s e = some s' → Inv s')
    (hiff : ∀ s e, Inv s → (P s e ↔ Q s e)) {s : σ} (es : List ε) (hs : Inv s) :
    S.Along P s es ↔ S.Along Q s es := by
  -- induction on the events
  induction es generalizing s with
  | nil => exact Iff.rfl
  | cons e es ih =>
    exact and_congr (hiff s e hs)
      (forall₂_congr fun s' hstep => ih (hpres s e s' hs hstep))

theorem Run.along_iff {K : ε → Prop} {s s' : σ} {es : List ε} (h : S.Run guard s es s') :
    S.Along (fun _ e => K e) s es ↔ ∀ e ∈ es, K e := by
  -- induction on the run
  induction h with
  | nil s => exact ⟨fun _ _ hmem => absurd hmem not_mem_nil, fun _ => trivial⟩
  | @cons s mid _ e es _ hstep _ ih =>
    rw [forall_mem_cons, ← ih]
    refine and_congr_right fun _ => ⟨fun h => h mid hstep, fun h mid' hmid => ?_⟩
    rw [← some.inj (hstep.symm.trans hmid)]
    exact h

theorem Throughout.head {P : σ → Prop} {s : σ} {es : List ε} (h : S.Throughout P s es) : P s := by
  cases es with
  | nil => exact h
  | cons e es => exact h.1

theorem Run.last_of_throughout {P : σ → Prop} {s s' : σ} {es : List ε} (h : S.Run guard s es s')
    (hthroughout : S.Throughout P s es) : P s' := by
  induction h with
  | nil s => exact hthroughout
  | cons _ hstep _ ih => exact ih (hthroughout.2 _ hstep)

theorem Throughout.of_keeps {Inv P : σ → Prop} {keeps : ε → Prop}
    (hpres : ∀ s e s', Inv s → S.step s e = some s' → Inv s')
    (hkeep : ∀ s e s', Inv s → keeps e → P s → S.step s e = some s' → P s') {s : σ} {es : List ε}
    (hes : ∀ e ∈ es, keeps e) (hs : Inv s) (hP : P s) : S.Throughout P s es := by
  -- induction on the events
  induction es generalizing s with
  | nil => exact hP
  | cons e es ih =>
    obtain ⟨he, hes⟩ := forall_mem_cons.mp hes
    exact ⟨hP, fun s' h => ih hes (hpres s e s' hs h) (hkeep s e s' hs he hP h)⟩

theorem Throughout.of_invariant {Inv P : σ → Prop}
    (hpres : ∀ s e s', Inv s → S.step s e = some s' → Inv s') (hP : ∀ s, Inv s → P s) {s : σ}
    (es : List ε) (hs : Inv s) : S.Throughout P s es :=
  of_keeps hpres
    (fun s e s' h _ _ hstep => hP s' (hpres s e s' h hstep)) (fun _ _ => trivial) hs (hP s hs)

theorem Run.throughout_iff {Inv P : σ → Prop} {keeps : ε → Prop}
    (hpres : ∀ s e s', Inv s → S.step s e = some s' → Inv s')
    (hkeep : ∀ s e s', Inv s → keeps e → P s → S.step s e = some s' → P s')
    (hbreak : ∀ s e s', Inv s → ¬keeps e → S.step s e = some s' → ¬P s')
    {s s' : σ} {es : List ε} (h : S.Run guard s es s') (hs : Inv s) (hP : P s) :
    S.Throughout P s es ↔ ∀ e ∈ es, keeps e := by
  refine ⟨fun hthroughout => ?_, fun hes => .of_keeps hpres hkeep hes hs hP⟩
  clear hP
  -- induction on the run
  induction h with
  | nil s => exact fun _ hmem => absurd hmem not_mem_nil
  | @cons s mid _ e es _ hstep _ ih =>
    have hrest : S.Throughout P mid es := hthroughout.2 mid hstep
    have he : keeps e := Classical.byContradiction fun hnot =>
      hbreak _ _ _ hs hnot hstep hrest.head
    exact forall_mem_cons.mpr ⟨he, ih (hpres _ _ _ hs hstep) hrest⟩

theorem Run.throughout_iff_along {Inv P : σ → Prop} {keeps : σ → ε → Prop}
    (hpres : ∀ s e s', Inv s → guard s e → S.step s e = some s' → Inv s')
    (hkeep : ∀ s e s', Inv s → guard s e → P s → keeps s e → S.step s e = some s' → P s')
    (hbreak : ∀ s e s', Inv s → guard s e → P s → ¬keeps s e → S.step s e = some s' → ¬P s')
    {s s' : σ} {es : List ε} (h : S.Run guard s es s') (hs : Inv s) (hP : P s) :
    S.Throughout P s es ↔ S.Along keeps s es := by
  -- induction on the run
  induction h with
  | nil s => exact ⟨fun _ => trivial, fun _ => hP⟩
  | @cons s mid _ e es hguard hstep _ ih =>
    have hmid : Inv mid := hpres _ _ _ hs hguard hstep
    constructor
    · intro hthroughout
      have hrest : S.Throughout P mid es := hthroughout.2 mid hstep
      have hkeeps : keeps s e := Classical.byContradiction fun hnot =>
        hbreak _ _ _ hs hguard hP hnot hstep hrest.head
      refine ⟨hkeeps, fun mid' hmid' => ?_⟩
      rw [← some.inj (hstep.symm.trans hmid')]
      exact (ih hmid hrest.head).mp hrest
    · rintro ⟨hkeeps, hrest⟩
      refine ⟨hP, fun mid' hmid' => ?_⟩
      rw [← some.inj (hstep.symm.trans hmid')]
      exact (ih hmid (hkeep _ _ _ hs hguard hP hkeeps hstep)).mpr (hrest mid hstep)

theorem Run.throughout {Inv : σ → Prop}
    (hpres : ∀ s e s', Inv s → guard s e → S.step s e = some s' → Inv s')
    {s s' : σ} {es : List ε} (h : S.Run guard s es s') (hs : Inv s) : S.Throughout Inv s es := by
  -- induction on the run
  induction h with
  | nil s => exact hs
  | @cons s mid _ e es hguard hstep _ ih =>
    refine ⟨hs, fun mid' hmid' => ?_⟩
    rw [← some.inj (hstep.symm.trans hmid')]
    exact ih (hpres _ _ _ hs hguard hstep)

theorem Run.along_congr {Inv : σ → Prop} {P Q : σ → ε → Prop}
    (hpres : ∀ s e s', Inv s → guard s e → S.step s e = some s' → Inv s')
    (hiff : ∀ s e s', Inv s → guard s e → S.step s e = some s' → (P s e ↔ Q s e))
    {s s' : σ} {es : List ε} (h : S.Run guard s es s') (hs : Inv s) :
    S.Along P s es ↔ S.Along Q s es := by
  -- induction on the run
  induction h with
  | nil s => exact Iff.rfl
  | @cons s mid _ e es hguard hstep _ ih =>
    refine and_congr (hiff _ _ _ hs hguard hstep) (forall₂_congr fun mid' hmid' => ?_)
    rw [← some.inj (hstep.symm.trans hmid')]
    exact ih (hpres _ _ _ hs hguard hstep)

end EventSystem
