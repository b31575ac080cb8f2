import Mathlib.Data.List.Induction

/-!
# Lexical normal forms

A sequence of segments, some of which say nothing and some of which take the segment before them
back. With `keep`, those that have nothing to take back are kept.

* `push` takes one more segment on, and `normalise` all of them.
* `normal_normalise`: what is left is some kept ones, and then names.
* **`normalise_of_normal`**: a normal form is left as it is.
-/

namespace Lexical

open List

inductive Kind where
  | skip
  | up
  | name
  deriving DecidableEq, Repr

variable {σ : Type*} (kind : σ → Kind) (keep : Bool)

def takeBack (s : σ) : (stack : List σ) → List σ
  | [] => if keep then [s] else []
  | top :: rest => if kind top = .up then s :: top :: rest else rest

/-- One more segment behind those on the stack. -/
def push (stack : List σ) (s : σ) : List σ :=
  match kind s with
  | .skip => stack
  | .name => s :: stack
  | .up => takeBack kind keep s stack

def normalise (segments : List σ) : List σ := (segments.foldl (push kind keep) []).reverse

structure Normal (segments : List σ) : Prop where
  exists_append : ∃ ups names, segments = ups ++ names ∧ (∀ s ∈ ups, kind s = .up) ∧
    (∀ s ∈ names, kind s = .name) ∧ (keep = false → ups = [])

variable {kind keep} {segments : List σ} {s : σ}

theorem normalise_append_singleton (segments : List σ) (s : σ) :
    normalise kind keep (segments ++ [s]) =
      (push kind keep (normalise kind keep segments).reverse s).reverse := by
  unfold normalise
  rw [foldl_append, reverse_reverse]
  rfl

theorem normalise_skip (h : kind s = .skip) :
    normalise kind keep (segments ++ [s]) = normalise kind keep segments := by
  rw [normalise_append_singleton, push, h]
  exact reverse_reverse _

theorem normalise_name (h : kind s = .name) :
    normalise kind keep (segments ++ [s]) = normalise kind keep segments ++ [s] := by
  rw [normalise_append_singleton, push, h]
  show (s :: _).reverse = _
  rw [reverse_cons, reverse_reverse]

theorem normalise_up_of_nil (h : kind s = .up) (hnil : normalise kind keep segments = []) :
    normalise kind keep (segments ++ [s]) = if keep then [s] else [] := by
  rw [normalise_append_singleton, push, h, hnil]
  cases keep <;> rfl

theorem normalise_up_of_up {init : List σ} {top : σ} (h : kind s = .up)
    (hsegments : normalise kind keep segments = init ++ [top]) (htop : kind top = .up) :
    normalise kind keep (segments ++ [s]) = init ++ [top] ++ [s] := by
  rw [normalise_append_singleton, push, h, hsegments, reverse_append]
  show (if kind top = .up then s :: top :: init.reverse else init.reverse).reverse = _
  rw [if_pos htop, reverse_cons, reverse_cons, reverse_reverse]

theorem normalise_up_of_name {init : List σ} {top : σ} (h : kind s = .up)
    (hsegments : normalise kind keep segments = init ++ [top]) (htop : kind top = .name) :
    normalise kind keep (segments ++ [s]) = init := by
  rw [normalise_append_singleton, push, h, hsegments, reverse_append]
  show (if kind top = .up then s :: top :: init.reverse else init.reverse).reverse = _
  rw [if_neg (by rw [htop]; decide), reverse_reverse]

theorem Normal.cases (h : Normal kind keep segments) :
    segments = [] ∨
    (∃ init top, segments = init ++ [top] ∧ kind top = .name ∧ Normal kind keep init) ∨
    (∃ init top, segments = init ++ [top] ∧ kind top = .up ∧ keep = true ∧
      ∀ s ∈ segments, kind s = .up) := by
  obtain ⟨ups, names, rfl, hups, hnames, hkeep⟩ := h.exists_append
  rcases eq_nil_or_concat names with rfl | ⟨names, top, rfl⟩
  · rcases eq_nil_or_concat ups with rfl | ⟨ups, top, rfl⟩
    · exact .inl rfl
    · rw [concat_eq_append] at hups hkeep ⊢
      refine .inr (.inr ⟨ups, top, append_nil _,
        hups top (mem_append_right _ mem_cons_self), ?_, ?_⟩)
      · cases keep with
        | true => rfl
        | false =>
          exact absurd (hkeep rfl)
            (append_ne_nil_of_right_ne_nil _ (cons_ne_nil _ _))
      · rw [append_nil]
        exact hups
  · rw [concat_eq_append] at hnames ⊢
    refine .inr (.inl ⟨ups ++ names, top, by rw [append_assoc],
      hnames top (mem_append_right _ mem_cons_self), ⟨ups, names, rfl, hups, ?_, hkeep⟩⟩)
    exact fun s hs => hnames s (mem_append_left _ hs)

theorem normal_nil : Normal kind keep [] :=
  ⟨[], [], rfl, fun s hs => (by cases hs), fun s hs => (by cases hs), fun _ => rfl⟩

theorem Normal.append_name (h : Normal kind keep segments) (hs : kind s = .name) :
    Normal kind keep (segments ++ [s]) := by
  obtain ⟨ups, names, rfl, hups, hnames, hkeep⟩ := h.exists_append
  refine ⟨ups, names ++ [s], append_assoc _ _ _, hups, fun t ht => ?_, hkeep⟩
  rcases mem_append.mp ht with ht | ht
  · exact hnames t ht
  · rwa [mem_singleton.mp ht]

theorem normal_of_up (h : ∀ s ∈ segments, kind s = .up) : Normal kind true segments :=
  ⟨segments, [], (append_nil _).symm, h, fun s hs => (by cases hs), fun h => (by cases h)⟩

theorem normal_normalise (kind : σ → Kind) (keep : Bool) (segments : List σ) :
    Normal kind keep (normalise kind keep segments) := by
  -- induction from the last segment back
  induction segments using reverseRecOn with
  | nil => exact normal_nil
  | append_singleton segments s ih =>
    cases hs : kind s with
    | skip =>
      rw [normalise_skip hs]
      exact ih
    | name =>
      rw [normalise_name hs]
      exact ih.append_name hs
    | up =>
      rcases ih.cases with hnil | ⟨init, top, happ, htop, hinit⟩ |
        ⟨init, top, happ, htop, rfl, hups⟩
      · rw [normalise_up_of_nil hs hnil]
        cases keep with
        | false => exact normal_nil
        | true => exact normal_of_up fun t ht => by rwa [mem_singleton.mp ht]
      · rw [normalise_up_of_name hs happ htop]
        exact hinit
      · rw [normalise_up_of_up hs happ htop, ← happ]
        refine normal_of_up fun t ht => ?_
        rcases mem_append.mp ht with ht | ht
        · exact hups t ht
        · rwa [mem_singleton.mp ht]

theorem normalise_of_normal (h : Normal kind keep segments) :
    normalise kind keep segments = segments := by
  -- induction from the last segment back, as it is taken on
  induction segments using reverseRecOn with
  | nil => rfl
  | append_singleton segments s ih =>
    rcases h.cases with hnil | ⟨init, top, happ, htop, hinit⟩ | ⟨init, top, happ, htop, rfl, hups⟩
    · exact absurd hnil (append_ne_nil_of_right_ne_nil _ (cons_ne_nil _ _))
    · obtain ⟨rfl, hs⟩ := append_inj' happ rfl
      obtain rfl := head_eq_of_cons_eq hs
      rw [normalise_name htop, ih hinit]
    · obtain ⟨rfl, hs⟩ := append_inj' happ rfl
      obtain rfl := head_eq_of_cons_eq hs
      have hseg : ∀ t ∈ segments, kind t = .up := fun t ht => hups t (mem_append_left _ ht)
      have hnorm := ih (normal_of_up hseg)
      rcases eq_nil_or_concat segments with rfl | ⟨init, top, rfl⟩
      · exact normalise_up_of_nil htop rfl
      · rw [concat_eq_append] at hnorm hseg ⊢
        rw [normalise_up_of_up htop hnorm
          (hseg top (mem_append_right _ mem_cons_self))]

theorem kind_ne_skip_of_mem_normalise (h : s ∈ normalise kind keep segments) : kind s ≠ .skip := by
  obtain ⟨ups, names, happ, hups, hnames, -⟩ :=
    (normal_normalise kind keep segments).exists_append
  rw [happ] at h
  rcases mem_append.mp h with h | h
  · rw [hups s h]
    decide
  · rw [hnames s h]
    decide

theorem normalise_sublist (kind : σ → Kind) (keep : Bool) (segments : List σ) :
    (normalise kind keep segments).Sublist segments := by
  induction segments using reverseRecOn with
  | nil => exact Sublist.refl _
  | append_singleton segments s ih =>
    cases hs : kind s with
    | skip =>
      rw [normalise_skip hs]
      exact ih.trans (sublist_append_left _ _)
    | name =>
      rw [normalise_name hs]
      exact ih.append (Sublist.refl _)
    | up =>
      rcases (normal_normalise kind keep segments).cases with hnil | ⟨init, top, happ, htop, -⟩ |
        ⟨init, top, happ, htop, -, -⟩
      · rw [normalise_up_of_nil hs hnil]
        split
        · exact sublist_append_right _ _
        · exact nil_sublist _
      · rw [normalise_up_of_name hs happ htop]
        rw [happ] at ih
        exact ((sublist_append_left _ _).trans ih).trans (sublist_append_left _ _)
      · rw [normalise_up_of_up hs happ htop, ← happ]
        exact ih.append (Sublist.refl _)

theorem normalise_cons_skip (h : kind s = .skip) :
    normalise kind keep (s :: segments) = normalise kind keep segments := by
  unfold normalise
  rw [foldl_cons, push, h]

end Lexical
