import Mathlib.Data.List.Basic
import Mathlib.Data.Nat.Basic
import Mathlib.Order.Basic
import Mathlib.Tactic.ByContra

/-!
# Searching a word by skips

* `OccursAt text word p`: the word stands at position `p` of the text.
* `descend hit skip` goes down through numbered places, and passes over `skip r` of them after the
  place `r`. `Safe` says that it always goes on, and passes over no hit.
* **`descend_iff`**: it finds the uppermost hit if and only if the skips are safe.
-/

namespace SkipSearch

/-! ## Occurrences -/

section Occurrences

variable {α : Type*} {text word : List α} {p : Nat}

def OccursAt (text word : List α) (p : Nat) : Prop :=
  p + word.length ≤ text.length ∧ (text.drop p).take word.length = word

instance [DecidableEq α] : Decidable (OccursAt text word p) :=
  inferInstanceAs (Decidable (_ ∧ _))

theorem OccursAt.getElem? (h : OccursAt text word p) {i : Nat} (hi : i < word.length) :
    text[p + i]? = word[i]? := by
  have hget := congrArg (fun s : List α => s[i]?) h.2
  rw [List.getElem?_take_of_lt hi, List.getElem?_drop] at hget
  exact hget

theorem OccursAt.le (h : OccursAt text word p) : p ≤ text.length - word.length := by
  have := h.1
  omega

def IsLeftmost (text word : List α) : Option Nat → Prop
  | some p => OccursAt text word p ∧ ∀ q < p, ¬OccursAt text word q
  | none => ∀ q, ¬OccursAt text word q

def IsRightmost (text word : List α) : Option Nat → Prop
  | some p => OccursAt text word p ∧ ∀ q, p < q → ¬OccursAt text word q
  | none => ∀ q, ¬OccursAt text word q

end Occurrences

/-! ## Going down -/

variable {hit : Nat → Bool} {skip : Nat → Nat} {fuel q r : Nat}

/-- `none`: the search does not end within `fuel` places. -/
def descend (hit : Nat → Bool) (skip : Nat → Nat) : (fuel : Nat) → Nat → Option (Option Nat)
  | 0, _ => none
  | fuel + 1, r =>
      if hit r then some (some r)
      else if r = 0 then some none
      else if skip r ≤ r then descend hit skip fuel (r - skip r)
      else some none

/-- The uppermost hit from `r` down. -/
def IsUppermost (hit : Nat → Bool) (r : Nat) : Option Nat → Prop
  | some q => q ≤ r ∧ hit q = true ∧ ∀ q', q < q' → q' ≤ r → hit q' = false
  | none => ∀ q ≤ r, hit q = false

/-- From `r` down, each skip leads on and passes over no hit. -/
inductive Safe (hit : Nat → Bool) (skip : Nat → Nat) : Nat → Prop where
  | hit {r : Nat} (h : hit r = true) : Safe hit skip r
  | zero : Safe hit skip 0
  | out {r : Nat} (hskip : r < skip r) (h : ∀ q < r, hit q = false) : Safe hit skip r
  | down {r : Nat} (hpos : 0 < skip r) (hle : skip r ≤ r)
      (h : ∀ q < r, r - skip r < q → hit q = false) (hrest : Safe hit skip (r - skip r)) :
      Safe hit skip r

theorem descend_le (h : descend hit skip fuel r = some (some q)) : q ≤ r := by
  induction fuel generalizing r with
  | zero => cases h
  | succ fuel ih =>
    unfold descend at h
    split at h
    · obtain rfl := Option.some.inj (Option.some.inj h)
      exact le_rfl
    · split at h
      · cases h
      · split at h
        · exact (ih h).trans (Nat.sub_le _ _)
        · cases h

theorem descend_of_skip_eq_zero (hskip : skip r = 0) (hr : r ≠ 0) (hhit : ¬hit r = true) :
    descend hit skip fuel r = none := by
  induction fuel with
  | zero => rfl
  | succ fuel ih =>
    unfold descend
    rw [if_neg hhit, if_neg hr, if_pos (hskip.trans_le (Nat.zero_le r)), hskip]
    exact ih

theorem IsUppermost.of_le {r' : Nat} {res : Option Nat} (h : IsUppermost hit r' res) (hle : r' ≤ r)
    (hnone : ∀ q ≤ r, r' < q → hit q = false) : IsUppermost hit r res := by
  cases res with
  | none =>
    intro q hq
    rcases Nat.lt_or_ge r' q with hlt | hge
    · exact hnone q hq hlt
    · exact h q hge
  | some q =>
    refine ⟨h.1.trans hle, h.2.1, fun q' hlt hle' => ?_⟩
    rcases Nat.lt_or_ge r' q' with hlt' | hge
    · exact hnone q' hle' hlt'
    · exact h.2.2 q' hlt hge

theorem Safe.descend (h : Safe hit skip r) (hfuel : r < fuel) :
    ∃ res, descend hit skip fuel r = some res ∧ IsUppermost hit r res := by
  induction h generalizing fuel with
  | @hit r h =>
    obtain ⟨fuel, rfl⟩ := Nat.exists_eq_succ_of_ne_zero (show fuel ≠ 0 by omega)
    refine ⟨some r, if_pos h, le_rfl, h, fun q' hlt hle => ?_⟩
    exact absurd hle (Nat.not_le.mpr hlt)
  | zero =>
    obtain ⟨fuel, rfl⟩ := Nat.exists_eq_succ_of_ne_zero (show fuel ≠ 0 by omega)
    unfold SkipSearch.descend
    by_cases hhit : hit 0 = true
    · exact ⟨some 0, if_pos hhit, le_rfl, hhit, fun q' hlt hle =>
        absurd hle (Nat.not_le.mpr hlt)⟩
    · refine ⟨none, by rw [if_neg hhit, if_pos rfl], fun q hq => ?_⟩
      obtain rfl : q = 0 := Nat.le_zero.mp hq
      exact Bool.not_eq_true _ |>.mp hhit
  | @out r hskip h =>
    obtain ⟨fuel, rfl⟩ := Nat.exists_eq_succ_of_ne_zero (show fuel ≠ 0 by omega)
    unfold SkipSearch.descend
    by_cases hhit : hit r = true
    · exact ⟨some r, if_pos hhit, le_rfl, hhit, fun q' hlt hle =>
        absurd hle (Nat.not_le.mpr hlt)⟩
    · refine ⟨none, ?_, fun q hq => ?_⟩
      · rw [if_neg hhit]
        split
        · rfl
        · rw [if_neg (Nat.not_le.mpr hskip)]
      · rcases Nat.eq_or_lt_of_le hq with rfl | hlt
        · exact Bool.not_eq_true _ |>.mp hhit
        · exact h q hlt
  | @down r hpos hle h _ ih =>
    obtain ⟨fuel, rfl⟩ := Nat.exists_eq_succ_of_ne_zero (show fuel ≠ 0 by omega)
    unfold SkipSearch.descend
    by_cases hhit : hit r = true
    · exact ⟨some r, if_pos hhit, le_rfl, hhit, fun q' hlt hle =>
        absurd hle (Nat.not_le.mpr hlt)⟩
    · obtain ⟨res, hres, hupper⟩ := ih (show r - skip r < fuel by omega)
      refine ⟨res, ?_, hupper.of_le (Nat.sub_le _ _) fun q hq hlt => ?_⟩
      · rw [if_neg hhit, if_neg (by omega), if_pos hle, hres]
      · rcases Nat.eq_or_lt_of_le hq with rfl | hqr
        · exact Bool.not_eq_true _ |>.mp hhit
        · exact h q hqr hlt

theorem safe_of_descend {res : Option Nat} (h : descend hit skip fuel r = some res)
    (hupper : IsUppermost hit r res) : Safe hit skip r := by
  -- induction on the places looked at
  induction fuel generalizing r with
  | zero => cases h
  | succ fuel ih =>
    by_cases hhit : hit r = true
    · exact .hit hhit
    rcases Nat.eq_zero_or_pos r with rfl | hr
    · exact .zero
    have hstuck : skip r ≠ 0 := fun hskip => by
      rw [descend_of_skip_eq_zero hskip (Nat.ne_of_gt hr) hhit] at h
      cases h
    unfold descend at h
    rw [if_neg hhit, if_neg (Nat.ne_of_gt hr)] at h
    split at h
    · rename_i hle
      have hover : ∀ q < r, r - skip r < q → hit q = false := by
        intro q hq hlt
        by_contra hne
        have hq' := Bool.not_eq_false _ |>.mp hne
        cases res with
        | none =>
          have hno := hupper q hq.le
          rw [hq'] at hno
          cases hno
        | some q' =>
          have hle' := descend_le h
          have hno := hupper.2.2 q (hle'.trans_lt hlt) hq.le
          rw [hq'] at hno
          cases hno
      refine .down (Nat.pos_of_ne_zero hstuck) hle hover (ih h ?_)
      cases res with
      | none => exact fun q hq => hupper q (hq.trans (Nat.sub_le _ _))
      | some q =>
        exact ⟨descend_le h, hupper.2.1, fun q' hlt hle' =>
          hupper.2.2 q' hlt (hle'.trans (Nat.sub_le _ _))⟩
    · rename_i hgt
      obtain rfl := Option.some.inj h
      exact .out (Nat.not_le.mp hgt) fun q hq => hupper q hq.le

theorem descend_iff (hfuel : r < fuel) :
    (∃ res, descend hit skip fuel r = some res ∧ IsUppermost hit r res) ↔ Safe hit skip r :=
  ⟨fun ⟨_, h, hupper⟩ => safe_of_descend h hupper, fun h => h.descend hfuel⟩

theorem safe_of_forall {m : Nat} (h : ∀ r ≤ m, r ≠ 0 → 0 < skip r ∧
    ∀ q < r, r - skip r < q ∨ r < skip r → hit q = false) (hr : r ≤ m) : Safe hit skip r := by
  induction r using Nat.strong_induction_on with
  | _ r ih =>
    rcases Nat.eq_zero_or_pos r with rfl | hpos
    · exact .zero
    obtain ⟨hskip, hover⟩ := h r hr (Nat.ne_of_gt hpos)
    rcases Nat.lt_or_ge r (skip r) with hlt | hge
    · exact .out hlt fun q hq => hover q hq (.inr hlt)
    · exact .down hskip hge (fun q hq hlt => hover q hq (.inl hlt)) (ih _ (by omega) (by omega))

end SkipSearch
