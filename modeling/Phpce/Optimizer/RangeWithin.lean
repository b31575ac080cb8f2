import Phpce.Lib.Extremes
import Phpce.Optimizer.Range

/-!
# Ranges that hold the outcomes

When the range that is computed for an opcode holds what the opcode evaluates to.

* `addRange_sound`, `subRange_sound`, `subRange_unsound`: sums and differences.
* `incRange_sound`, `decRange_sound`: increments and decrements.
* `boolRange_sound` and its like: conditions.
* `boolXorRange_sound`, `boolXorRange_unsound`: exclusive or.
-/

namespace Phpce

namespace Optimizer

namespace Range

open Extremes

def ZendSsaRange.Contains (r : ZendSsaRange) (x : Int64) : Prop := r.min ≤ x ∧ x ≤ r.max

instance (r : ZendSsaRange) (x : Int64) : Decidable (r.Contains x) :=
  inferInstanceAs (Decidable (_ ∧ _))

def Operand.Takes (op : Operand) (x : Int64) : Prop := ∀ r, op.range = some r → r.Contains x

/-- A float has to be announced by a flag. -/
def Outcome.Within (r : ZendSsaRange) : Outcome → Prop
  | .long z => r.Contains z
  | .bool b => r.Contains (ofCond b)
  | .null => r.Contains 0
  | .above => r.overflow = true
  | .below => r.underflow = true

instance (r : ZendSsaRange) (v : Outcome) : Decidable (v.Within r) :=
  match v with
  | .long z => inferInstanceAs (Decidable (r.Contains z))
  | .bool b => inferInstanceAs (Decidable (r.Contains (ofCond b)))
  | .null => inferInstanceAs (Decidable (r.Contains 0))
  | .above => inferInstanceAs (Decidable (r.overflow = true))
  | .below => inferInstanceAs (Decidable (r.underflow = true))

/-- Whatever integers the operands are, the range holds the outcome. -/
def Sound (opcode : RangeOp) (target : Target) (op1 op2 : Operand) : Prop :=
  ∀ r, zendInferenceCalcRange opcode target op1 op2 = some r →
    ∀ x y, op1.Takes x → op2.Takes y →
      ∀ v, evaluate opcode target x y = some v → v.Within r

variable {r r1 r2 : ZendSsaRange} {x y lo hi : Int64} {z : Int} {u o : Bool}

/-! ## Words -/

theorem contains_iff : r.Contains x ↔ r.min.toInt ≤ x.toInt ∧ x.toInt ≤ r.max.toInt := by
  rw [ZendSsaRange.Contains, Int64.le_iff_toInt_le, Int64.le_iff_toInt_le]

theorem wrap_eq (hlo : -2 ^ 64 ≤ z) (hhi : z < 2 ^ 64) :
    z.bmod (2 ^ 64) =
      if z < -2 ^ 63 then z + 2 ^ 64 else if 2 ^ 63 ≤ z then z - 2 ^ 64 else z := by
  rw [bmod_eq]
  split
  · omega
  · split <;> omega

theorem within_ofExact
    (hlo : -2 ^ 63 ≤ z → z < 2 ^ 63 → r.min.toInt ≤ z)
    (hhi : -2 ^ 63 ≤ z → z < 2 ^ 63 → z ≤ r.max.toInt)
    (hbelow : z < -2 ^ 63 → r.underflow = true) (habove : 2 ^ 63 ≤ z → r.overflow = true) :
    (Outcome.ofExact z).Within r := by
  rw [Outcome.ofExact, Int64.toInt_maxValue, Int64.toInt_minValue]
  by_cases hmax : z > 2 ^ 63 - 1
  · rw [if_pos hmax]
    exact habove (by omega)
  rw [if_neg hmax]
  by_cases hmin : z < -2 ^ 63
  · rw [if_pos hmin]
    exact hbelow hmin
  rw [if_neg hmin]
  have hz : (Int64.ofInt z).toInt = z := Int64.toInt_ofInt_of_le (by omega) (by omega)
  show r.Contains (Int64.ofInt z)
  rw [contains_iff, hz]
  exact ⟨hlo (by omega) (by omega), hhi (by omega) (by omega)⟩

theorem within_flagged
    (hlo : -2 ^ 63 ≤ z → z < 2 ^ 63 → u = false → lo.toInt ≤ z)
    (hhi : -2 ^ 63 ≤ z → z < 2 ^ 63 → o = false → z ≤ hi.toInt)
    (hbelow : z < -2 ^ 63 → u = true) (habove : 2 ^ 63 ≤ z → o = true) :
    (Outcome.ofExact z).Within
      ⟨if u then Int64.minValue else lo, if o then Int64.maxValue else hi, u, o⟩ := by
  refine within_ofExact (fun hmin hmax => ?_) (fun hmin hmax => ?_) hbelow habove
  · cases u with
    | true =>
      show Int64.minValue.toInt ≤ z
      rwa [Int64.toInt_minValue]
    | false => exact hlo hmin hmax rfl
  · cases o with
    | true =>
      show z ≤ Int64.maxValue.toInt
      rw [Int64.toInt_maxValue]
      omega
    | false => exact hhi hmin hmax rfl

/-! ## Sums and differences -/

theorem addRange_sound (hx : r1.Contains x) (hy : r2.Contains y) :
    (Outcome.ofExact (x.toInt + y.toInt)).Within (addRange r1 r2) := by
  rw [contains_iff] at hx hy
  have ha := r1.min.le_toInt
  have hb := r1.max.toInt_lt
  have hc := r2.min.le_toInt
  have hd := r2.max.toInt_lt
  have hmin : (r1.min + r2.min).toInt = _ :=
    (Int64.toInt_add _ _).trans (wrap_eq (by omega) (by omega))
  have hmax : (r1.max + r2.max).toInt = _ :=
    (Int64.toInt_add _ _).trans (wrap_eq (by omega) (by omega))
  apply within_flagged
  · intro hlo hhi hu
    simp only [Bool.or_eq_false_iff, Bool.and_eq_false_iff, decide_eq_false_iff_not,
      Int64.lt_iff_toInt_lt, Int64.le_iff_toInt_le, Int64.toInt_zero, ge_iff_le] at hu
    split_ifs at hmin <;> omega
  · intro hlo hhi ho
    simp only [Bool.or_eq_false_iff, Bool.and_eq_false_iff, decide_eq_false_iff_not, gt_iff_lt,
      Int64.lt_iff_toInt_lt, Int64.le_iff_toInt_le, Int64.toInt_zero] at ho
    split_ifs at hmax <;> omega
  · intro hz
    simp only [Bool.or_eq_true, Bool.and_eq_true, decide_eq_true_iff,
      Int64.lt_iff_toInt_lt, Int64.le_iff_toInt_le, Int64.toInt_zero, ge_iff_le]
    split_ifs at hmin <;> omega
  · intro hz
    simp only [Bool.or_eq_true, Bool.and_eq_true, decide_eq_true_iff, gt_iff_lt,
      Int64.lt_iff_toInt_lt, Int64.le_iff_toInt_le, Int64.toInt_zero]
    split_ifs at hmax <;> omega

def SubFits (r1 r2 : ZendSsaRange) : Prop :=
  r1.overflow = true ∨ r2.underflow = true ∨ ¬(r1.max = 0 ∧ r2.min = Int64.minValue)

theorem subRange_sound (hfits : SubFits r1 r2) (hx : r1.Contains x) (hy : r2.Contains y) :
    (Outcome.ofExact (x.toInt - y.toInt)).Within (subRange r1 r2) := by
  rw [contains_iff] at hx hy
  have ha := r1.min.le_toInt
  have hb := r1.max.toInt_lt
  have hc := r2.min.le_toInt
  have hd := r2.max.toInt_lt
  have hmin : (r1.min - r2.max).toInt = _ :=
    (Int64.toInt_sub _ _).trans (wrap_eq (by omega) (by omega))
  have hmax : (r1.max - r2.min).toInt = _ :=
    (Int64.toInt_sub _ _).trans (wrap_eq (by omega) (by omega))
  rw [SubFits, ← Int64.toInt_inj, ← Int64.toInt_inj, Int64.toInt_zero, Int64.toInt_minValue]
    at hfits
  apply within_flagged
  · intro hlo hhi hu
    simp only [Bool.or_eq_false_iff, Bool.and_eq_false_iff, decide_eq_false_iff_not, gt_iff_lt,
      Int64.lt_iff_toInt_lt, Int64.le_iff_toInt_le, Int64.toInt_zero, ge_iff_le] at hu
    split_ifs at hmin <;> omega
  · intro hlo hhi ho
    simp only [Bool.or_eq_false_iff, Bool.and_eq_false_iff, decide_eq_false_iff_not, gt_iff_lt,
      Int64.lt_iff_toInt_lt, Int64.le_iff_toInt_le, Int64.toInt_zero] at ho
    obtain ⟨⟨hflag, hflag'⟩, -⟩ := id ho
    rw [hflag, hflag'] at hfits
    have hzero := (hfits.resolve_left Bool.false_ne_true).resolve_left Bool.false_ne_true
    split_ifs at hmax <;> omega
  · intro hz
    simp only [Bool.or_eq_true, Bool.and_eq_true, decide_eq_true_iff, gt_iff_lt,
      Int64.lt_iff_toInt_lt, Int64.le_iff_toInt_le, Int64.toInt_zero, ge_iff_le]
    split_ifs at hmin <;> omega
  · intro hz
    simp only [Bool.or_eq_true, Bool.and_eq_true, decide_eq_true_iff, gt_iff_lt,
      Int64.lt_iff_toInt_lt, Int64.le_iff_toInt_le, Int64.toInt_zero]
    rcases hfits with hflag | hflag | hzero
    · exact .inl (.inl hflag)
    · exact .inl (.inr hflag)
    · split_ifs at hmax <;> omega

theorem subRange_unsound (h : ¬SubFits r1 r2) :
    ¬(Outcome.ofExact (r1.max.toInt - r2.min.toInt)).Within (subRange r1 r2) := by
  obtain ⟨hover, hrest⟩ := not_or.mp h
  obtain ⟨hunder, hzero⟩ := not_or.mp hrest
  obtain ⟨hmax, hmin⟩ := not_not.mp hzero
  rw [hmax, hmin]
  show ¬(subRange r1 r2).overflow = true
  simp [subRange, hover, hunder, hmax]

/-! ## Increments and decrements -/

theorem toInt_add_one (h : x < Int64.maxValue) : (x + 1).toInt = x.toInt + 1 := by
  rw [Int64.lt_iff_toInt_lt, Int64.toInt_maxValue] at h
  have hx := x.le_toInt
  rw [Int64.toInt_add, Int64.toInt_one, wrap_eq (by omega) (by omega), if_neg (by omega),
    if_neg (by omega)]

theorem toInt_sub_one (h : x > Int64.minValue) : (x - 1).toInt = x.toInt - 1 := by
  rw [gt_iff_lt, Int64.lt_iff_toInt_lt, Int64.toInt_minValue] at h
  have hx := x.toInt_lt
  rw [Int64.toInt_sub, Int64.toInt_one, wrap_eq (by omega) (by omega), if_neg (by omega),
    if_neg (by omega)]

theorem incRange_sound (hx : r.Contains x) :
    (Outcome.ofExact (x.toInt + 1)).Within (incRange r) := by
  rw [contains_iff] at hx
  have hlt := x.toInt_lt
  have hle := x.le_toInt
  refine within_ofExact (fun _ _ => ?_) (fun _ hz => ?_) (fun _ => by omega) (fun hz => ?_)
  · rw [incRange]
    dsimp only
    split
    next h =>
      rw [toInt_add_one (of_decide_eq_true (Bool.and_eq_true_iff.mp h).1)]
      omega
    next => omega
  · rw [incRange]
    dsimp only
    split
    next h =>
      rw [toInt_add_one h]
      omega
    next h =>
      rw [Int64.lt_iff_toInt_lt, Int64.toInt_maxValue] at h
      omega
  · have hmax : ¬r.max < Int64.maxValue := by
      rw [Int64.lt_iff_toInt_lt, Int64.toInt_maxValue]
      omega
    exact if_neg hmax

theorem decRange_sound (hx : r.Contains x) :
    (Outcome.ofExact (x.toInt - 1)).Within (decRange r) := by
  rw [contains_iff] at hx
  have hlt := x.toInt_lt
  have hle := x.le_toInt
  refine within_ofExact (fun hz _ => ?_) (fun _ _ => ?_) (fun hz => ?_) (fun _ => by omega)
  · rw [decRange]
    dsimp only
    split
    next h =>
      rw [toInt_sub_one h]
      omega
    next h =>
      rw [gt_iff_lt, Int64.lt_iff_toInt_lt, Int64.toInt_minValue] at h
      omega
  · rw [decRange]
    dsimp only
    split
    next h =>
      rw [toInt_sub_one (of_decide_eq_true (Bool.and_eq_true_iff.mp h).1)]
      omega
    next => omega
  · have hmin : ¬r.min > Int64.minValue := by
      rw [gt_iff_lt, Int64.lt_iff_toInt_lt, Int64.toInt_minValue]
      omega
    exact if_neg hmin

/-! ## Conditions -/

theorem within_bool {p q b : Bool} (hlo : p = true → b = true) (hhi : b = true → q = true) :
    (Outcome.bool b).Within (between (ofCond p) (ofCond q)) := by
  show ofCond p ≤ ofCond b ∧ ofCond b ≤ ofCond q
  have hmono : ∀ p q : Bool, (p = true → q = true) → ofCond p ≤ ofCond q := by decide
  exact ⟨hmono p b hlo, hmono b q hhi⟩

theorem within_anyBool (b : Bool) : (Outcome.bool b).Within anyBool :=
  within_bool (p := false) (q := true) (fun h => absurd h Bool.false_ne_true) fun _ => rfl

theorem boolRange_sound (hx : r.Contains x) : (Outcome.bool (x ≠ 0)).Within (boolRange r) := by
  rw [contains_iff] at hx
  refine within_bool (fun h => ?_) (fun h => ?_)
  all_goals
    simp only [Bool.or_eq_true, decide_eq_true_iff, gt_iff_lt, Int64.lt_iff_toInt_lt, ne_eq,
      ← Int64.toInt_inj, Int64.toInt_zero] at h ⊢
    omega

theorem boolNotRange_sound (hx : r.Contains x) :
    (Outcome.bool (x = 0)).Within (boolNotRange r) := by
  rw [contains_iff] at hx
  refine within_bool (fun h => ?_) (fun h => ?_)
  all_goals
    simp only [Bool.and_eq_true, decide_eq_true_iff, ge_iff_le, Int64.le_iff_toInt_le,
      ← Int64.toInt_inj, Int64.toInt_zero] at h ⊢
    omega

theorem isEqualRange_sound (hx : r1.Contains x) (hy : r2.Contains y) :
    (Outcome.bool (x = y)).Within (isEqualRange r1 r2) := by
  rw [contains_iff] at hx hy
  refine within_bool (fun h => ?_) (fun h => ?_)
  all_goals
    simp only [Bool.and_eq_true, decide_eq_true_iff, ge_iff_le, Int64.le_iff_toInt_le,
      ← Int64.toInt_inj] at h ⊢
    omega

theorem isNotEqualRange_sound (hx : r1.Contains x) (hy : r2.Contains y) :
    (Outcome.bool (x ≠ y)).Within (isNotEqualRange r1 r2) := by
  rw [contains_iff] at hx hy
  refine within_bool (fun h => ?_) (fun h => ?_)
  all_goals
    simp only [Bool.or_eq_true, decide_eq_true_iff, gt_iff_lt, Int64.lt_iff_toInt_lt, ne_eq,
      ← Int64.toInt_inj] at h ⊢
    omega

theorem isSmallerRange_sound (hx : r1.Contains x) (hy : r2.Contains y) :
    (Outcome.bool (x < y)).Within (isSmallerRange r1 r2) := by
  rw [contains_iff] at hx hy
  refine within_bool (fun h => ?_) (fun h => ?_)
  all_goals
    simp only [decide_eq_true_iff, Int64.lt_iff_toInt_lt] at h ⊢
    omega

theorem isSmallerOrEqualRange_sound (hx : r1.Contains x) (hy : r2.Contains y) :
    (Outcome.bool (x ≤ y)).Within (isSmallerOrEqualRange r1 r2) := by
  rw [contains_iff] at hx hy
  refine within_bool (fun h => ?_) (fun h => ?_)
  all_goals
    simp only [decide_eq_true_iff, Int64.le_iff_toInt_le] at h ⊢
    omega

theorem bwNotRange_sound (hx : r.Contains x) : (Outcome.long (~~~x)).Within (bwNotRange r) := by
  have hnot : ∀ x : Int64, (~~~x).toInt = -x.toInt - 1 := by
    intro x
    have hlt := x.toInt_lt
    have hle := x.le_toInt
    rw [Int64.toInt_not, wrap_eq (by omega) (by omega), if_neg (by omega), if_neg (by omega)]
  rw [bwNotRange]
  split
  next => exact ⟨Int64.minValue_le _, Int64.le_maxValue _⟩
  next =>
    rw [contains_iff] at hx
    show (between (~~~r.max) (~~~r.min)).Contains (~~~x)
    rw [contains_iff]
    show (~~~r.max).toInt ≤ _ ∧ _ ≤ (~~~r.min).toInt
    rw [hnot, hnot, hnot]
    omega

/-! ## Exclusive or -/

def Settled (r : ZendSsaRange) : Prop := r.min > 0 ∨ r.max ≤ 0

def Misread (r : ZendSsaRange) : Prop := r.min < 0 ∧ r.max = 0

def XorFits (r1 r2 : ZendSsaRange) : Prop :=
  ¬(Settled r1 ∧ Settled r2 ∧ (Misread r1 ∨ Misread r2))

def truth (r : ZendSsaRange) : Bool := r.min > 0 || r.max < 0

instance (r : ZendSsaRange) : Decidable (Settled r) := inferInstanceAs (Decidable (_ ∨ _))

theorem ofCond_eq_iff (r : ZendSsaRange) :
    ofCond (truth r) = ofCond (ofCond (truth r) ≠ 0 || r.max ≠ 0) ↔ Settled r := by
  have hcond : ∀ p q : Bool, ofCond p = ofCond (ofCond p ≠ 0 || q) ↔ p = true ∨ q = false := by
    decide
  rw [hcond, truth, Settled, Bool.or_eq_true, decide_eq_true_iff, decide_eq_true_iff,
    decide_eq_false_iff_not, not_not, Int64.le_iff_lt_or_eq, or_assoc]

theorem boolXorRange_eq (r1 r2 : ZendSsaRange) :
    boolXorRange r1 r2 =
      if Settled r1 ∧ Settled r2 then
        between (ofCond (truth r1 ^^ truth r2)) (ofCond (truth r1 ^^ truth r2))
      else anyBool := by
  have heq : ∀ p q : Bool, (if ofCond p = ofCond q then between 0 0 else between 1 1) =
      between (ofCond (p ^^ q)) (ofCond (p ^^ q)) := by decide
  show (if (ofCond (truth r1) = ofCond (ofCond (truth r1) ≠ 0 || r1.max ≠ 0) &&
      ofCond (truth r2) = ofCond (ofCond (truth r2) ≠ 0 || r2.max ≠ 0)) = true then
      if ofCond (truth r1) = ofCond (truth r2) then between 0 0 else between 1 1
    else anyBool) = _
  refine if_congr ?_ (heq (truth r1) (truth r2)) rfl
  rw [Bool.and_eq_true, decide_eq_true_iff, decide_eq_true_iff, ofCond_eq_iff, ofCond_eq_iff]

theorem truth_eq (hsettled : Settled r) (hread : ¬Misread r) (hx : r.Contains x) :
    truth r = decide (x ≠ 0) := by
  rw [contains_iff] at hx
  rw [Settled, gt_iff_lt, Int64.lt_iff_toInt_lt, Int64.le_iff_toInt_le, Int64.toInt_zero]
    at hsettled
  rw [Misread, Int64.lt_iff_toInt_lt, ← Int64.toInt_inj, Int64.toInt_zero] at hread
  rw [truth, Bool.eq_iff_iff, Bool.or_eq_true, decide_eq_true_iff, decide_eq_true_iff,
    decide_eq_true_iff, gt_iff_lt, Int64.lt_iff_toInt_lt, Int64.lt_iff_toInt_lt, ne_eq,
    ← Int64.toInt_inj, Int64.toInt_zero]
  omega

theorem boolXorRange_sound (hfits : XorFits r1 r2) (hx : r1.Contains x) (hy : r2.Contains y) :
    (Outcome.bool ((x ≠ 0) ^^ (y ≠ 0))).Within (boolXorRange r1 r2) := by
  rw [boolXorRange_eq]
  split
  next h =>
    have hread := not_or.mp fun hread => hfits ⟨h.1, h.2, hread⟩
    rw [truth_eq h.1 hread.1 hx, truth_eq h.2 hread.2 hy]
    exact within_bool id id
  next => exact within_anyBool _

theorem exists_of_misread (h : Misread r) (b : Bool) : ∃ x, r.Contains x ∧ decide (x ≠ 0) = b := by
  obtain ⟨hmin, hmax⟩ := h
  cases b with
  | true =>
    refine ⟨r.min, ⟨Int64.le_refl _, ?_⟩, decide_eq_true fun hzero => ?_⟩
    · rw [hmax]
      exact Int64.le_of_lt hmin
    · rw [hzero] at hmin
      exact absurd hmin Int64.lt_irrefl
  | false =>
    refine ⟨0, ⟨Int64.le_of_lt hmin, ?_⟩, rfl⟩
    rw [hmax]
    exact Int64.le_refl 0

theorem boolXorRange_unsound (h1 : r1.min ≤ r1.max) (h2 : r2.min ≤ r2.max) (h : ¬XorFits r1 r2) :
    ∃ x y, r1.Contains x ∧ r2.Contains y ∧
      ¬(Outcome.bool ((x ≠ 0) ^^ (y ≠ 0))).Within (boolXorRange r1 r2) := by
  obtain ⟨hsettled, hsettled', hread⟩ := not_not.mp h
  have hbetween : ∀ b b' : Bool, ofCond b' ≤ ofCond b ∧ ofCond b ≤ ofCond b' → b = b' := by decide
  have hxor : ∀ p b : Bool, ((!(p ^^ b)) ^^ b) ≠ p ∧ (b ^^ !(p ^^ b)) ≠ p := by decide
  rw [boolXorRange_eq, if_pos ⟨hsettled, hsettled'⟩]
  rcases hread with hread | hread
  · have hy : r2.Contains r2.min := ⟨Int64.le_refl _, h2⟩
    obtain ⟨x, hx, htruth⟩ :=
      exists_of_misread hread (!(truth r1 ^^ truth r2 ^^ decide (r2.min ≠ 0)))
    refine ⟨x, r2.min, hx, hy, fun hcontra => ?_⟩
    rw [htruth] at hcontra
    exact (hxor _ _).1 (hbetween _ _ hcontra)
  · have hx : r1.Contains r1.min := ⟨Int64.le_refl _, h1⟩
    obtain ⟨y, hy, htruth⟩ :=
      exists_of_misread hread (!(truth r1 ^^ truth r2 ^^ decide (r1.min ≠ 0)))
    refine ⟨r1.min, y, hx, hy, fun hcontra => ?_⟩
    rw [htruth] at hcontra
    exact (hxor _ _).2 (hbetween _ _ hcontra)

end Range

end Optimizer

end Phpce
