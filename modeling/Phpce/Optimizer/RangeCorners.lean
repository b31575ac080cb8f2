import Phpce.Optimizer.RangeWithin

/-!
# Remainders and shifts at the corners of two ranges

The range of a remainder or of a shift is taken from the four combinations of the ends of the
operands' ranges.

* `modFits_iff`, `slFits_iff`, `srFits_iff`: the corners hold all outcomes if and only if they
  reach their extremes.
-/

namespace Phpce

namespace Optimizer

namespace Range

open Extremes Int

variable {r r1 r2 : ZendSsaRange} {x y : Int64} {z : Int}

/-! ## Corners -/

def AtCorner (r1 r2 : ZendSsaRange) (p : Int → Int → Prop) : Prop :=
  p r1.min.toInt r2.min.toInt ∨ p r1.min.toInt r2.max.toInt ∨
    p r1.max.toInt r2.min.toInt ∨ p r1.max.toInt r2.max.toInt

/-- The corners reach down to `lo` and up to `hi`. -/
def CornersReach (r1 r2 : ZendSsaRange) (g : Int → Int → Int) (lo hi : Int) : Prop :=
  AtCorner r1 r2 (fun x y => g x y ≤ lo) ∧ AtCorner r1 r2 (fun x y => hi ≤ g x y)

theorem AtCorner.mono {p q : Int → Int → Prop} (h : AtCorner r1 r2 p) (hpq : ∀ x y, p x y → q x y) :
    AtCorner r1 r2 q := by
  rcases h with h | h | h | h
  · exact .inl (hpq _ _ h)
  · exact .inr (.inl (hpq _ _ h))
  · exact .inr (.inr (.inl (hpq _ _ h)))
  · exact .inr (.inr (.inr (hpq _ _ h)))

theorem toInt_minLong (x y : Int64) : (minLong x y).toInt = min x.toInt y.toInt := by
  rw [minLong]
  split
  next h =>
    rw [Int64.lt_iff_toInt_lt] at h
    omega
  next h =>
    rw [Int64.lt_iff_toInt_lt] at h
    omega

theorem toInt_maxLong (x y : Int64) : (maxLong x y).toInt = max x.toInt y.toInt := by
  rw [maxLong]
  split
  next h =>
    rw [gt_iff_lt, Int64.lt_iff_toInt_lt] at h
    omega
  next h =>
    rw [gt_iff_lt, Int64.lt_iff_toInt_lt] at h
    omega

theorem contains_corners {f : Int64 → Int64 → Int64} {g : Int → Int → Int}
    (hf : ∀ x y, (f x y).toInt = g x.toInt y.toInt) :
    (corners f r1 r2).Contains x ↔ CornersReach r1 r2 g x.toInt x.toInt := by
  rw [contains_iff]
  show (minLong _ _).toInt ≤ _ ∧ _ ≤ (maxLong _ _).toInt ↔ _
  simp only [toInt_minLong, toInt_maxLong, min_le_iff, le_max_iff, hf, or_assoc]
  rfl

theorem cornersReach_iff {g : Int → Int → Int} {s : Set Int} {lo hi : Int} (hlo : IsLeast s lo)
    (hhi : IsGreatest s hi) :
    CornersReach r1 r2 g lo hi ↔ ∀ z ∈ s, CornersReach r1 r2 g z z := by
  constructor
  · rintro ⟨hmin, hmax⟩ z hz
    exact ⟨hmin.mono fun x y h => h.trans (hlo.2 hz), hmax.mono fun x y h => (hhi.2 hz).trans h⟩
  · intro h
    exact ⟨(h lo hlo.1).1, (h hi hhi.1).2⟩

theorem exists_word (hmin : r.min.toInt ≤ z) (hmax : z ≤ r.max.toInt) :
    ∃ x, r.Contains x ∧ x.toInt = z := by
  have hle := r.min.le_toInt
  have hlt := r.max.toInt_lt
  have hz : (Int64.ofInt z).toInt = z := Int64.toInt_ofInt_of_le (by omega) (by omega)
  refine ⟨Int64.ofInt z, ?_, hz⟩
  rw [contains_iff, hz]
  exact ⟨hmin, hmax⟩

/-! ## Remainders -/

/-- The corners reach what the remainders run through, for every divisor. -/
def ModFits (r1 r2 : ZendSsaRange) : Prop :=
  r2.min = 0 ∨ r2.max = 0 ∨ ∀ y, r2.min.toInt ≤ y → y ≤ r2.max.toInt → y ≠ 0 →
    CornersReach r1 r2 Int.tmod (tmodMin r1.min.toInt r1.max.toInt y.natAbs)
      (tmodMax r1.min.toInt r1.max.toInt y.natAbs)

theorem toInt_remainder (x y : Int64) : (remainder x y).toInt = x.toInt.tmod y.toInt := by
  rw [remainder]
  split
  next h =>
    rw [h]
    show 0 = x.toInt.tmod (-1)
    rw [tmod_neg, tmod_one]
  next => exact Int64.toInt_mod x y

theorem modFunction_eq (x y : Int64) :
    modFunction x y = if y = 0 then none else some (remainder x y) := by
  rw [modFunction, remainder]
  split_ifs <;> rfl

theorem tmod_natAbs (x y : Int) : x.tmod y = x.tmod y.natAbs := by
  rcases natAbs_eq y with h | h
  · exact congrArg x.tmod h
  · exact (congrArg x.tmod h).trans (tmod_neg x _)

theorem modFits_iff (h1 : r1.min ≤ r1.max) :
    ModFits r1 r2 ↔ r2.min = 0 ∨ r2.max = 0 ∨
      ∀ x y, r1.Contains x → r2.Contains y → y ≠ 0 →
        (corners remainder r1 r2).Contains (remainder x y) := by
  rw [Int64.le_iff_toInt_le] at h1
  have hreach : ∀ y : Int, y ≠ 0 →
      (CornersReach r1 r2 Int.tmod (tmodMin r1.min.toInt r1.max.toInt y.natAbs)
        (tmodMax r1.min.toInt r1.max.toInt y.natAbs) ↔
      ∀ x, r1.Contains x → CornersReach r1 r2 Int.tmod (x.toInt.tmod y) (x.toInt.tmod y)) := by
    intro y hy
    have hpos : (0 : Int) < y.natAbs := natCast_pos.mpr (natAbs_pos.mpr hy)
    rw [cornersReach_iff (tmodMin_isLeast h1 hpos) (tmodMax_isGreatest h1 hpos)]
    constructor
    · intro h x hx
      rw [contains_iff] at hx
      exact h _ ⟨x.toInt, hx, (tmod_natAbs x.toInt y).symm⟩
    · rintro h _ ⟨z, hz, rfl⟩
      obtain ⟨x, hx, rfl⟩ := exists_word hz.1 hz.2
      have hx' := h x hx
      rwa [tmod_natAbs] at hx'
  refine or_congr_right (or_congr_right
    ⟨fun h x y hx hy hzero => ?_, fun h y hmin hmax hzero => ?_⟩)
  · rw [contains_iff] at hy
    have hne : y.toInt ≠ 0 := fun hz => hzero (Int64.toInt_inj.mp hz)
    rw [contains_corners toInt_remainder, toInt_remainder]
    exact (hreach y.toInt hne).mp (h y.toInt hy.1 hy.2 hne) x hx
  · obtain ⟨y, hy, rfl⟩ := exists_word hmin hmax
    refine (hreach y.toInt hzero).mpr fun x hx => ?_
    have hne : y ≠ 0 := fun hz => hzero (congrArg Int64.toInt hz)
    have hcontains := h x y hx hy hne
    rwa [contains_corners toInt_remainder, toInt_remainder] at hcontains

/-! ## Shifts -/

/-- The count that the processor takes. -/
def shiftCount (y : Int) : Nat := (y % 64).toNat

theorem toNat_smod (y : Int64) : (y.toBitVec.smod 64).toNat = shiftCount y.toInt := by
  have hmod : (y.toBitVec.smod 64).toInt = y.toInt % 64 := by
    rw [BitVec.toInt_smod]
    exact fmod_eq_emod_of_nonneg _ (by decide)
  rw [BitVec.toInt_eq_toNat_cond] at hmod
  have hlt := (y.toBitVec.smod 64).isLt
  rw [shiftCount]
  split at hmod <;> omega

def shiftLeftLong (x y : Int) : Int := (x * 2 ^ shiftCount y).bmod (2 ^ 64)

def shiftRightLong (x y : Int) : Int := x / 2 ^ shiftCount y

theorem toInt_shiftLeft (x y : Int64) : (x <<< y).toInt = shiftLeftLong x.toInt y.toInt := by
  show (x.toBitVec <<< (y.toBitVec.smod 64)).toInt = _
  rw [BitVec.shiftLeft_eq', BitVec.toInt_shiftLeft, toNat_smod,
    show x.toInt = x.toBitVec.toInt from rfl, BitVec.toInt_eq_toNat_bmod, shiftLeftLong,
    bmod_mul_bmod, Nat.shiftLeft_eq, natCast_mul, natCast_pow]
  rfl

theorem toInt_shiftRight (x y : Int64) : (x >>> y).toInt = shiftRightLong x.toInt y.toInt := by
  show (BitVec.sshiftRight' x.toBitVec (y.toBitVec.smod 64)).toInt = _
  rw [BitVec.toInt_sshiftRight', toNat_smod, shiftRight_eq_div_pow, natCast_pow]
  rfl

/-- The corners reach what the shifts to the left run through, for every count. -/
def SlFits (r1 r2 : ZendSsaRange) : Prop :=
  ∀ y : Nat, r2.min.toInt ≤ y → y ≤ r2.max.toInt →
    CornersReach r1 r2 shiftLeftLong
      (if y < 64 then shiftLeftMin 63 r1.min.toInt r1.max.toInt y else 0)
      (if y < 64 then shiftLeftMax 63 r1.min.toInt r1.max.toInt y else 0)

theorem shiftLeftFunction_eq_some {v : Int64} (h : shiftLeftFunction x y = some v) :
    ∃ n : Nat, y.toInt = n ∧ v.toInt = if n < 64 then (x.toInt * 2 ^ n).bmod (2 ^ 64) else 0 := by
  rw [shiftLeftFunction] at h
  split at h
  next => exact absurd h (Option.some_ne_none v).symm
  next hneg =>
    rw [Int64.lt_iff_toInt_lt, Int64.toInt_zero, not_lt] at hneg
    obtain ⟨n, hn⟩ := eq_ofNat_of_zero_le hneg
    refine ⟨n, hn, ?_⟩
    split at h
    next hge =>
      obtain rfl := Option.some.inj h
      have hge' : (64 : Int) ≤ y.toInt := Int64.le_iff_toInt_le.mp hge
      rw [if_neg (by omega)]
      rfl
    next hlt =>
      obtain rfl := Option.some.inj h
      have hlt' : ¬(64 : Int) ≤ y.toInt := fun hge => hlt (Int64.le_iff_toInt_le.mpr hge)
      have hcount : shiftCount y.toInt = n := by
        rw [shiftCount]
        omega
      rw [if_pos (by omega), toInt_shiftLeft, shiftLeftLong, hcount]

theorem shiftLeftFunction_ne_none {n : Nat} (h : y.toInt = n) :
    ∃ v, shiftLeftFunction x y = some v := by
  have hneg : ¬y < 0 := by
    rw [Int64.lt_iff_toInt_lt, Int64.toInt_zero]
    omega
  rw [shiftLeftFunction, if_neg hneg]
  split
  next => exact ⟨0, rfl⟩
  next => exact ⟨x <<< y, rfl⟩

theorem slFits_iff (h1 : r1.min ≤ r1.max) :
    SlFits r1 r2 ↔ ∀ x y v, r1.Contains x → r2.Contains y → shiftLeftFunction x y = some v →
      (corners (· <<< ·) r1 r2).Contains v := by
  rw [Int64.le_iff_toInt_le] at h1
  have hreach : ∀ y : Nat,
      (CornersReach r1 r2 shiftLeftLong
        (if y < 64 then shiftLeftMin 63 r1.min.toInt r1.max.toInt y else 0)
        (if y < 64 then shiftLeftMax 63 r1.min.toInt r1.max.toInt y else 0) ↔
      ∀ x, r1.Contains x → CornersReach r1 r2 shiftLeftLong
        (if y < 64 then (x.toInt * 2 ^ y).bmod (2 ^ 64) else 0)
        (if y < 64 then (x.toInt * 2 ^ y).bmod (2 ^ 64) else 0)) := by
    intro y
    split
    next hy =>
      rw [cornersReach_iff (shiftLeftMin_isLeast h1 (Nat.le_of_lt_succ hy))
        (shiftLeftMax_isGreatest h1 (Nat.le_of_lt_succ hy))]
      constructor
      · intro h x hx
        rw [contains_iff] at hx
        exact h _ ⟨x.toInt, hx, rfl⟩
      · rintro h _ ⟨z, hz, rfl⟩
        obtain ⟨x, hx, rfl⟩ := exists_word hz.1 hz.2
        exact h x hx
    next =>
      obtain ⟨x, hx, -⟩ := exists_word (le_refl _) h1
      exact ⟨fun h _ _ => h, fun h => h x hx⟩
  constructor
  · intro h x y v hx hy hv
    obtain ⟨n, hn, hv'⟩ := shiftLeftFunction_eq_some hv
    rw [contains_iff, hn] at hy
    rw [contains_corners toInt_shiftLeft, hv']
    exact (hreach n).mp (h n hy.1 hy.2) x hx
  · intro h n hmin hmax
    obtain ⟨y, hy, hn⟩ := exists_word hmin hmax
    refine (hreach n).mpr fun x hx => ?_
    obtain ⟨v, hv⟩ := shiftLeftFunction_ne_none (x := x) hn
    obtain ⟨n', hn', hv'⟩ := shiftLeftFunction_eq_some hv
    obtain rfl : n' = n := by omega
    have hcontains := h x y v hx hy hv
    rwa [contains_corners toInt_shiftLeft, hv'] at hcontains

def SrFits (r1 r2 : ZendSsaRange) : Prop :=
  r2.max < 0 ∨ CornersReach r1 r2 shiftRightLong
    (shiftMin r1.min.toInt (min r2.min.toInt.toNat 63) (min r2.max.toInt.toNat 63))
    (shiftMax r1.max.toInt (min r2.min.toInt.toNat 63) (min r2.max.toInt.toNat 63))

theorem shiftRight_large {z : Int} (hlo : -2 ^ 63 ≤ z) (hhi : z < 2 ^ 63) :
    z / 2 ^ 63 = if z < 0 then -1 else 0 := by
  split <;> omega

theorem shiftRightFunction_eq_some {v : Int64} (h : shiftRightFunction x y = some v) :
    0 ≤ y.toInt ∧ v.toInt = x.toInt / 2 ^ min y.toInt.toNat 63 := by
  rw [shiftRightFunction] at h
  split at h
  next => exact absurd h (Option.some_ne_none v).symm
  next hneg =>
    rw [Int64.lt_iff_toInt_lt, Int64.toInt_zero, not_lt] at hneg
    refine ⟨hneg, ?_⟩
    split at h
    next hge =>
      obtain rfl := Option.some.inj h
      have hge' : (64 : Int) ≤ y.toInt := Int64.le_iff_toInt_le.mp hge
      rw [show min y.toInt.toNat 63 = 63 by omega, shiftRight_large x.le_toInt x.toInt_lt]
      rw [apply_ite Int64.toInt]
      exact if_congr (by rw [Int64.lt_iff_toInt_lt, Int64.toInt_zero]) rfl rfl
    next hlt =>
      obtain rfl := Option.some.inj h
      have hlt' : ¬(64 : Int) ≤ y.toInt := fun hge => hlt (Int64.le_iff_toInt_le.mpr hge)
      have hcount : shiftCount y.toInt = min y.toInt.toNat 63 := by
        rw [shiftCount]
        omega
      rw [toInt_shiftRight, shiftRightLong, hcount]

theorem shiftRightFunction_ne_none (h : 0 ≤ y.toInt) : ∃ v, shiftRightFunction x y = some v := by
  have hneg : ¬y < 0 := by
    rw [Int64.lt_iff_toInt_lt, Int64.toInt_zero]
    omega
  rw [shiftRightFunction, if_neg hneg]
  split
  next => exact ⟨_, rfl⟩
  next => exact ⟨x >>> y, rfl⟩

theorem srFits_iff (h1 : r1.min ≤ r1.max) (h2 : r2.min ≤ r2.max) :
    SrFits r1 r2 ↔ ∀ x y v, r1.Contains x → r2.Contains y → shiftRightFunction x y = some v →
      (corners (· >>> ·) r1 r2).Contains v := by
  rw [Int64.le_iff_toInt_le] at h1 h2
  rw [SrFits, Int64.lt_iff_toInt_lt, Int64.toInt_zero]
  by_cases hmax : r2.max.toInt < 0
  · refine iff_of_true (.inl hmax) fun x y v hx hy hv => ?_
    obtain ⟨hpos, -⟩ := shiftRightFunction_eq_some hv
    rw [contains_iff] at hy
    omega
  have hnk : min r2.min.toInt.toNat 63 ≤ min r2.max.toInt.toNat 63 := by omega
  rw [or_iff_right hmax, cornersReach_iff (shiftMin_isLeast h1 hnk) (shiftMax_isGreatest h1 hnk)]
  constructor
  · intro h x y v hx hy hv
    obtain ⟨hpos, hv'⟩ := shiftRightFunction_eq_some hv
    rw [contains_iff] at hx hy
    rw [contains_corners toInt_shiftRight, hv']
    exact h _ ⟨x.toInt, hx, min y.toInt.toNat 63, ⟨by omega, by omega⟩, rfl⟩
  · rintro h _ ⟨z, hz, j, hj, rfl⟩
    obtain ⟨x, hx, rfl⟩ := exists_word hz.1 hz.2
    -- a count that shifts by `j`
    obtain ⟨hmin', hmax'⟩ := hj
    obtain ⟨y, hy, hyj⟩ := exists_word (r := r2) (z := max r2.min.toInt j) (by omega) (by omega)
    obtain ⟨v, hv⟩ := shiftRightFunction_ne_none (x := x) (y := y) (by omega)
    have hcontains := h x y v hx hy hv
    rw [contains_corners toInt_shiftRight, (shiftRightFunction_eq_some hv).2,
      show min y.toInt.toNat 63 = j by omega] at hcontains
    exact hcontains

end Range

end Optimizer

end Phpce
