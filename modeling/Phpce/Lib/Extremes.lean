import Mathlib.Algebra.Order.Group.Unbundled.Int
import Mathlib.Data.Int.ConditionallyCompleteOrder
import Mathlib.Order.Bounds.Basic
import Mathlib.Order.Interval.Set.Basic
import Mathlib.Tactic.Linarith
import Mathlib.Tactic.Ring

/-!
# Extremes over an interval of integers

The greatest and the least value of operations that are not monotone over an interval: a remainder
runs up to its modulus and starts again, and a shift to the right moves towards 0 or -1.

* `modMax_isGreatest`, `modMin_isLeast`: the remainders that `%` leaves.
* `tmodMax_isGreatest`, `tmodMin_isLeast`: those with the sign of the dividend.
* `bmodMax_isGreatest`, `bmodMin_isLeast`: those balanced around 0, as a word holds them.
* `shiftLeftMax_isGreatest`, `shiftLeftMin_isLeast`: shifts to the left in a word.
* `shiftMax_isGreatest`, `shiftMin_isLeast`: shifts to the right by several counts.
-/

namespace Extremes

open Set

variable {a b m x : Int}

/-! ## Remainders -/

/-- The remainders grow with the dividend as long as the quotient stays. -/
def modMax (a b m : Int) : Int := if a / m = b / m then b % m else m - 1

def modMin (a b m : Int) : Int := if a / m = b / m then a % m else 0

theorem ediv_lt_of_ne (hab : a ≤ b) (hm : 0 < m) (h : a / m ≠ b / m) : a / m < b / m :=
  lt_of_le_of_ne (Int.ediv_le_ediv hm hab) h

theorem modMax_isGreatest (hab : a ≤ b) (hm : 0 < m) :
    IsGreatest ((· % m) '' Icc a b) (modMax a b m) := by
  rw [modMax]
  split
  next hquot =>
    refine ⟨⟨b, ⟨hab, Int.le_refl b⟩, rfl⟩, ?_⟩
    rintro _ ⟨x, ⟨hax, hxb⟩, rfl⟩
    have hle := Int.ediv_le_ediv hm hax
    have hle' := Int.ediv_le_ediv hm hxb
    have hx : x / m = b / m := by omega
    show x % m ≤ b % m
    rw [Int.emod_def, Int.emod_def, hx]
    omega
  next hquot =>
    have hlt := ediv_lt_of_ne hab hm hquot
    constructor
    · -- the dividend in front of the last multiple
      have hmul := Int.mul_le_mul_of_nonneg_left (show a / m + 1 ≤ b / m by omega) (le_of_lt hm)
      have ha := Int.emod_lt_of_pos a hm
      have hb := Int.emod_nonneg b (ne_of_gt hm)
      rw [Int.emod_def] at ha hb
      rw [Int.mul_add, Int.mul_one] at hmul
      refine ⟨m * (b / m) - 1, ⟨by omega, by omega⟩, ?_⟩
      show (m * (b / m) - 1) % m = m - 1
      rw [show m * (b / m) - 1 = m - 1 + m * (b / m - 1) by rw [Int.mul_sub]; omega,
        Int.add_mul_emod_self_left]
      exact Int.emod_eq_of_lt (by omega) (by omega)
    · rintro _ ⟨x, -, rfl⟩
      have hx := Int.emod_lt_of_pos x hm
      show x % m ≤ m - 1
      omega

theorem modMin_isLeast (hab : a ≤ b) (hm : 0 < m) :
    IsLeast ((· % m) '' Icc a b) (modMin a b m) := by
  rw [modMin]
  split
  next hquot =>
    refine ⟨⟨a, ⟨Int.le_refl a, hab⟩, rfl⟩, ?_⟩
    rintro _ ⟨x, ⟨hax, hxb⟩, rfl⟩
    have hle := Int.ediv_le_ediv hm hax
    have hle' := Int.ediv_le_ediv hm hxb
    have hx : x / m = a / m := by omega
    show a % m ≤ x % m
    rw [Int.emod_def, Int.emod_def, hx]
    omega
  next hquot =>
    have hlt := ediv_lt_of_ne hab hm hquot
    constructor
    · -- the last multiple
      have hmul := Int.mul_le_mul_of_nonneg_left (show a / m + 1 ≤ b / m by omega) (le_of_lt hm)
      have ha := Int.emod_lt_of_pos a hm
      have hb := Int.emod_nonneg b (ne_of_gt hm)
      rw [Int.emod_def] at ha hb
      rw [Int.mul_add, Int.mul_one] at hmul
      exact ⟨m * (b / m), ⟨by omega, by omega⟩, Int.mul_emod_right m (b / m)⟩
    · rintro _ ⟨x, -, rfl⟩
      exact Int.emod_nonneg x (ne_of_gt hm)

/-! ## Remainders with the sign of the dividend -/

def tmodMax (a b m : Int) : Int :=
  if 0 ≤ b then modMax (max a 0) b m else -modMin (-b) (-a) m

def tmodMin (a b m : Int) : Int := -tmodMax (-b) (-a) m

theorem tmodMax_isGreatest (hab : a ≤ b) (hm : 0 < m) :
    IsGreatest ((fun x => x.tmod m) '' Icc a b) (tmodMax a b m) := by
  rw [tmodMax]
  split
  next hb =>
    obtain ⟨⟨x, ⟨hx, hxb⟩, hmax⟩, hupper⟩ := modMax_isGreatest (max_le hab hb) hm
    constructor
    · refine ⟨x, ⟨le_trans (le_max_left a 0) hx, hxb⟩, ?_⟩
      show x.tmod m = _
      rw [Int.tmod_eq_emod_of_nonneg (le_trans (le_max_right a 0) hx)]
      exact hmax
    · rintro _ ⟨y, ⟨hay, hyb⟩, rfl⟩
      show y.tmod m ≤ _
      rcases Int.le_total 0 y with hy | hy
      · rw [Int.tmod_eq_emod_of_nonneg hy]
        exact hupper ⟨y, ⟨max_le hay hy, hyb⟩, rfl⟩
      · refine le_trans ?_ (hupper ⟨b, ⟨max_le hab hb, Int.le_refl b⟩, rfl⟩)
        have hneg : y.tmod m ≤ 0 := by
          rw [← neg_neg y, Int.neg_tmod, Int.tmod_eq_emod_of_nonneg (by omega)]
          have hmod := Int.emod_nonneg (-y) (ne_of_gt hm)
          omega
        exact le_trans hneg (Int.emod_nonneg b (ne_of_gt hm))
  next hb =>
    -- the least remainder, with its sign turned
    obtain ⟨⟨x, ⟨hx, hxa⟩, hmin⟩, hlower⟩ := modMin_isLeast (Int.neg_le_neg hab) hm
    have htmod : ∀ y : Int, 0 ≤ -y → y.tmod m = -(-y % m) := by
      intro y hy
      rw [← Int.tmod_eq_emod_of_nonneg hy, Int.neg_tmod, neg_neg]
    constructor
    · refine ⟨-x, ⟨by omega, by omega⟩, ?_⟩
      show (-x).tmod m = _
      rw [htmod (-x) (by omega), neg_neg]
      exact congrArg (-·) hmin
    · rintro _ ⟨y, ⟨hay, hyb⟩, rfl⟩
      show y.tmod m ≤ _
      rw [htmod y (by omega)]
      exact Int.neg_le_neg (hlower ⟨-y, ⟨by omega, by omega⟩, rfl⟩)

theorem tmodMin_isLeast (hab : a ≤ b) (hm : 0 < m) :
    IsLeast ((fun x => x.tmod m) '' Icc a b) (tmodMin a b m) := by
  obtain ⟨⟨x, ⟨hx, hxa⟩, hmax⟩, hupper⟩ := tmodMax_isGreatest (Int.neg_le_neg hab) hm
  constructor
  · refine ⟨-x, ⟨by omega, by omega⟩, ?_⟩
    show (-x).tmod m = _
    rw [Int.neg_tmod]
    exact congrArg (-·) hmax
  · rintro _ ⟨y, ⟨hay, hyb⟩, rfl⟩
    have hle := hupper ⟨-y, ⟨Int.neg_le_neg hyb, Int.neg_le_neg hay⟩, rfl⟩
    rw [show (fun x => x.tmod m) (-y) = -y.tmod m from Int.neg_tmod y m] at hle
    show -tmodMax (-b) (-a) m ≤ y.tmod m
    omega

/-! ## Balanced remainders -/

def bmodMax (a b : Int) (k : Nat) : Int := modMax (a + 2 ^ k) (b + 2 ^ k) (2 ^ (k + 1)) - 2 ^ k

def bmodMin (a b : Int) (k : Nat) : Int := modMin (a + 2 ^ k) (b + 2 ^ k) (2 ^ (k + 1)) - 2 ^ k

theorem bmod_eq (x : Int) (k : Nat) :
    x.bmod (2 ^ (k + 1)) = (x + 2 ^ k) % 2 ^ (k + 1) - 2 ^ k := by
  have hpow : (2 : Int) ^ (k + 1) = 2 ^ k * 2 := Int.pow_succ 2 k
  have hcast : ((2 ^ (k + 1) : Nat) : Int) = 2 ^ k * 2 := by rw [Int.natCast_pow, ← hpow]; rfl
  have hpos : (0 : Int) < 2 ^ k := Int.pow_pos (by decide)
  have hnonneg := Int.emod_nonneg (x + 2 ^ k) (show (2 ^ k * 2 : Int) ≠ 0 by omega)
  have hlt := Int.emod_lt_of_pos (x + 2 ^ k) (show (0 : Int) < 2 ^ k * 2 by omega)
  rw [Int.bmod_eq_iff (Nat.pow_pos (by decide)), hcast, hpow]
  refine ⟨by omega, by omega, ?_⟩
  rw [Int.emod_def]
  exact ⟨-((x + 2 ^ k) / (2 ^ k * 2)), by ring⟩

theorem mul_bmod (x : Int) (j k : Nat) :
    (x * 2 ^ j).bmod (2 ^ (j + k + 1)) = 2 ^ j * x.bmod (2 ^ (k + 1)) := by
  have hadd : x * 2 ^ j + 2 ^ (j + k) = 2 ^ j * (x + 2 ^ k) := by
    rw [Int.pow_add, Int.mul_add, Int.mul_comm x]
  have hmod : (2 : Int) ^ (j + k + 1) = 2 ^ j * 2 ^ (k + 1) := by
    rw [Nat.add_assoc, Int.pow_add]
  rw [bmod_eq, bmod_eq, hadd, hmod, Int.mul_emod_mul_of_pos _ _ (Int.pow_pos (by decide)),
    Int.mul_sub, Int.pow_add 2 j k]

theorem image_bmod (a b : Int) (k : Nat) :
    (fun x : Int => x.bmod (2 ^ (k + 1))) '' Icc a b =
      (· - 2 ^ k) '' ((· % 2 ^ (k + 1)) '' Icc (a + 2 ^ k) (b + 2 ^ k)) := by
  rw [image_image]
  ext y
  constructor
  · rintro ⟨x, ⟨hax, hxb⟩, rfl⟩
    exact ⟨x + 2 ^ k, ⟨by omega, by omega⟩, (bmod_eq x k).symm⟩
  · rintro ⟨x, ⟨hax, hxb⟩, rfl⟩
    refine ⟨x - 2 ^ k, ⟨by omega, by omega⟩, ?_⟩
    show (x - 2 ^ k).bmod (2 ^ (k + 1)) = _
    rw [bmod_eq, Int.sub_add_cancel]

theorem bmodMax_isGreatest (hab : a ≤ b) (k : Nat) :
    IsGreatest ((fun x : Int => x.bmod (2 ^ (k + 1))) '' Icc a b) (bmodMax a b k) := by
  rw [image_bmod]
  exact Monotone.map_isGreatest (fun _ _ h => Int.sub_le_sub_right h _)
    (modMax_isGreatest (Int.add_le_add_right hab _) (Int.pow_pos (by decide)))

theorem bmodMin_isLeast (hab : a ≤ b) (k : Nat) :
    IsLeast ((fun x : Int => x.bmod (2 ^ (k + 1))) '' Icc a b) (bmodMin a b k) := by
  rw [image_bmod]
  exact Monotone.map_isLeast (fun _ _ h => Int.sub_le_sub_right h _)
    (modMin_isLeast (Int.add_le_add_right hab _) (Int.pow_pos (by decide)))

/-! ## Shifts to the left -/

/-- In a word of `w + 1` bits. -/
def shiftLeftMax (w : Nat) (a b : Int) (j : Nat) : Int := 2 ^ j * bmodMax a b (w - j)

def shiftLeftMin (w : Nat) (a b : Int) (j : Nat) : Int := 2 ^ j * bmodMin a b (w - j)

theorem image_shiftLeft (a b : Int) (j k : Nat) :
    (fun x : Int => (x * 2 ^ j).bmod (2 ^ (j + k + 1))) '' Icc a b =
      (2 ^ j * ·) '' ((fun x : Int => x.bmod (2 ^ (k + 1))) '' Icc a b) := by
  rw [image_image]
  exact image_congr fun x _ => mul_bmod x j k

theorem mul_monotone (j : Nat) : Monotone ((2 ^ j * ·) : Int → Int) := fun _ _ h =>
  Int.mul_le_mul_of_nonneg_left h (Int.pow_nonneg (by decide))

theorem shiftLeftMax_isGreatest {w j : Nat} (hab : a ≤ b) (hj : j ≤ w) :
    IsGreatest ((fun x : Int => (x * 2 ^ j).bmod (2 ^ (w + 1))) '' Icc a b)
      (shiftLeftMax w a b j) := by
  obtain ⟨k, rfl⟩ := Nat.exists_eq_add_of_le hj
  rw [image_shiftLeft, shiftLeftMax, Nat.add_sub_cancel_left]
  exact (mul_monotone j).map_isGreatest (bmodMax_isGreatest hab k)

theorem shiftLeftMin_isLeast {w j : Nat} (hab : a ≤ b) (hj : j ≤ w) :
    IsLeast ((fun x : Int => (x * 2 ^ j).bmod (2 ^ (w + 1))) '' Icc a b)
      (shiftLeftMin w a b j) := by
  obtain ⟨k, rfl⟩ := Nat.exists_eq_add_of_le hj
  rw [image_shiftLeft, shiftLeftMin, Nat.add_sub_cancel_left]
  exact (mul_monotone j).map_isLeast (bmodMin_isLeast hab k)

/-! ## Shifts to the right -/

variable {n k : Nat}

def shiftMax (b : Int) (n k : Nat) : Int := if 0 ≤ b then b / 2 ^ n else b / 2 ^ k

def shiftMin (a : Int) (n k : Nat) : Int := if a < 0 then a / 2 ^ n else a / 2 ^ k

theorem shiftRight_le_shiftRight (h : a ≤ b) (n : Nat) : a / 2 ^ n ≤ b / 2 ^ n :=
  Int.ediv_le_ediv (Int.pow_pos (by decide)) h

theorem shiftRight_nonneg (h : 0 ≤ x) (n : Nat) : 0 ≤ x / 2 ^ n :=
  Int.ediv_nonneg h (Int.pow_nonneg (by decide))

theorem shiftRight_neg (h : x < 0) (n : Nat) : x / 2 ^ n < 0 :=
  Int.ediv_neg_of_neg_of_pos h (Int.pow_pos (by decide))

theorem shiftRight_add (x : Int) (n j : Nat) : x / 2 ^ (n + j) = x / 2 ^ n / 2 ^ j := by
  rw [Int.pow_add, Int.ediv_ediv_of_nonneg (Int.pow_nonneg (by decide))]

theorem shiftRight_antitone (h : 0 ≤ x) (hnk : n ≤ k) : x / 2 ^ k ≤ x / 2 ^ n := by
  obtain ⟨j, rfl⟩ := Nat.exists_eq_add_of_le hnk
  rw [shiftRight_add]
  exact Int.ediv_le_self _ (shiftRight_nonneg h n)

theorem shiftRight_monotone (h : x < 0) (hnk : n ≤ k) : x / 2 ^ n ≤ x / 2 ^ k := by
  obtain ⟨j, rfl⟩ := Nat.exists_eq_add_of_le hnk
  rw [shiftRight_add]
  have hneg := shiftRight_neg h n
  have hone : (0 : Int) < 2 ^ j := Int.pow_pos (by decide)
  refine Int.le_ediv_of_mul_le hone ?_
  nlinarith

theorem shiftMax_isGreatest (hab : a ≤ b) (hnk : n ≤ k) :
    IsGreatest (image2 (fun (x : Int) (j : Nat) => x / 2 ^ j) (Icc a b) (Icc n k))
      (shiftMax b n k) := by
  rw [shiftMax]
  split
  next hb =>
    refine ⟨⟨b, ⟨hab, Int.le_refl b⟩, n, ⟨Nat.le_refl n, hnk⟩, rfl⟩, ?_⟩
    rintro _ ⟨x, ⟨-, hxb⟩, j, ⟨hnj, -⟩, rfl⟩
    exact le_trans (shiftRight_le_shiftRight hxb j) (shiftRight_antitone hb hnj)
  next hb =>
    refine ⟨⟨b, ⟨hab, Int.le_refl b⟩, k, ⟨hnk, Nat.le_refl k⟩, rfl⟩, ?_⟩
    rintro _ ⟨x, ⟨-, hxb⟩, j, ⟨-, hjk⟩, rfl⟩
    exact le_trans (shiftRight_le_shiftRight hxb j) (shiftRight_monotone (not_le.mp hb) hjk)

theorem shiftMin_isLeast (hab : a ≤ b) (hnk : n ≤ k) :
    IsLeast (image2 (fun (x : Int) (j : Nat) => x / 2 ^ j) (Icc a b) (Icc n k))
      (shiftMin a n k) := by
  rw [shiftMin]
  split
  next ha =>
    refine ⟨⟨a, ⟨Int.le_refl a, hab⟩, n, ⟨Nat.le_refl n, hnk⟩, rfl⟩, ?_⟩
    rintro _ ⟨x, ⟨hax, -⟩, j, ⟨hnj, -⟩, rfl⟩
    exact le_trans (shiftRight_monotone ha hnj) (shiftRight_le_shiftRight hax j)
  next ha =>
    refine ⟨⟨a, ⟨Int.le_refl a, hab⟩, k, ⟨hnk, Nat.le_refl k⟩, rfl⟩, ?_⟩
    rintro _ ⟨x, ⟨hax, -⟩, j, ⟨-, hjk⟩, rfl⟩
    exact le_trans (shiftRight_antitone (not_lt.mp ha) hjk) (shiftRight_le_shiftRight hax j)

end Extremes
