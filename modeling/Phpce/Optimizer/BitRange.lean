import Phpce.Lib.BitBounds

/-!
# Ranges of the bitwise operations

The bounds that the range inference takes for `|` and `&` of two intervals. A bound of `none` says
that no case of the `switch` sets it.

* `minOR_eq`, `maxOR_eq`, `minAND_eq`, `maxAND_eq`: what the searches compute.
* **`bitRanges_iff`**: when all results are inside of the bounds.
-/

namespace Phpce

namespace Optimizer

open BitBounds

/-! ## The searches -/

theorem shiftRight_lt {m : UInt64} (h : m ≠ 0) : (m >>> 1).toNat < m.toNat := by
  have hpos : 0 < m.toNat := Nat.pos_of_ne_zero fun h0 => h (UInt64.toNat_inj.mp h0)
  rw [UInt64.toNat_shiftRight]
  show m.toNat >>> 1 < m.toNat
  rw [Nat.shiftRight_eq_div_pow]
  omega

/-- `1L << (sizeof(zend_ulong) * 8 - 1)` -/
def signBit : UInt64 := (1 : UInt64) <<< 63

def minORLoop (m a b c d : UInt64) : UInt64 :=
  if m = 0 then a ||| c
  else if ~~~a &&& c &&& m ≠ 0 then
    let temp := (a ||| m) &&& -m
    if temp ≤ b then temp ||| c else minORLoop (m >>> 1) a b c d
  else if a &&& ~~~c &&& m ≠ 0 then
    let temp := (c ||| m) &&& -m
    if temp ≤ d then a ||| temp else minORLoop (m >>> 1) a b c d
  else minORLoop (m >>> 1) a b c d
termination_by m.toNat
decreasing_by all_goals exact shiftRight_lt ‹_›

def minOR (a b c d : UInt64) : UInt64 := minORLoop signBit a b c d

def maxORLoop (m a b c d : UInt64) : UInt64 :=
  if m = 0 then b ||| d
  else if b &&& d &&& m ≠ 0 then
    let temp := (b - m) ||| (m - 1)
    if a ≤ temp then temp ||| d
    else
      let temp := (d - m) ||| (m - 1)
      if c ≤ temp then b ||| temp else maxORLoop (m >>> 1) a b c d
  else maxORLoop (m >>> 1) a b c d
termination_by m.toNat
decreasing_by all_goals exact shiftRight_lt ‹_›

def maxOR (a b c d : UInt64) : UInt64 := maxORLoop signBit a b c d

def minANDLoop (m a b c d : UInt64) : UInt64 :=
  if m = 0 then a &&& c
  else if ~~~a &&& ~~~c &&& m ≠ 0 then
    let temp := (a ||| m) &&& -m
    if temp ≤ b then temp &&& c
    else
      let temp := (c ||| m) &&& -m
      if temp ≤ d then a &&& temp else minANDLoop (m >>> 1) a b c d
  else minANDLoop (m >>> 1) a b c d
termination_by m.toNat
decreasing_by all_goals exact shiftRight_lt ‹_›

def minAND (a b c d : UInt64) : UInt64 := minANDLoop signBit a b c d

def maxANDLoop (m a b c d : UInt64) : UInt64 :=
  if m = 0 then b &&& d
  else if b &&& ~~~d &&& m ≠ 0 then
    let temp := (b ||| ~~~m) ||| (m - 1)
    if a ≤ temp then temp &&& d else maxANDLoop (m >>> 1) a b c d
  else if ~~~b &&& d &&& m ≠ 0 then
    let temp := (d ||| ~~~m) ||| (m - 1)
    if c ≤ temp then b &&& temp else maxANDLoop (m >>> 1) a b c d
  else maxANDLoop (m >>> 1) a b c d
termination_by m.toNat
decreasing_by all_goals exact shiftRight_lt ‹_›

def maxAND (a b c d : UInt64) : UInt64 := maxANDLoop signBit a b c d

/-! ## The ranges -/

/-- `min` and `max` of a `zend_ssa_range` -/
structure Bounds where
  min : Int64
  max : Int64

/-- The case number that `zend_ssa_range_or` and `zend_ssa_range_and` switch on. -/
def caseNumber (a b c d : Int64) : Nat :=
  (if a < 0 then 8 else 0) ||| (if b < 0 then 4 else 0) ||| (if c < 0 then 2 else 0) |||
    (if d < 0 then 2 else 0)

/-- A search on `zend_long` operands, which are converted to `zend_ulong` and back. -/
def asLong (search : UInt64 → UInt64 → UInt64 → UInt64 → UInt64) (a b c d : Int64) : Int64 :=
  (search a.toUInt64 b.toUInt64 c.toUInt64 d.toUInt64).toInt64

def zendSsaRangeOr (a b c d : Int64) : Option Bounds :=
  match caseNumber a b c d with
  | 0x0 | 0x3 | 0xc | 0xf => some ⟨asLong minOR a b c d, asLong maxOR a b c d⟩
  | 0x2 => some ⟨asLong minOR a b c (-1), asLong maxOR a b 0 d⟩
  | 0x8 => some ⟨asLong minOR a (-1) c d, asLong maxOR 0 b c d⟩
  | 0xa => some ⟨if a < c then a else c, asLong maxOR 0 b 0 d⟩
  | 0xb => some ⟨c, -1⟩
  | 0xe => some ⟨a, -1⟩
  | _ => none

def zendSsaRangeAnd (a b c d : Int64) : Option Bounds :=
  match caseNumber a b c d with
  | 0x0 | 0x3 | 0xc | 0xf => some ⟨asLong minAND a b c d, asLong maxAND a b c d⟩
  | 0x2 => some ⟨0, b⟩
  | 0x8 => some ⟨0, d⟩
  | 0xa => some ⟨asLong minAND a (-1) c (-1), if b > d then b else d⟩
  | 0xb => some ⟨asLong minAND a (-1) c d, asLong maxAND 0 b c d⟩
  | 0xe => some ⟨asLong minAND a b c (-1), asLong maxAND a b 0 d⟩
  | _ => none

/-! ## What the searches compute -/

section

variable {n : Nat} {m a b c d x : UInt64}

theorem shift_eq (h : m.toNat = 2 ^ (n + 1) / 2) : (m >>> 1).toNat = 2 ^ n / 2 := by
  rw [UInt64.toNat_shiftRight, h]
  show (2 ^ (n + 1) / 2) >>> 1 = 2 ^ n / 2
  rw [Nat.shiftRight_eq_div_pow, Nat.pow_succ, Nat.mul_div_cancel _ Nat.two_pos, Nat.pow_one]

theorem toNat_mask (h : m.toNat = 2 ^ (n + 1) / 2) : m.toNat = 2 ^ n := by
  rw [h, Nat.pow_succ, Nat.mul_div_cancel _ Nat.two_pos]

theorem mask_ne_zero (h : m.toNat = 2 ^ n) : m ≠ 0 := by
  rintro rfl
  exact absurd h.symm (Nat.two_pow_pos n).ne'

theorem and_mask_ne_zero (h : m.toNat = 2 ^ n) (x : UInt64) :
    x &&& m ≠ 0 ↔ x.toNat.testBit n = true := by
  rw [← UInt64.toNat_inj.ne, UInt64.toNat_and, h, Nat.and_two_pow]
  cases x.toNat.testBit n
  · simp
  · simp

theorem testBit_not (hn : n < 64) (x : UInt64) : (~~~x).toNat.testBit n = !x.toNat.testBit n := by
  have hnot := BitVec.getLsbD_not (x := x.toBitVec) (i := n)
  rw [← UInt64.toBitVec_not] at hnot
  simpa [hn, BitVec.getLsbD] using hnot

theorem testBit_neg (h : m.toNat = 2 ^ n) (hn : n < 64) (i : Nat) :
    (-m).toNat.testBit i = (decide (n ≤ i) && decide (i < 64)) := by
  have hneg : (-m).toNat = (2 ^ (64 - n) - 1) <<< n := by
    have hpow : 2 ^ (64 - n) * 2 ^ n = 2 ^ 64 := by rw [← Nat.pow_add, Nat.sub_add_cancel hn.le]
    have hpos := Nat.two_pow_pos n
    rw [UInt64.toNat_neg, h, Nat.shiftLeft_eq, Nat.sub_mul, hpow, Nat.one_mul]
    exact Nat.mod_eq_of_lt (Nat.sub_lt (by decide) hpos)
  rw [hneg, Nat.testBit_shiftLeft, Nat.testBit_two_pow_sub_one]
  by_cases hi : n ≤ i
  · have hsub : i - n < 64 - n ↔ i < 64 := by omega
    simp [hi, hsub]
  · simp [hi]

theorem raise_eq (h : m.toNat = 2 ^ n) (hn : n < 64) (a : UInt64) :
    ((a ||| m) &&& -m).toNat = raise n a.toNat := by
  refine Nat.eq_of_testBit_eq fun i => ?_
  rw [UInt64.toNat_and, UInt64.toNat_or, Nat.testBit_and, Nat.testBit_or, testBit_neg h hn, h,
    Nat.testBit_two_pow, testBit_raise]
  by_cases hi : i < 64
  · by_cases hle : n ≤ i
    · simp [hi, hle]
    · simp [hle, show ¬n = i by omega]
  · have hbit : a.toNat.testBit i = false :=
      Nat.testBit_eq_false_of_lt (a.toNat_lt.trans_le (Nat.pow_le_pow_right (by decide)
        (Nat.not_lt.mp hi)))
    simp [hi, hbit, show ¬n = i by omega]

theorem lower_eq (h : m.toNat = 2 ^ n) (hb : b.toNat.testBit n = true) :
    ((b - m) ||| (m - 1)).toNat = lower n b.toNat := by
  have hpos := Nat.two_pow_pos n
  have hsplit := Nat.div_add_mod b.toNat (2 ^ n)
  have hodd : b.toNat / 2 ^ n % 2 = 1 := by
    simpa [Nat.testBit_eq_decide_div_mod_eq] using hb
  have hhigh : b.toNat / 2 ^ (n + 1) = b.toNat / 2 ^ n / 2 := by
    rw [Nat.pow_succ, Nat.div_div_eq_div_mul]
  have hlow := Nat.mod_lt b.toNat hpos
  have hsub : (b - m).toNat = 2 ^ (n + 1) * (b.toNat / 2 ^ (n + 1)) + b.toNat % 2 ^ n := by
    have hle : m ≤ b := by
      rw [UInt64.le_iff_toNat_le, h]
      exact Nat.ge_two_pow_of_testBit hb
    have hdouble : 2 ^ n * (b.toNat / 2 ^ n) = 2 ^ n * (2 * (b.toNat / 2 ^ n / 2)) + 2 ^ n := by
      have hhalf : b.toNat / 2 ^ n = 2 * (b.toNat / 2 ^ n / 2) + 1 := by omega
      calc 2 ^ n * (b.toNat / 2 ^ n) = 2 ^ n * (2 * (b.toNat / 2 ^ n / 2) + 1) := by rw [← hhalf]
        _ = _ := Nat.mul_succ _ _
    rw [UInt64.toNat_sub_of_le _ _ hle, h, hhigh, Nat.pow_succ, Nat.mul_assoc]
    omega
  have hone : (m - 1).toNat = 2 ^ n - 1 := by
    rw [UInt64.toNat_sub_of_le _ _ (UInt64.le_iff_toNat_le.mpr (h ▸ hpos)), h]
    rfl
  have hmask : b.toNat % 2 ^ n ||| (2 ^ n - 1) = 2 ^ n - 1 := by
    refine Nat.eq_of_testBit_eq fun i => ?_
    rw [Nat.testBit_or, Nat.testBit_mod_two_pow, Nat.testBit_two_pow_sub_one]
    cases decide (i < n) <;> simp
  have hlt : b.toNat % 2 ^ n < 2 ^ (n + 1) := by
    rw [Nat.pow_succ]
    omega
  rw [UInt64.toNat_or, hsub, hone, Nat.two_pow_add_eq_or_of_lt hlt, Nat.or_assoc, hmask, lower,
    Nat.shiftLeft_eq, Nat.shiftRight_eq_div_pow, Nat.mul_comm]

theorem minORLoop_eq (h : m.toNat = 2 ^ n / 2) (hn : n ≤ 64) :
    (minORLoop m a b c d).toNat =
      (minOr n a.toNat b.toNat c.toNat d.toNat).1 |||
        (minOr n a.toNat b.toNat c.toNat d.toNat).2 := by
  induction n generalizing m with
  | zero =>
    rw [minORLoop, if_pos (UInt64.toNat_inj.mp h)]
    exact UInt64.toNat_or a c
  | succ n ih =>
    have hm := toNat_mask h
    have ih := ih (shift_eq h) (Nat.le_of_succ_le hn)
    have hbits := and_mask_ne_zero hm
    rw [minORLoop, if_neg (mask_ne_zero hm), minOr]
    simp only [hbits, UInt64.toNat_and, Nat.testBit_and, testBit_not hn, UInt64.le_iff_toNat_le,
      raise_eq hm hn, Bool.and_eq_true, Bool.not_eq_true']
    split
    next =>
      split
      next => rw [UInt64.toNat_or, raise_eq hm hn]
      next => exact ih
    next =>
      split
      next =>
        split
        next => rw [UInt64.toNat_or, raise_eq hm hn]
        next => exact ih
      next => exact ih

theorem maxORLoop_eq (h : m.toNat = 2 ^ n / 2) :
    (maxORLoop m a b c d).toNat =
      (maxOr n a.toNat b.toNat c.toNat d.toNat).1 |||
        (maxOr n a.toNat b.toNat c.toNat d.toNat).2 := by
  induction n generalizing m with
  | zero =>
    rw [maxORLoop, if_pos (UInt64.toNat_inj.mp h)]
    exact UInt64.toNat_or b d
  | succ n ih =>
    have hm := toNat_mask h
    have ih := ih (shift_eq h)
    rw [maxORLoop, if_neg (mask_ne_zero hm), maxOr]
    simp only [and_mask_ne_zero hm, UInt64.toNat_and, Nat.testBit_and, UInt64.le_iff_toNat_le,
      Bool.and_eq_true]
    split
    next hbits =>
      rw [lower_eq hm hbits.1, lower_eq hm hbits.2]
      split
      next => rw [UInt64.toNat_or, lower_eq hm hbits.1]
      next =>
        split
        next => rw [UInt64.toNat_or, lower_eq hm hbits.2]
        next => exact ih
    next => exact ih

theorem minANDLoop_eq (h : m.toNat = 2 ^ n / 2) (hn : n ≤ 64) :
    (minANDLoop m a b c d).toNat =
      (minAnd n a.toNat b.toNat c.toNat d.toNat).1 &&&
        (minAnd n a.toNat b.toNat c.toNat d.toNat).2 := by
  induction n generalizing m with
  | zero =>
    rw [minANDLoop, if_pos (UInt64.toNat_inj.mp h)]
    exact UInt64.toNat_and a c
  | succ n ih =>
    have hm := toNat_mask h
    have ih := ih (shift_eq h) (Nat.le_of_succ_le hn)
    rw [minANDLoop, if_neg (mask_ne_zero hm), minAnd]
    simp only [and_mask_ne_zero hm, UInt64.toNat_and, Nat.testBit_and, testBit_not hn,
      UInt64.le_iff_toNat_le, raise_eq hm hn, Bool.and_eq_true, Bool.not_eq_true']
    split
    next =>
      split
      next => rw [UInt64.toNat_and, raise_eq hm hn]
      next =>
        split
        next => rw [UInt64.toNat_and, raise_eq hm hn]
        next => exact ih
    next => exact ih

theorem temp_maxAND (h : m.toNat = 2 ^ n) {b : UInt64} (hb : b.toNat.testBit n = true) :
    (b ||| ~~~m) ||| (m - 1) = -1 := by
  refine UInt64.toNat_inj.mp (Nat.eq_of_testBit_eq fun i => ?_)
  rw [show (-1 : UInt64).toNat = 2 ^ 64 - 1 from rfl, Nat.testBit_two_pow_sub_one,
    UInt64.toNat_or, UInt64.toNat_or, Nat.testBit_or, Nat.testBit_or]
  by_cases hi : i < 64
  · rw [testBit_not hi, h, Nat.testBit_two_pow]
    by_cases hni : n = i
    · subst hni
      simp [hb, hi]
    · simp [hni, hi]
  · have hbit : ∀ x : UInt64, x.toNat.testBit i = false := fun x =>
      Nat.testBit_eq_false_of_lt (x.toNat_lt.trans_le (Nat.pow_le_pow_right (by decide)
        (Nat.not_lt.mp hi)))
    rw [hbit, hbit, hbit, decide_eq_false hi]
    rfl

theorem maxANDLoop_eq (h : m.toNat = 2 ^ n / 2) (hn : n ≤ 64) (habove : Above n b.toNat d.toNat) :
    (maxANDLoop m a b c d).toNat = min b.toNat d.toNat := by
  induction n generalizing m with
  | zero =>
    rw [maxANDLoop, if_pos (UInt64.toNat_inj.mp h),
      UInt64.toNat_and, eq_of_above_zero habove, Nat.and_self, Nat.min_self]
  | succ n ih =>
    have hm := toNat_mask h
    have ih := ih (shift_eq h) (Nat.le_of_succ_le hn)
    have htop : ∀ x : UInt64, x ≤ -1 := fun x => by
      have := x.toNat_lt
      rw [UInt64.le_iff_toNat_le]
      exact Nat.le_of_lt_succ this
    rw [maxANDLoop, if_neg (mask_ne_zero hm)]
    simp only [and_mask_ne_zero hm, UInt64.toNat_and, Nat.testBit_and, testBit_not hn,
      Bool.and_eq_true, Bool.not_eq_true']
    split
    next hbits =>
      have hlt := habove.symm.lt hbits.2 hbits.1
      rw [temp_maxAND hm hbits.1, if_pos (htop a), UInt64.neg_one_and,
        Nat.min_eq_right hlt.le]
    next =>
      split
      next hbits =>
        have hlt := habove.lt hbits.1 hbits.2
        rw [temp_maxAND hm hbits.2, if_pos (htop c), UInt64.and_neg_one,
          Nat.min_eq_left hlt.le]
      next hbd hdb =>
        refine ih (habove.step ?_)
        cases hb : b.toNat.testBit n <;> cases hd : d.toNat.testBit n <;> simp_all

theorem signBit_eq : signBit.toNat = 2 ^ 64 / 2 := rfl

/-- A value that two operands of the intervals have. -/
def Between (f : Nat → Nat → Nat) (a b c d : UInt64) : Set Nat :=
  Set.image2 f (Set.Icc a.toNat b.toNat) (Set.Icc c.toNat d.toNat)

theorem minOR_isLeast (hab : a.toNat ≤ b.toNat) (hcd : c.toNat ≤ d.toNat) :
    IsLeast (Between (· ||| ·) a b c d) (minOR a b c d).toNat := by
  rw [minOR, minORLoop_eq signBit_eq (Nat.le_refl 64)]
  exact minOr_isLeast hab hcd b.toNat_lt d.toNat_lt

theorem minAND_isLeast (hab : a.toNat ≤ b.toNat) (hcd : c.toNat ≤ d.toNat) :
    IsLeast (Between (· &&& ·) a b c d) (minAND a b c d).toNat := by
  rw [minAND, minANDLoop_eq signBit_eq (Nat.le_refl 64)]
  exact minAnd_isLeast hab hcd b.toNat_lt d.toNat_lt

theorem maxOR_isGreatest (hab : a.toNat ≤ b.toNat) (hcd : c.toNat ≤ d.toNat) :
    IsGreatest (Between (· ||| ·) a b c d) (maxOR a b c d).toNat := by
  rw [maxOR, maxORLoop_eq signBit_eq]
  exact maxOr_isGreatest hab hcd b.toNat_lt d.toNat_lt

theorem maxAND_eq (a b c d : UInt64) : (maxAND a b c d).toNat = min b.toNat d.toNat :=
  maxANDLoop_eq signBit_eq (Nat.le_refl 64) (above_of_lt b.toNat_lt d.toNat_lt)

end

/-! ## Signed values -/

/-- The value as a `zend_ulong`. -/
def unsigned (x : Int64) : Nat := x.toUInt64.toNat

section

variable {a b c d x y : Int64}

theorem unsigned_lt (x : Int64) : unsigned x < 2 ^ 64 := x.toUInt64.toNat_lt

theorem toInt_eq (x : Int64) :
    x.toInt = if unsigned x < 2 ^ 63 then (unsigned x : Int) else unsigned x - 2 ^ 64 := by
  have hcond := BitVec.toInt_eq_toNat_cond x.toBitVec
  have hself : x.toBitVec.toNat = unsigned x := rfl
  rw [hself] at hcond
  rw [← Int64.toInt_toBitVec, hcond]
  split
  next h => rw [if_pos (by omega)]
  next h =>
    rw [if_neg (by omega)]
    rfl

theorem lt_zero_iff (x : Int64) : x < 0 ↔ 2 ^ 63 ≤ unsigned x := by
  have hlt := unsigned_lt x
  have hzero : (0 : Int64).toInt = 0 := rfl
  rw [Int64.lt_iff_toInt_lt, toInt_eq, hzero]
  split <;> omega

theorem le_iff (x y : Int64) :
    x ≤ y ↔ 2 ^ 63 ≤ unsigned x ∧ unsigned y < 2 ^ 63 ∨
      unsigned x ≤ unsigned y ∧ (unsigned y < 2 ^ 63 ∨ 2 ^ 63 ≤ unsigned x) := by
  have hx := unsigned_lt x
  have hy := unsigned_lt y
  rw [Int64.le_iff_toInt_le, toInt_eq, toInt_eq]
  split <;> split <;> omega

theorem unsigned_or (x y : Int64) : unsigned (x ||| y) = unsigned x ||| unsigned y :=
  UInt64.toNat_or x.toUInt64 y.toUInt64

theorem unsigned_and (x y : Int64) : unsigned (x &&& y) = unsigned x &&& unsigned y :=
  UInt64.toNat_and x.toUInt64 y.toUInt64

theorem and_neg {m n : Nat} (hm : m < 2 ^ 64) (hn : n < 2 ^ 64) (hm' : 2 ^ 63 ≤ m)
    (hn' : 2 ^ 63 ≤ n) : 2 ^ 63 ≤ m &&& n := by
  have htop : ∀ k, k < 2 ^ 64 → 2 ^ 63 ≤ k → k.testBit 63 = true := by
    intro k hk hk'
    rw [Nat.testBit_eq_decide_div_mod_eq]
    exact decide_eq_true (by omega)
  refine Nat.ge_two_pow_of_testBit ?_
  rw [Nat.testBit_and, htop m hm hm', htop n hn hn']
  rfl

/-! ## The searches on signed values -/

theorem le_minOR (hab : unsigned a ≤ unsigned b) (hcd : unsigned c ≤ unsigned d) :
    unsigned a ≤ unsigned (asLong minOR a b c d) ∧
      unsigned c ≤ unsigned (asLong minOR a b c d) := by
  obtain ⟨x, hx, y, hy, heq⟩ := (minOR_isLeast hab hcd).1
  have heq : x ||| y = unsigned (asLong minOR a b c d) := heq
  rw [← heq]
  exact ⟨hx.1.trans Nat.left_le_or, hy.1.trans Nat.right_le_or⟩

theorem maxOR_lt (hab : unsigned a ≤ unsigned b) (hcd : unsigned c ≤ unsigned d)
    (hb : unsigned b < 2 ^ 63) (hd : unsigned d < 2 ^ 63) :
    unsigned (asLong maxOR a b c d) < 2 ^ 63 := by
  obtain ⟨x, hx, y, hy, heq⟩ := (maxOR_isGreatest hab hcd).1
  have heq : x ||| y = unsigned (asLong maxOR a b c d) := heq
  rw [← heq]
  exact Nat.or_lt_two_pow (hx.2.trans_lt hb) (hy.2.trans_lt hd)

theorem minAND_neg (hab : unsigned a ≤ unsigned b) (hcd : unsigned c ≤ unsigned d)
    (ha : 2 ^ 63 ≤ unsigned a) (hc : 2 ^ 63 ≤ unsigned c) :
    2 ^ 63 ≤ unsigned (asLong minAND a b c d) := by
  obtain ⟨x, hx, y, hy, heq⟩ := (minAND_isLeast hab hcd).1
  have heq : x &&& y = unsigned (asLong minAND a b c d) := heq
  rw [← heq]
  exact and_neg (hx.2.trans_lt (unsigned_lt b)) (hy.2.trans_lt (unsigned_lt d)) (ha.trans hx.1)
    (hc.trans hy.1)

/-! ## Soundness -/

/-- A case sets both bounds, and every disjunction is inside of them. -/
def OrSound (a b c d : Int64) : Prop :=
  ∃ r, zendSsaRangeOr a b c d = some r ∧
    ∀ x y, a ≤ x → x ≤ b → c ≤ y → y ≤ d → r.min ≤ x ||| y ∧ x ||| y ≤ r.max

/-- A case sets both bounds, and every conjunction is inside of them. -/
def AndSound (a b c d : Int64) : Prop :=
  ∃ r, zendSsaRangeAnd a b c d = some r ∧
    ∀ x y, a ≤ x → x ≤ b → c ≤ y → y ≤ d → r.min ≤ x &&& y ∧ x &&& y ≤ r.max

theorem or_cases (x y : Int64) :
    unsigned x ≤ unsigned (x ||| y) ∧ unsigned y ≤ unsigned (x ||| y) ∧
      (unsigned x < 2 ^ 63 → unsigned y < 2 ^ 63 → unsigned (x ||| y) < 2 ^ 63) := by
  rw [unsigned_or]
  exact ⟨Nat.left_le_or, Nat.right_le_or, Nat.or_lt_two_pow⟩

theorem and_cases (x y : Int64) :
    unsigned (x &&& y) ≤ unsigned x ∧ unsigned (x &&& y) ≤ unsigned y ∧
      (2 ^ 63 ≤ unsigned x → 2 ^ 63 ≤ unsigned y → 2 ^ 63 ≤ unsigned (x &&& y)) := by
  rw [unsigned_and]
  exact ⟨Nat.and_le_left, Nat.and_le_right, and_neg (unsigned_lt x) (unsigned_lt y)⟩

theorem minOR_le_or (hax : unsigned a ≤ unsigned x) (hxb : unsigned x ≤ unsigned b)
    (hcy : unsigned c ≤ unsigned y) (hyd : unsigned y ≤ unsigned d) :
    unsigned (asLong minOR a b c d) ≤ unsigned (x ||| y) := by
  rw [unsigned_or]
  exact (minOR_isLeast (hax.trans hxb) (hcy.trans hyd)).2 ⟨_, ⟨hax, hxb⟩, _, ⟨hcy, hyd⟩, rfl⟩

theorem or_le_maxOR (hax : unsigned a ≤ unsigned x) (hxb : unsigned x ≤ unsigned b)
    (hcy : unsigned c ≤ unsigned y) (hyd : unsigned y ≤ unsigned d) :
    unsigned (x ||| y) ≤ unsigned (asLong maxOR a b c d) := by
  rw [unsigned_or]
  exact (maxOR_isGreatest (hax.trans hxb) (hcy.trans hyd)).2 ⟨_, ⟨hax, hxb⟩, _, ⟨hcy, hyd⟩, rfl⟩

theorem minAND_le_and (hax : unsigned a ≤ unsigned x) (hxb : unsigned x ≤ unsigned b)
    (hcy : unsigned c ≤ unsigned y) (hyd : unsigned y ≤ unsigned d) :
    unsigned (asLong minAND a b c d) ≤ unsigned (x &&& y) := by
  rw [unsigned_and]
  exact (minAND_isLeast (hax.trans hxb) (hcy.trans hyd)).2 ⟨_, ⟨hax, hxb⟩, _, ⟨hcy, hyd⟩, rfl⟩

theorem unsigned_neg_one : unsigned (-1) = 2 ^ 64 - 1 := rfl

theorem unsigned_zero : unsigned 0 = 0 := rfl

theorem zendSsaRangeOr_eq (hab : a ≤ b) (hcd : c ≤ d) :
    zendSsaRangeOr a b c d = some (
      if c < 0 then
        if b < 0 then ⟨a, -1⟩
        else if a < 0 then ⟨if a < c then a else c, asLong maxOR 0 b 0 d⟩
        else ⟨asLong minOR a b c (-1), asLong maxOR a b 0 d⟩
      else if a < 0 ∧ ¬b < 0 then ⟨asLong minOR a (-1) c d, asLong maxOR 0 b c d⟩
      else ⟨asLong minOR a b c d, asLong maxOR a b c d⟩) := by
  have hb : b < 0 → a < 0 := Int64.lt_of_le_of_lt hab
  have hd : d < 0 → c < 0 := Int64.lt_of_le_of_lt hcd
  rw [zendSsaRangeOr, caseNumber]
  by_cases ha0 : a < 0 <;> by_cases hb0 : b < 0 <;> by_cases hc0 : c < 0 <;> by_cases hd0 : d < 0
  all_goals first | exact absurd (hb hb0) ha0 | exact absurd (hd hd0) hc0 | skip
  all_goals
    simp only [ha0, hb0, hc0, hd0, if_true, if_false, not_true, not_false_iff, and_true, and_false]
  all_goals rfl

theorem zendSsaRangeAnd_eq (hab : a ≤ b) (hcd : c ≤ d) :
    zendSsaRangeAnd a b c d = some (
      if c < 0 then
        if b < 0 then ⟨asLong minAND a b c (-1), asLong maxAND a b 0 d⟩
        else if a < 0 then ⟨asLong minAND a (-1) c (-1), if b > d then b else d⟩
        else ⟨0, b⟩
      else if a < 0 ∧ ¬b < 0 then ⟨0, d⟩
      else ⟨asLong minAND a b c d, asLong maxAND a b c d⟩) := by
  have hb : b < 0 → a < 0 := Int64.lt_of_le_of_lt hab
  have hd : d < 0 → c < 0 := Int64.lt_of_le_of_lt hcd
  rw [zendSsaRangeAnd, caseNumber]
  by_cases ha0 : a < 0 <;> by_cases hb0 : b < 0 <;> by_cases hc0 : c < 0 <;> by_cases hd0 : d < 0
  all_goals first | exact absurd (hb hb0) ha0 | exact absurd (hd hd0) hc0 | skip
  all_goals
    simp only [ha0, hb0, hc0, hd0, if_true, if_false, not_true, not_false_iff, and_true, and_false]
  all_goals rfl

theorem neg_one_le_maxOR_iff (hb : ¬b < 0) (hd : d < 0) :
    -1 ≤ asLong maxOR 0 b 0 d ↔ -1 ≤ b.toInt + d.toInt := by
  have htop := unsigned_lt (asLong maxOR 0 b 0 d)
  have hsigned := toInt_eq b
  have hsigned' := toInt_eq d
  rw [lt_zero_iff] at hb hd
  rw [if_pos (Nat.not_le.mp hb)] at hsigned
  rw [if_neg (Nat.not_lt.mpr hd)] at hsigned'
  have hnonneg : 2 ^ 63 ≤ unsigned (asLong maxOR 0 b 0 d) := by
    have hle := or_le_maxOR (a := 0) (b := b) (c := 0) (d := d) (x := 0) (y := d) (Nat.le_refl _)
      (Nat.zero_le _) (Nat.zero_le _) (Nat.le_refl _)
    rw [Int64.zero_or] at hle
    exact hd.trans hle
  rw [le_iff, unsigned_neg_one]
  constructor
  · intro hle
    obtain ⟨x, hx, y, hy, heq⟩ := (maxOR_isGreatest (a := (0 : Int64).toUInt64)
      (b := b.toUInt64) (c := (0 : Int64).toUInt64) (d := d.toUInt64) (Nat.zero_le _)
      (Nat.zero_le _)).1
    have heq : x ||| y = unsigned (asLong maxOR 0 b 0 d) := heq
    have hsum := or_le_add x y
    have hxb : x ≤ unsigned b := hx.2
    have hyd : y ≤ unsigned d := hy.2
    omega
  · intro hle
    -- the complement of `b` is not greater than `d`
    have hnot : unsigned (~~~b) = 2 ^ 64 - 1 - unsigned b := UInt64.toNat_not b.toUInt64
    have hmax := or_le_maxOR (a := 0) (b := b) (c := 0) (d := d) (x := b) (y := ~~~b)
      (Nat.zero_le _) (Nat.le_refl _) (Nat.zero_le _) (by omega)
    rw [Int64.or_not_self, unsigned_neg_one] at hmax
    omega

theorem orSound_iff (hab : a ≤ b) (hcd : c ≤ d) :
    OrSound a b c d ↔ (a < 0 → ¬b < 0 → d < 0 → -1 ≤ b.toInt + d.toInt) := by
  have hneg := unsigned_neg_one
  have hzero := unsigned_zero
  have hlta := unsigned_lt a
  have hltc := unsigned_lt c
  rw [OrSound, zendSsaRangeOr_eq hab hcd]
  simp only [Option.some.injEq, exists_eq_left']
  by_cases hc : c < 0
  · rw [if_pos hc]
    by_cases hb : b < 0
    · rw [if_pos hb]
      refine iff_of_true (fun x y hax hxb hcy hyd => ?_) fun _ h => absurd hb h
      have hxy := or_cases x y
      have hlt := unsigned_lt (x ||| y)
      simp only [lt_zero_iff, le_iff] at *
      omega
    · rw [if_neg hb]
      by_cases ha : a < 0
      · rw [if_pos ha]
        constructor
        · intro hsound _ _ hd
          have hmem : a ≤ -1 ∧ -1 ≤ b := by
            simp only [lt_zero_iff, le_iff] at *
            omega
          have hmax := (hsound (-1) c hmem.1 hmem.2 (Int64.le_refl c) hcd).2
          rw [Int64.neg_one_or] at hmax
          exact (neg_one_le_maxOR_iff hb hd).mp hmax
        · intro hsum x y hax hxb hcy hyd
          have hxy := or_cases x y
          have hlt := unsigned_lt (x ||| y)
          constructor
          · show (if a < c then a else c) ≤ x ||| y
            split
            next hac =>
              have hac := Int64.not_le.mpr hac
              simp only [lt_zero_iff, le_iff] at *
              omega
            next hac =>
              have hac := Int64.not_lt.mp hac
              simp only [lt_zero_iff, le_iff] at *
              omega
          · by_cases hd : d < 0
            · have hmax := (neg_one_le_maxOR_iff hb hd).mpr (hsum ha hb hd)
              simp only [lt_zero_iff, le_iff] at *
              omega
            · have hmax := or_le_maxOR (a := 0) (b := b) (c := 0) (d := d) (x := x) (y := y)
              have hto := maxOR_lt (a := 0) (b := b) (c := 0) (d := d)
              simp only [lt_zero_iff, le_iff] at *
              omega
      · rw [if_neg ha]
        refine iff_of_true (fun x y hax hxb hcy hyd => ?_) fun h => absurd h ha
        have hxy := or_cases x y
        have hy := unsigned_lt y
        have hmin := minOR_le_or (a := a) (b := b) (c := c) (d := -1) (x := x) (y := y)
        have hmax := or_le_maxOR (a := a) (b := b) (c := 0) (d := d) (x := x) (y := y)
        have hfrom := le_minOR (a := a) (b := b) (c := c) (d := -1)
        have hto := maxOR_lt (a := a) (b := b) (c := 0) (d := d)
        simp only [lt_zero_iff, le_iff] at *
        omega
  · rw [if_neg hc]
    have hd : ¬d < 0 := fun hd => hc (Int64.lt_of_le_of_lt hcd hd)
    by_cases hcase : a < 0 ∧ ¬b < 0
    · rw [if_pos hcase]
      refine iff_of_true (fun x y hax hxb hcy hyd => ?_) fun _ _ h => absurd h hd
      have hxy := or_cases x y
      have hx := unsigned_lt x
      have hmin := minOR_le_or (a := a) (b := -1) (c := c) (d := d) (x := x) (y := y)
      have hmax := or_le_maxOR (a := 0) (b := b) (c := c) (d := d) (x := x) (y := y)
      have hfrom := le_minOR (a := a) (b := -1) (c := c) (d := d)
      have hto := maxOR_lt (a := 0) (b := b) (c := c) (d := d)
      simp only [lt_zero_iff, le_iff] at *
      omega
    · rw [if_neg hcase]
      refine iff_of_true (fun x y hax hxb hcy hyd => ?_) fun _ _ h => absurd h hd
      have hxy := or_cases x y
      have hmin := minOR_le_or (a := a) (b := b) (c := c) (d := d) (x := x) (y := y)
      have hmax := or_le_maxOR (a := a) (b := b) (c := c) (d := d) (x := x) (y := y)
      have hfrom := le_minOR (a := a) (b := b) (c := c) (d := d)
      have hto := maxOR_lt (a := a) (b := b) (c := c) (d := d)
      simp only [lt_zero_iff, le_iff] at *
      omega

theorem unsigned_maxAND (a b c d : Int64) :
    unsigned (asLong maxAND a b c d) = min (unsigned b) (unsigned d) := maxAND_eq _ _ _ _

theorem andSound (hab : a ≤ b) (hcd : c ≤ d) : AndSound a b c d := by
  have hneg := unsigned_neg_one
  have hzero := unsigned_zero
  have hlta := unsigned_lt a
  have hltc := unsigned_lt c
  rw [AndSound, zendSsaRangeAnd_eq hab hcd]
  simp only [Option.some.injEq, exists_eq_left']
  intro x y hax hxb hcy hyd
  have hxy := and_cases x y
  have hx := unsigned_lt x
  have hy := unsigned_lt y
  by_cases hc : c < 0
  · rw [if_pos hc]
    by_cases hb : b < 0
    · rw [if_pos hb]
      have hmin := minAND_le_and (a := a) (b := b) (c := c) (d := -1) (x := x) (y := y)
      have hmax := unsigned_maxAND a b 0 d
      have hfrom := minAND_neg (a := a) (b := b) (c := c) (d := -1)
      simp only [lt_zero_iff, le_iff] at *
      omega
    · rw [if_neg hb]
      by_cases ha : a < 0
      · rw [if_pos ha]
        have hmin := minAND_le_and (a := a) (b := -1) (c := c) (d := -1) (x := x) (y := y)
        have hfrom := minAND_neg (a := a) (b := -1) (c := c) (d := -1)
        constructor
        · simp only [lt_zero_iff, le_iff] at *
          omega
        · show x &&& y ≤ if b > d then b else d
          split
          next hdb =>
            have hdb := Int64.not_le.mpr hdb
            simp only [lt_zero_iff, le_iff] at *
            omega
          next hdb =>
            have hdb := Int64.not_lt.mp hdb
            simp only [lt_zero_iff, le_iff] at *
            omega
      · rw [if_neg ha]
        simp only [lt_zero_iff, le_iff] at *
        omega
  · rw [if_neg hc]
    by_cases hcase : a < 0 ∧ ¬b < 0
    · rw [if_pos hcase]
      simp only [lt_zero_iff, le_iff] at *
      omega
    · rw [if_neg hcase]
      have hmin := minAND_le_and (a := a) (b := b) (c := c) (d := d) (x := x) (y := y)
      have hmax := unsigned_maxAND a b c d
      simp only [lt_zero_iff, le_iff] at *
      omega

/-- **Ranges of `|` and `&`.** They are sound but where an interval around zero meets a negative
one, whose greatest elements do not make up `-1`. -/
theorem bitRanges_iff (hab : a ≤ b) (hcd : c ≤ d) :
    OrSound a b c d ∧ AndSound a b c d ↔
      (a < 0 → ¬b < 0 → d < 0 → -1 ≤ b.toInt + d.toInt) := by
  rw [and_iff_left (andSound hab hcd)]
  exact orSound_iff hab hcd

theorem bitRanges_mixed :
    OrSound (-5) 7 (-8) (-3) ∧ AndSound (-5) 7 (-8) (-3) ↔
      ((-5 : Int64) < 0 → ¬(7 : Int64) < 0 → (-3 : Int64) < 0 →
        -1 ≤ (7 : Int64).toInt + (-3 : Int64).toInt) :=
  bitRanges_iff (by decide) (by decide)

/-- `-1 | -2` is `-1`, and the range of `[-1, 0] | [-2, -2]` ends at `-2`. -/
theorem not_bitRanges_mixed : ¬(OrSound (-1) 0 (-2) (-2) ∧ AndSound (-1) 0 (-2) (-2)) := by
  intro h
  have hsum := (orSound_iff (by decide) (by decide)).mp h.1 (by decide) (by decide) (by decide)
  exact absurd hsum (by decide)

end

end Optimizer

end Phpce
