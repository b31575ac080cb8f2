import Mathlib.Algebra.Order.Ring.Abs
import Mathlib.Algebra.Ring.Parity
import Mathlib.Tactic.Linarith

/-!
# Integer powers

`pow_function` on two integers squares and multiplies, and goes over to a float at the first product
that does not fit. No such product is made too early.

* `exact_powLoop`: what the loop returns, from any point on.
* **`powFunction_exact`**: the result is an integer if and only if the power is one that fits.
-/

namespace Phpce

/-- The range of a `zend_long`. -/
def InLong (z : Int) : Prop := -9223372036854775808 ≤ z ∧ z < 9223372036854775808

instance (z : Int) : Decidable (InLong z) := inferInstanceAs (Decidable (_ ∧ _))

/-- A `double`, as the operations that make it. -/
inductive DoubleExpr where
  | ofLong (l : Int)
  | mul (x y : DoubleExpr)
  | pow (x y : DoubleExpr)
  deriving DecidableEq, Repr

inductive PowResult where
  | long (l : Int64)
  | double (d : DoubleExpr)
  deriving DecidableEq, Repr

/-- `ZEND_SIGNED_MULTIPLY_LONG`; `none` when `usedval` is set. -/
def zendSignedMultiplyLong (a b : Int64) : Option Int64 :=
  if InLong (a.toInt * b.toInt) then some (a * b) else none

/-- `while (i >= 1)`, which leaves `l1` in the end. -/
def powLoop (l1 l2 : Int64) (i : Nat) : PowResult :=
  if i = 0 then .long l1
  else if i % 2 = 1 then
    match zendSignedMultiplyLong l1 l2 with
    | none => .double (.mul (.mul (.ofLong l1.toInt) (.ofLong l2.toInt))
        (.pow (.ofLong l2.toInt) (.ofLong (i - 1 : Nat))))
    | some l1 => powLoop l1 l2 (i - 1)
  else
    match zendSignedMultiplyLong l2 l2 with
    | none => .double (.mul (.ofLong l1.toInt)
        (.pow (.mul (.ofLong l2.toInt) (.ofLong l2.toInt)) (.ofLong (i / 2 : Nat))))
    | some l2 => powLoop l1 l2 (i / 2)
termination_by i

/-- `pow_function` on two integers. -/
def powFunction (op1 op2 : Int64) : PowResult :=
  if 0 ≤ op2.toInt then
    if op2.toInt = 0 then .long 1
    else if op1.toInt = 0 then .long 0
    else powLoop 1 op1 op2.toInt.toNat
  else .double (.pow (.ofLong op1.toInt) (.ofLong op2.toInt))

/-! ## Products that do not fit -/

variable {l1 l2 : Int64} {x y z : Int} {i m : Nat}

theorem InLong.natAbs_le (h : InLong z) : z.natAbs ≤ 9223372036854775808 := by
  obtain ⟨hlo, hhi⟩ := h
  omega

theorem le_natAbs (h : ¬InLong z) : 9223372036854775808 ≤ z.natAbs := by
  unfold InLong at h
  omega

theorem lt_natAbs_mul_self (h : ¬InLong (x * x)) : 9223372036854775808 < (x * x).natAbs := by
  have hle := le_natAbs h
  rw [Int.natAbs_mul] at hle ⊢
  refine Nat.lt_of_le_of_ne hle fun heq => ?_
  rcases Nat.lt_or_ge x.natAbs 3037000500 with hlt | hge
  · have := Nat.mul_le_mul (Nat.le_of_lt_succ hlt) (Nat.le_of_lt_succ hlt)
    omega
  · have := Nat.mul_le_mul hge hge
    omega

theorem not_inLong_of_square (hx : x ≠ 0) (h : ¬InLong (y * y)) (hm : m ≠ 0) :
    ¬InLong (x * (y * y) ^ m) := by
  intro hin
  have hlt := lt_natAbs_mul_self h
  have hle := hin.natAbs_le
  rw [Int.natAbs_mul, Int.natAbs_pow] at hle
  have hpow : (y * y).natAbs ≤ (y * y).natAbs ^ m := Nat.le_self_pow hm _
  have hmul : (y * y).natAbs ^ m ≤ x.natAbs * (y * y).natAbs ^ m :=
    Nat.le_mul_of_pos_left _ (Int.natAbs_pos.mpr hx)
  omega

theorem not_inLong_of_product (h : ¬InLong (x * y)) (hy : y ≠ 0) (hm : Even m) :
    ¬InLong (x * y * y ^ m) := by
  obtain ⟨n, rfl⟩ := hm
  have hsquare : y ^ (n + n) = (y * y) ^ n := by rw [pow_add, mul_pow]
  rw [hsquare]
  have hpos : 1 ≤ y.natAbs := Nat.one_le_iff_ne_zero.mpr (Int.natAbs_ne_zero.mpr hy)
  rcases Nat.eq_or_lt_of_le hpos with hone | htwo
  · -- the factors are 1
    have hyy : y * y = 1 := by
      rw [← Int.natAbs_mul_self, ← hone]
      rfl
    rw [hyy, one_pow, mul_one]
    exact h
  · rcases Nat.eq_zero_or_pos n with rfl | hn
    · rw [pow_zero, mul_one]
      exact h
    · intro hin
      have hle := hin.natAbs_le
      have hge := le_natAbs h
      rw [Int.natAbs_mul, Int.natAbs_pow] at hle
      have hbase : 2 ≤ (y * y).natAbs := by
        rw [Int.natAbs_mul]
        have := Nat.mul_le_mul htwo htwo
        omega
      have hpow : 2 ≤ (y * y).natAbs ^ n :=
        hbase.trans (Nat.le_self_pow (Nat.ne_of_gt hn) _)
      have := Nat.mul_le_mul hge hpow
      omega

/-! ## The loop -/

theorem zendSignedMultiplyLong_some {a b c : Int64} (h : zendSignedMultiplyLong a b = some c) :
    c.toInt = a.toInt * b.toInt := by
  unfold zendSignedMultiplyLong at h
  split at h
  · rename_i hin
    obtain rfl := Option.some.inj h
    rw [Int64.toInt_mul]
    obtain ⟨hlo, hhi⟩ := hin
    exact Int.bmod_eq_of_le (by omega) (by omega)
  · cases h

theorem zendSignedMultiplyLong_none {a b : Int64} (h : zendSignedMultiplyLong a b = none) :
    ¬InLong (a.toInt * b.toInt) := by
  unfold zendSignedMultiplyLong at h
  split at h
  · cases h
  · assumption

theorem inLong_toInt (l : Int64) : InLong l.toInt := ⟨l.le_toInt, l.toInt_lt⟩

/-- The result is `z` when it fits, and a float when it does not. -/
def Exact (z : Int) : PowResult → Prop
  | .long l => l.toInt = z
  | .double _ => ¬InLong z

theorem exact_powLoop (h1 : l1.toInt ≠ 0) (h2 : l2.toInt ≠ 0) :
    Exact (l1.toInt * l2.toInt ^ i) (powLoop l1 l2 i) := by
  -- induction as the loop goes, with `l1 * l2 ^ i` as its invariant
  induction i using Nat.strong_induction_on generalizing l1 l2 with
  | _ i ih =>
    rw [powLoop]
    split
    · rename_i hzero
      rw [hzero, pow_zero, mul_one]
      exact rfl
    · rename_i hpos
      split
      · rename_i hodd
        have hprod : l1.toInt * l2.toInt ^ i = l1.toInt * l2.toInt * l2.toInt ^ (i - 1) := by
          rw [mul_assoc, ← pow_succ', Nat.sub_add_cancel (Nat.one_le_iff_ne_zero.mpr hpos)]
        rw [hprod]
        cases hmul : zendSignedMultiplyLong l1 l2 with
        | none =>
          have heven : Even (i - 1) := Nat.even_iff.mpr (by omega)
          exact not_inLong_of_product (zendSignedMultiplyLong_none hmul) h2 heven
        | some l =>
          have hl := zendSignedMultiplyLong_some hmul
          rw [← hl]
          refine ih (i - 1) (by omega) ?_ h2
          rw [hl]
          exact mul_ne_zero h1 h2
      · rename_i heven
        have hhalf : l2.toInt ^ i = (l2.toInt * l2.toInt) ^ (i / 2) := by
          rw [← pow_two, ← pow_mul]
          congr 1
          omega
        rw [hhalf]
        cases hmul : zendSignedMultiplyLong l2 l2 with
        | none =>
          exact not_inLong_of_square h1 (zendSignedMultiplyLong_none hmul) (by omega)
        | some l =>
          have hl := zendSignedMultiplyLong_some hmul
          rw [← hl]
          refine ih (i / 2) (by omega) h1 ?_
          rw [hl]
          exact mul_ne_zero h2 h2

theorem exact_powFunction (op1 op2 : Int64) (h : 0 ≤ op2.toInt) :
    Exact (op1.toInt ^ op2.toInt.toNat) (powFunction op1 op2) := by
  unfold powFunction
  rw [if_pos h]
  split
  · rename_i hzero
    rw [hzero]
    show (1 : Int64).toInt = op1.toInt ^ 0
    rw [pow_zero]
    rfl
  · rename_i hne
    split
    · rename_i hzero
      rw [hzero, zero_pow (by omega)]
      exact rfl
    · rename_i hbase
      have hexact : Exact ((1 : Int64).toInt * op1.toInt ^ op2.toInt.toNat)
          (powLoop 1 op1 op2.toInt.toNat) := exact_powLoop (by decide) hbase
      rwa [show (1 : Int64).toInt = 1 from rfl, one_mul] at hexact

/-- **An integer power** is an integer if and only if it fits, and then it is exact. -/
theorem powFunction_exact (op1 op2 : Int64) (h : 0 ≤ op2.toInt) :
    ((∃ l, powFunction op1 op2 = .long l) ↔ InLong (op1.toInt ^ op2.toInt.toNat)) ∧
      ∀ l, powFunction op1 op2 = .long l → l.toInt = op1.toInt ^ op2.toInt.toNat := by
  have hexact := exact_powFunction op1 op2 h
  have hlong : ∀ l, powFunction op1 op2 = .long l → l.toInt = op1.toInt ^ op2.toInt.toNat := by
    intro l hl
    rw [hl] at hexact
    exact hexact
  refine ⟨⟨fun ⟨l, hl⟩ => ?_, fun hin => ?_⟩, hlong⟩
  · rw [← hlong l hl]
    exact inLong_toInt l
  · cases hres : powFunction op1 op2 with
    | long l => exact ⟨l, rfl⟩
    | double d =>
      rw [hres] at hexact
      exact absurd hin hexact

theorem powFunction_exact_limit :
    ((∃ l, powFunction (-2) 63 = .long l) ↔
        InLong ((-2 : Int64).toInt ^ (63 : Int64).toInt.toNat)) ∧
      ∀ l, powFunction (-2) 63 = .long l →
        l.toInt = (-2 : Int64).toInt ^ (63 : Int64).toInt.toNat :=
  powFunction_exact (-2) 63 (by decide)

end Phpce
