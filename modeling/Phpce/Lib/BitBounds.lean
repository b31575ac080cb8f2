import Mathlib.Data.Nat.Bitwise
import Mathlib.Order.Bounds.Basic

/-!
# Bounds of the bitwise operations

The least `x ||| y`, the least `x &&& y` and the greatest `x ||| y` for `x` and `y` in intervals of
numbers. Each search runs over the bits from the top, and stops at the first one at which an operand
can be exchanged for another one that is better in every bit below.

* `minOr_isLeast`, `minAnd_isLeast`, `maxOr_isGreatest`: what the searches find.
-/

namespace BitBounds

/-! ## Numbers with the same bits from some bit on -/

def Above (n u v : Nat) : Prop := ∀ i, n ≤ i → u.testBit i = v.testBit i

section

variable {n a b c d u v x y : Nat}

theorem Above.refl (n u : Nat) : Above n u u := fun _ _ => rfl

theorem Above.symm (h : Above n u v) : Above n v u := fun i hi => (h i hi).symm

theorem Above.trans {w : Nat} (h : Above n u v) (h' : Above n v w) : Above n u w := fun i hi =>
  (h i hi).trans (h' i hi)

theorem Above.mono {m : Nat} (h : Above n u v) (hle : n ≤ m) : Above m u v := fun i hi =>
  h i (Nat.le_trans hle hi)

theorem Above.step (h : Above (n + 1) u v) (hbit : u.testBit n = v.testBit n) : Above n u v := by
  intro i hi
  rcases Nat.eq_or_lt_of_le hi with rfl | hlt
  · exact hbit
  · exact h i hlt

theorem Above.lt (h : Above (n + 1) u v) (hu : u.testBit n = false) (hv : v.testBit n = true) :
    u < v := Nat.lt_of_testBit n hu hv fun i hi => h i hi

theorem Above.div_eq (h : Above n u v) : u / 2 ^ n = v / 2 ^ n := by
  refine Nat.eq_of_testBit_eq fun i => ?_
  rw [Nat.testBit_div_two_pow, Nat.testBit_div_two_pow]
  exact h _ (Nat.le_add_left n i)

theorem Above.le_iff (h : Above n u v) : u ≤ v ↔ u % 2 ^ n ≤ v % 2 ^ n := by
  have hu := Nat.div_add_mod u (2 ^ n)
  have hv := Nat.div_add_mod v (2 ^ n)
  rw [h.div_eq] at hu
  omega

theorem Above.or (h : Above n u v) (h' : Above n x y) : Above n (u ||| x) (v ||| y) := by
  intro i hi
  rw [Nat.testBit_or, Nat.testBit_or, h i hi, h' i hi]

theorem Above.and (h : Above n u v) (h' : Above n x y) : Above n (u &&& x) (v &&& y) := by
  intro i hi
  rw [Nat.testBit_and, Nat.testBit_and, h i hi, h' i hi]

theorem Above.testBit_of_le (h : Above (n + 1) u v) (hle : u ≤ v) (hu : u.testBit n = true) :
    v.testBit n = true := by
  by_contra hv
  exact absurd (h.symm.lt (Bool.eq_false_iff.mpr hv) hu) (Nat.not_lt.mpr hle)

theorem Above.le_of_low (h : Above (n + 1) u v) (hu : u.testBit n = false)
    (hlow : u % 2 ^ n = 0) : u ≤ v := by
  cases hv : v.testBit n with
  | false => exact (h.step (hu.trans hv.symm)).le_iff.mpr (hlow ▸ Nat.zero_le _)
  | true => exact Nat.le_of_lt (h.lt hu hv)

theorem Above.le_of_high (h : Above (n + 1) u v) (hv : v.testBit n = true)
    (hhigh : v % 2 ^ n = 2 ^ n - 1) : u ≤ v := by
  cases hu : u.testBit n with
  | false => exact Nat.le_of_lt (h.lt hu hv)
  | true =>
    have hlt := Nat.mod_lt u (Nat.two_pow_pos n)
    exact (h.step (hu.trans hv.symm)).le_iff.mpr (by omega)

theorem above_of_lt (hu : u < 2 ^ n) (hv : v < 2 ^ n) : Above n u v := by
  intro i hi
  have hpow : 2 ^ n ≤ 2 ^ i := Nat.pow_le_pow_right Nat.two_pos hi
  rw [Nat.testBit_eq_false_of_lt (Nat.lt_of_lt_of_le hu hpow),
    Nat.testBit_eq_false_of_lt (Nat.lt_of_lt_of_le hv hpow)]

/-! ## Exchanging an operand -/

/-- Bit `n` is set, and the bits below it are cleared. -/
def raise (n a : Nat) : Nat := (a >>> n) <<< n ||| 2 ^ n

/-- Bit `n` is cleared, and the bits below it are set. -/
def lower (n b : Nat) : Nat := (b >>> (n + 1)) <<< (n + 1) ||| (2 ^ n - 1)

theorem testBit_raise (n a i : Nat) :
    (raise n a).testBit i = (decide (n ≤ i) && a.testBit i || decide (n = i)) := by
  rw [raise, Nat.testBit_or, Nat.testBit_shiftLeft, Nat.testBit_two_pow]
  by_cases hi : n ≤ i
  · rw [Nat.testBit_shiftRight, Nat.add_sub_cancel' hi]
  · simp [hi]

theorem testBit_lower (n b i : Nat) :
    (lower n b).testBit i = (decide (n < i) && b.testBit i || decide (i < n)) := by
  rw [lower, Nat.testBit_or, Nat.testBit_shiftLeft, Nat.testBit_two_pow_sub_one]
  by_cases hi : n < i
  · rw [Nat.testBit_shiftRight, Nat.add_sub_cancel' hi]
    rfl
  · have hle : ¬n + 1 ≤ i := hi
    simp only [hi, hle, decide_false, Bool.false_and]

theorem above_raise (n a : Nat) : Above (n + 1) (raise n a) a := by
  intro i hi
  have hne : n ≠ i := by omega
  have hle : n ≤ i := by omega
  simp [testBit_raise, hne, hle]

theorem above_lower (n b : Nat) : Above (n + 1) (lower n b) b := by
  intro i hi
  have hge : ¬i < n := by omega
  have hlt : n < i := by omega
  simp [testBit_lower, hge, hlt]

theorem testBit_raise_self (n a : Nat) : (raise n a).testBit n = true := by simp [testBit_raise]

theorem testBit_lower_self (n b : Nat) : (lower n b).testBit n = false := by simp [testBit_lower]

theorem raise_mod (n a : Nat) : raise n a % 2 ^ n = 0 := by
  refine Nat.eq_of_testBit_eq fun i => ?_
  rw [Nat.testBit_mod_two_pow, testBit_raise, Nat.zero_testBit]
  by_cases hi : i < n
  · simp [Nat.not_le.mpr hi, Nat.ne_of_gt hi]
  · simp [hi]

theorem lower_mod (n b : Nat) : lower n b % 2 ^ n = 2 ^ n - 1 := by
  refine Nat.eq_of_testBit_eq fun i => ?_
  rw [Nat.testBit_mod_two_pow, testBit_lower, Nat.testBit_two_pow_sub_one]
  by_cases hi : i < n <;> simp [hi]

theorem le_raise (ha : a.testBit n = false) : a ≤ raise n a :=
  Nat.le_of_lt ((above_raise n a).symm.lt ha (testBit_raise_self n a))

theorem lower_le (hb : b.testBit n = true) : lower n b ≤ b :=
  Nat.le_of_lt ((above_lower n b).lt (testBit_lower_self n b) hb)

theorem raise_le (h : Above (n + 1) x a) (hx : x.testBit n = true) : raise n a ≤ x := by
  have habove := (above_raise n a).trans h.symm
  refine (habove.step ((testBit_raise_self n a).trans hx.symm)).le_iff.mpr ?_
  rw [raise_mod]
  exact Nat.zero_le _

theorem le_lower (h : Above (n + 1) x b) (hx : x.testBit n = false) : x ≤ lower n b := by
  have habove := h.trans (above_lower n b).symm
  refine (habove.step (hx.trans (testBit_lower_self n b).symm)).le_iff.mpr ?_
  have hlt := Nat.mod_lt x (Nat.two_pow_pos n)
  rw [lower_mod]
  omega

/-- An operand of the interval from `a` to `b` that is exchanged for `a` at a bit below `n`. -/
def Raised (n a b a' : Nat) : Prop :=
  a' = a ∨ ∃ i, i < n ∧ a.testBit i = false ∧ raise i a ≤ b ∧ a' = raise i a

/-- An operand that is exchanged for `b`. -/
def Lowered (n a b b' : Nat) : Prop :=
  b' = b ∨ ∃ i, i < n ∧ b.testBit i = true ∧ a ≤ lower i b ∧ b' = lower i b

theorem Raised.succ {a' : Nat} (h : Raised n a b a') : Raised (n + 1) a b a' :=
  h.imp_right fun ⟨i, hi, h⟩ => ⟨i, Nat.lt_succ_of_lt hi, h⟩

theorem Lowered.succ {b' : Nat} (h : Lowered n a b b') : Lowered (n + 1) a b b' :=
  h.imp_right fun ⟨i, hi, h⟩ => ⟨i, Nat.lt_succ_of_lt hi, h⟩

theorem Raised.mem {a' : Nat} (h : Raised n a b a') (hab : a ≤ b) : a' ∈ Set.Icc a b := by
  rcases h with rfl | ⟨i, -, hbit, hle, rfl⟩
  · exact ⟨Nat.le_refl _, hab⟩
  · exact ⟨le_raise hbit, hle⟩

theorem Lowered.mem {b' : Nat} (h : Lowered n a b b') (hab : a ≤ b) : b' ∈ Set.Icc a b := by
  rcases h with rfl | ⟨i, -, hbit, hle, rfl⟩
  · exact ⟨hab, Nat.le_refl _⟩
  · exact ⟨hle, lower_le hbit⟩

theorem Raised.above {a' : Nat} (h : Raised n a b a') : Above n a' a := by
  rcases h with rfl | ⟨i, hi, -, -, rfl⟩
  · exact .refl n _
  · exact (above_raise i a).mono hi

theorem Lowered.above {b' : Nat} (h : Lowered n a b b') : Above n b' b := by
  rcases h with rfl | ⟨i, hi, -, -, rfl⟩
  · exact .refl n _
  · exact (above_lower i b).mono hi

/-! ## The searches -/

/-- The operands of the least `x ||| y`, where the bits from `n` on are settled. -/
def minOr : Nat → Nat → Nat → Nat → Nat → Nat × Nat
  | 0, a, _, c, _ => (a, c)
  | n + 1, a, b, c, d =>
    if a.testBit n = false ∧ c.testBit n = true then
      if raise n a ≤ b then (raise n a, c) else minOr n a b c d
    else if a.testBit n = true ∧ c.testBit n = false then
      if raise n c ≤ d then (a, raise n c) else minOr n a b c d
    else minOr n a b c d

/-- The operands of the least `x &&& y`. -/
def minAnd : Nat → Nat → Nat → Nat → Nat → Nat × Nat
  | 0, a, _, c, _ => (a, c)
  | n + 1, a, b, c, d =>
    if a.testBit n = false ∧ c.testBit n = false then
      if raise n a ≤ b then (raise n a, c)
      else if raise n c ≤ d then (a, raise n c)
      else minAnd n a b c d
    else minAnd n a b c d

/-- The operands of the greatest `x ||| y`. -/
def maxOr : Nat → Nat → Nat → Nat → Nat → Nat × Nat
  | 0, _, b, _, d => (b, d)
  | n + 1, a, b, c, d =>
    if b.testBit n = true ∧ d.testBit n = true then
      if a ≤ lower n b then (lower n b, d)
      else if c ≤ lower n d then (b, lower n d)
      else maxOr n a b c d
    else maxOr n a b c d

theorem raised_minOr (n a b c d : Nat) :
    Raised n a b (minOr n a b c d).1 ∧ Raised n c d (minOr n a b c d).2 := by
  induction n with
  | zero => exact ⟨.inl rfl, .inl rfl⟩
  | succ n ih =>
    have hnext := And.intro ih.1.succ ih.2.succ
    rw [minOr]
    split
    next hbits =>
      split
      next hle => exact ⟨.inr ⟨n, Nat.lt_succ_self n, hbits.1, hle, rfl⟩, .inl rfl⟩
      next => exact hnext
    next =>
      split
      next hbits =>
        split
        next hle => exact ⟨.inl rfl, .inr ⟨n, Nat.lt_succ_self n, hbits.2, hle, rfl⟩⟩
        next => exact hnext
      next => exact hnext

theorem raised_minAnd (n a b c d : Nat) :
    Raised n a b (minAnd n a b c d).1 ∧ Raised n c d (minAnd n a b c d).2 := by
  induction n with
  | zero => exact ⟨.inl rfl, .inl rfl⟩
  | succ n ih =>
    have hnext := And.intro ih.1.succ ih.2.succ
    rw [minAnd]
    split
    next hbits =>
      split
      next hle => exact ⟨.inr ⟨n, Nat.lt_succ_self n, hbits.1, hle, rfl⟩, .inl rfl⟩
      next =>
        split
        next hle => exact ⟨.inl rfl, .inr ⟨n, Nat.lt_succ_self n, hbits.2, hle, rfl⟩⟩
        next => exact hnext
    next => exact hnext

theorem lowered_maxOr (n a b c d : Nat) :
    Lowered n a b (maxOr n a b c d).1 ∧ Lowered n c d (maxOr n a b c d).2 := by
  induction n with
  | zero => exact ⟨.inl rfl, .inl rfl⟩
  | succ n ih =>
    have hnext := And.intro ih.1.succ ih.2.succ
    rw [maxOr]
    split
    next hbits =>
      split
      next hle => exact ⟨.inr ⟨n, Nat.lt_succ_self n, hbits.1, hle, rfl⟩, .inl rfl⟩
      next =>
        split
        next hle => exact ⟨.inl rfl, .inr ⟨n, Nat.lt_succ_self n, hbits.2, hle, rfl⟩⟩
        next => exact hnext
    next => exact hnext

/-! ## What they find -/

theorem mod_or_le (n u v : Nat) : v % 2 ^ n ≤ (u ||| v) % 2 ^ n := by
  rw [Nat.or_mod_two_pow]
  exact Nat.right_le_or

theorem or_mod (h : u % 2 ^ n = 2 ^ n - 1) (v : Nat) : (u ||| v) % 2 ^ n = 2 ^ n - 1 := by
  have hlt := Nat.mod_lt (u ||| v) (Nat.two_pow_pos n)
  have hle := mod_or_le n v u
  rw [Nat.lor_comm, h] at hle
  omega

theorem raise_or_le (hx : Above (n + 1) x a) (hy : Above (n + 1) y c) (hcy : c ≤ y)
    (hc : c.testBit n = true) : raise n a ||| c ≤ x ||| y := by
  have hyn := hy.symm.testBit_of_le hcy hc
  have habove : Above (n + 1) (raise n a ||| c) (x ||| y) :=
    .or ((above_raise n a).trans hx.symm) hy.symm
  have hbit : (raise n a ||| c).testBit n = (x ||| y).testBit n := by
    rw [Nat.testBit_or, Nat.testBit_or, hc, hyn, Bool.or_true, Bool.or_true]
  rw [(habove.step hbit).le_iff, Nat.or_mod_two_pow, raise_mod, Nat.zero_or]
  calc c % 2 ^ n ≤ y % 2 ^ n := (hy.symm.step (hc.trans hyn.symm)).le_iff.mp hcy
    _ ≤ (x ||| y) % 2 ^ n := mod_or_le n x y

theorem or_le_add (x y : Nat) : x ||| y ≤ x + y := by
  induction x using Nat.strongRecOn generalizing y with
  | ind x ih =>
    by_cases hx : x = 0
    · rw [hx, Nat.zero_or, Nat.zero_add]
    · have hhigh := ih (x / 2) (by omega) (y / 2)
      have hdiv := Nat.or_div_two (a := x) (b := y)
      have hmod := Nat.or_mod_two_pow (a := x) (b := y) (n := 1)
      have hlow : x % 2 ||| y % 2 ≤ x % 2 + y % 2 := by
        rcases Nat.mod_two_eq_zero_or_one x with h | h <;>
          rcases Nat.mod_two_eq_zero_or_one y with h' | h' <;> rw [h, h'] <;> decide
      rw [Nat.pow_one] at hmod
      omega

theorem eq_of_above_zero (h : Above 0 u v) : u = v :=
  Nat.eq_of_testBit_eq fun i => h i (Nat.zero_le i)

theorem minOr_le (hx : Above n x a) (hy : Above n y c) (hax : a ≤ x) (hxb : x ≤ b) (hcy : c ≤ y)
    (hyd : y ≤ d) : (minOr n a b c d).1 ||| (minOr n a b c d).2 ≤ x ||| y := by
  induction n with
  | zero => exact Nat.le_of_eq (congrArg₂ _ (eq_of_above_zero hx.symm) (eq_of_above_zero hy.symm))
  | succ n ih =>
    have hraise : ¬raise n a ≤ b → x.testBit n = false := fun hgt =>
      Bool.eq_false_iff.mpr fun hbit => hgt (Nat.le_trans (raise_le hx hbit) hxb)
    have hraise' : ¬raise n c ≤ d → y.testBit n = false := fun hgt =>
      Bool.eq_false_iff.mpr fun hbit => hgt (Nat.le_trans (raise_le hy hbit) hyd)
    rw [minOr]
    cases ha : a.testBit n with
    | false =>
      cases hc : c.testBit n with
      | false =>
        rw [if_neg (by decide), if_neg (by decide)]
        cases hxy : (x ||| y).testBit n with
        | false =>
          obtain ⟨hxn, hyn⟩ := Bool.or_eq_false_iff.mp ((Nat.testBit_or x y n).symm.trans hxy)
          exact ih (hx.step (hxn.trans ha.symm)) (hy.step (hyn.trans hc.symm))
        | true =>
          -- neither of the two operands that are found has the bit
          obtain ⟨hr, hr'⟩ := raised_minOr n a b c d
          have hlow := Above.or hr.above hr'.above
          refine Nat.le_of_lt (((hlow.mono (Nat.le_succ n)).trans (.or hx.symm hy.symm)).lt ?_ hxy)
          rw [hlow n (Nat.le_refl n), Nat.testBit_or, ha, hc, Bool.or_false]
      | true =>
        rw [if_pos ⟨rfl, rfl⟩]
        split
        next => exact raise_or_le hx hy hcy hc
        next hgt =>
          exact ih (hx.step ((hraise hgt).trans ha.symm))
            (hy.step ((hy.symm.testBit_of_le hcy hc).trans hc.symm))
    | true =>
      have hxn := hx.step ((hx.symm.testBit_of_le hax ha).trans ha.symm)
      cases hc : c.testBit n with
      | false =>
        rw [if_neg (by decide), if_pos ⟨rfl, rfl⟩]
        split
        next =>
          rw [Nat.lor_comm a, Nat.lor_comm x]
          exact raise_or_le hy hx hax ha
        next hgt => exact ih hxn (hy.step ((hraise' hgt).trans hc.symm))
      | true =>
        rw [if_neg (by decide), if_neg (by decide)]
        exact ih hxn (hy.step ((hy.symm.testBit_of_le hcy hc).trans hc.symm))

theorem minAnd_le (hx : Above n x a) (hy : Above n y c) (hax : a ≤ x) (hxb : x ≤ b) (hcy : c ≤ y)
    (hyd : y ≤ d) : (minAnd n a b c d).1 &&& (minAnd n a b c d).2 ≤ x &&& y := by
  induction n with
  | zero => exact Nat.le_of_eq (congrArg₂ _ (eq_of_above_zero hx.symm) (eq_of_above_zero hy.symm))
  | succ n ih =>
    have hraise : ¬raise n a ≤ b → x.testBit n = false := fun hgt =>
      Bool.eq_false_iff.mpr fun hbit => hgt (Nat.le_trans (raise_le hx hbit) hxb)
    have hraise' : ¬raise n c ≤ d → y.testBit n = false := fun hgt =>
      Bool.eq_false_iff.mpr fun hbit => hgt (Nat.le_trans (raise_le hy hbit) hyd)
    -- the result where `x` or `y` has the bit and the operand that is found does not
    have hnext : (a &&& c).testBit n = false → (x &&& y).testBit n = true →
        (minAnd n a b c d).1 &&& (minAnd n a b c d).2 ≤ x &&& y := by
      intro hac hxy
      obtain ⟨hr, hr'⟩ := raised_minAnd n a b c d
      have hlow := Above.and hr.above hr'.above
      refine Nat.le_of_lt (((hlow.mono (Nat.le_succ n)).trans (.and hx.symm hy.symm)).lt ?_ hxy)
      exact (hlow n (Nat.le_refl n)).trans hac
    rw [minAnd]
    cases ha : a.testBit n with
    | false =>
      cases hc : c.testBit n with
      | false =>
        rw [if_pos ⟨rfl, rfl⟩]
        split
        next =>
          refine (Above.and ((above_raise n a).trans hx.symm) hy.symm).le_of_low ?_ ?_
          · rw [Nat.testBit_and, hc, Bool.and_false]
          · rw [Nat.and_mod_two_pow, raise_mod, Nat.zero_and]
        next hgt =>
          split
          next =>
            refine (Above.and hx.symm ((above_raise n c).trans hy.symm)).le_of_low ?_ ?_
            · rw [Nat.testBit_and, ha, Bool.false_and]
            · rw [Nat.and_mod_two_pow, raise_mod, Nat.and_zero]
          next hgt' =>
            exact ih (hx.step ((hraise hgt).trans ha.symm)) (hy.step ((hraise' hgt').trans hc.symm))
      | true =>
        rw [if_neg (by decide)]
        have hyn := hy.symm.testBit_of_le hcy hc
        cases hxn : x.testBit n with
        | false => exact ih (hx.step (hxn.trans ha.symm)) (hy.step (hyn.trans hc.symm))
        | true =>
          exact hnext (by rw [Nat.testBit_and, ha, Bool.false_and])
            (by rw [Nat.testBit_and, hxn, hyn, Bool.and_true])
    | true =>
      rw [if_neg (fun h => Bool.noConfusion h.1)]
      have hxn := hx.symm.testBit_of_le hax ha
      cases hc : c.testBit n with
      | false =>
        cases hyn : y.testBit n with
        | false => exact ih (hx.step (hxn.trans ha.symm)) (hy.step (hyn.trans hc.symm))
        | true =>
          exact hnext (by rw [Nat.testBit_and, hc, Bool.and_false])
            (by rw [Nat.testBit_and, hxn, hyn, Bool.and_true])
      | true =>
        exact ih (hx.step (hxn.trans ha.symm))
          (hy.step ((hy.symm.testBit_of_le hcy hc).trans hc.symm))

theorem le_maxOr (hx : Above n x b) (hy : Above n y d) (hax : a ≤ x) (hxb : x ≤ b) (hcy : c ≤ y)
    (hyd : y ≤ d) : x ||| y ≤ (maxOr n a b c d).1 ||| (maxOr n a b c d).2 := by
  induction n with
  | zero => exact Nat.le_of_eq (congrArg₂ _ (eq_of_above_zero hx) (eq_of_above_zero hy))
  | succ n ih =>
    have hlower : ¬a ≤ lower n b → x.testBit n = true := fun hgt =>
      (Bool.not_eq_false _).mp fun hbit => hgt (Nat.le_trans hax (le_lower hx hbit))
    have hlower' : ¬c ≤ lower n d → y.testBit n = true := fun hgt =>
      (Bool.not_eq_false _).mp fun hbit => hgt (Nat.le_trans hcy (le_lower hy hbit))
    have hnext : (b ||| d).testBit n = true → (x ||| y).testBit n = false →
        x ||| y ≤ (maxOr n a b c d).1 ||| (maxOr n a b c d).2 := by
      intro hbd hxy
      obtain ⟨hr, hr'⟩ := lowered_maxOr n a b c d
      have hhigh := Above.or hr.above hr'.above
      refine Nat.le_of_lt (Above.lt (.trans (.or hx hy) (hhigh.symm.mono (Nat.le_succ n))) hxy ?_)
      exact (hhigh n (Nat.le_refl n)).trans hbd
    have hfalse : ∀ {u v : Nat}, Above (n + 1) u v → u ≤ v → v.testBit n = false →
        u.testBit n = false := fun h hle hv =>
      Bool.eq_false_iff.mpr fun hu => Bool.eq_false_iff.mp hv (h.testBit_of_le hle hu)
    rw [maxOr]
    cases hb : b.testBit n with
    | false =>
      rw [if_neg fun h => Bool.noConfusion h.1]
      have hxn := hfalse hx hxb hb
      cases hd : d.testBit n with
      | false => exact ih (hx.step (hxn.trans hb.symm)) (hy.step ((hfalse hy hyd hd).trans hd.symm))
      | true =>
        cases hyn : y.testBit n with
        | false =>
          exact hnext (by rw [Nat.testBit_or, hd, Bool.or_true])
            (by rw [Nat.testBit_or, hxn, hyn, Bool.or_false])
        | true => exact ih (hx.step (hxn.trans hb.symm)) (hy.step (hyn.trans hd.symm))
    | true =>
      cases hd : d.testBit n with
      | false =>
        rw [if_neg fun h => Bool.noConfusion h.2]
        have hyn := hfalse hy hyd hd
        cases hxn : x.testBit n with
        | false =>
          exact hnext (by rw [Nat.testBit_or, hb, Bool.true_or])
            (by rw [Nat.testBit_or, hxn, hyn, Bool.or_false])
        | true => exact ih (hx.step (hxn.trans hb.symm)) (hy.step (hyn.trans hd.symm))
      | true =>
        rw [if_pos ⟨rfl, rfl⟩]
        split
        next =>
          refine Above.le_of_high (.or (hx.trans (above_lower n b).symm) hy) ?_ ?_
          · rw [Nat.testBit_or, hd, Bool.or_true]
          · rw [or_mod (lower_mod n b)]
        next hgt =>
          split
          next =>
            refine Above.le_of_high (.or hx (hy.trans (above_lower n d).symm)) ?_ ?_
            · rw [Nat.testBit_or, hb, Bool.true_or]
            · rw [Nat.lor_comm, or_mod (lower_mod n d)]
          next hgt' =>
            exact ih (hx.step ((hlower hgt).trans hb.symm)) (hy.step ((hlower' hgt').trans hd.symm))

theorem minOr_isLeast (hab : a ≤ b) (hcd : c ≤ d) (hb : b < 2 ^ n) (hd : d < 2 ^ n) :
    IsLeast (Set.image2 (· ||| ·) (Set.Icc a b) (Set.Icc c d))
      ((minOr n a b c d).1 ||| (minOr n a b c d).2) := by
  obtain ⟨hr, hr'⟩ := raised_minOr n a b c d
  refine ⟨Set.mem_image2_of_mem (hr.mem hab) (hr'.mem hcd), ?_⟩
  rintro _ ⟨x, hx, y, hy, rfl⟩
  exact minOr_le (above_of_lt (hx.2.trans_lt hb) (hab.trans_lt hb))
    (above_of_lt (hy.2.trans_lt hd) (hcd.trans_lt hd)) hx.1 hx.2 hy.1 hy.2

theorem minAnd_isLeast (hab : a ≤ b) (hcd : c ≤ d) (hb : b < 2 ^ n) (hd : d < 2 ^ n) :
    IsLeast (Set.image2 (· &&& ·) (Set.Icc a b) (Set.Icc c d))
      ((minAnd n a b c d).1 &&& (minAnd n a b c d).2) := by
  obtain ⟨hr, hr'⟩ := raised_minAnd n a b c d
  refine ⟨Set.mem_image2_of_mem (hr.mem hab) (hr'.mem hcd), ?_⟩
  rintro _ ⟨x, hx, y, hy, rfl⟩
  exact minAnd_le (above_of_lt (hx.2.trans_lt hb) (hab.trans_lt hb))
    (above_of_lt (hy.2.trans_lt hd) (hcd.trans_lt hd)) hx.1 hx.2 hy.1 hy.2

theorem maxOr_isGreatest (hab : a ≤ b) (hcd : c ≤ d) (hb : b < 2 ^ n) (hd : d < 2 ^ n) :
    IsGreatest (Set.image2 (· ||| ·) (Set.Icc a b) (Set.Icc c d))
      ((maxOr n a b c d).1 ||| (maxOr n a b c d).2) := by
  obtain ⟨hr, hr'⟩ := lowered_maxOr n a b c d
  refine ⟨Set.mem_image2_of_mem (hr.mem hab) (hr'.mem hcd), ?_⟩
  rintro _ ⟨x, hx, y, hy, rfl⟩
  exact le_maxOr (above_of_lt (hx.2.trans_lt hb) hb) (above_of_lt (hy.2.trans_lt hd) hd) hx.1 hx.2
    hy.1 hy.2

end

end BitBounds
