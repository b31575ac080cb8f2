import Phpce.Lib.Decimal

/-!
# Numeric string keys

`_zend_handle_numeric_str_ex`, which finds the integer that a string key is stored under, and the
test of its inline wrapper. A key is the bytes before the NUL that ends it; `SIZEOF_ZEND_LONG` is 8.

* **`zendHandleNumericStrEx_iff`** — a key is taken for an integer if and only if it is the numeral
  of that integer, the integer fits, and the accumulator does not wrap on the way.
-/

namespace Phpce

namespace NumericKey

open Bytes List Option

def maxLengthOfLong : Nat := 20

def zendLongMax : Int := 0x7FFFFFFFFFFFFFFF

def zendLongMin : Int := -0x8000000000000000

/-- `s[i]`, where `i` may be the place of the NUL. -/
def at' (s : Bytes) (i : Nat) : UInt8 := s.getD i 0

/-- `*tmp - '0'`, where `*tmp` is a `char`. -/
def digitOf (c : UInt8) : UInt64 := (c.toInt8.toInt64 - 48).toUInt64

/-- `*idx` and one more character. -/
def accumulate (idx : UInt64) (c : UInt8) : UInt64 := idx * 10 + digitOf c

/-- The tests of `*idx` at the end of the key. -/
def finish (negative : Bool) (idx : UInt64) : Option UInt64 :=
  if negative then
    if idx - 1 > 0x7FFFFFFFFFFFFFFF then none else some (0 - idx)
  else if idx > 0x7FFFFFFFFFFFFFFF then none
  else some idx

/-- The loop, where `tmp` has been moved already. -/
def numericLoop (negative : Bool) (idx : UInt64) : Bytes → Option UInt64
  | [] => finish negative idx
  | c :: tmp =>
    if c.toInt8 ≤ 57 ∧ c.toInt8 ≥ 48 then numericLoop negative (accumulate idx c) tmp
    else none

/-- What stands from `tmp` on, behind the sign. -/
def unsigned (key : Bytes) : Bytes := if at' key 0 = 45 then key.drop 1 else key

/-- `_zend_handle_numeric_str_ex`: `*idx`, where it returns 1. `tmp` is before the end of the key,
since the wrapper has seen a digit there. -/
def zendHandleNumericStrEx (key : Bytes) : Option UInt64 :=
  let tmp := unsigned key
  if at' tmp 0 = 48 ∧ key.length > 1 ∨ tmp.length > maxLengthOfLong - 1 then none
  else numericLoop (at' key 0 == 45) (digitOf (at' tmp 0)) (tmp.drop 1)

/-- The first-character test of `_zend_handle_numeric_str`. -/
def firstCharTest (key : Bytes) : Bool :=
  if (at' key 0).toInt8 > 57 then false
  else if (at' key 0).toInt8 < 48 then
    if at' key 0 ≠ 45 then false
    else if (at' key 1).toInt8 > 57 ∨ (at' key 1).toInt8 < 48 then false
    else true
  else true

def zendHandleNumericStr (key : Bytes) : Option UInt64 :=
  if firstCharTest key then zendHandleNumericStrEx key else none

def zendLong (idx : UInt64) : Int := idx.toInt64.toInt

/-- Each time the loop takes a character into `*idx`, the product and the sum fit in 64 bits. -/
def NeverWraps (key : Bytes) : Prop :=
  ∀ p c r, unsigned key = p ++ c :: r →
    (accumulate (p.foldl accumulate 0) c).toNat =
      (p.foldl accumulate 0).toNat * 10 + (c.toNat - 48)

/-! ## Digits -/

theorem isDigit_iff (c : UInt8) : c.toInt8 ≤ 57 ∧ c.toInt8 ≥ 48 ↔ IsDigit c :=
  forall_byte (by decide +kernel) c

theorem toNat_digitOf {c : UInt8} (h : IsDigit c) : (digitOf c).toNat = c.toNat - 48 := by
  revert h
  exact forall_byte (by decide +kernel) c

theorem char_cases (c : UInt8) :
    c.toInt8 > 57 ∧ c ≠ 45 ∧ ¬IsDigit c ∨
      ¬c.toInt8 > 57 ∧ c.toInt8 < 48 ∧ ¬IsDigit c ∨
      ¬c.toInt8 > 57 ∧ ¬c.toInt8 < 48 ∧ IsDigit c :=
  forall_byte (by decide +kernel) c

theorem firstCharTest_iff (key : Bytes) :
    firstCharTest key = true ↔
      IsDigit (at' key 0) ∨ at' key 0 = 45 ∧ IsDigit (at' key 1) := by
  rw [firstCharTest]
  rcases char_cases (at' key 0) with ⟨hhigh, hminus, hdigit⟩ | ⟨hhigh, hlow, hdigit⟩ |
    ⟨hhigh, hlow, hdigit⟩
  · simp [hhigh, hminus, hdigit]
  · rcases char_cases (at' key 1) with ⟨hhigh', -, hdigit'⟩ | ⟨hhigh', hlow', hdigit'⟩ |
      ⟨hhigh', hlow', hdigit'⟩
    · simp [hhigh, hlow, hdigit, hhigh', hdigit']
    · simp [hhigh, hlow, hdigit, hlow', hdigit']
    · simp [hhigh, hlow, hdigit, hhigh', hlow', hdigit']
  · simp [hhigh, hlow, hdigit]

/-! ## The accumulator -/

theorem toNat_accumulate {idx : UInt64} {c : UInt8} (hc : IsDigit c)
    (hfits : idx.toNat * 10 + (c.toNat - 48) < 0x10000000000000000) :
    (accumulate idx c).toNat = idx.toNat * 10 + (c.toNat - 48) := by
  rw [accumulate, UInt64.toNat_add, UInt64.toNat_mul, toNat_digitOf hc]
  show (idx.toNat * 10 % 0x10000000000000000 + (c.toNat - 48)) % 0x10000000000000000 = _
  rw [Nat.mod_eq_of_lt (by omega : idx.toNat * 10 < 0x10000000000000000), Nat.mod_eq_of_lt hfits]

theorem value_lt_of_length {s : Bytes} (hdigits : ∀ c ∈ s, IsDigit c) (hlen : s.length ≤ 19) :
    value s < 0x8AC7230489E80000 :=
  Nat.lt_of_lt_of_le (value_lt hdigits) (Nat.pow_le_pow_right (by decide) hlen)

theorem toNat_foldl_accumulate {s : Bytes} (hdigits : ∀ c ∈ s, IsDigit c) (hlen : s.length ≤ 19) :
    (s.foldl accumulate 0).toNat = value s := by
  -- induction on the digits, the last one first
  induction s using List.reverseRecOn with
  | nil => rfl
  | append_singleton s c ih =>
    have hvalue := value_lt_of_length hdigits hlen
    rw [length_append, length_singleton] at hlen
    have hs := ih (fun d hd => hdigits d (mem_append_left _ hd)) (by omega)
    rw [value_append_singleton, ← hs] at hvalue
    rw [foldl_append, foldl_cons, foldl_nil, value_append_singleton, ← hs]
    exact toNat_accumulate (hdigits c (mem_append_right _ mem_cons_self)) (by omega)

theorem numericLoop_eq_some {negative : Bool} {idx out : UInt64} {s : Bytes} :
    numericLoop negative idx s = some out ↔
      (∀ c ∈ s, IsDigit c) ∧ finish negative (s.foldl accumulate idx) = some out := by
  -- induction on what stands behind `tmp`
  induction s generalizing idx with
  | nil => simp [numericLoop]
  | cons c s ih =>
    rw [numericLoop]
    by_cases hc : c.toInt8 ≤ 57 ∧ c.toInt8 ≥ 48
    · rw [if_pos hc, ih, foldl_cons, forall_mem_cons]
      simp only [(isDigit_iff c).mp hc, true_and]
    · rw [if_neg hc, forall_mem_cons]
      simp only [mt (isDigit_iff c).mpr hc, false_and, reduceCtorEq]

/-! ## The tests at the end -/

theorem zendLong_eq (idx : UInt64) :
    zendLong idx =
      if idx.toNat < 0x8000000000000000 then (idx.toNat : Int)
      else idx.toNat - 0x10000000000000000 := by
  show idx.toBitVec.toInt = _
  rw [BitVec.toInt_eq_toNat_cond]
  show (if 2 * idx.toNat < 0x10000000000000000 then (idx.toNat : Int)
    else idx.toNat - 0x10000000000000000) = _
  split <;> split <;> omega

theorem zendLong_inj {idx idx' : UInt64} (h : zendLong idx = zendLong idx') : idx = idx' := by
  have hlt := idx.toNat_lt
  have hlt' := idx'.toNat_lt
  rw [zendLong_eq, zendLong_eq] at h
  refine UInt64.toNat_inj.mp ?_
  split at h <;> split at h <;> omega

theorem finish_pos {idx out : UInt64} :
    finish false idx = some out ↔
      (idx.toNat : Int) ≤ zendLongMax ∧ zendLong out = idx.toNat := by
  have hmax : idx > 0x7FFFFFFFFFFFFFFF ↔ 0x7FFFFFFFFFFFFFFF < idx.toNat := UInt64.lt_iff_toNat_lt
  rw [finish, if_neg Bool.false_ne_true, zendLongMax]
  split
  next hover =>
    rw [hmax] at hover
    refine ⟨fun h => absurd h (by simp), fun h => ?_⟩
    omega
  next hfits =>
    rw [hmax] at hfits
    have hself : zendLong idx = idx.toNat := by rw [zendLong_eq, if_pos (by omega)]
    rw [some.injEq, ← hself]
    refine ⟨fun h => ⟨by omega, congrArg zendLong h.symm⟩, fun h => (zendLong_inj h.2).symm⟩

theorem finish_neg {idx out : UInt64} (hpos : 0 < idx.toNat) :
    finish true idx = some out ↔
      zendLongMin ≤ -(idx.toNat : Int) ∧ zendLong out = -(idx.toNat : Int) := by
  have hlt : idx.toNat < 0x10000000000000000 := idx.toNat_lt
  have hpred : (idx - 1).toNat = idx.toNat - 1 :=
    UInt64.toNat_sub_of_le _ _ (UInt64.le_iff_toNat_le.mpr hpos)
  have hmax : idx - 1 > 0x7FFFFFFFFFFFFFFF ↔ 0x7FFFFFFFFFFFFFFF < (idx - 1).toNat :=
    UInt64.lt_iff_toNat_lt
  rw [hpred] at hmax
  rw [finish, if_pos rfl, zendLongMin]
  split
  next hover =>
    rw [hmax] at hover
    refine ⟨fun h => absurd h (by simp), fun h => ?_⟩
    omega
  next hfits =>
    rw [hmax] at hfits
    have hneg : (0 - idx).toNat = 0x10000000000000000 - idx.toNat := by
      rw [UInt64.toNat_sub]
      show (0x10000000000000000 - idx.toNat + 0) % 0x10000000000000000 = _
      omega
    have hself : zendLong (0 - idx) = -(idx.toNat : Int) := by
      rw [zendLong_eq, hneg]
      split <;> omega
    rw [some.injEq, ← hself]
    refine ⟨fun h => ⟨by omega, congrArg zendLong h.symm⟩, fun h => (zendLong_inj h.2).symm⟩

/-! ## Keys -/

theorem zendHandleNumericStrEx_eq_some {key s : Bytes} {c : UInt8} {idx : UInt64}
    (hkey : unsigned key = c :: s) (hc : IsDigit c) :
    zendHandleNumericStrEx key = some idx ↔
      ¬(c = 48 ∧ key.length > 1) ∧ (c :: s).length ≤ 19 ∧ (∀ d ∈ c :: s, IsDigit d) ∧
        finish (at' key 0 == 45) ((c :: s).foldl accumulate 0) = some idx := by
  have hfirst : digitOf c = accumulate 0 c := by
    rw [accumulate, UInt64.zero_mul, UInt64.zero_add]
  rw [zendHandleNumericStrEx, hkey]
  show (if c = 48 ∧ key.length > 1 ∨ (c :: s).length > maxLengthOfLong - 1 then none
    else numericLoop (at' key 0 == 45) (digitOf c) s) = some idx ↔ _
  split
  next hreject =>
    refine ⟨fun h => absurd h (by simp), fun ⟨hzero, hlen, _⟩ => ?_⟩
    rcases hreject with h | h
    · exact absurd h hzero
    · exact absurd h (Nat.not_lt.mpr hlen)
  next haccept =>
    rw [not_or] at haccept
    rw [numericLoop_eq_some, hfirst, forall_mem_cons, foldl_cons]
    have hlen : (c :: s).length ≤ 19 := Nat.not_lt.mp haccept.2
    simp only [haccept.1, hlen, hc, not_false_eq_true, true_and]

theorem zendHandleNumericStrEx_pos {key : Bytes} {idx : UInt64} (hdigit : IsDigit (at' key 0)) :
    zendHandleNumericStrEx key = some idx ↔
      key.length ≤ 19 ∧ Canonical key ∧ (value key : Int) ≤ zendLongMax ∧
        zendLong idx = value key := by
  have hminus : at' key 0 ≠ 45 := fun h => by
    rw [h] at hdigit
    exact absurd hdigit (by decide)
  have hkey : unsigned key = key := if_neg hminus
  cases key with
  | nil => exact absurd hdigit (by decide)
  | cons c s =>
    have hc : IsDigit c := hdigit
    rw [zendHandleNumericStrEx_eq_some hkey hc, beq_false_of_ne hminus, finish_pos]
    constructor
    · rintro ⟨hzero, hlen, hdigits, hmax, hidx⟩
      rw [toNat_foldl_accumulate hdigits hlen] at hmax hidx
      refine ⟨hlen, ⟨cons_ne_nil c s, hdigits, fun hhead => ?_⟩, hmax, hidx⟩
      have hlength := not_and.mp hzero (some.inj hhead)
      rw [length_cons] at hlength ⊢
      omega
    · rintro ⟨hlen, hcanonical, hmax, hidx⟩
      rw [toNat_foldl_accumulate hcanonical.digits hlen]
      refine ⟨fun ⟨hzero, hlength⟩ => ?_, hlen, hcanonical.digits, hmax, hidx⟩
      have hone := hcanonical.noLeadingZero (congrArg some hzero)
      omega

theorem zendHandleNumericStrEx_neg {s : Bytes} {idx : UInt64} (hdigit : IsDigit (at' s 0)) :
    zendHandleNumericStrEx (45 :: s) = some idx ↔
      s.length ≤ 19 ∧ (Canonical s ∧ s.head? ≠ some 48) ∧ zendLongMin ≤ -(value s : Int) ∧
        zendLong idx = -(value s : Int) := by
  have hkey : unsigned (45 :: s) = s := if_pos rfl
  cases s with
  | nil => exact absurd hdigit (by decide)
  | cons c s =>
    have hc : IsDigit c := hdigit
    have hsign : (at' (45 :: c :: s) 0 == 45) = true := rfl
    have hlong : (45 :: c :: s).length > 1 := Nat.succ_lt_succ (Nat.succ_pos _)
    rw [zendHandleNumericStrEx_eq_some hkey hc, hsign]
    constructor
    · rintro ⟨hzero, hlen, hdigits, hfinish⟩
      have hhead : (c :: s).head? ≠ some 48 := fun h => hzero ⟨some.inj h, hlong⟩
      have hcanonical : Canonical (c :: s) :=
        ⟨cons_ne_nil c s, hdigits, fun h => absurd h hhead⟩
      rw [finish_neg (by
        rw [toNat_foldl_accumulate hdigits hlen]
        exact value_pos hcanonical hhead), toNat_foldl_accumulate hdigits hlen] at hfinish
      exact ⟨hlen, ⟨hcanonical, hhead⟩, hfinish⟩
    · rintro ⟨hlen, ⟨hcanonical, hhead⟩, hfinish⟩
      refine ⟨fun ⟨hzero, _⟩ => hhead (congrArg some hzero), hlen, hcanonical.digits, ?_⟩
      rw [finish_neg (by
        rw [toNat_foldl_accumulate hcanonical.digits hlen]
        exact value_pos hcanonical hhead), toNat_foldl_accumulate hcanonical.digits hlen]
      exact hfinish

theorem length_decimalNat_le_of_le {n : Nat} (h : (n : Int) ≤ -zendLongMin) :
    (decimalNat n).length ≤ 19 := by
  rw [zendLongMin] at h
  exact length_decimalNat_le (by decide) (show n < 0x8AC7230489E80000 from by omega)

theorem zendHandleNumericStrEx_eq_some_iff {key : Bytes} {idx : UInt64}
    (hfirst : firstCharTest key = true) :
    zendHandleNumericStrEx key = some idx ↔
      ∃ z : Int, zendLongMin ≤ z ∧ z ≤ zendLongMax ∧ key = decimal z ∧ zendLong idx = z := by
  have hmin : zendLongMin = -0x8000000000000000 := rfl
  have hmax : zendLongMax = 0x7FFFFFFFFFFFFFFF := rfl
  rcases (firstCharTest_iff key).mp hfirst with hdigit | ⟨hminus, hdigit⟩
  · rw [zendHandleNumericStrEx_pos hdigit]
    constructor
    · rintro ⟨-, hcanonical, hle, hidx⟩
      refine ⟨value key, by omega, hle, ?_, hidx⟩
      rw [decimal_ofNat, decimalNat_value hcanonical]
    · rintro ⟨z, hlow, hhigh, hkey, hidx⟩
      obtain ⟨n, rfl⟩ : ∃ n : Nat, z = n := by
        refine Int.eq_ofNat_of_zero_le (Int.not_lt.mp fun hneg => ?_)
        -- the numeral of a negative number begins with its sign
        have hsign : key = 45 :: decimalNat z.natAbs := by
          have hneg' : z = -(z.natAbs : Int) := by omega
          rw [hkey, congrArg decimal hneg', decimal_neg (by omega)]
        rw [hsign] at hdigit
        exact absurd (show IsDigit 45 from hdigit) (by decide)
      rw [decimal_ofNat] at hkey
      rw [hkey, value_decimalNat]
      exact ⟨length_decimalNat_le_of_le (by omega), canonical_decimalNat n, hhigh, hidx⟩
  · obtain ⟨s, rfl⟩ : ∃ s, key = 45 :: s := by
      cases key with
      | nil => exact absurd hminus (by decide)
      | cons c s => exact ⟨s, congrArg (· :: s) hminus⟩
    have hs : IsDigit (at' s 0) := hdigit
    rw [zendHandleNumericStrEx_neg hs]
    constructor
    · rintro ⟨-, ⟨hcanonical, hhead⟩, hle, hidx⟩
      refine ⟨-(value s : Int), hle, by omega, ?_, hidx⟩
      rw [decimal_neg (value_pos hcanonical hhead), decimalNat_value hcanonical]
    · rintro ⟨z, hlow, hhigh, hkey, hidx⟩
      have hneg : z < 0 := by
        by_contra hpos
        -- the numeral of a natural number begins with a digit
        rw [show z = (z.natAbs : Int) from by omega, decimal_ofNat] at hkey
        have hsign : IsDigit 45 := digits_decimalNat z.natAbs 45 (hkey ▸ mem_cons_self)
        exact absurd hsign (by decide)
      have habs : z = -(z.natAbs : Int) := by omega
      rw [habs, decimal_neg (by omega)] at hkey
      have hdigits := (List.cons.inj hkey).2
      rw [hdigits, value_decimalNat]
      exact ⟨length_decimalNat_le_of_le (by omega),
        ⟨canonical_decimalNat _, head?_decimalNat (by omega)⟩, by omega, by omega⟩

theorem neverWraps_of_digits {key : Bytes} (hdigits : ∀ c ∈ unsigned key, IsDigit c)
    (hlen : (unsigned key).length ≤ 19) : NeverWraps key := by
  intro p c r hsplit
  rw [hsplit] at hdigits hlen
  rw [length_append, length_cons] at hlen
  have hp : ∀ d ∈ p, IsDigit d := fun d hd => hdigits d (mem_append_left _ hd)
  have hc : IsDigit c := hdigits c (mem_append_right _ mem_cons_self)
  have hpc : ∀ d ∈ p ++ [c], IsDigit d := by
    intro d hd
    rcases mem_append.mp hd with hd | hd
    · exact hp d hd
    · rwa [mem_singleton.mp hd]
  have hvalue := value_lt_of_length hpc (by rw [length_append, length_singleton]; omega)
  rw [value_append_singleton] at hvalue
  rw [← toNat_foldl_accumulate hp (by omega)] at hvalue
  exact toNat_accumulate hc (by omega)

theorem neverWraps_of_eq_some {key : Bytes} {idx : UInt64} (hfirst : firstCharTest key = true)
    (h : zendHandleNumericStrEx key = some idx) : NeverWraps key := by
  rcases (firstCharTest_iff key).mp hfirst with hdigit | ⟨hminus, hdigit⟩
  · obtain ⟨hlen, hcanonical, -⟩ := (zendHandleNumericStrEx_pos hdigit).mp h
    have hkey : unsigned key = key := if_neg fun hm => by
      rw [hm] at hdigit
      exact absurd hdigit (by decide)
    exact neverWraps_of_digits (by rw [hkey]; exact hcanonical.digits) (by rw [hkey]; exact hlen)
  · obtain ⟨s, rfl⟩ : ∃ s, key = 45 :: s := by
      cases key with
      | nil => exact absurd hminus (by decide)
      | cons c s => exact ⟨s, congrArg (· :: s) hminus⟩
    have hs : IsDigit (at' s 0) := hdigit
    obtain ⟨hlen, ⟨hcanonical, -⟩, -⟩ := (zendHandleNumericStrEx_neg hs).mp h
    exact neverWraps_of_digits hcanonical.digits hlen

/-- **Numeric keys.** A key that passes the wrapper's test is accepted if and only if it is the
numeral of an integer that fits, which is then the index; the accumulator does not wrap on an
accepted key; and no two keys have one index. -/
theorem zendHandleNumericStrEx_iff (key : Bytes) (hfirst : firstCharTest key = true) :
    (∀ idx, zendHandleNumericStrEx key = some idx ↔
      ∃ z : Int, zendLongMin ≤ z ∧ z ≤ zendLongMax ∧ key = decimal z ∧ zendLong idx = z) ∧
    ((zendHandleNumericStrEx key).isSome ↔
      ∃ z : Int, zendLongMin ≤ z ∧ z ≤ zendLongMax ∧ key = decimal z) ∧
    ((zendHandleNumericStrEx key).isSome → NeverWraps key) ∧
    ∀ key' idx, firstCharTest key' = true → zendHandleNumericStrEx key = some idx →
      zendHandleNumericStrEx key' = some idx → key' = key := by
  have haccept := fun idx => @zendHandleNumericStrEx_eq_some_iff key idx hfirst
  refine ⟨haccept, ⟨fun h => ?_, ?_⟩, fun h => ?_, fun key' idx hfirst' h h' => ?_⟩
  · obtain ⟨idx, hidx⟩ := isSome_iff_exists.mp h
    obtain ⟨z, hlow, hhigh, hkey, -⟩ := (haccept idx).mp hidx
    exact ⟨z, hlow, hhigh, hkey⟩
  · rintro ⟨z, hlow, hhigh, hkey⟩
    have hindex : zendLong (Int64.ofInt z).toUInt64 = z :=
      Int64.toInt_ofInt_of_le hlow (Int.lt_add_one_of_le hhigh)
    exact isSome_iff_exists.mpr ⟨_, (haccept _).mpr ⟨z, hlow, hhigh, hkey, hindex⟩⟩
  · obtain ⟨idx, hidx⟩ := isSome_iff_exists.mp h
    exact neverWraps_of_eq_some hfirst hidx
  · obtain ⟨z, -, -, hkey, hz⟩ := (haccept idx).mp h
    obtain ⟨z', -, -, hkey', hz'⟩ := (zendHandleNumericStrEx_eq_some_iff hfirst').mp h'
    rw [hkey, hkey', ← hz, ← hz']

theorem zendHandleNumericStrEx_iff_min :
    firstCharTest (ascii "-9223372036854775808") = true ∧
      (zendHandleNumericStrEx (ascii "-9223372036854775808")).isSome ∧
      ∃ z : Int, zendLongMin ≤ z ∧ z ≤ zendLongMax ∧ ascii "-9223372036854775808" = decimal z :=
  have hfirst : firstCharTest (ascii "-9223372036854775808") = true := by decide
  have haccepted : (zendHandleNumericStrEx (ascii "-9223372036854775808")).isSome := by decide
  ⟨hfirst, haccepted, (zendHandleNumericStrEx_iff _ hfirst).2.1.mp haccepted⟩

end NumericKey

end Phpce
