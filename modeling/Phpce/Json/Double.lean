import Phpce.Lib.JsonText

/-!
# The text of a double

`php_gcvt` with the digits of `zend_dtoa`, which are a parameter, and `php_json_encode_double`.

* `phpGcvt_parts`: of finite doubles that is a number of JSON, with an exponent only behind a
  fraction.
-/

namespace Phpce

namespace Json

open Bytes JsonText List

/-- The digits of a number, how many of them stand in front of the point, and the sign. -/
structure Dtoa where
  digits : Bytes
  decpt : Int
  sign : Bool

/-- What is called for doubles: `zend_dtoa` with its mode and number of digits,
`php_json_is_valid_double`, and `zend_strtod` with what it has read; `serialize_precision` is a
setting. -/
structure Doubles (δ : Type*) where
  dtoa : δ → Nat → Int → Dtoa
  isValidDouble : δ → Bool
  strtod : Bytes → δ × Nat
  serializePrecision : Int

/-- What `zend_dtoa` answers for a finite number: digits without zeros in front, and the one zero
with the point behind it. -/
structure Dtoa.Finite (r : Dtoa) : Prop where
  canonical : Canonical r.digits
  zero : r.digits.head? = some 48 → r.decpt = 1
  not_special : r.decpt ≠ 9999

def Doubles.Lawful {δ : Type*} (D : Doubles δ) : Prop :=
  ∀ d mode ndigit, D.isValidDouble d = true → (D.dtoa d mode ndigit).Finite

def exponentFraction (digits : Bytes) : Bytes := if digits.drop 1 = [] then [48] else digits.drop 1

/-- `php_gcvt` -/
def phpGcvt {δ : Type*} (dtoa : δ → Nat → Int → Dtoa) (value : δ) (ndigit : Int)
    (decPoint exponent : UInt8) : Bytes :=
  let mode := if ndigit ≥ 0 then 2 else 0
  let ndigit := if mode = 0 then 17 else ndigit
  let r := dtoa value mode ndigit
  let infinite := r.digits.head? = some 73
  if r.decpt = 9999 then
    -- `snprintf` cuts the text off
    ((if r.sign ∧ infinite then ascii "-" else []) ++
      (if infinite then ascii "INF" else ascii "NAN")).take ndigit.toNat
  else
    (if r.sign then [45] else []) ++
      if (r.decpt ≥ 0 ∧ r.decpt > ndigit) ∨ r.decpt < -3 then
        let decpt := r.decpt - 1
        r.digits.take 1 ++ [decPoint] ++ exponentFraction r.digits ++ [exponent] ++
          [if decpt < 0 then 45 else 43] ++ decimalNat decpt.natAbs
      else if r.decpt < 0 then
        [48, decPoint] ++ replicate r.decpt.natAbs 48 ++ r.digits
      else
        let decpt := r.decpt.toNat
        r.digits.take decpt ++ replicate (decpt - r.digits.length) 48 ++
          if r.digits.drop decpt = [] then []
          else (if decpt = 0 then [48] else []) ++ [decPoint] ++ r.digits.drop decpt

/-- `PHP_DOUBLE_MAX_LENGTH` -/
def doubleMaxLength : Nat := 1077

/-- The text that `php_json_encode_double` appends. -/
def encodeDouble {δ : Type*} (D : Doubles δ) (preserveZeroFraction : Bool) (d : δ) : Bytes :=
  let num := phpGcvt D.dtoa d D.serializePrecision 46 101
  if preserveZeroFraction ∧ 46 ∉ num ∧ num.length < doubleMaxLength - 2 then num ++ [46, 48]
  else num

/-! ## Numbers -/

section

variable {r : Dtoa}

theorem digits_append {s t : Bytes} (hs : ∀ c ∈ s, IsDigit c) (ht : ∀ c ∈ t, IsDigit c) :
    ∀ c ∈ s ++ t, IsDigit c := fun c hc => (mem_append.mp hc).elim (hs c) (ht c)

theorem digits_zeros (n : Nat) : ∀ c ∈ replicate n (48 : UInt8), IsDigit c := by
  intro c hc
  rw [eq_of_mem_replicate hc]
  decide

theorem canonical_zero : Canonical [48] :=
  ⟨cons_ne_nil _ _, forall_mem_singleton.mpr (by decide), fun _ => rfl⟩

theorem Dtoa.Finite.canonical_take_one (h : r.Finite) : Canonical (r.digits.take 1) := by
  have hdigits := h.canonical.digits
  obtain ⟨c, ds, hcons⟩ := exists_cons_of_ne_nil h.canonical.nonempty
  rw [hcons] at hdigits ⊢
  exact ⟨cons_ne_nil _ _, fun d hd => hdigits d (mem_of_mem_take hd), fun _ => rfl⟩

theorem Dtoa.Finite.digits_drop (h : r.Finite) (n : Nat) : ∀ c ∈ r.digits.drop n, IsDigit c :=
  fun c hc => h.canonical.digits c (mem_of_mem_drop hc)

theorem Dtoa.Finite.digits_exponentFraction (h : r.Finite) :
    Digits (exponentFraction r.digits) := by
  rw [exponentFraction]
  split
  next => exact ⟨cons_ne_nil _ _, forall_mem_singleton.mpr (by decide)⟩
  next hne => exact ⟨hne, h.digits_drop 1⟩

theorem Dtoa.Finite.canonical_integer (h : r.Finite) {decpt : Nat} (hdecpt : r.decpt = decpt)
    (hpos : decpt ≠ 0) :
    Canonical (r.digits.take decpt ++ replicate (decpt - r.digits.length) 48) := by
  obtain ⟨c, ds, hcons⟩ := exists_cons_of_ne_nil h.canonical.nonempty
  obtain ⟨n, rfl⟩ := Nat.exists_eq_succ_of_ne_zero hpos
  refine ⟨?_, digits_append (fun d hd => h.canonical.digits d (mem_of_mem_take hd))
    (digits_zeros _), ?_⟩
  · rw [hcons]
    exact cons_ne_nil _ _
  · intro hhead
    have hzero : r.digits.head? = some 48 := by
      rw [hcons] at hhead ⊢
      exact hhead
    -- zero has one digit, and the point behind it
    have hlen := h.canonical.noLeadingZero hzero
    have hone := h.zero hzero
    rw [length_append, length_take, length_replicate, hlen]
    omega

theorem integer_sign (sign : Bool) {ds : Bytes} (hds : Canonical ds) :
    Integer ((if sign then [45] else []) ++ ds) := by
  cases sign with
  | false => exact .nonneg hds
  | true => exact .neg hds

theorem phpGcvt_parts {δ : Type*} {dtoa : δ → Nat → Int → Dtoa} {d : δ}
    (h : ∀ mode ndigit, (dtoa d mode ndigit).Finite) (ndigit : Int) :
    ∃ i f e, phpGcvt dtoa d ndigit 46 101 = i ++ f ++ e ∧ Integer i ∧ Fraction f ∧ Exponent e ∧
      (f = [] → e = []) := by
  rw [phpGcvt]
  generalize (if ndigit ≥ 0 then 2 else 0) = mode
  generalize (if mode = 0 then 17 else ndigit) = n
  have hr := h mode n
  generalize dtoa d mode n = r at hr ⊢
  show ∃ i f e, (if r.decpt = 9999 then _ else _) = _ ∧ _
  rw [if_neg hr.not_special]
  by_cases hexponent : (r.decpt ≥ 0 ∧ r.decpt > n) ∨ r.decpt < -3
  · have hsign : ∀ p : Prop, [Decidable p] → ([if p then (45 : UInt8) else 43] = [] ∨
        [if p then (45 : UInt8) else 43] = [43] ∨ [if p then (45 : UInt8) else 43] = [45]) := by
      intro p _
      split
      · exact .inr (.inr rfl)
      · exact .inr (.inl rfl)
    refine ⟨_, _, _, ?_, integer_sign r.sign hr.canonical_take_one,
      .some hr.digits_exponentFraction, .some (.inl rfl) (hsign (r.decpt - 1 < 0))
        ⟨decimalNat_ne_nil (r.decpt - 1).natAbs, digits_decimalNat _⟩, fun hf => ?_⟩
    · rw [if_pos hexponent]
      simp only [append_assoc, cons_append, nil_append]
    · exact absurd hf (cons_ne_nil _ _)
  rw [if_neg hexponent]
  by_cases hneg : r.decpt < 0
  · have hdigits : Digits (replicate r.decpt.natAbs 48 ++ r.digits) :=
      ⟨append_ne_nil_of_right_ne_nil _ hr.canonical.nonempty,
        digits_append (digits_zeros _) hr.canonical.digits⟩
    refine ⟨_, _, [], ?_, integer_sign r.sign canonical_zero, .some hdigits, .none, fun _ => rfl⟩
    rw [if_pos hneg]
    simp only [append_assoc, cons_append, nil_append, append_nil]
  rw [if_neg hneg]
  obtain ⟨decpt, hdecpt⟩ := Int.eq_ofNat_of_zero_le (Int.not_lt.mp hneg)
  have htoNat : r.decpt.toNat = decpt := by rw [hdecpt, Int.toNat_natCast]
  rw [htoNat]
  show ∃ i f e, _ ++ (_ ++ if r.digits.drop decpt = [] then [] else _) = _ ∧ _
  by_cases hpos : decpt = 0
  · subst hpos
    have hdigits : Digits r.digits := ⟨hr.canonical.nonempty, hr.canonical.digits⟩
    refine ⟨_, _, [], ?_, integer_sign r.sign canonical_zero, .some hdigits, .none, fun _ => rfl⟩
    rw [drop_zero, if_neg hr.canonical.nonempty, if_pos rfl, Nat.zero_sub]
    simp only [take_zero, replicate_zero, append_assoc, cons_append,
      nil_append, append_nil]
  have hinteger := integer_sign r.sign (hr.canonical_integer hdecpt hpos)
  by_cases hdrop : r.digits.drop decpt = []
  · refine ⟨_, [], [], ?_, hinteger, .none, .none, fun _ => rfl⟩
    rw [if_pos hdrop]
    simp only [append_nil]
  · refine ⟨_, _, [], ?_, hinteger, .some ⟨hdrop, hr.digits_drop decpt⟩, .none, fun _ => rfl⟩
    rw [if_neg hdrop, if_neg hpos]
    simp only [append_assoc, cons_append, nil_append, append_nil]

theorem number_encodeDouble {δ : Type*} {D : Doubles δ} (hD : D.Lawful)
    (preserveZeroFraction : Bool) {d : δ} (hd : D.isValidDouble d = true) :
    Number (encodeDouble D preserveZeroFraction d) := by
  obtain ⟨i, f, e, heq, hi, hf, he, hpart⟩ :=
    phpGcvt_parts (fun mode ndigit => hD d mode ndigit hd) D.serializePrecision
  rw [encodeDouble, heq]
  show Number (if _ ∧ 46 ∉ i ++ f ++ e ∧ _ then i ++ f ++ e ++ [46, 48] else i ++ f ++ e)
  split
  next hpreserve =>
    cases hf with
    | none =>
      rw [hpart rfl, append_nil, append_nil]
      have hdigits : Digits [48] :=
        ⟨cons_ne_nil _ _, forall_mem_singleton.mpr (by decide)⟩
      have hnumber := Number.intro hi (.some hdigits) .none
      rwa [append_nil] at hnumber
    | some hds =>
      exact absurd (mem_append_left _ (mem_append_right _ mem_cons_self))
        hpreserve.2.1
  next => exact .intro hi hf he

end

end Json

end Phpce
