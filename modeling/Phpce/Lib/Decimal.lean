import Mathlib.Algebra.Group.Nat.Defs
import Mathlib.Data.List.Induction
import Phpce.Lib.Bytes

/-!
# Decimal numerals as bytes

* `decimal z` is the numeral of an integer, `decimalNat n` of a natural number, and `value s` the
  number that a text of digits stands for.
* `canonical_decimalNat` and `decimalNat_value`: the numerals are the digits without leading
  zeros, and `value` reads them back.
* `strcmp_digits`: `strcmp` of numerals of one length.
-/

namespace Bytes

open List

def decimal (z : Int) : Bytes := ascii (toString z)

def decimalNat (n : Nat) : Bytes := ascii (toString n)

def IsDigit (c : UInt8) : Prop := 48 ≤ c ∧ c ≤ 57

instance (c : UInt8) : Decidable (IsDigit c) := inferInstanceAs (Decidable (_ ∧ _))

def value (s : Bytes) : Nat := s.foldl (fun n c => n * 10 + (c.toNat - 48)) 0

structure Canonical (s : Bytes) : Prop where
  nonempty : s ≠ []
  digits : ∀ c ∈ s, IsDigit c
  noLeadingZero : s.head? = some 48 → s.length = 1

variable {s : Bytes} {c : UInt8} {n d : Nat}

theorem toNat_digit (hd : d < 10) : (UInt8.ofNat (48 + d)).toNat = 48 + d :=
  UInt8.toNat_ofNat_of_lt' (show 48 + d < 256 from by omega)

theorem isDigit_ofNat (hd : d < 10) : IsDigit (UInt8.ofNat (48 + d)) := by
  rw [IsDigit, UInt8.le_iff_toNat_le, UInt8.le_iff_toNat_le, toNat_digit hd]
  exact ⟨Nat.le_add_right 48 d, (by omega : 48 + d ≤ 57)⟩

theorem IsDigit.bounds (h : IsDigit c) : 48 ≤ c.toNat ∧ c.toNat ≤ 57 :=
  ⟨UInt8.le_iff_toNat_le.mp h.1, UInt8.le_iff_toNat_le.mp h.2⟩

/-! ## The last digit -/

theorem decimalNat_eq (n : Nat) :
    decimalNat n = (Nat.toDigits 10 n).map fun c => UInt8.ofNat c.toNat := by
  rw [decimalNat, ascii, Nat.toString_eq_repr, Nat.toList_repr]

theorem decimalNat_of_lt (hd : d < 10) : decimalNat d = [UInt8.ofNat (48 + d)] := by
  rw [decimalNat_eq, Nat.toDigits_of_lt_base hd, map_singleton,
    Nat.toNat_digitChar_of_lt_ten hd]

theorem decimalNat_append (hn : 0 < n) (hd : d < 10) :
    decimalNat (10 * n + d) = decimalNat n ++ [UInt8.ofNat (48 + d)] := by
  rw [← decimalNat_of_lt hd, decimalNat_eq, decimalNat_eq, decimalNat_eq, ← map_append,
    Nat.toDigits_append_toDigits (by decide) hn hd]

theorem value_append_singleton (s : Bytes) (c : UInt8) :
    value (s ++ [c]) = value s * 10 + (c.toNat - 48) := by
  rw [value, foldl_append]
  rfl

theorem digits_induction {p : Nat → Prop} (digit : ∀ d < 10, p d)
    (append : ∀ n d, 0 < n → d < 10 → p n → p (10 * n + d)) (n : Nat) : p n := by
  induction n using Nat.strongRecOn with
  | ind n ih =>
    by_cases hlt : n < 10
    · exact digit n hlt
    · rw [show n = 10 * (n / 10) + n % 10 from by omega]
      exact append (n / 10) (n % 10) (by omega) (by omega) (ih (n / 10) (by omega))

theorem value_decimalNat (n : Nat) : value (decimalNat n) = n := by
  induction n using digits_induction with
  | digit d hd =>
    rw [decimalNat_of_lt hd]
    show 0 * 10 + ((UInt8.ofNat (48 + d)).toNat - 48) = d
    rw [toNat_digit hd]
    omega
  | append n d hn hd ih =>
    rw [decimalNat_append hn hd, value_append_singleton, ih, toNat_digit hd]
    omega

theorem digits_decimalNat (n : Nat) : ∀ c ∈ decimalNat n, IsDigit c := by
  induction n using digits_induction with
  | digit d hd =>
    rw [decimalNat_of_lt hd]
    exact forall_mem_singleton.mpr (isDigit_ofNat hd)
  | append n d hn hd ih =>
    rw [decimalNat_append hn hd]
    intro c hc
    rcases mem_append.mp hc with hc | hc
    · exact ih c hc
    · rw [mem_singleton.mp hc]
      exact isDigit_ofNat hd

theorem decimalNat_ne_nil (n : Nat) : decimalNat n ≠ [] := by
  rw [decimalNat_eq]
  exact fun h => Nat.toDigits_ne_nil (map_eq_nil_iff.mp h)

theorem head?_append_of_ne_nil {t : Bytes} (hs : s ≠ []) : (s ++ t).head? = s.head? := by
  obtain ⟨c, s, rfl⟩ := exists_cons_of_ne_nil hs
  rfl

theorem head?_decimalNat (hn : 0 < n) : (decimalNat n).head? ≠ some 48 := by
  induction n using digits_induction with
  | digit d hd =>
    rw [decimalNat_of_lt hd]
    intro h
    have hzero := congrArg UInt8.toNat (Option.some.inj h)
    rw [toNat_digit hd] at hzero
    have : 48 + d = 48 := hzero
    omega
  | append n d hpos hd ih =>
    rw [decimalNat_append hpos hd, head?_append_of_ne_nil (decimalNat_ne_nil n)]
    exact ih hpos

theorem canonical_decimalNat (n : Nat) : Canonical (decimalNat n) where
  nonempty := decimalNat_ne_nil n
  digits := digits_decimalNat n
  noLeadingZero h := by
    have hzero : n = 0 := by
      by_contra hne
      exact head?_decimalNat (Nat.pos_of_ne_zero hne) h
    rw [hzero]
    rfl

theorem length_decimalNat_le {k : Nat} (hk : 0 < k) (hn : n < 10 ^ k) :
    (decimalNat n).length ≤ k := by
  rw [decimalNat_eq, length_map]
  exact (Nat.length_toDigits_le_iff (by decide) hk).mpr hn

/-! ## Reading numerals back -/

theorem value_lt (hdigits : ∀ c ∈ s, IsDigit c) : value s < 10 ^ s.length := by
  -- induction on the digits, the last one first
  induction s using List.reverseRecOn with
  | nil => exact Nat.one_pos
  | append_singleton s c ih =>
    have hlt := ih fun d hd => hdigits d (mem_append_left _ hd)
    have hc := (hdigits c (mem_append_right _ mem_cons_self)).bounds
    rw [value_append_singleton, length_append, length_singleton, Nat.pow_succ]
    omega

theorem decimalNat_value_append (hvalue : 0 < value s ∧ decimalNat (value s) = s)
    (hc : IsDigit c) : 0 < value (s ++ [c]) ∧ decimalNat (value (s ++ [c])) = s ++ [c] := by
  obtain ⟨hpos, heq⟩ := hvalue
  have hbounds := hc.bounds
  rw [value_append_singleton]
  refine ⟨by omega, ?_⟩
  rw [show value s * 10 + (c.toNat - 48) = 10 * value s + (c.toNat - 48) from by omega,
    decimalNat_append hpos (by omega), heq, show 48 + (c.toNat - 48) = c.toNat from by omega,
    UInt8.ofNat_toNat]

/-- **The numerals.** A text of digits without leading zeros is the numeral of its value. -/
theorem decimalNat_value (h : Canonical s) : decimalNat (value s) = s := by
  have hsingle : ∀ c, IsDigit c → decimalNat (value [c]) = [c] := by
    intro c hc
    have hbounds := hc.bounds
    show decimalNat (0 * 10 + (c.toNat - 48)) = [c]
    rw [decimalNat_of_lt (by omega),
      show 48 + (0 * 10 + (c.toNat - 48)) = c.toNat from by omega, UInt8.ofNat_toNat]
  -- a text that does not begin with a zero, the last digit first
  have hpos : ∀ s : Bytes, s ≠ [] → (∀ c ∈ s, IsDigit c) → s.head? ≠ some 48 →
      0 < value s ∧ decimalNat (value s) = s := by
    intro s
    induction s using List.reverseRecOn with
    | nil => exact fun hne => absurd rfl hne
    | append_singleton s c ih =>
      intro _ hdigits hhead
      have hc := hdigits c (mem_append_right _ mem_cons_self)
      by_cases hs : s = []
      · subst hs
        have hbounds := hc.bounds
        have hne : c.toNat ≠ 48 := fun h48 => hhead (congrArg some (UInt8.toNat_inj.mp h48))
        refine ⟨?_, hsingle c hc⟩
        show 0 < 0 * 10 + (c.toNat - 48)
        omega
      · rw [head?_append_of_ne_nil hs] at hhead
        have hprefix := ih hs (fun d hd => hdigits d (mem_append_left _ hd)) hhead
        exact decimalNat_value_append hprefix hc
  by_cases hhead : s.head? = some 48
  · obtain ⟨c, rfl⟩ := length_eq_one_iff.mp (h.noLeadingZero hhead)
    exact hsingle c (h.digits c mem_cons_self)
  · exact (hpos s h.nonempty h.digits hhead).2

theorem value_pos (h : Canonical s) (hhead : s.head? ≠ some 48) : 0 < value s := by
  rw [Nat.pos_iff_ne_zero]
  intro hzero
  have hs := decimalNat_value h
  rw [hzero] at hs
  exact hhead (hs ▸ rfl)

theorem digits_eq_zeros_append (hdigits : ∀ c ∈ s, IsDigit c) (hpos : 0 < value s) :
    ∃ zeros, s = List.replicate zeros 48 ++ decimalNat (value s) := by
  induction s with
  | nil => exact absurd hpos (Nat.lt_irrefl 0)
  | cons c s ih =>
    by_cases hc : c = 48
    · subst hc
      have hvalue : value (48 :: s) = value s := rfl
      obtain ⟨zeros, hs⟩ := ih (fun d hd => hdigits d (mem_cons_of_mem 48 hd)) hpos
      refine ⟨zeros + 1, ?_⟩
      rw [hvalue, replicate_succ, cons_append, ← hs]
    · have hcanonical : Canonical (c :: s) :=
        ⟨cons_ne_nil c s, hdigits, fun h => absurd (Option.some.inj h) hc⟩
      exact ⟨0, (decimalNat_value hcanonical).symm⟩

theorem value_cons (c : UInt8) (s : Bytes) :
    value (c :: s) = (c.toNat - 48) * 10 ^ s.length + value s := by
  -- induction on the digits, the last one first
  induction s using List.reverseRecOn with
  | nil =>
    show 0 * 10 + (c.toNat - 48) = (c.toNat - 48) * 10 ^ 0 + 0
    omega
  | append_singleton s d ih =>
    rw [← cons_append, value_append_singleton, value_append_singleton, ih, length_append,
      length_singleton, Nat.pow_succ, Nat.add_mul, Nat.mul_assoc, Nat.add_assoc]

/-! ## Comparing numerals -/

/-- `strcmp`; a string ends at its first NUL. -/
def strcmp : Bytes → Bytes → Ordering
  | [], [] => .eq
  | [], d :: _ => if d = 0 then .eq else .lt
  | c :: _, [] => if c = 0 then .eq else .gt
  | c :: s, d :: t =>
      if c < d then .lt else if d < c then .gt else if c = 0 then .eq else strcmp s t

theorem strcmp_digits {t x y : Bytes} (hs : ∀ c ∈ s, IsDigit c) (ht : ∀ c ∈ t, IsDigit c)
    (hlen : s.length = t.length) :
    strcmp (s ++ x) (t ++ y) =
      if value s < value t then .lt else if value t < value s then .gt else strcmp x y := by
  -- induction on the digits
  induction s generalizing t with
  | nil =>
    obtain rfl : t = [] := length_eq_zero_iff.mp hlen.symm
    rfl
  | cons c s ih =>
    obtain ⟨d, t, rfl⟩ := exists_cons_of_length_eq_add_one hlen.symm
    have hlen' : s.length = t.length := Nat.succ.inj hlen
    have hs' : ∀ c ∈ s, IsDigit c := fun c hc => hs c (mem_cons_of_mem _ hc)
    have ht' : ∀ c ∈ t, IsDigit c := fun c hc => ht c (mem_cons_of_mem _ hc)
    have hc := (hs c mem_cons_self).bounds
    have hd := (ht d mem_cons_self).bounds
    have hvs := value_lt hs'
    have hvt := value_lt ht'
    rw [value_cons, value_cons, hlen', cons_append, cons_append, strcmp]
    rw [hlen'] at hvs
    by_cases hlt : c < d
    · have hlt' := UInt8.lt_iff_toNat_lt.mp hlt
      have hmul := Nat.mul_le_mul_right (10 ^ t.length)
        (show c.toNat - 48 + 1 ≤ d.toNat - 48 by omega)
      rw [Nat.add_mul, Nat.one_mul] at hmul
      rw [if_pos hlt, if_pos (by omega)]
    rw [if_neg hlt]
    by_cases hgt : d < c
    · have hgt' := UInt8.lt_iff_toNat_lt.mp hgt
      have hmul := Nat.mul_le_mul_right (10 ^ t.length)
        (show d.toNat - 48 + 1 ≤ c.toNat - 48 by omega)
      rw [Nat.add_mul, Nat.one_mul] at hmul
      rw [if_pos hgt, if_neg (by omega), if_pos (by omega)]
    obtain rfl : c = d := UInt8.le_antisymm (UInt8.not_lt.mp hgt) (UInt8.not_lt.mp hlt)
    have hne : c ≠ 0 := by
      rintro rfl
      exact absurd hc.1 (by decide)
    rw [if_neg hgt, if_neg hne, ih hs' ht' hlen']
    simp only [Nat.add_lt_add_iff_left]

/-! ## Integers -/

theorem decimal_ofNat (n : Nat) : decimal (n : Int) = decimalNat n := rfl

theorem decimal_neg (hn : 0 < n) : decimal (-(n : Int)) = 45 :: decimalNat n := by
  obtain ⟨m, rfl⟩ := Nat.exists_eq_succ_of_ne_zero (Nat.ne_of_gt hn)
  rw [decimal, Int.toString_eq_repr, Int.repr_eq_if, if_neg (by omega), ascii, String.toList_append,
    Int.neg_neg, Int.toNat_natCast, map_append]
  rfl

end Bytes
