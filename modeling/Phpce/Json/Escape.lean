import Phpce.Json.Encoder
import Phpce.Json.Literals

/-!
# Strings as the encoder writes them

* `phpNextUtf8Char_eq_some_iff`: what is found at the cursor is the sequence of a character.
* `escapeLoop_encode`: the text of a string of characters is a literal of them, whatever the
  options are.
* `escapeText_isSome_iff`: which strings are refused.
-/

namespace Phpce

namespace Json

open Bytes JsonText Utf8 List Option

/-! ## Characters -/

section

variable {s p r : Bytes} {n k : Nat}

theorem or_add {a b k : Nat} (ha : 2 ^ k ∣ a) (hb : b < 2 ^ k) : a ||| b = a + b := by
  obtain ⟨c, rfl⟩ := ha
  rw [Nat.two_pow_add_eq_or_of_lt hb]

theorem trail_bits (a k : Nat) : (a &&& 0x3f) <<< k = a % 64 * 2 ^ k := by
  rw [Nat.shiftLeft_eq]
  exact congrArg (· * 2 ^ k) (Nat.and_two_pow_sub_one_eq_mod a 6)

theorem last_bits (a : Nat) : a &&& 0x3f = a % 64 := Nat.and_two_pow_sub_one_eq_mod a 6

theorem two_bits (a b : Nat) : (a &&& 0x1f) <<< 6 ||| b &&& 0x3f = a % 32 * 64 + b % 64 := by
  have ha : a &&& 0x1f = a % 32 := Nat.and_two_pow_sub_one_eq_mod a 5
  rw [ha, last_bits, Nat.shiftLeft_eq, or_add (k := 6) (by omega) (by omega)]

theorem three_bits (a b c : Nat) :
    (a &&& 0x0f) <<< 12 ||| (b &&& 0x3f) <<< 6 ||| c &&& 0x3f =
      a % 16 * 4096 + b % 64 * 64 + c % 64 := by
  have ha : a &&& 0x0f = a % 16 := Nat.and_two_pow_sub_one_eq_mod a 4
  have hab : a % 16 * 2 ^ 12 ||| b % 64 * 2 ^ 6 = a % 16 * 2 ^ 12 + b % 64 * 2 ^ 6 :=
    or_add (k := 12) (by omega) (by omega)
  rw [ha, trail_bits, last_bits, Nat.shiftLeft_eq, hab, or_add (k := 6) (by omega) (by omega)]
  rfl

theorem four_bits (a b c d : Nat) :
    (a &&& 0x07) <<< 18 ||| (b &&& 0x3f) <<< 12 ||| (c &&& 0x3f) <<< 6 ||| d &&& 0x3f =
      a % 8 * 262144 + b % 64 * 4096 + c % 64 * 64 + d % 64 := by
  have ha : a &&& 0x07 = a % 8 := Nat.and_two_pow_sub_one_eq_mod a 3
  have hab : a % 8 * 2 ^ 18 ||| b % 64 * 2 ^ 12 = a % 8 * 2 ^ 18 + b % 64 * 2 ^ 12 :=
    or_add (k := 18) (by omega) (by omega)
  have habc : a % 8 * 2 ^ 18 + b % 64 * 2 ^ 12 ||| c % 64 * 2 ^ 6 =
      a % 8 * 2 ^ 18 + b % 64 * 2 ^ 12 + c % 64 * 2 ^ 6 :=
    or_add (k := 12) (by omega) (by omega)
  rw [ha, trail_bits, trail_bits, last_bits, Nat.shiftLeft_eq, hab, habc,
    or_add (k := 6) (by omega) (by omega)]
  rfl

theorem utf8Trail_iff {c : UInt8} : utf8Trail c = true ↔ IsTrail c := by
  rw [utf8Trail, Bool.and_eq_true, decide_eq_true_iff, decide_eq_true_iff]
  rfl

theorem phpNextUtf8Char_sequence (h : Sequence p n) (r : Bytes) :
    phpNextUtf8Char (p ++ r) = some (n, p.length) := by
  cases h with
  | @one a ha =>
    rw [phpNextUtf8Char]
    show (if _ then none else if a < 0x80 then _ else _) = _
    rw [if_neg (by simp), if_pos ha]
    rfl
  | @two a b ha hb =>
    have ha' : 194 ≤ a.toNat ∧ a.toNat ≤ 223 := range_iff.mp ha
    have hb' := isTrail_iff.mp hb
    have htrail := utf8Trail_iff.mpr hb
    have hlow : ¬a < 0x80 := UInt8.not_lt.mpr (UInt8.le_trans (by decide) ha.1)
    have hlead : ¬a < 0xc2 := UInt8.not_lt.mpr ha.1
    have hwidth : a < 0xe0 := UInt8.lt_of_le_of_lt ha.2 (by decide)
    have hbits : a.toNat % 32 = a.toNat - 0xC0 ∧ b.toNat % 64 = b.toNat - 0x80 := by omega
    simp only [phpNextUtf8Char, at', cons_append, nil_append, length_cons,
      getD_cons_zero, getD_cons_succ, two_bits, hbits, hlow, hlead, hwidth, htrail,
      if_true, if_false]
    rw [if_neg (by omega), if_neg (by simp), if_neg (by omega)]
    rfl
  | @three a b c n ha hb hc hn hmin hsurrogate =>
    have ha' : 224 ≤ a.toNat ∧ a.toNat ≤ 239 := range_iff.mp ha
    have hb' := isTrail_iff.mp hb
    have hc' := isTrail_iff.mp hc
    have htrail := utf8Trail_iff.mpr hb
    have htrail' := utf8Trail_iff.mpr hc
    have hlow : ¬a < 0x80 := UInt8.not_lt.mpr (UInt8.le_trans (by decide) ha.1)
    have hlead : ¬a < 0xc2 := UInt8.not_lt.mpr (UInt8.le_trans (by decide) ha.1)
    have hwide : ¬a < 0xe0 := UInt8.not_lt.mpr ha.1
    have hwidth : a < 0xf0 := UInt8.lt_of_le_of_lt ha.2 (by decide)
    have hbits : a.toNat % 16 = a.toNat - 0xE0 ∧ b.toNat % 64 = b.toNat - 0x80 ∧
        c.toNat % 64 = c.toNat - 0x80 := by omega
    simp only [phpNextUtf8Char, at', cons_append, nil_append, length_cons,
      getD_cons_zero, getD_cons_succ, three_bits, hbits, ← hn, hlow, hlead, hwide, hwidth,
      htrail, htrail', if_true, if_false]
    rw [if_neg (by omega), if_neg (by simp), if_neg (by omega), if_neg (by omega)]
    rfl
  | @four a b c d n ha hb hc hd hn hmin hmax =>
    have ha' : 240 ≤ a.toNat ∧ a.toNat ≤ 244 := range_iff.mp ha
    have hb' := isTrail_iff.mp hb
    have hc' := isTrail_iff.mp hc
    have hd' := isTrail_iff.mp hd
    have htrail := utf8Trail_iff.mpr hb
    have htrail' := utf8Trail_iff.mpr hc
    have htrail'' := utf8Trail_iff.mpr hd
    have hlow : ¬a < 0x80 := UInt8.not_lt.mpr (UInt8.le_trans (by decide) ha.1)
    have hlead : ¬a < 0xc2 := UInt8.not_lt.mpr (UInt8.le_trans (by decide) ha.1)
    have hwide : ¬a < 0xe0 := UInt8.not_lt.mpr (UInt8.le_trans (by decide) ha.1)
    have hwide' : ¬a < 0xf0 := UInt8.not_lt.mpr ha.1
    have hwidth : a < 0xf5 := UInt8.lt_of_le_of_lt ha.2 (by decide)
    have hbits : a.toNat % 8 = a.toNat - 0xF0 ∧ b.toNat % 64 = b.toNat - 0x80 ∧
        c.toNat % 64 = c.toNat - 0x80 ∧ d.toNat % 64 = d.toNat - 0x80 := by omega
    simp only [phpNextUtf8Char, at', cons_append, nil_append, length_cons,
      getD_cons_zero, getD_cons_succ, four_bits, hbits, ← hn, hlow, hlead, hwide, hwide',
      hwidth, htrail, htrail', htrail'', if_true, if_false]
    rw [if_neg (by omega), if_neg (by simp), if_neg (by omega)]
    rfl

theorem lt_toNat {a b : UInt8} (h : a < b) : a.toNat < b.toNat := UInt8.lt_iff_toNat_lt.mp h

theorem le_toNat {a b : UInt8} (h : ¬a < b) : b.toNat ≤ a.toNat :=
  UInt8.le_iff_toNat_le.mp (UInt8.not_lt.mp h)

theorem sequence_of_phpNextUtf8Char (h : phpNextUtf8Char s = some (n, k)) :
    ∃ p r, Sequence p n ∧ s = p ++ r ∧ k = p.length := by
  rw [phpNextUtf8Char] at h
  cases s with
  | nil => exact absurd h (by simp)
  | cons a t =>
  simp only [at', getD_cons_zero, getD_cons_succ, length_cons] at h
  rw [if_neg (by omega)] at h
  split at h
  next ha =>
    obtain ⟨rfl, rfl⟩ := Prod.mk.inj (some.inj h)
    exact ⟨[a], t, .one ha, rfl, rfl⟩
  split at h
  next => exact absurd h (by simp)
  next _ hlow =>
  have hlow' : 194 ≤ a.toNat := le_toNat hlow
  split at h
  next hwidth =>
    have hwidth' : a.toNat < 224 := lt_toNat hwidth
    split at h
    next => exact absurd h (by simp)
    next havail =>
      rw [not_or, Bool.not_eq_true', Bool.not_eq_false] at havail
      obtain ⟨b, t, rfl⟩ := exists_cons_of_length_pos (l := t) (by omega)
      have hb : IsTrail b := utf8Trail_iff.mp havail.2
      have hb' := isTrail_iff.mp hb
      have hbits : a.toNat % 32 = a.toNat - 0xC0 ∧ b.toNat % 64 = b.toNat - 0x80 := by omega
      rw [getD_cons_zero, two_bits, hbits.1, hbits.2, if_neg (by omega)] at h
      obtain ⟨rfl, rfl⟩ := Prod.mk.inj (some.inj h)
      exact ⟨[a, b], t, .two (range_iff.mpr ⟨hlow', Nat.le_of_lt_succ hwidth'⟩) hb, rfl, rfl⟩
  next hwidth =>
  have hwidth' : 224 ≤ a.toNat := le_toNat hwidth
  split at h
  next hwidth₂ =>
    have hwidth₂' : a.toNat < 240 := lt_toNat hwidth₂
    split at h
    next => exact absurd h (by simp)
    next havail =>
      simp only [not_or, Bool.not_eq_true', Bool.not_eq_false] at havail
      obtain ⟨b, t, rfl⟩ := exists_cons_of_length_pos (l := t) (by omega)
      rw [length_cons] at havail
      obtain ⟨c, t, rfl⟩ := exists_cons_of_length_pos (l := t) (by omega)
      have hb : IsTrail b := utf8Trail_iff.mp havail.2.1
      have hc : IsTrail c := utf8Trail_iff.mp havail.2.2
      have hb' := isTrail_iff.mp hb
      have hc' := isTrail_iff.mp hc
      have hbits : a.toNat % 16 = a.toNat - 0xE0 ∧ b.toNat % 64 = b.toNat - 0x80 ∧
          c.toNat % 64 = c.toNat - 0x80 := by omega
      rw [getD_cons_zero, getD_cons_succ, getD_cons_zero, three_bits, hbits.1,
        hbits.2.1, hbits.2.2] at h
      split at h
      next => exact absurd h (by simp)
      next hmin =>
      split at h
      next => exact absurd h (by simp)
      next hsurrogate =>
      obtain ⟨rfl, rfl⟩ := Prod.mk.inj (some.inj h)
      exact ⟨[a, b, c], t, .three (range_iff.mpr ⟨hwidth', Nat.le_of_lt_succ hwidth₂'⟩) hb hc rfl
        (by omega) (by omega), rfl, rfl⟩
  next hwidth₂ =>
  have hwidth₂' : 240 ≤ a.toNat := le_toNat hwidth₂
  split at h
  next hwidth₃ =>
    have hwidth₃' : a.toNat < 245 := lt_toNat hwidth₃
    split at h
    next => exact absurd h (by simp)
    next havail =>
      simp only [not_or, Bool.not_eq_true', Bool.not_eq_false] at havail
      obtain ⟨b, t, rfl⟩ := exists_cons_of_length_pos (l := t) (by omega)
      rw [length_cons] at havail
      obtain ⟨c, t, rfl⟩ := exists_cons_of_length_pos (l := t) (by omega)
      rw [length_cons] at havail
      obtain ⟨d, t, rfl⟩ := exists_cons_of_length_pos (l := t) (by omega)
      have hb : IsTrail b := utf8Trail_iff.mp havail.2.1
      have hc : IsTrail c := utf8Trail_iff.mp havail.2.2.1
      have hd : IsTrail d := utf8Trail_iff.mp havail.2.2.2
      have hb' := isTrail_iff.mp hb
      have hc' := isTrail_iff.mp hc
      have hd' := isTrail_iff.mp hd
      have hbits : a.toNat % 8 = a.toNat - 0xF0 ∧ b.toNat % 64 = b.toNat - 0x80 ∧
          c.toNat % 64 = c.toNat - 0x80 ∧ d.toNat % 64 = d.toNat - 0x80 := by omega
      rw [getD_cons_zero, getD_cons_succ, getD_cons_zero, getD_cons_succ,
        getD_cons_succ, getD_cons_zero, four_bits, hbits.1, hbits.2.1, hbits.2.2.1,
        hbits.2.2.2] at h
      split at h
      next => exact absurd h (by simp)
      next hrange =>
      obtain ⟨rfl, rfl⟩ := Prod.mk.inj (some.inj h)
      exact ⟨[a, b, c, d], t, .four (range_iff.mpr ⟨hwidth₂', Nat.le_of_lt_succ hwidth₃'⟩) hb hc hd
        rfl (by omega) (by omega), rfl, rfl⟩
  next => exact absurd h (by simp)

end

/-! ## Escapes -/

section

variable {c : Char} {n : Nat}

theorem hexDigit_at' : ∀ d < 16, hexDigit (at' hexDigits d) = some d := by decide

def unitDigits (us : Nat) : Bytes :=
  [at' hexDigits (us / 4096), at' hexDigits (us / 256 % 16), at' hexDigits (us / 16 % 16),
    at' hexDigits (us % 16)]

theorem digit_bits (us k : Nat) : (us &&& 15 <<< k) >>> k = us / 2 ^ k % 16 := by
  rw [Nat.shiftRight_and_distrib, Nat.shiftLeft_shiftRight, Nat.shiftRight_eq_div_pow]
  exact Nat.and_two_pow_sub_one_eq_mod _ 4

theorem escapeUnit_eq (h : n < 2 ^ 16) : escapeUnit n = 92 :: 117 :: unitDigits n := by
  have h12 : (n &&& 0xf000) >>> 12 = n / 4096 := by
    have hbits := digit_bits n 12
    rw [Nat.mod_eq_of_lt (by omega)] at hbits
    exact hbits
  have h8 : (n &&& 0xf00) >>> 8 = n / 256 % 16 := digit_bits n 8
  have h4 : (n &&& 0xf0) >>> 4 = n / 16 % 16 := digit_bits n 4
  have h0 : n &&& 0xf = n % 16 := Nat.and_two_pow_sub_one_eq_mod n 4
  rw [escapeUnit, unitDigits, h12, h8, h4, h0]
  rfl

theorem hex4_unitDigits (h : n < 2 ^ 16) : Hex4 (unitDigits n) n := by
  have hvalue : n / 4096 * 4096 + n / 256 % 16 * 256 + n / 16 % 16 * 16 + n % 16 = n := by omega
  have hhex := Hex4.intro (hexDigit_at' (n / 4096) (by omega))
    (hexDigit_at' (n / 256 % 16) (by omega)) (hexDigit_at' (n / 16 % 16) (by omega))
    (hexDigit_at' (n % 16) (by omega))
  rwa [hvalue] at hhex

theorem written_escapeUnit (hc : c.toNat < 2 ^ 16) : Written c (escapeUnit c.toNat) := by
  rw [escapeUnit_eq hc]
  exact .unicode (hex4_unitDigits hc)

theorem written_pair (hc : c.toNat ≥ 0x10000) :
    Written c (escapeUnit (((c.toNat - 0x10000) >>> 10 ||| 0xd800) % 2 ^ 16) ++
      escapeUnit (((c.toNat - 0x10000) &&& 0x3ff ||| 0xdc00) % 2 ^ 16)) := by
  have hmax : c.toNat < 0x110000 := by
    have hscalar := isScalar_toNat c
    rw [IsScalar] at hscalar
    omega
  have hhigh : (c.toNat - 0x10000) >>> 10 ||| 0xd800 = 0xd800 + (c.toNat - 0x10000) / 1024 := by
    rw [Nat.or_comm, Nat.shiftRight_eq_div_pow, or_add (k := 10) (by decide) (by omega)]
  have hlow : (c.toNat - 0x10000) &&& 0x3ff ||| 0xdc00 = 0xdc00 + (c.toNat - 0x10000) % 1024 := by
    have hmask : (c.toNat - 0x10000) &&& 0x3ff = (c.toNat - 0x10000) % 1024 :=
      Nat.and_two_pow_sub_one_eq_mod _ 10
    rw [hmask, Nat.or_comm, or_add (k := 10) (by decide) (by omega)]
  rw [hhigh, hlow, Nat.mod_eq_of_lt (by omega), Nat.mod_eq_of_lt (by omega),
    escapeUnit_eq (by omega), escapeUnit_eq (by omega)]
  exact .pair (hex4_unitDigits (by omega)) (hex4_unitDigits (by omega)) (by omega) (by omega)
    (by omega)

theorem written_hex {x : Bytes} (hx : Hex4 x n) (hc : c.toNat = n) :
    Written c (92 :: 117 :: x) := .unicode (hc ▸ hx)

theorem written_symbol {e : UInt8} (he : twoCharacter e = some n) (hc : c.toNat = n) :
    Written c [92, e] := .escape (hc ▸ he)

theorem utf8EncodeChar_of_lt {b : UInt8} (hb : b.toNat < 0x80) (hc : c.toNat = b.toNat) :
    String.utf8EncodeChar c = [b] := by
  rw [utf8EncodeChar_eq, encodeNat, if_pos (by omega), hc, UInt8.ofNat_toNat]

theorem written_self {b : UInt8} (hb : b.toNat < 0x80) (hc : c.toNat = b.toNat)
    (hcontrol : 32 ≤ b.toNat) (hquote : b ≠ 34) (hbackslash : b ≠ 92) : Written c [b] := by
  have hquote' : b.toNat ≠ 34 := fun h => hquote (UInt8.toNat_inj.mp h)
  have hbackslash' : b.toNat ≠ 92 := fun h => hbackslash (UInt8.toNat_inj.mp h)
  rw [← utf8EncodeChar_of_lt hb hc]
  exact .unescaped (by omega) (by omega) (by omega)

theorem control_eq {b : UInt8} (hb : b.toNat < 32) :
    ascii "\\u00" ++ [at' hexDigits ((b.toNat &&& 0xf0) >>> 4), at' hexDigits (b.toNat &&& 0xf)] =
      92 :: 117 :: unitDigits b.toNat := by
  have h4 : (b.toNat &&& 0xf0) >>> 4 = b.toNat / 16 % 16 := digit_bits b.toNat 4
  have h0 : b.toNat &&& 0xf = b.toNat % 16 := Nat.and_two_pow_sub_one_eq_mod b.toNat 4
  rw [unitDigits, h4, h0, Nat.div_eq_of_lt (show b.toNat < 4096 by omega),
    Nat.div_eq_of_lt (show b.toNat < 256 by omega)]
  rfl

theorem written_ite {p : Prop} [Decidable p] {x y : Bytes} (hx : p → Written c x)
    (hy : ¬p → Written c y) : Written c (if p then x else y) := by
  split
  next h => exact hx h
  next h => exact hy h

variable (options : EncoderOptions)

theorem written_escapeByte {b : UInt8} (hb : b.toNat < 0x80) (hc : c.toNat = b.toNat) :
    Written c (escapeByte options b) := by
  rw [escapeByte]
  refine written_ite (fun h => ?_) fun hquote => ?_
  · subst h
    exact written_ite (fun _ => written_hex (x := [48, 48, 50, 50]) (.intro rfl rfl rfl rfl) hc)
      fun _ => written_symbol (e := 34) rfl hc
  refine written_ite (fun h => ?_) fun hback => ?_
  · subst h
    exact written_symbol (e := 92) rfl hc
  refine written_ite (fun h => ?_) fun _ => ?_
  · subst h
    exact written_ite (fun _ => written_self hb hc (by decide) (by decide) (by decide)) fun _ =>
      written_symbol (e := 47) rfl hc
  refine written_ite (fun h => ?_) fun _ => ?_
  · subst h
    exact written_symbol (e := 98) rfl hc
  refine written_ite (fun h => ?_) fun _ => ?_
  · subst h
    exact written_symbol (e := 102) rfl hc
  refine written_ite (fun h => ?_) fun _ => ?_
  · subst h
    exact written_symbol (e := 110) rfl hc
  refine written_ite (fun h => ?_) fun _ => ?_
  · subst h
    exact written_symbol (e := 114) rfl hc
  refine written_ite (fun h => ?_) fun _ => ?_
  · subst h
    exact written_symbol (e := 116) rfl hc
  refine written_ite (fun h => ?_) fun _ => ?_
  · subst h
    exact written_ite (fun _ => written_hex (.intro (a := 48) (b := 48) (c := 51) (d := 67) rfl rfl
      rfl rfl) hc) fun _ => written_self hb hc (by decide) (by decide) (by decide)
  refine written_ite (fun h => ?_) fun _ => ?_
  · subst h
    exact written_ite (fun _ => written_hex (.intro (a := 48) (b := 48) (c := 51) (d := 69) rfl rfl
      rfl rfl) hc) fun _ => written_self hb hc (by decide) (by decide) (by decide)
  refine written_ite (fun h => ?_) fun _ => ?_
  · subst h
    exact written_ite (fun _ => written_hex (.intro (a := 48) (b := 48) (c := 50) (d := 54) rfl rfl
      rfl rfl) hc) fun _ => written_self hb hc (by decide) (by decide) (by decide)
  refine written_ite (fun h => ?_) fun _ => ?_
  · subst h
    exact written_ite (fun _ => written_hex (.intro (a := 48) (b := 48) (c := 50) (d := 55) rfl rfl
      rfl rfl) hc) fun _ => written_self hb hc (by decide) (by decide) (by decide)
  refine written_ite (fun h => ?_) fun h => ?_
  · exact written_self hb hc (UInt8.le_iff_toNat_le.mp h) hquote hback
  · have hlow : b.toNat < 32 := UInt8.lt_iff_toNat_lt.mp (UInt8.not_le.mp h)
    rw [control_eq hlow]
    exact written_hex (hex4_unitDigits (by omega)) hc

end

/-! ## The loop -/

section

variable (options : EncoderOptions) {c : Char} {s t out : Bytes} {n : Nat}

theorem escapeLoop_step {b : UInt8} {text : Bytes} {len : Nat}
    (h : escapeStep options (b :: t) = some (text, len)) :
    escapeLoop options (b :: t) out = escapeLoop options (t.drop (len - 1)) (out ++ text) := by
  rw [escapeLoop, h]

theorem escapeLoop_nil : escapeLoop options [] out = some out := by rw [escapeLoop]

theorem escapeByte_of_high {b : UInt8} (hb : 0x80 ≤ b) : escapeByte options b = [b] := by
  have hne : ∀ d : UInt8, d < 0x80 → b ≠ d := by
    rintro d hd rfl
    exact UInt8.not_le.mpr hd hb
  rw [escapeByte, if_neg (hne 34 (by decide)), if_neg (hne 92 (by decide)),
    if_neg (hne 47 (by decide)), if_neg (hne 8 (by decide)), if_neg (hne 12 (by decide)),
    if_neg (hne 10 (by decide)), if_neg (hne 13 (by decide)), if_neg (hne 9 (by decide)),
    if_neg (hne 60 (by decide)), if_neg (hne 62 (by decide)), if_neg (hne 38 (by decide)),
    if_neg (hne 39 (by decide)), if_pos (UInt8.le_trans (by decide) hb)]

theorem escapeLoop_copied (hunicode : options.unescapedUnicode = true) {p : Bytes}
    (hp : ∀ b ∈ p, 0x80 ≤ b ∧ b ≠ 0xE2) :
    escapeLoop options (p ++ t) out = escapeLoop options t (out ++ p) := by
  induction p generalizing out with
  | nil => rw [nil_append, append_nil]
  | cons b p ih =>
    obtain ⟨hhigh, hlead⟩ := hp b mem_cons_self
    have hstep : escapeStep options (b :: (p ++ t)) = some ([b], 1) := by
      have hcond : ¬(at' (b :: (p ++ t)) 0 ≥ 0x80 ∧
          (!options.unescapedUnicode ∨ at' (b :: (p ++ t)) 0 = 0xE2)) := by
        rw [hunicode]
        rintro ⟨-, h | h⟩
        · exact absurd h (by decide)
        · exact hlead h
      rw [escapeStep, if_neg hcond]
      exact congrArg (fun text => some (text, 1)) (escapeByte_of_high options hhigh)
    rw [cons_append, escapeLoop_step options hstep]
    show escapeLoop options (p ++ t) (out ++ [b]) = _
    rw [ih fun d hd => hp d (mem_cons_of_mem _ hd), append_assoc]
    rfl

theorem escapeStep_char {p : Bytes} {b : UInt8} (hp : Sequence (b :: p) n)
    (hlong : (b :: p).length ≠ 1) (hlook : options.unescapedUnicode = false ∨ b = 0xE2) :
    escapeStep options (b :: p ++ t) =
      if options.unescapedUnicode ∧ (options.unescapedLineTerminators ∨ n < 0x2028 ∨ n > 0x2029)
      then some (((b :: p ++ t).take (b :: p).length).drop ((b :: p).length - 3), (b :: p).length)
      else if n ≥ 0x10000 then
        some (escapeUnit (((n - 0x10000) >>> 10 ||| 0xd800) % 2 ^ 16) ++
          escapeUnit (((n - 0x10000) &&& 0x3ff ||| 0xdc00) % 2 ^ 16), (b :: p).length)
      else some (escapeUnit n, (b :: p).length) := by
  have hcond : at' (b :: p ++ t) 0 ≥ 0x80 ∧
      (!options.unescapedUnicode ∨ at' (b :: p ++ t) 0 = 0xE2) :=
    ⟨hp.high hlong b mem_cons_self, hlook.imp_left fun h => by rw [h]; rfl⟩
  rw [escapeStep, if_pos hcond, phpNextUtf8Char_sequence hp]

theorem length_of_lead {p : Bytes} (h : Sequence (0xE2 :: p) n) : (0xE2 :: p).length = 3 := by
  obtain ⟨a, t, hcons, hlen⟩ := h.length_eq
  obtain ⟨rfl, rfl⟩ := List.cons.inj hcons
  rw [hlen]
  rfl

theorem escapeLoop_char (c : Char) :
    ∃ q, Written c q ∧ ∀ t out, escapeLoop options (String.utf8EncodeChar c ++ t) out =
      escapeLoop options t (out ++ q) := by
  have hseq := sequence_utf8EncodeChar c
  obtain ⟨b, p, hp, -⟩ := hseq.length_eq
  by_cases hlong : (String.utf8EncodeChar c).length = 1
  · -- a byte of ASCII
    rw [hp] at hseq hlong ⊢
    obtain rfl : p = [] := length_eq_zero_iff.mp (Nat.succ.inj hlong)
    generalize hn : c.toNat = n at hseq
    cases hseq with
    | one hb =>
      refine ⟨escapeByte options b, written_escapeByte options (UInt8.lt_iff_toNat_lt.mp hb) hn,
        fun t out => ?_⟩
      have hcond : ¬(at' (b :: t) 0 ≥ 0x80 ∧
          (!options.unescapedUnicode ∨ at' (b :: t) 0 = 0xE2)) := fun h => UInt8.not_le.mpr hb h.1
      have hstep : escapeStep options (b :: t) = some (escapeByte options b, 1) := by
        rw [escapeStep, if_neg hcond]
        rfl
      exact escapeLoop_step options hstep
  have hn := hseq.le_of_length_ne_one hlong
  have hunescaped : Written c (String.utf8EncodeChar c) :=
    .unescaped (by omega) (by omega) (by omega)
  rw [hp] at hseq hlong hunescaped ⊢
  by_cases hlook : options.unescapedUnicode = false ∨ b = 0xE2
  · have hdrop : ∀ t : Bytes, (p ++ t).drop ((b :: p).length - 1) = t := fun t => by
      rw [length_cons, Nat.add_sub_cancel, drop_left]
    -- the step that is made, with its text
    have hgo : ∀ q, Written c q → (∀ t, escapeStep options (b :: p ++ t) =
        some (q, (b :: p).length)) → ∃ q, Written c q ∧ ∀ t out,
          escapeLoop options (b :: p ++ t) out = escapeLoop options t (out ++ q) := by
      intro q hq hstep
      exact ⟨q, hq, fun t out => (escapeLoop_step options (hstep t)).trans
        (congrArg (escapeLoop options · (out ++ q)) (hdrop t))⟩
    by_cases hcopy : options.unescapedUnicode ∧
        (options.unescapedLineTerminators ∨ c.toNat < 0x2028 ∨ c.toNat > 0x2029)
    · refine hgo _ hunescaped fun t => ?_
      obtain rfl : b = 0xE2 := hlook.resolve_left (by rw [hcopy.1]; decide)
      rw [escapeStep_char options hseq hlong hlook, if_pos hcopy, take_left,
        length_of_lead hseq]
      rfl
    by_cases hpair : c.toNat ≥ 0x10000
    · refine hgo _ (written_pair hpair) fun t => ?_
      rw [escapeStep_char options hseq hlong hlook, if_neg hcopy, if_pos hpair]
    · refine hgo _ (written_escapeUnit (by omega)) fun t => ?_
      rw [escapeStep_char options hseq hlong hlook, if_neg hcopy, if_neg hpair]
  · rw [not_or, Bool.not_eq_false] at hlook
    refine ⟨_, hunescaped, fun t out => escapeLoop_copied options hlook.1 fun d hd => ?_⟩
    refine ⟨hseq.high hlong d hd, ?_⟩
    rcases mem_cons.mp hd with rfl | hd
    · exact hlook.2
    · rintro rfl
      exact absurd (hseq.trail _ hd) (by decide)

/-- **A whole string**: the text between the quotes is a literal of its characters. -/
theorem escapeLoop_encode (cs : List Char) :
    ∃ body, Literal cs body ∧ ∀ out, escapeLoop options (encode cs) out = some (out ++ body) := by
  induction cs with
  | nil =>
    refine ⟨[], .nil, fun out => ?_⟩
    rw [encode_nil, escapeLoop_nil, append_nil]
  | cons c cs ih =>
    obtain ⟨q, hq, hchar⟩ := escapeLoop_char options c
    obtain ⟨body, hbody, hrest⟩ := ih
    refine ⟨q ++ body, .cons hq hbody, fun out => ?_⟩
    rw [encode_cons, hchar, hrest, append_assoc]

/-! ## Refused strings -/

def utf16Length (cs : List Char) : Nat :=
  (cs.map fun c => if c.toNat ≥ 0x10000 then 2 else 1).sum

theorem exists_char {b : UInt8} {k : Nat} (h : phpNextUtf8Char (b :: t) = some (n, k)) :
    ∃ c : Char, c.toNat = n ∧ b :: t = String.utf8EncodeChar c ++ t.drop (k - 1) := by
  obtain ⟨p, r, hp, heq, rfl⟩ := sequence_of_phpNextUtf8Char h
  obtain ⟨a, u, rfl, -⟩ := hp.length_eq
  obtain ⟨rfl, rfl⟩ := List.cons.inj heq
  obtain ⟨c, hc, rfl⟩ := hp.exists_char
  refine ⟨c, rfl, ?_⟩
  rw [hc, append_eq, length_cons, Nat.add_sub_cancel, drop_left]
  rfl

theorem encode_of_escapeLoop (hunicode : options.unescapedUnicode = false) :
    ∀ (s : Bytes) {out text : Bytes}, escapeLoop options s out = some text → ∃ cs, s = encode cs
  | [], _, _, _ => ⟨[], rfl⟩
  | b :: t, _, _, h => by
    rw [escapeLoop] at h
    split at h
    next => exact absurd h (by simp)
    next _ len hstep =>
      obtain ⟨cs, hcs⟩ := encode_of_escapeLoop hunicode (t.drop (len - 1)) h
      rw [escapeStep] at hstep
      split at hstep
      next =>
        -- a longer character
        split at hstep
        next => exact absurd hstep (by simp)
        next us k hnext =>
          have hlen : k = len := by
            split at hstep
            · exact (Prod.mk.inj (some.inj hstep)).2
            · split at hstep <;> exact (Prod.mk.inj (some.inj hstep)).2
          subst hlen
          obtain ⟨c, -, hc⟩ := exists_char hnext
          exact ⟨c :: cs, by rw [hc, hcs, encode_cons]⟩
      next hcond =>
        obtain ⟨-, rfl⟩ := Prod.mk.inj (some.inj hstep)
        have hb : b < 0x80 := by
          by_contra hhigh
          exact hcond ⟨UInt8.not_lt.mp hhigh, .inl (by rw [hunicode]; rfl)⟩
        obtain ⟨c, hc, -⟩ := (Sequence.one hb).exists_char
        refine ⟨c :: cs, ?_⟩
        rw [encode_cons, hc, ← hcs]
        rfl
termination_by s => s.length
decreasing_by simp only [List.length_drop, List.length_cons]; omega

theorem utf16Loop_encode (cs : List Char) (j : Int32) :
    utf16Loop (encode cs) j = j + Int32.ofNat (utf16Length cs) := by
  induction cs generalizing j with
  | nil =>
    rw [encode_nil, utf16Loop]
    exact (Int32.add_zero j).symm
  | cons c cs ih =>
    have hseq := sequence_utf8EncodeChar c
    obtain ⟨b, p, hp, -⟩ := hseq.length_eq
    have hnext := phpNextUtf8Char_sequence hseq (encode cs)
    rw [hp] at hnext
    rw [encode_cons, hp, cons_append, utf16Loop]
    rw [cons_append] at hnext
    rw [hnext]
    show utf16Loop ((p ++ encode cs).drop ((b :: p).length - 1))
      (if c.toNat ≥ 0x10000 then j + 2 else j + 1) = _
    have hlen : utf16Length (c :: cs) = (if c.toNat ≥ 0x10000 then 2 else 1) + utf16Length cs :=
      sum_cons
    rw [length_cons, Nat.add_sub_cancel, drop_left, ih, hlen, Int32.ofNat_add,
      ← Int32.add_assoc]
    split <;> rfl

theorem utf16Loop_of_invalid : ∀ s : Bytes, (∀ cs, s ≠ encode cs) → ∀ j, utf16Loop s j = -1
  | [], h, _ => absurd rfl (h [])
  | b :: t, h, j => by
    rw [utf16Loop]
    split
    next => rfl
    next us k hnext =>
      obtain ⟨c, -, hc⟩ := exists_char hnext
      refine utf16Loop_of_invalid (t.drop (k - 1)) (fun cs hcs => h (c :: cs) ?_) _
      rw [hc, hcs, encode_cons]
termination_by s => s.length
decreasing_by simp only [List.length_drop, List.length_cons]; omega

theorem ofNat_lt_zero_iff (k : Nat) : Int32.ofNat k < 0 ↔ ¬k % 2 ^ 32 < 2 ^ 31 := by
  have hsize : (Int32.size : Int) = 4294967296 := rfl
  have hzero : (0 : Int32).toInt = 0 := rfl
  rw [Int32.lt_iff_toInt_lt, Int32.toInt_ofNat', hzero, Int.bmod_def, hsize]
  split <;> omega

/-- The strings that are not refused: UTF-8, and with `PHP_JSON_UNESCAPED_UNICODE` of so many units
that an `int` counts them. -/
def Accepts (s : Bytes) : Prop :=
  ∃ cs, s = encode cs ∧ (options.unescapedUnicode = true → utf16Length cs % 2 ^ 32 < 2 ^ 31)

/-- What is put between the quotes, of a string that is not written as a number. -/
def escapeText (s : Bytes) : Option Bytes :=
  if options.unescapedUnicode ∧ phpJsonUtf8ToUtf16 s < 0 then none else escapeLoop options s []

theorem escapeText_eq_some {cs : List Char}
    (h : options.unescapedUnicode = true → utf16Length cs % 2 ^ 32 < 2 ^ 31) :
    ∃ body, Literal cs body ∧ escapeText options (encode cs) = some body := by
  obtain ⟨body, hbody, hloop⟩ := escapeLoop_encode options cs
  refine ⟨body, hbody, ?_⟩
  rw [escapeText, if_neg, hloop, nil_append]
  rintro ⟨hunicode, hneg⟩
  rw [phpJsonUtf8ToUtf16, utf16Loop_encode, Int32.zero_add, ofNat_lt_zero_iff] at hneg
  exact hneg (h hunicode)

theorem escapeText_nil : escapeText options [] = some [] := by
  rw [escapeText, if_neg, escapeLoop_nil]
  rintro ⟨-, h⟩
  rw [phpJsonUtf8ToUtf16, utf16Loop] at h
  exact absurd h (by decide)

theorem accepts_nil : Accepts options [] := ⟨[], rfl, fun _ => by decide⟩

theorem escapeText_eq_none (h : ¬Accepts options s) : escapeText options s = none := by
  rw [escapeText]
  split
  next => rfl
  next hcond =>
    cases hloop : escapeLoop options s [] with
    | none => rfl
    | some text =>
      refine absurd ?_ h
      by_cases hunicode : options.unescapedUnicode = true
      · by_cases hvalid : ∃ cs, s = encode cs
        · obtain ⟨cs, rfl⟩ := hvalid
          refine ⟨cs, rfl, fun _ => Decidable.not_not.mp fun hlarge => hcond ⟨hunicode, ?_⟩⟩
          rw [phpJsonUtf8ToUtf16, utf16Loop_encode, Int32.zero_add]
          exact (ofNat_lt_zero_iff _).mpr hlarge
        · refine absurd ⟨hunicode, ?_⟩ hcond
          rw [phpJsonUtf8ToUtf16, utf16Loop_of_invalid s fun cs hcs => hvalid ⟨cs, hcs⟩]
          decide
      · obtain ⟨cs, hcs⟩ := encode_of_escapeLoop options (Bool.not_eq_true _ ▸ hunicode) s hloop
        exact ⟨cs, hcs, fun h => absurd h hunicode⟩

theorem literal_of_escapeText {body : Bytes} (h : escapeText options s = some body) :
    ∃ cs, s = encode cs ∧ Literal cs body := by
  by_cases haccepts : Accepts options s
  · obtain ⟨cs, rfl, hunits⟩ := haccepts
    obtain ⟨body', hliteral, hbody⟩ := escapeText_eq_some options hunits
    obtain rfl := some.inj (hbody.symm.trans h)
    exact ⟨cs, rfl, hliteral⟩
  · rw [escapeText_eq_none options haccepts] at h
    exact absurd h (by simp)

end

/-! ## Strings and keys -/

section

variable (options : EncoderOptions) {δ : Type*} (D : Doubles δ) {s text : Bytes}

/-- What is written of a string; `none` where it is refused. -/
def stringText (s : Bytes) : Option Bytes :=
  if s.length = 0 then some (quoted [])
  else
    match if options.numericCheck then numericText options D s else none with
    | some num => some num
    | none => (escapeText options s).map quoted

/-- **The function of the source**: a string that is refused leaves no bytes in the buffer. -/
theorem phpJsonEscapeString_eq (s : Bytes) (encoder : Encoder) :
    phpJsonEscapeString options D s encoder =
      match stringText options D s with
      | some text => (.success, encoder.appendl text)
      | none => utf8Error options encoder := by
  rw [phpJsonEscapeString, stringText]
  by_cases hlen : s.length = 0
  · rw [if_pos hlen, if_pos hlen]
    rfl
  rw [if_neg hlen, if_neg hlen]
  cases if options.numericCheck then numericText options D s else none with
  | some num => rfl
  | none =>
    dsimp only
    rw [escapeText]
    by_cases hinvalid : options.unescapedUnicode ∧ phpJsonUtf8ToUtf16 s < 0
    · rw [if_pos hinvalid, if_pos hinvalid]
      rfl
    rw [if_neg hinvalid, if_neg hinvalid]
    cases escapeLoop options s [] with
    | none =>
      show utf8Error options ⟨(encoder.buf ++ _).take encoder.buf.length, _, _⟩ = _
      rw [take_left]
      rfl
    | some text =>
      show (Status.success, Encoder.mk (encoder.buf ++ [34] ++ text ++ [34]) _ _) =
        (Status.success, Encoder.mk (encoder.buf ++ quoted text) _ _)
      rw [quoted, append_assoc, append_assoc]
      rfl

theorem number_of_numericText (hD : D.Lawful) (h : numericText options D s = some text) :
    Number text := by
  rw [numericText] at h
  split at h
  next => exact absurd h (by simp)
  next =>
    obtain rfl := some.inj h
    exact (integer_decimal _).number
  next =>
    split at h
    next => exact absurd h (by simp)
    next d _ =>
      split at h
      next hvalid =>
        obtain rfl := some.inj h
        exact number_encodeDouble hD _ hvalid
      next => exact absurd h (by simp)

theorem stringText_eq_none_iff (hcheck : options.numericCheck = false) :
    stringText options D s = none ↔ ¬Accepts options s := by
  rw [stringText, hcheck]
  by_cases hlen : s.length = 0
  · obtain rfl := length_eq_zero_iff.mp hlen
    exact iff_of_false (by simp) fun h => h (accepts_nil options)
  rw [if_neg hlen]
  show (escapeText options s).map quoted = none ↔ _
  rw [map_eq_none_iff]
  refine ⟨?_, escapeText_eq_none options⟩
  rintro h ⟨cs, rfl, hunits⟩
  obtain ⟨body, -, hbody⟩ := escapeText_eq_some options hunits
  rw [h] at hbody
  exact absurd hbody (by simp)

theorem stringText_of_escapeText (hcheck : options.numericCheck = false) {body : Bytes}
    (h : escapeText options s = some body) : stringText options D s = some (quoted body) := by
  rw [stringText, hcheck]
  split
  next hlen =>
    obtain rfl := length_eq_zero_iff.mp hlen
    rw [escapeText_nil] at h
    obtain rfl := some.inj h
    rfl
  next =>
    show (escapeText options s).map quoted = _
    rw [h]
    rfl

end

end Json

end Phpce
