import Phpce.Lib.Bytes

/-!
# UTF-8

A text is a list of characters, and its bytes are `String.utf8EncodeChar` of one after the other.

* `Sequence p n` says that the bytes `p` are the well-formed sequence of the scalar value `n`, by
  the ranges of its bytes.
* `sequence_utf8EncodeChar` and `Sequence.exists_char` say that these are the encodings of the
  characters.
* `Sequence.append_inj` says that none of them is the beginning of another one.
-/

namespace Utf8

open List

def encode (cs : List Char) : Bytes := cs.flatMap String.utf8EncodeChar

def IsTrail (b : UInt8) : Prop := 0x80 ≤ b ∧ b ≤ 0xBF

instance (b : UInt8) : Decidable (IsTrail b) := inferInstanceAs (Decidable (_ ∧ _))

inductive Sequence : Bytes → Nat → Prop
  | one {a : UInt8} (ha : a < 0x80) : Sequence [a] a.toNat
  | two {a b : UInt8} (ha : 0xC2 ≤ a ∧ a ≤ 0xDF) (hb : IsTrail b) :
      Sequence [a, b] ((a.toNat - 0xC0) * 64 + (b.toNat - 0x80))
  | three {a b c : UInt8} {n : Nat} (ha : 0xE0 ≤ a ∧ a ≤ 0xEF) (hb : IsTrail b) (hc : IsTrail c)
      (hn : n = (a.toNat - 0xE0) * 4096 + (b.toNat - 0x80) * 64 + (c.toNat - 0x80))
      (hmin : 0x800 ≤ n) (hsurrogate : n < 0xD800 ∨ 0xDFFF < n) : Sequence [a, b, c] n
  | four {a b c d : UInt8} {n : Nat} (ha : 0xF0 ≤ a ∧ a ≤ 0xF4) (hb : IsTrail b) (hc : IsTrail c)
      (hd : IsTrail d)
      (hn : n = (a.toNat - 0xF0) * 262144 + (b.toNat - 0x80) * 4096 + (c.toNat - 0x80) * 64 +
        (d.toNat - 0x80))
      (hmin : 0x10000 ≤ n) (hmax : n ≤ 0x10FFFF) : Sequence [a, b, c, d] n

variable {p p' r r' : Bytes} {n n' : Nat}

@[simp] theorem encode_nil : encode [] = [] := rfl

@[simp] theorem encode_cons (c : Char) (cs : List Char) :
    encode (c :: cs) = String.utf8EncodeChar c ++ encode cs := flatMap_cons

theorem isTrail_iff {b : UInt8} : IsTrail b ↔ 0x80 ≤ b.toNat ∧ b.toNat ≤ 0xBF := by
  rw [IsTrail, UInt8.le_iff_toNat_le, UInt8.le_iff_toNat_le]
  rfl

theorem range_iff {lo hi b : UInt8} :
    lo ≤ b ∧ b ≤ hi ↔ lo.toNat ≤ b.toNat ∧ b.toNat ≤ hi.toNat := by
  rw [UInt8.le_iff_toNat_le, UInt8.le_iff_toNat_le]

theorem toNat_ofNat (h : n < 256) : (UInt8.ofNat n).toNat = n := Nat.mod_eq_of_lt h

theorem ofNat_eq_iff (h : n < 256) {b : UInt8} : UInt8.ofNat n = b ↔ b.toNat = n := by
  rw [← UInt8.toNat_inj, toNat_ofNat h, eq_comm]

/-! ## One character -/

/-- A scalar value: no surrogate, and not beyond the last plane. -/
def IsScalar (n : Nat) : Prop := n < 0xD800 ∨ 0xDFFF < n ∧ n < 0x110000

def encodeNat (n : Nat) : Bytes :=
  if n ≤ 0x7f then [UInt8.ofNat n]
  else if n ≤ 0x7ff then [UInt8.ofNat (n / 64 % 0x20 + 0xc0), UInt8.ofNat (n % 0x40 + 0x80)]
  else if n ≤ 0xffff then
    [UInt8.ofNat (n / 4096 % 0x10 + 0xe0), UInt8.ofNat (n / 64 % 0x40 + 0x80),
      UInt8.ofNat (n % 0x40 + 0x80)]
  else
    [UInt8.ofNat (n / 262144 % 0x08 + 0xf0), UInt8.ofNat (n / 4096 % 0x40 + 0x80),
      UInt8.ofNat (n / 64 % 0x40 + 0x80), UInt8.ofNat (n % 0x40 + 0x80)]

theorem utf8EncodeChar_eq (c : Char) : String.utf8EncodeChar c = encodeNat c.toNat := rfl

theorem isScalar_toNat (c : Char) : IsScalar c.toNat := c.valid

theorem IsScalar.exists_char (h : IsScalar n) : ∃ c : Char, c.toNat = n :=
  ⟨⟨UInt32.ofNat n, by
    rw [UInt32.isValidChar, UInt32.toNat_ofNat_of_lt' (by
      rw [IsScalar] at h
      show n < 4294967296
      omega)]
    exact h⟩, UInt32.toNat_ofNat_of_lt' (by
      rw [IsScalar] at h
      show n < 4294967296
      omega)⟩

theorem isTrail_ofNat (n : Nat) : IsTrail (UInt8.ofNat (n % 0x40 + 0x80)) := by
  rw [isTrail_iff, toNat_ofNat (by omega)]
  omega

theorem sequence_encodeNat (h : IsScalar n) : Sequence (encodeNat n) n := by
  rw [IsScalar] at h
  rw [encodeNat]
  split
  next h1 =>
    have hbyte := toNat_ofNat (n := n) (by omega)
    have hone := Sequence.one (a := UInt8.ofNat n) (UInt8.lt_iff_toNat_lt.mpr (by
      rw [hbyte]
      exact Nat.lt_succ_of_le h1))
    rwa [hbyte] at hone
  next h1 =>
    have htrail := toNat_ofNat (n := n % 0x40 + 0x80) (by omega)
    have htrail' := toNat_ofNat (n := n / 64 % 0x40 + 0x80) (by omega)
    split
    next h2 =>
      have ha := toNat_ofNat (n := n / 64 % 0x20 + 0xc0) (by omega)
      have htwo := Sequence.two (a := UInt8.ofNat (n / 64 % 0x20 + 0xc0))
        (range_iff.mpr (by
          rw [ha]
          exact ⟨show 0xC2 ≤ _ by omega, show _ ≤ 0xDF by omega⟩)) (isTrail_ofNat n)
      have hvalue : (n / 64 % 0x20 + 0xc0 - 0xC0) * 64 + (n % 0x40 + 0x80 - 0x80) = n := by omega
      rwa [ha, htrail, hvalue] at htwo
    next h2 =>
      split
      next h3 =>
        have ha := toNat_ofNat (n := n / 4096 % 0x10 + 0xe0) (by omega)
        refine .three (range_iff.mpr ?_) (isTrail_ofNat _) (isTrail_ofNat n) ?_ (by omega)
          (by omega)
        · rw [ha]
          exact ⟨show 0xE0 ≤ _ by omega, show _ ≤ 0xEF by omega⟩
        · rw [ha, htrail, htrail']
          omega
      next h3 =>
        have ha := toNat_ofNat (n := n / 262144 % 0x08 + 0xf0) (by omega)
        have hb := toNat_ofNat (n := n / 4096 % 0x40 + 0x80) (by omega)
        refine .four (range_iff.mpr ?_) (isTrail_ofNat _) (isTrail_ofNat _) (isTrail_ofNat n) ?_
          (by omega) (by omega)
        · rw [ha]
          exact ⟨show 0xF0 ≤ _ by omega, show _ ≤ 0xF4 by omega⟩
        · rw [ha, hb, htrail, htrail']
          omega

theorem Sequence.encodeNat_eq (h : Sequence p n) : encodeNat n = p ∧ IsScalar n := by
  cases h with
  | @one a ha =>
    have ha' : a.toNat < 128 := UInt8.lt_iff_toNat_lt.mp ha
    refine ⟨?_, .inl (by omega)⟩
    rw [encodeNat, if_pos (by omega), UInt8.ofNat_toNat]
  | @two a b ha hb =>
    have ha' : 194 ≤ a.toNat ∧ a.toNat ≤ 223 := range_iff.mp ha
    have hb' := isTrail_iff.mp hb
    refine ⟨?_, .inl (by omega)⟩
    rw [encodeNat, if_neg (by omega), if_pos (by omega),
      (ofNat_eq_iff (b := a) (by omega)).mpr (by omega),
      (ofNat_eq_iff (b := b) (by omega)).mpr (by omega)]
  | @three a b c n ha hb hc hn hmin hsurrogate =>
    have ha' : 224 ≤ a.toNat ∧ a.toNat ≤ 239 := range_iff.mp ha
    have hb' := isTrail_iff.mp hb
    have hc' := isTrail_iff.mp hc
    refine ⟨?_, hsurrogate.imp_right fun h => ⟨h, by omega⟩⟩
    rw [encodeNat, if_neg (by omega), if_neg (by omega), if_pos (by omega),
      (ofNat_eq_iff (b := a) (by omega)).mpr (by omega),
      (ofNat_eq_iff (b := b) (by omega)).mpr (by omega),
      (ofNat_eq_iff (b := c) (by omega)).mpr (by omega)]
  | @four a b c d n ha hb hc hd hn hmin hmax =>
    have ha' : 240 ≤ a.toNat ∧ a.toNat ≤ 244 := range_iff.mp ha
    have hb' := isTrail_iff.mp hb
    have hc' := isTrail_iff.mp hc
    have hd' := isTrail_iff.mp hd
    refine ⟨?_, .inr ⟨by omega, by omega⟩⟩
    rw [encodeNat, if_neg (by omega), if_neg (by omega), if_neg (by omega),
      (ofNat_eq_iff (b := a) (by omega)).mpr (by omega),
      (ofNat_eq_iff (b := b) (by omega)).mpr (by omega),
      (ofNat_eq_iff (b := c) (by omega)).mpr (by omega),
      (ofNat_eq_iff (b := d) (by omega)).mpr (by omega)]

theorem sequence_utf8EncodeChar (c : Char) : Sequence (String.utf8EncodeChar c) c.toNat :=
  sequence_encodeNat (isScalar_toNat c)

theorem Sequence.exists_char (h : Sequence p n) :
    ∃ c : Char, String.utf8EncodeChar c = p ∧ c.toNat = n := by
  obtain ⟨hp, hscalar⟩ := h.encodeNat_eq
  obtain ⟨c, rfl⟩ := hscalar.exists_char
  exact ⟨c, hp, rfl⟩

/-! ## No sequence begins another one -/

/-- The length of a sequence is told by its first byte. -/
def width (a : UInt8) : Nat :=
  if a < 0x80 then 1 else if a ≤ 0xDF then 2 else if a ≤ 0xEF then 3 else 4

theorem Sequence.length_eq (h : Sequence p n) : ∃ a t, p = a :: t ∧ p.length = width a := by
  cases h with
  | one ha => exact ⟨_, _, rfl, (if_pos ha).symm⟩
  | two ha hb =>
    refine ⟨_, _, rfl, ?_⟩
    rw [width, if_neg (UInt8.not_lt.mpr (UInt8.le_trans (by decide) ha.1)), if_pos ha.2]
    rfl
  | three ha hb hc hn hmin hsurrogate =>
    refine ⟨_, _, rfl, ?_⟩
    rw [width, if_neg (UInt8.not_lt.mpr (UInt8.le_trans (by decide) ha.1)),
      if_neg (UInt8.not_le.mpr (UInt8.lt_of_lt_of_le (by decide) ha.1)), if_pos ha.2]
    rfl
  | four ha hb hc hd hn hmin hmax =>
    refine ⟨_, _, rfl, ?_⟩
    rw [width, if_neg (UInt8.not_lt.mpr (UInt8.le_trans (by decide) ha.1)),
      if_neg (UInt8.not_le.mpr (UInt8.lt_of_lt_of_le (by decide) ha.1)),
      if_neg (UInt8.not_le.mpr (UInt8.lt_of_lt_of_le (by decide) ha.1))]
    rfl

theorem Sequence.length_cases (h : Sequence p n) :
    p.length = 1 ∨ p.length = 2 ∨ p.length = 3 ∨ p.length = 4 := by
  cases h with
  | one ha => exact .inl rfl
  | two ha hb => exact .inr (.inl rfl)
  | three ha hb hc => exact .inr (.inr (.inl rfl))
  | four ha hb hc hd => exact .inr (.inr (.inr rfl))

theorem Sequence.le_of_length_ne_one (h : Sequence p n) (hlong : p.length ≠ 1) : 0x80 ≤ n := by
  cases h with
  | one ha => exact absurd rfl hlong
  | two ha hb =>
    have ha' : 0xC2 ≤ _ ∧ _ ≤ 0xDF := range_iff.mp ha
    omega
  | three ha hb hc hn hmin => exact Nat.le_trans (by decide) hmin
  | four ha hb hc hd hn hmin => exact Nat.le_trans (by decide) hmin

theorem Sequence.high (h : Sequence p n) (hlong : p.length ≠ 1) :
    ∀ b ∈ p, 0x80 ≤ b := by
  have hlow : ∀ {x y : UInt8}, 0x80 ≤ x → x ≤ y → 0x80 ≤ y := UInt8.le_trans
  cases h with
  | one ha => exact absurd rfl hlong
  | two ha hb =>
    exact forall_mem_cons.mpr ⟨hlow (by decide) ha.1, forall_mem_singleton.mpr hb.1⟩
  | three ha hb hc =>
    exact forall_mem_cons.mpr ⟨hlow (by decide) ha.1,
      forall_mem_cons.mpr ⟨hb.1, forall_mem_singleton.mpr hc.1⟩⟩
  | four ha hb hc hd =>
    exact forall_mem_cons.mpr ⟨hlow (by decide) ha.1, forall_mem_cons.mpr ⟨hb.1,
      forall_mem_cons.mpr ⟨hc.1, forall_mem_singleton.mpr hd.1⟩⟩⟩

theorem Sequence.trail {b : UInt8} (h : Sequence (b :: p) n) : ∀ d ∈ p, IsTrail d := by
  cases h with
  | one ha => exact fun d hd => absurd hd not_mem_nil
  | two ha hb => exact forall_mem_singleton.mpr hb
  | three ha hb hc => exact forall_mem_cons.mpr ⟨hb, forall_mem_singleton.mpr hc⟩
  | four ha hb hc hd =>
    exact forall_mem_cons.mpr ⟨hb, forall_mem_cons.mpr ⟨hc,
      forall_mem_singleton.mpr hd⟩⟩

theorem Sequence.append_inj (h : Sequence p n) (h' : Sequence p' n') (heq : p ++ r = p' ++ r') :
    p = p' ∧ r = r' := by
  obtain ⟨a, t, rfl, hlen⟩ := h.length_eq
  obtain ⟨a', t', rfl, hlen'⟩ := h'.length_eq
  have hhead : a = a' := (List.cons.inj heq).1
  subst hhead
  exact List.append_inj heq (hlen.trans hlen'.symm)

end Utf8
