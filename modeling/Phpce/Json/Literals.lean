import Phpce.Json.Scanner

/-!
# The strings that the scanner reads

The rules of the scanner's two passes over a string, against the grammar of strings.
-/

namespace Phpce

namespace Json

open Bytes Buffer JsonText Utf8 List Option

variable {s t r : Bytes} {n : Nat}

/-! ## Matching -/

@[simp] theorem starts_nil (s : Bytes) : starts [] s = true := by
  cases s <;> rfl

@[simp] theorem starts_of_nil (p : Class) (ps : List Class) : starts (p :: ps) [] = false := rfl

@[simp] theorem starts_cons (p : Class) (ps : List Class) (b : UInt8) (s : Bytes) :
    starts (p :: ps) (b :: s) = (p b && starts ps s) := rfl

theorem starts_cons_iff {p : Class} {ps : List Class} :
    starts (p :: ps) s = true ↔ ∃ b t, s = b :: t ∧ p b = true ∧ starts ps t = true := by
  cases s with
  | nil => simp
  | cons b t => simp

@[simp] theorem is_eq_true {b c : UInt8} : is c b = true ↔ b = c := beq_iff_eq

@[simp] theorem range_eq_true {lo hi b : UInt8} : range lo hi b = true ↔ lo ≤ b ∧ b ≤ hi :=
  decide_eq_true_iff

theorem utf8T_iff {b : UInt8} : utf8T b = true ↔ IsTrail b := range_eq_true

theorem range_toNat {lo hi b : UInt8} :
    range lo hi b = true ↔ lo.toNat ≤ b.toNat ∧ b.toNat ≤ hi.toNat :=
  range_eq_true.trans range_iff

/-! ## UTF-8 -/

theorem starts_utf8_2_iff :
    starts utf8_2 s = true ↔ ∃ a b t n, s = a :: b :: t ∧ Sequence [a, b] n := by
  rw [utf8_2, starts_cons_iff]
  constructor
  · rintro ⟨a, s, rfl, ha, hs⟩
    obtain ⟨b, t, rfl, hb, -⟩ := starts_cons_iff.mp hs
    exact ⟨a, b, t, _, rfl, .two (range_eq_true.mp ha) (utf8T_iff.mp hb)⟩
  · rintro ⟨a, b, t, n, rfl, hseq⟩
    cases hseq with
    | two ha hb =>
      exact ⟨a, b :: t, rfl, range_eq_true.mpr ha, by simp [utf8T_iff.mpr hb]⟩

theorem three_iff {a b c : UInt8} :
    startsAny utf8_3 (a :: b :: c :: t) = true ↔ ∃ n, Sequence [a, b, c] n := by
  simp only [startsAny, utf8_3, any_cons, any_nil, starts_cons, starts_nil, Bool.or_false,
    Bool.and_true, Bool.or_eq_true, Bool.and_eq_true, is_eq_true, utf8T_iff, range_toNat,
    isTrail_iff, ← UInt8.toNat_inj]
  simp only [UInt8.reduceToNat]
  constructor
  · intro h
    refine ⟨_, .three (range_iff.mpr ⟨show 0xE0 ≤ _ by omega, show _ ≤ 0xEF by omega⟩)
      (isTrail_iff.mpr (by omega)) (isTrail_iff.mpr (by omega)) rfl (by omega) (by omega)⟩
  · rintro ⟨n, hseq⟩
    cases hseq with
    | three ha hb hc hn hmin hsurrogate =>
      have ha' : 0xE0 ≤ a.toNat ∧ a.toNat ≤ 0xEF := range_iff.mp ha
      rw [isTrail_iff] at hb hc
      omega

theorem four_iff {a b c d : UInt8} :
    startsAny utf8_4 (a :: b :: c :: d :: t) = true ↔ ∃ n, Sequence [a, b, c, d] n := by
  simp only [startsAny, utf8_4, any_cons, any_nil, starts_cons, starts_nil, Bool.or_false,
    Bool.and_true, Bool.or_eq_true, Bool.and_eq_true, is_eq_true, utf8T_iff, range_toNat,
    isTrail_iff, ← UInt8.toNat_inj]
  simp only [UInt8.reduceToNat]
  constructor
  · intro h
    refine ⟨_, .four (range_iff.mpr ⟨show 0xF0 ≤ _ by omega, show _ ≤ 0xF4 by omega⟩)
      (isTrail_iff.mpr (by omega)) (isTrail_iff.mpr (by omega)) (isTrail_iff.mpr (by omega)) rfl
      (by omega) (by omega)⟩
  · rintro ⟨n, hseq⟩
    cases hseq with
    | four ha hb hc hd hn hmin hmax =>
      have ha' : 0xF0 ≤ a.toNat ∧ a.toNat ≤ 0xF4 := range_iff.mp ha
      rw [isTrail_iff] at hb hc hd
      omega

/-! ## Hexadecimal digits -/

theorem hexDigit_eq (c : UInt8) : hexDigit c = if hex c then some (hexToInt c) else none :=
  forall_byte (by decide +kernel) c

theorem hex_of_hexDigit {c : UInt8} {x : Nat} (h : hexDigit c = some x) :
    hex c = true ∧ hexToInt c = x := by
  rw [hexDigit_eq] at h
  split at h
  next hc => exact ⟨hc, some.inj h⟩
  next hc => exact absurd h (by simp)

theorem hexDigit_of_hex {c : UInt8} (h : hex c = true) : hexDigit c = some (hexToInt c) := by
  rw [hexDigit_eq, if_pos h]

/-- `[dD]` then `[89abAB]`, or then `[c-fC-F]`: the second bytes of surrogates. -/
def highSecond : Class := either (range 56 57) (either (range 97 98) (range 65 66))

def lowSecond : Class := either (range 99 102) (range 67 70)

/-- `HEXC | [efEF]` -/
def notD : Class := either hexc (either (range 101 102) (range 69 70))

/-- What the classes of hexadecimal digits say about the value of the digit. -/
structure Classes (c : UInt8) (x : Nat) : Prop where
  lt : x < 16
  hex : hex c = true
  zero : is 48 c = true ↔ x = 0
  hex7 : hex7 c = true ↔ x ≤ 7
  letterD : letterD c = true ↔ x = 13
  notD : notD c = true ↔ x ≠ 13
  highSecond : highSecond c = true ↔ 8 ≤ x ∧ x ≤ 11
  lowSecond : lowSecond c = true ↔ 12 ≤ x

theorem classes {c : UInt8} {x : Nat} (h : hexDigit c = some x) : Classes c x := by
  obtain ⟨hc, rfl⟩ := hex_of_hexDigit h
  obtain ⟨hlt, hzero, hseven, hd, hnotD, hhigh, hlow⟩ := forall_byte (p := fun c => hex c = true →
    hexToInt c < 16 ∧ (is 48 c = true ↔ hexToInt c = 0) ∧ (hex7 c = true ↔ hexToInt c ≤ 7) ∧
      (letterD c = true ↔ hexToInt c = 13) ∧ (notD c = true ↔ hexToInt c ≠ 13) ∧
      (highSecond c = true ↔ 8 ≤ hexToInt c ∧ hexToInt c ≤ 11) ∧
      (lowSecond c = true ↔ 12 ≤ hexToInt c)) (by decide +kernel) c hc
  exact ⟨hlt, hc, hzero, hseven, hd, hnotD, hhigh, hlow⟩

theorem hex_of_class (c : UInt8) :
    (is 48 c = true → hex c = true) ∧ (hex7 c = true → hex c = true) ∧
      (letterD c = true → hex c = true) ∧ (notD c = true → hex c = true) ∧
      (highSecond c = true → hex c = true) ∧ (lowSecond c = true → hex c = true) :=
  forall_byte (by decide +kernel) c

/-! ## Escapes of code units -/

theorem length_of_hex4 {x : Bytes} (hx : Hex4 x n) : x.length = 4 := by
  cases hx with
  | intro ha hb hc hd => rfl

theorem lt_of_hex4 {x : Bytes} (hx : Hex4 x n) : n < 0x10000 := by
  cases hx with
  | intro ha hb hc hd =>
    have ha' := (classes ha).lt
    have hb' := (classes hb).lt
    have hc' := (classes hc).lt
    have hd' := (classes hd).lt
    omega

theorem starts_utfpref_iff {ps : List Class} :
    starts (utfpref ++ ps) s = true ↔ ∃ t, s = 92 :: 117 :: t ∧ starts ps t = true := by
  show starts (is 92 :: is 117 :: ps) s = true ↔ _
  constructor
  · intro h
    obtain ⟨b, s, rfl, hback, h⟩ := starts_cons_iff.mp h
    obtain ⟨c, t, rfl, hu, h⟩ := starts_cons_iff.mp h
    rw [is_eq_true] at hback hu
    exact ⟨t, by rw [hback, hu], h⟩
  · rintro ⟨t, rfl, h⟩
    rw [starts_cons, starts_cons, h]
    rfl

theorem starts_four_iff {p q p' q' : Class} {ps : List Class} :
    starts (p :: q :: p' :: q' :: ps) s = true ↔
      ∃ a b c d t, s = a :: b :: c :: d :: t ∧ (p a = true ∧ q b = true ∧ p' c = true ∧
        q' d = true) ∧ starts ps t = true := by
  constructor
  · intro h
    obtain ⟨a, s, rfl, ha, h⟩ := starts_cons_iff.mp h
    obtain ⟨b, s, rfl, hb, h⟩ := starts_cons_iff.mp h
    obtain ⟨c, s, rfl, hc, h⟩ := starts_cons_iff.mp h
    obtain ⟨d, t, rfl, hd, h⟩ := starts_cons_iff.mp h
    exact ⟨a, b, c, d, t, rfl, ⟨ha, hb, hc, hd⟩, h⟩
  · rintro ⟨a, b, c, d, t, rfl, ⟨ha, hb, hc, hd⟩, h⟩
    rw [starts_cons, starts_cons, starts_cons, starts_cons, ha, hb, hc, hd, h]
    rfl

theorem starts_ucs2_iff :
    starts ucs2 s = true ↔ ∃ x n t, s = 92 :: 117 :: (x ++ t) ∧ Hex4 x n := by
  rw [ucs2, starts_utfpref_iff]
  constructor
  · rintro ⟨t, rfl, h⟩
    obtain ⟨a, b, c, d, t, rfl, ⟨ha, hb, hc, hd⟩, -⟩ := starts_four_iff.mp h
    exact ⟨[a, b, c, d], _, t, rfl, .intro (hexDigit_of_hex ha) (hexDigit_of_hex hb)
      (hexDigit_of_hex hc) (hexDigit_of_hex hd)⟩
  · rintro ⟨x, n, t, rfl, hx⟩
    cases hx with
    | @intro a b c d _ _ _ _ ha hb hc hd =>
      exact ⟨_, rfl, starts_four_iff.mpr ⟨a, b, c, d, t, rfl,
        ⟨(classes ha).hex, (classes hb).hex, (classes hc).hex, (classes hd).hex⟩, starts_nil t⟩⟩

theorem starts_hex4 {p q p' q' : Class} {ps : List Class} {a b c d : UInt8} :
    starts (utfpref ++ p :: q :: p' :: q' :: ps) (92 :: 117 :: ([a, b, c, d] ++ t)) = true ↔
      (p a = true ∧ q b = true ∧ p' c = true ∧ q' d = true) ∧ starts ps t = true := by
  show (true && (true && (p a && (q b && (p' c && (q' d && starts ps t)))))) = true ↔ _
  simp only [Bool.true_and, Bool.and_eq_true, and_assoc]

theorem starts_utf16_1 {x : Bytes} (hx : Hex4 x n) (t : Bytes) :
    starts utf16_1 (92 :: 117 :: (x ++ t)) = true ↔ n < 0x80 := by
  cases hx with
  | intro ha hb hc hd =>
    rw [utf16_1, starts_hex4, (classes ha).zero, (classes hb).zero, (classes hc).hex7]
    have ha' := (classes ha).lt
    have hb' := (classes hb).lt
    have hc' := (classes hc).lt
    have hd' := (classes hd).lt
    simp only [(classes hd).hex, starts_nil, and_true]
    omega

theorem starts_utf16_2 {x : Bytes} (hx : Hex4 x n) (t : Bytes) :
    starts utf16_2 (92 :: 117 :: (x ++ t)) = true ↔ n < 0x800 := by
  cases hx with
  | intro ha hb hc hd =>
    rw [utf16_2, starts_hex4, (classes ha).zero, (classes hb).hex7]
    have ha' := (classes ha).lt
    have hb' := (classes hb).lt
    have hc' := (classes hc).lt
    have hd' := (classes hd).lt
    simp only [(classes hc).hex, (classes hd).hex, starts_nil, and_true]
    omega

theorem starts_utf16_3 {x : Bytes} (hx : Hex4 x n) (t : Bytes) :
    startsAny utf16_3 (92 :: 117 :: (x ++ t)) = true ↔ n < 0xD800 ∨ 0xDFFF < n := by
  cases hx with
  | intro ha hb hc hd =>
    rw [startsAny, utf16_3, any_cons, any_cons, any_nil, Bool.or_false,
      Bool.or_eq_true, starts_hex4, starts_hex4]
    show (notD _ = true ∧ _) ∧ _ ∨ _ ↔ _
    rw [(classes ha).notD, (classes ha).letterD, (classes hb).hex7]
    have ha' := (classes ha).lt
    have hb' := (classes hb).lt
    have hc' := (classes hc).lt
    have hd' := (classes hd).lt
    simp only [(classes hb).hex, (classes hc).hex, (classes hd).hex, starts_nil, and_true]
    omega

theorem starts_utf16_4_iff :
    starts utf16_4 s = true ↔ ∃ x y hi lo t, s = 92 :: 117 :: (x ++ 92 :: 117 :: (y ++ t)) ∧
      Hex4 x hi ∧ Hex4 y lo ∧ (0xD800 ≤ hi ∧ hi ≤ 0xDBFF) ∧ 0xDC00 ≤ lo ∧ lo ≤ 0xDFFF := by
  show starts (utfpref ++ letterD :: highSecond :: hex :: hex ::
    (utfpref ++ letterD :: lowSecond :: hex :: hex :: [])) s = true ↔ _
  rw [starts_utfpref_iff]
  constructor
  · rintro ⟨t, rfl, h⟩
    obtain ⟨a, b, c, d, t, rfl, ⟨ha, hb, hc, hd⟩, hsecond⟩ := starts_four_iff.mp h
    obtain ⟨t, rfl, hdigits⟩ := starts_utfpref_iff.mp hsecond
    obtain ⟨e, f, g, i, t, rfl, ⟨he, hf, hg, hi⟩, -⟩ := starts_four_iff.mp hdigits
    have ha' := classes (hexDigit_of_hex ((hex_of_class a).2.2.1 ha))
    have hb' := classes (hexDigit_of_hex ((hex_of_class b).2.2.2.2.1 hb))
    have hc' := classes (hexDigit_of_hex hc)
    have hd' := classes (hexDigit_of_hex hd)
    have he' := classes (hexDigit_of_hex ((hex_of_class e).2.2.1 he))
    have hf' := classes (hexDigit_of_hex ((hex_of_class f).2.2.2.2.2 hf))
    have hg' := classes (hexDigit_of_hex hg)
    have hi' := classes (hexDigit_of_hex hi)
    have hx := ha'.letterD.mp ha
    have hy := hb'.highSecond.mp hb
    have hx' := he'.letterD.mp he
    have hy' := hf'.lowSecond.mp hf
    have hlt := hc'.lt
    have hlt' := hd'.lt
    have hlt'' := hf'.lt
    have hlt''' := hg'.lt
    have hlt'''' := hi'.lt
    exact ⟨[a, b, c, d], [e, f, g, i], _, _, t, rfl,
      .intro (hexDigit_of_hex ha'.hex) (hexDigit_of_hex hb'.hex) (hexDigit_of_hex hc)
        (hexDigit_of_hex hd),
      .intro (hexDigit_of_hex he'.hex) (hexDigit_of_hex hf'.hex) (hexDigit_of_hex hg)
        (hexDigit_of_hex hi), ⟨by omega, by omega⟩, by omega, by omega⟩
  · rintro ⟨x, y, hi, lo, t, rfl, hx, hy, hhi, hlo⟩
    cases hx with
    | @intro a b c d _ _ _ _ ha hb hc hd =>
      cases hy with
      | @intro e f g i _ _ _ _ he hf hg hi =>
        have hb' := (classes hb).lt
        have hc' := (classes hc).lt
        have hd' := (classes hd).lt
        have hf' := (classes hf).lt
        have hg' := (classes hg).lt
        have hi' := (classes hi).lt
        exact ⟨_, rfl, starts_four_iff.mpr ⟨a, b, c, d, _, rfl,
          ⟨(classes ha).letterD.mpr (by omega), (classes hb).highSecond.mpr (by omega),
            (classes hc).hex, (classes hd).hex⟩,
          starts_utfpref_iff.mpr ⟨_, rfl, starts_four_iff.mpr ⟨e, f, g, i, t, rfl,
            ⟨(classes he).letterD.mpr (by omega), (classes hf).lowSecond.mpr (by omega),
              (classes hg).hex, (classes hi).hex⟩, starts_nil t⟩⟩⟩⟩

/-! ## One character -/

theorem startsAny_utf8_3_iff :
    startsAny utf8_3 s = true ↔ ∃ p n r, s = p ++ r ∧ Sequence p n ∧ p.length = 3 := by
  constructor
  · intro h
    rcases s with _ | ⟨a, _ | ⟨b, _ | ⟨c, t⟩⟩⟩
    · exact absurd h (by decide)
    · exact absurd h (by simp [startsAny, utf8_3])
    · exact absurd h (by simp [startsAny, utf8_3])
    · obtain ⟨n, hseq⟩ := three_iff.mp h
      exact ⟨[a, b, c], n, t, rfl, hseq, rfl⟩
  · rintro ⟨p, n, r, rfl, hseq, hlen⟩
    match p, hlen with
    | [a, b, c], _ => exact three_iff.mpr ⟨n, hseq⟩

theorem startsAny_utf8_4_iff :
    startsAny utf8_4 s = true ↔ ∃ p n r, s = p ++ r ∧ Sequence p n ∧ p.length = 4 := by
  constructor
  · intro h
    rcases s with _ | ⟨a, _ | ⟨b, _ | ⟨c, _ | ⟨d, t⟩⟩⟩⟩
    · exact absurd h (by decide)
    · exact absurd h (by simp [startsAny, utf8_4])
    · exact absurd h (by simp [startsAny, utf8_4])
    · exact absurd h (by simp [startsAny, utf8_4])
    · obtain ⟨n, hseq⟩ := four_iff.mp h
      exact ⟨[a, b, c, d], n, t, rfl, hseq, rfl⟩
  · rintro ⟨p, n, r, rfl, hseq, hlen⟩
    match p, hlen with
    | [a, b, c, d], _ => exact four_iff.mpr ⟨n, hseq⟩

theorem startsAny_utf8_2_iff :
    starts utf8_2 s = true ↔ ∃ p n r, s = p ++ r ∧ Sequence p n ∧ p.length = 2 := by
  rw [starts_utf8_2_iff]
  constructor
  · rintro ⟨a, b, t, n, rfl, hseq⟩
    exact ⟨[a, b], n, t, rfl, hseq, rfl⟩
  · rintro ⟨p, n, r, rfl, hseq, hlen⟩
    match p, hlen with
    | [a, b], _ => exact ⟨a, b, r, n, rfl, hseq⟩

theorem exists_sequence_iff {p : Bytes} (h : Sequence p n) (k : Nat) :
    (∃ p' n' r', p ++ r = p' ++ r' ∧ Sequence p' n' ∧ p'.length = k) ↔ p.length = k := by
  constructor
  · rintro ⟨p', n', r', heq, h', hlen⟩
    rwa [(h.append_inj h' heq).1]
  · exact fun hlen => ⟨p, n, r, rfl, h, hlen⟩

theorem utf16_eq_false (h : ∀ ps, starts (utfpref ++ ps) s = false) :
    starts utf16_1 s = false ∧ starts utf16_2 s = false ∧ startsAny utf16_3 s = false ∧
      starts utf16_4 s = false ∧ starts ucs2 s = false := by
  refine ⟨h _, h _, ?_, ?_, h _⟩
  · rw [startsAny, utf16_3, any_cons, any_cons, any_nil, Bool.or_false, Bool.or_eq_false_iff]
    exact ⟨h _, h _⟩
  · rw [utf16_4, append_assoc]
    exact h _

theorem starts_escpref_of_ne {b : UInt8} (hb : b ≠ 92) (ps : List Class) :
    starts (escpref :: ps) (b :: s) = false := by
  rw [starts_cons, show escpref b = false from beq_false_of_ne hb, Bool.false_and]

theorem starts_utfpref_of_escsym {e : UInt8} (he : escsym e = true) (r : Bytes)
    (ps : List Class) : starts (utfpref ++ ps) (92 :: e :: r) = false := by
  refine Bool.eq_false_iff.mpr fun h => ?_
  obtain ⟨t, heq, -⟩ := starts_utfpref_iff.mp h
  obtain rfl : e = 117 := (List.cons.inj (List.cons.inj heq).2).1
  exact absurd he (by decide)

theorem matchP1_of_ne {b : UInt8} (hb : b ≠ 92) :
    matchP1 (b :: s) =
      if startsAny utf8_4 (b :: s) then (.utf8, 4)
      else if startsAny utf8_3 (b :: s) then (.utf8, 3)
      else if starts utf8_2 (b :: s) then (.utf8, 2)
      else if starts [ctrl] (b :: s) then (.ctrl, 1)
      else if starts [is 34] (b :: s) then (.quote, 1)
      else if starts utf8_1 (b :: s) then (.utf8, 1)
      else (.any, 1) := by
  have hstarts := starts_escpref_of_ne (s := s) hb
  obtain ⟨hone, htwo, hthree, hfour, hucs2⟩ := utf16_eq_false fun ps => hstarts (is 117 :: ps)
  rw [matchP1, hone, htwo, hthree, hfour, hucs2,
    show starts esc (b :: s) = false from hstarts _, hstarts]
  simp only [Bool.false_eq_true, if_false]

theorem matchP1_sequence {p : Bytes} (h : Sequence p n) (hlong : p.length ≠ 1) (r : Bytes) :
    matchP1 (p ++ r) = (.utf8, p.length) := by
  obtain ⟨a, t, rfl, hlen⟩ := h.length_eq
  have hne : a ≠ 92 := by
    rintro rfl
    exact hlong hlen
  have hfour := startsAny_utf8_4_iff.trans (exists_sequence_iff (r := r) h 4)
  have hthree := startsAny_utf8_3_iff.trans (exists_sequence_iff (r := r) h 3)
  have htwo := startsAny_utf8_2_iff.trans (exists_sequence_iff (r := r) h 2)
  rw [cons_append] at hfour hthree htwo
  rw [cons_append, matchP1_of_ne hne]
  simp only [hfour, hthree, htwo]
  rcases h.length_cases with hl | hl | hl | hl
  · exact absurd hl hlong
  · rw [hl, if_neg (by decide), if_neg (by decide), if_pos rfl]
  · rw [hl, if_neg (by decide), if_pos rfl]
  · rw [hl, if_pos rfl]

theorem matchP1_ascii {a : UInt8} (ha : a < 0x80) (hne : a ≠ 92) (r : Bytes) :
    matchP1 (a :: r) =
      if ctrl a then (.ctrl, 1) else if a = 34 then (.quote, 1) else (.utf8, 1) := by
  have hone := Sequence.one ha
  have hfour := startsAny_utf8_4_iff.trans (exists_sequence_iff (r := r) hone 4)
  have hthree := startsAny_utf8_3_iff.trans (exists_sequence_iff (r := r) hone 3)
  have htwo := startsAny_utf8_2_iff.trans (exists_sequence_iff (r := r) hone 2)
  rw [singleton_append] at hfour hthree htwo
  rw [matchP1_of_ne hne]
  simp only [hfour, hthree, htwo]
  have hutf8 : starts utf8_1 (a :: r) = true := by
    rw [utf8_1, starts_cons, starts_nil, Bool.and_true, range_eq_true]
    exact ⟨UInt8.le_iff_toNat_le.mpr (Nat.zero_le _),
      UInt8.le_iff_toNat_le.mpr (Nat.le_of_lt_succ (UInt8.lt_iff_toNat_lt.mp ha))⟩
  rw [if_neg (show ¬[a].length = 4 from (by decide : ¬1 = 4)),
    if_neg (show ¬[a].length = 3 from (by decide : ¬1 = 3)),
    if_neg (show ¬[a].length = 2 from (by decide : ¬1 = 2)), hutf8, if_pos rfl, starts_cons,
    starts_cons, starts_nil, Bool.and_true, Bool.and_true]
  simp only [is_eq_true]

theorem hex4_append_inj {x x' : Bytes} {n' : Nat} {t' : Bytes} (hx : Hex4 x n) (hx' : Hex4 x' n')
    (heq : x ++ t = x' ++ t') : n = n' ∧ t = t' := by
  obtain ⟨rfl, rfl⟩ := List.append_inj heq ((length_of_hex4 hx).trans (length_of_hex4 hx').symm)
  refine ⟨?_, rfl⟩
  cases hx with
  | intro ha hb hc hd =>
    cases hx' with
    | intro ha' hb' hc' hd' =>
      rw [some.inj (ha.symm.trans ha'), some.inj (hb.symm.trans hb'),
        some.inj (hc.symm.trans hc'), some.inj (hd.symm.trans hd')]

theorem matchP1_unicode {x : Bytes} (hx : Hex4 x n) (hscalar : IsScalar n) (r : Bytes) :
    matchP1 (92 :: 117 :: (x ++ r)) =
      if n < 0x80 then (.utf16_1, 6) else if n < 0x800 then (.utf16_2, 6) else (.utf16_3, 6) := by
  have hpair : ¬starts utf16_4 (92 :: 117 :: (x ++ r)) = true := by
    intro h
    obtain ⟨x', y, hi, lo, t, heq, hx', hy, hhi, hlo⟩ := starts_utf16_4_iff.mp h
    have hn := (hex4_append_inj hx hx' (List.cons.inj (List.cons.inj heq).2).2).1
    rw [IsScalar] at hscalar
    omega
  have hthree : n < 0xD800 ∨ 0xDFFF < n := hscalar.imp_right And.left
  rw [matchP1, if_neg hpair]
  simp only [starts_utf16_1 hx, starts_utf16_2 hx, starts_utf16_3 hx, if_pos hthree]

theorem matchP1_pair {x y : Bytes} {hi lo : Nat} (hx : Hex4 x hi) (hy : Hex4 y lo)
    (hhi : 0xD800 ≤ hi ∧ hi ≤ 0xDBFF) (hlo : 0xDC00 ≤ lo ∧ lo ≤ 0xDFFF) (r : Bytes) :
    matchP1 (92 :: 117 :: (x ++ 92 :: 117 :: (y ++ r))) = (.utf16_4, 12) := by
  rw [matchP1, if_pos (starts_utf16_4_iff.mpr ⟨x, y, hi, lo, r, rfl, hx, hy, hhi, hlo⟩)]

theorem escape_table (e : UInt8) :
    twoCharacter e = (escChar e).map UInt8.toNat ∧ (escsym e = (escChar e).isSome) ∧
      ∀ n ∈ twoCharacter e, n < 0x80 :=
  forall_byte (by decide +kernel) e

theorem escape_of_twoCharacter {e : UInt8} (h : twoCharacter e = some n) :
    escsym e = true ∧ escChar e = some (UInt8.ofNat n) ∧ n < 0x80 := by
  obtain ⟨htwo, hsym, hlt⟩ := escape_table e
  have hn := hlt n h
  rw [htwo, map_eq_some_iff] at h
  obtain ⟨c, hc, rfl⟩ := h
  rw [hsym, hc, UInt8.ofNat_toNat]
  exact ⟨rfl, rfl, hn⟩

theorem exists_twoCharacter {e : UInt8} (h : escsym e = true) :
    ∃ n, twoCharacter e = some n ∧ n < 0x80 := by
  obtain ⟨htwo, hsym, hlt⟩ := escape_table e
  rw [hsym, isSome_iff_exists] at h
  obtain ⟨c, hc⟩ := h
  have hmap : twoCharacter e = some c.toNat := by rw [htwo, hc]; rfl
  exact ⟨c.toNat, hmap, hlt c.toNat hmap⟩

theorem matchP1_escape {e : UInt8} (he : escsym e = true) (r : Bytes) :
    matchP1 (92 :: e :: r) = (.esc, 2) := by
  obtain ⟨h₁, h₂, h₃, h₄, hucs2⟩ := utf16_eq_false (starts_utfpref_of_escsym he r)
  have hone : Sequence [92] 92 := Sequence.one (by decide)
  have hfour := startsAny_utf8_4_iff.trans (exists_sequence_iff (r := e :: r) hone 4)
  have hthree := startsAny_utf8_3_iff.trans (exists_sequence_iff (r := e :: r) hone 3)
  rw [singleton_append] at hfour hthree
  have hesc : starts esc (92 :: e :: r) = true := by
    rw [esc, starts_cons, starts_cons, starts_nil, he]
    rfl
  rw [matchP1, h₁, h₂, h₃, h₄, hucs2]
  simp only [Bool.false_eq_true, if_false]
  rw [if_neg (fun h => absurd (hfour.mp h) (show ¬1 = 4 by decide)),
    if_neg (fun h => absurd (hthree.mp h) (show ¬1 = 3 by decide)), if_pos hesc]

/-! ## The first pass -/

theorem length_encodeNat (n : Nat) :
    (encodeNat n).length =
      if n ≤ 0x7f then 1 else if n ≤ 0x7ff then 2 else if n ≤ 0xffff then 3 else 4 := by
  rw [encodeNat]
  split
  · rfl
  · split
    · rfl
    · split <;> rfl

theorem matchP1_printable {a : UInt8} (ha : a < 0x80) (hcontrol : 0x20 ≤ a) (hquote : a ≠ 34)
    (hback : a ≠ 92) (r : Bytes) : matchP1 (a :: r) = (.utf8, 1) := by
  have hctrl : ¬ctrl a = true := by
    rw [ctrl, range_eq_true, not_and, UInt8.not_le]
    exact fun _ => UInt8.lt_of_lt_of_le (by decide) hcontrol
  rw [matchP1_ascii ha hback, if_neg hctrl, if_neg hquote]

theorem matchP1_unescaped {c : Char} (hcontrol : 0x20 ≤ c.toNat) (hquote : c.toNat ≠ 0x22)
    (hback : c.toNat ≠ 0x5C) (r : Bytes) :
    matchP1 (String.utf8EncodeChar c ++ r) = (.utf8, (String.utf8EncodeChar c).length) := by
  have hseq := sequence_utf8EncodeChar c
  generalize String.utf8EncodeChar c = p at hseq
  generalize c.toNat = n at hseq hcontrol hquote hback
  by_cases hone : p.length = 1
  · cases hseq with
    | @one a ha =>
      refine matchP1_printable ha (UInt8.le_iff_toNat_le.mpr hcontrol) ?_ ?_ r
      · rintro rfl
        exact hquote rfl
      · rintro rfl
        exact hback rfl
    | two ha hb => exact absurd hone (by simp)
    | three ha hb hc => exact absurd hone (by simp)
    | four ha hb hc hd => exact absurd hone (by simp)
  · exact matchP1_sequence hseq hone r

/-- **What is written for a character is matched by a rule**, which counts how many bytes more it
has than the encoding of the character. -/
theorem goto_of_written {c : Char} {p : Bytes} (h : Written c p) (r : Bytes) :
    ∃ more, actionP1 (matchP1 (p ++ r)).1 = .goto (Int32.ofNat more) ∧
      (matchP1 (p ++ r)).2 = p.length ∧ p.length = (String.utf8EncodeChar c).length + more ∧
        (more = 0 → p = String.utf8EncodeChar c) := by
  cases h with
  | unescaped hcontrol hquote hback =>
    rw [matchP1_unescaped hcontrol hquote hback]
    exact ⟨0, rfl, rfl, rfl, fun _ => rfl⟩
  | escape he =>
    obtain ⟨hsym, -, hlt⟩ := escape_of_twoCharacter he
    rw [cons_append, singleton_append, matchP1_escape hsym, utf8EncodeChar_eq,
      length_encodeNat, if_pos (by omega)]
    exact ⟨1, rfl, rfl, rfl, fun h => absurd h (by decide)⟩
  | @unicode x hx =>
    have hlen : (92 :: 117 :: x).length = 6 := congrArg (· + 2) (length_of_hex4 hx)
    have hlt := lt_of_hex4 hx
    rw [cons_append, cons_append, matchP1_unicode hx (isScalar_toNat c),
      utf8EncodeChar_eq, length_encodeNat, hlen]
    by_cases hone : c.toNat < 0x80
    · rw [if_pos hone, if_pos (by omega)]
      exact ⟨5, rfl, rfl, rfl, fun h => absurd h (by decide)⟩
    · rw [if_neg hone]
      by_cases htwo : c.toNat < 0x800
      · rw [if_pos htwo, if_neg (by omega), if_pos (by omega)]
        exact ⟨4, rfl, rfl, rfl, fun h => absurd h (by decide)⟩
      · rw [if_neg htwo, if_neg (by omega), if_neg (by omega), if_pos (by omega)]
        exact ⟨3, rfl, rfl, rfl, fun h => absurd h (by decide)⟩
  | @pair x y hi lo hx hy hhi hlo hc =>
    have hlen : (92 :: 117 :: x ++ 92 :: 117 :: y).length = 12 := by
      show (x ++ 92 :: 117 :: y).length + 2 = 12
      rw [length_append, length_cons, length_cons, length_of_hex4 hx,
        length_of_hex4 hy]
    have happend : 92 :: 117 :: x ++ 92 :: 117 :: y ++ r =
        92 :: 117 :: (x ++ 92 :: 117 :: (y ++ r)) := by
      simp only [cons_append, append_assoc]
    rw [happend, matchP1_pair hx hy hhi hlo, utf8EncodeChar_eq, length_encodeNat, hlen,
      if_neg (by omega), if_neg (by omega), if_neg (by omega)]
    exact ⟨8, rfl, rfl, rfl, fun h => absurd h (by decide)⟩

theorem starts_ucs2_of (h : starts utf16_1 s = true ∨ starts utf16_2 s = true ∨
    startsAny utf16_3 s = true) : starts ucs2 s = true := by
  have hfour {p q p' q' : Class} (hp : ∀ c, p c = true → hex c = true)
      (hq : ∀ c, q c = true → hex c = true) (hp' : ∀ c, p' c = true → hex c = true)
      (hq' : ∀ c, q' c = true → hex c = true)
      (h : starts (utfpref ++ [p, q, p', q']) s = true) : starts ucs2 s = true := by
    obtain ⟨t, rfl, hdigits⟩ := starts_utfpref_iff.mp h
    obtain ⟨a, b, c, d, t, rfl, ⟨ha, hb, hc, hd⟩, -⟩ := starts_four_iff.mp hdigits
    exact starts_utfpref_iff.mpr ⟨_, rfl, starts_four_iff.mpr
      ⟨a, b, c, d, t, rfl, ⟨hp a ha, hq b hb, hp' c hc, hq' d hd⟩, starts_nil t⟩⟩
  have hself (c : UInt8) (hc : hex c = true) : hex c = true := hc
  rcases h with h | h | h
  · exact hfour (fun c => (hex_of_class c).1) (fun c => (hex_of_class c).1)
      (fun c => (hex_of_class c).2.1) hself h
  · exact hfour (fun c => (hex_of_class c).1) (fun c => (hex_of_class c).2.1) hself hself h
  · rw [startsAny, utf16_3, any_cons, any_cons, any_nil, Bool.or_false,
      Bool.or_eq_true] at h
    rcases h with h | h
    · exact hfour (fun c => (hex_of_class c).2.2.2.1) hself hself hself h
    · exact hfour (fun c => (hex_of_class c).2.2.1) (fun c => (hex_of_class c).2.1) hself hself h

theorem exists_unescaped {p : Bytes} (h : Sequence p n) (hlong : p.length ≠ 1) :
    ∃ c, Written c p := by
  have hn := h.le_of_length_ne_one hlong
  obtain ⟨c, rfl, rfl⟩ := h.exists_char
  exact ⟨c, .unescaped (by omega) (by omega) (by omega)⟩

/-- **What the rules match**: what is written for a character, the closing quote, or an error. -/
theorem matchP1_cases (s : Bytes) :
    (∃ c p r, Written c p ∧ s = p ++ r ∧ (matchP1 s).2 = p.length) ∨
      (∃ t, s = 34 :: t) ∨ ∃ errcode, actionP1 (matchP1 s).1 = .fail errcode := by
  rw [matchP1]
  by_cases hpair : starts utf16_4 s = true
  · obtain ⟨x, y, hi, lo, t, rfl, hx, hy, hhi, hlo⟩ := starts_utf16_4_iff.mp hpair
    have hscalar : IsScalar (0x10000 + (hi - 0xD800) * 0x400 + (lo - 0xDC00)) :=
      .inr ⟨by omega, by omega⟩
    obtain ⟨c, hc⟩ := hscalar.exists_char
    refine .inl ⟨c, _, t, .pair hx hy hhi hlo hc, ?_, ?_⟩
    · simp only [cons_append, append_assoc]
    · rw [if_pos hpair, length_append, length_cons, length_cons, length_cons,
        length_cons, length_of_hex4 hx, length_of_hex4 hy]
  rw [if_neg hpair]
  by_cases hucs2 : starts ucs2 s = true
  · obtain ⟨x, n, t, rfl, hx⟩ := starts_ucs2_iff.mp hucs2
    have hlen : (92 :: 117 :: x).length = 6 := congrArg (· + 2) (length_of_hex4 hx)
    by_cases hscalar : IsScalar n
    · obtain ⟨c, rfl⟩ := hscalar.exists_char
      have hrule := matchP1_unicode hx hscalar t
      rw [matchP1, if_neg hpair] at hrule
      refine .inl ⟨c, 92 :: 117 :: x, t, .unicode hx, rfl, ?_⟩
      rw [hrule, hlen]
      split
      · rfl
      · split <;> rfl
    · have hlt := lt_of_hex4 hx
      have hnot : ¬(n < 0xD800 ∨ 0xDFFF < n) :=
        fun hn => hscalar (hn.imp_right fun hhigh => ⟨hhigh, by omega⟩)
      rw [if_neg (by rw [starts_utf16_1 hx]; omega), if_neg (by rw [starts_utf16_2 hx]; omega),
        if_neg (by rw [starts_utf16_3 hx]; exact hnot), if_pos hucs2]
      exact .inr (.inr ⟨_, rfl⟩)
  have hnone := fun h => hucs2 (starts_ucs2_of h)
  rw [if_neg fun h => hnone (.inl h), if_neg fun h => hnone (.inr (.inl h)),
    if_neg fun h => hnone (.inr (.inr h)), if_neg hucs2]
  by_cases hfour : startsAny utf8_4 s = true
  · obtain ⟨p, n, r, rfl, hseq, hlen⟩ := startsAny_utf8_4_iff.mp hfour
    obtain ⟨c, hc⟩ := exists_unescaped hseq (by omega)
    exact .inl ⟨c, p, r, hc, rfl, by rw [if_pos hfour, hlen]⟩
  rw [if_neg hfour]
  by_cases hthree : startsAny utf8_3 s = true
  · obtain ⟨p, n, r, rfl, hseq, hlen⟩ := startsAny_utf8_3_iff.mp hthree
    obtain ⟨c, hc⟩ := exists_unescaped hseq (by omega)
    exact .inl ⟨c, p, r, hc, rfl, by rw [if_pos hthree, hlen]⟩
  rw [if_neg hthree]
  by_cases hesc : starts esc s = true
  · obtain ⟨b, s, rfl, hback, hs⟩ := starts_cons_iff.mp hesc
    obtain ⟨e, t, rfl, he, -⟩ := starts_cons_iff.mp hs
    obtain ⟨n, hn, hlt⟩ := exists_twoCharacter he
    have hscalar : IsScalar n := .inl (by omega)
    obtain ⟨c, rfl⟩ := hscalar.exists_char
    rw [escpref, is_eq_true] at hback
    exact .inl ⟨c, [92, e], t, .escape hn, by rw [hback]; rfl, by rw [if_pos hesc]; rfl⟩
  rw [if_neg hesc]
  by_cases htwo : starts utf8_2 s = true
  · obtain ⟨p, n, r, rfl, hseq, hlen⟩ := startsAny_utf8_2_iff.mp htwo
    obtain ⟨c, hc⟩ := exists_unescaped hseq (by omega)
    exact .inl ⟨c, p, r, hc, rfl, by rw [if_pos htwo, hlen]⟩
  rw [if_neg htwo]
  by_cases hctrl : starts [ctrl] s = true
  · rw [if_pos hctrl]
    exact .inr (.inr ⟨_, rfl⟩)
  rw [if_neg hctrl]
  by_cases hback : starts [escpref] s = true
  · rw [if_pos hback]
    exact .inr (.inr ⟨_, rfl⟩)
  rw [if_neg hback]
  by_cases hquote : starts [is 34] s = true
  · obtain ⟨b, t, rfl, hb, -⟩ := starts_cons_iff.mp hquote
    exact .inr (.inl ⟨t, by rw [is_eq_true.mp hb]⟩)
  rw [if_neg hquote]
  by_cases hone : starts utf8_1 s = true
  · obtain ⟨a, t, rfl, ha, -⟩ := starts_cons_iff.mp hone
    simp only [starts_cons, starts_nil, Bool.and_true, ctrl, escpref, is_eq_true, range_eq_true,
      not_and, UInt8.not_le] at hctrl hback hquote
    have hcontrol := UInt8.lt_iff_toNat_lt.mp (hctrl (UInt8.le_iff_toNat_le.mpr (Nat.zero_le _)))
    have hlt := UInt8.le_iff_toNat_le.mp (range_eq_true.mp ha).2
    simp only [UInt8.reduceToNat] at hcontrol hlt
    have hseq := Sequence.one (a := a) (UInt8.lt_iff_toNat_lt.mpr (Nat.lt_succ_of_le hlt))
    obtain ⟨c, hc, hvalue⟩ := hseq.exists_char
    refine .inl ⟨c, [a], t, ?_, rfl, by rw [if_pos hone]; rfl⟩
    rw [← hc]
    refine .unescaped (by omega) ?_ ?_
    · rw [hvalue]
      exact fun h => hquote (UInt8.toNat_inj.mp h)
    · rw [hvalue]
      exact fun h => hback (UInt8.toNat_inj.mp h)
  · rw [if_neg hone]
    exact .inr (.inr ⟨_, rfl⟩)

theorem strP1_goto {more : Int32} (h : actionP1 (matchP1 s).1 = .goto more) (hne : s ≠ [])
    (hpos : 0 < (matchP1 s).2) (cursor : Nat) (strEsc : Int32) :
    strP1 s cursor strEsc =
      strP1 (s.drop (matchP1 s).2) (cursor + (matchP1 s).2) (strEsc + more) := by
  cases s with
  | nil => exact absurd rfl hne
  | cons c t =>
    have hdrop : (c :: t).drop (matchP1 (c :: t)).2 = t.drop ((matchP1 (c :: t)).2 - 1) := by
      obtain ⟨n, hn⟩ := Nat.exists_eq_succ_of_ne_zero (Nat.ne_of_gt hpos)
      rw [hn]
      rfl
    rw [hdrop, strP1]
    simp only [h]

theorem matchP1_quote (r : Bytes) : matchP1 (34 :: r) = (.quote, 1) := by
  rw [matchP1_ascii (by decide) (by decide), if_neg (by decide), if_pos rfl]

theorem strP1_quote (r : Bytes) (cursor : Nat) (strEsc : Int32) :
    strP1 (34 :: r) cursor strEsc = .ok (cursor + 1, strEsc, r) := by
  rw [strP1, matchP1_quote]
  rfl

theorem written_ne_nil {c : Char} {p : Bytes} (h : Written c p) : p ≠ [] := by
  cases h with
  | unescaped => exact String.utf8EncodeChar_ne_nil
  | escape he => exact cons_ne_nil _ _
  | unicode hx => exact cons_ne_nil _ _
  | pair hx hy => exact cons_ne_nil _ _

/-- **The first pass over a string**: it ends at the closing quote, and has counted how many bytes
more there are than in the encoding of the characters. -/
theorem strP1_literal {cs : List Char} {body : Bytes} (h : Literal cs body) :
    ∃ k, body.length = (encode cs).length + k ∧ (k = 0 → body = encode cs) ∧
      ∀ rest cursor strEsc, strP1 (body ++ 34 :: rest) cursor strEsc =
        .ok (cursor + body.length + 1, strEsc + Int32.ofNat k, rest) := by
  -- induction on the characters
  induction h with
  | nil =>
    refine ⟨0, rfl, fun _ => rfl, fun rest cursor strEsc => ?_⟩
    rw [nil_append, strP1_quote]
    show _ = Except.ok (cursor + 0 + 1, strEsc + 0, rest)
    rw [Int32.add_zero, Nat.add_zero]
  | @cons c cs p s hc hcs ih =>
    obtain ⟨k, hk, hplain, hrun⟩ := ih
    obtain ⟨more, -, -, hp, hplain'⟩ := goto_of_written hc []
    refine ⟨more + k, ?_, fun hzero => ?_, fun rest cursor strEsc => ?_⟩
    · rw [encode_cons, length_append, length_append, hp, hk]
      omega
    · rw [encode_cons, hplain' (by omega), hplain (by omega)]
    · obtain ⟨more', haction, hlen, hp', -⟩ := goto_of_written hc (s ++ 34 :: rest)
      obtain rfl : more' = more := by omega
      have hne : p ++ (s ++ 34 :: rest) ≠ [] :=
        append_ne_nil_of_left_ne_nil (written_ne_nil hc) _
      have hpos : 0 < (matchP1 (p ++ (s ++ 34 :: rest))).2 := by
        rw [hlen]
        exact length_pos_iff.mpr (written_ne_nil hc)
      rw [append_assoc, strP1_goto haction hne hpos, hlen, drop_left, hrun,
        length_append, Int32.add_assoc, ← Int32.ofNat_add, Nat.add_assoc cursor]

theorem written_of_goto {more : Int32} (h : actionP1 (matchP1 s).1 = .goto more) :
    ∃ c p r, Written c p ∧ s = p ++ r ∧ (matchP1 s).2 = p.length := by
  rcases matchP1_cases s with hwritten | ⟨t, rfl⟩ | ⟨errcode, hfail⟩
  · exact hwritten
  · rw [matchP1_quote] at h
    exact absurd h (by simp [actionP1])
  · exact absurd (hfail.symm.trans h) (by simp)

theorem eq_quote_of_close (h : actionP1 (matchP1 s).1 = .close) : ∃ t, s = 34 :: t := by
  rcases matchP1_cases s with ⟨c, p, r, hc, rfl, -⟩ | hquote | ⟨errcode, hfail⟩
  · obtain ⟨more, hgoto, -⟩ := goto_of_written hc r
    exact absurd (hgoto.symm.trans h) (by simp)
  · exact hquote
  · exact absurd (hfail.symm.trans h) (by simp)

theorem literal_of_strP1 {cursor : Nat} {strEsc : Int32} {result : Nat × Int32 × Bytes}
    (h : strP1 s cursor strEsc = .ok result) :
    ∃ cs body, Literal cs body ∧ s = body ++ 34 :: result.2.2 := by
  -- induction on the rules that match
  fun_induction strP1 s cursor strEsc with
  | case1 => exact absurd h (by simp)
  | case2 => exact absurd h (by simp)
  | case3 cursor strEsc c t rule s more haction ih =>
    obtain ⟨ch, p, r, hc, heq, hlen⟩ := written_of_goto haction
    obtain ⟨cs, body, hcs, hrest⟩ := ih h
    refine ⟨ch :: cs, p ++ body, .cons hc hcs, ?_⟩
    have hs : s = r := by
      obtain ⟨b, p, rfl⟩ := exists_cons_of_ne_nil (written_ne_nil hc)
      rw [cons_append] at heq
      obtain ⟨rfl, rfl⟩ := List.cons.inj heq
      show List.drop (rule.2 - 1) (p ++ r) = r
      rw [show rule.2 = (c :: p).length from hlen, length_cons, Nat.add_sub_cancel,
        drop_left]
    rw [heq, append_assoc, ← hrest, hs]
  | case4 cursor strEsc c t rule s haction =>
    obtain ⟨t', heq⟩ := eq_quote_of_close haction
    obtain ⟨rfl, rfl⟩ := List.cons.inj heq
    obtain rfl := Except.ok.inj h
    refine ⟨[], [], .nil, ?_⟩
    show 34 :: t = 34 :: List.drop ((matchP1 (34 :: t)).2 - 1) t
    rw [matchP1_quote]
    rfl

/-! ## The second pass -/

theorem copyString_append {region token : Bytes} {k : Nat} (h : token.length = k + 1) :
    copyString (region ++ token) k = region := by
  rw [copyString, length_append, h,
    show region.length + (k + 1) - k - 1 = region.length by omega, take_left]

theorem matchP2_of_ne {b : UInt8} (hb : b ≠ 92) :
    matchP2 (b :: s) = if b = 34 then (.quote, 1) else (.any, 1) := by
  have hstarts := starts_escpref_of_ne (s := s) hb
  obtain ⟨hone, htwo, hthree, hfour, -⟩ := utf16_eq_false fun ps => hstarts (is 117 :: ps)
  rw [matchP2, hone, htwo, hthree, hfour, hstarts, starts_cons, starts_nil, Bool.and_true]
  simp only [Bool.false_eq_true, if_false, is_eq_true]

theorem strP2_quote (r region out : Bytes) :
    strP2 (34 :: r) region out = .ok (out ++ region, r) := by
  rw [strP2, matchP2_of_ne (by decide), if_pos rfl]
  show Except.ok (out ++ copyString (region ++ [34]) 0, r) = _
  rw [copyString_append rfl]

theorem strP2_any {b : UInt8} (hback : b ≠ 92) (hquote : b ≠ 34) (r region out : Bytes) :
    strP2 (b :: r) region out = strP2 r (region ++ [b]) out := by
  rw [strP2, matchP2_of_ne hback, if_neg hquote]
  rfl

theorem strP2_append {p : Bytes} (hp : ∀ b ∈ p, b ≠ 92 ∧ b ≠ 34) (r region out : Bytes) :
    strP2 (p ++ r) region out = strP2 r (region ++ p) out := by
  induction p generalizing region with
  | nil => rw [nil_append, append_nil]
  | cons b p ih =>
    obtain ⟨hb, hp⟩ := forall_mem_cons.mp hp
    rw [cons_append, strP2_any hb.1 hb.2, ih hp, append_assoc, singleton_append]

theorem strP2_escape {e b : UInt8} (hsym : escsym e = true) (he : escChar e = some b)
    (r region out : Bytes) :
    strP2 (92 :: e :: r) region out = strP2 r [] (out ++ region ++ [b]) := by
  have hmatch : matchP2 (92 :: e :: r) = (.escpref, 1) := by
    obtain ⟨hone, htwo, hthree, hfour, -⟩ := utf16_eq_false (starts_utfpref_of_escsym hsym r)
    rw [matchP2, hone, htwo, hthree, hfour, starts_cons, starts_nil]
    rfl
  rw [strP2, hmatch]
  dsimp only
  rw [Nat.sub_self, drop_zero, headD_cons, he]
  show strP2 r [] (out ++ copyString (region ++ [92]) 0 ++ [b]) = _
  rw [copyString_append rfl]

/-! ## Decoding an escape -/

theorem or_shiftLeft {a b k : Nat} (h : a < 2 ^ k) : a ||| b <<< k = a + b * 2 ^ k := by
  rw [Nat.or_comm, ← Nat.shiftLeft_add_eq_or_of_lt h, Nat.shiftLeft_eq, Nat.add_comm]

theorem foldl_digits {x y z w : Nat} (hy : y < 16) (hz : z < 16) (hw : w < 16) :
    0 ||| w <<< (0 * 4) ||| z <<< (1 * 4) ||| y <<< (2 * 4) ||| x <<< (3 * 4) =
      x * 4096 + y * 256 + z * 16 + w := by
  rw [Nat.zero_or, Nat.zero_mul, Nat.shiftLeft_zero, or_shiftLeft (k := 1 * 4) (by omega),
    or_shiftLeft (k := 2 * 4) (by omega), or_shiftLeft (k := 3 * 4) (by omega)]
  omega

theorem ucs2ToInt_hex4 {x : Bytes} (hx : Hex4 x n) : ucs2ToInt (92 :: 117 :: x) 4 = n := by
  cases hx with
  | @intro a b c d _ _ _ _ ha hb hc hd =>
    rw [← foldl_digits (classes hb).lt (classes hc).lt (classes hd).lt, ← (hex_of_hexDigit ha).2,
      ← (hex_of_hexDigit hb).2, ← (hex_of_hexDigit hc).2, ← (hex_of_hexDigit hd).2]
    rfl

theorem ucs2ToInt_three {x : Bytes} (hx : Hex4 x n) (hn : n < 0x1000) :
    ucs2ToInt (92 :: 117 :: x) 3 = n := by
  cases hx with
  | @intro a b c d x y z w ha hb hc hd =>
    obtain rfl : x = 0 := by omega
    have hfour := foldl_digits (x := 0) (classes hb).lt (classes hc).lt (classes hd).lt
    rw [Nat.zero_shiftLeft, Nat.or_zero] at hfour
    rw [← hfour, ← (hex_of_hexDigit hb).2, ← (hex_of_hexDigit hc).2, ← (hex_of_hexDigit hd).2]
    rfl

theorem ucs2ToInt_two {x : Bytes} (hx : Hex4 x n) (hn : n < 0x100) :
    ucs2ToInt (92 :: 117 :: x) 2 = n := by
  cases hx with
  | @intro a b c d x y z w ha hb hc hd =>
    obtain rfl : x = 0 := by omega
    obtain rfl : y = 0 := by omega
    have hfour := foldl_digits (x := 0) (classes hb).lt (classes hc).lt (classes hd).lt
    rw [Nat.zero_shiftLeft, Nat.or_zero, Nat.zero_shiftLeft, Nat.or_zero] at hfour
    rw [← hfour, ← (hex_of_hexDigit hc).2, ← (hex_of_hexDigit hd).2]
    rfl

theorem ucs2ToInt_pair {x y : Bytes} {hi lo : Nat} (hx : Hex4 x hi) (hy : Hex4 y lo) :
    ucs2ToInt (92 :: 117 :: (x ++ 92 :: 117 :: y)) 4 = lo ∧
      ucs2ToIntEx (92 :: 117 :: (x ++ 92 :: 117 :: y)) 4 7 = hi := by
  cases hx with
  | @intro a b c d _ _ _ _ ha hb hc hd =>
    cases hy with
    | @intro e f g i _ _ _ _ he hf hg hi =>
      constructor
      · rw [← foldl_digits (classes hf).lt (classes hg).lt (classes hi).lt,
          ← (hex_of_hexDigit he).2, ← (hex_of_hexDigit hf).2, ← (hex_of_hexDigit hg).2,
          ← (hex_of_hexDigit hi).2]
        rfl
      · rw [← foldl_digits (classes hb).lt (classes hc).lt (classes hd).lt,
          ← (hex_of_hexDigit ha).2, ← (hex_of_hexDigit hb).2, ← (hex_of_hexDigit hc).2,
          ← (hex_of_hexDigit hd).2]
        rfl

theorem or_prefix : (∀ m < 0x20, 0xc0 ||| m = m + 0xc0) ∧ (∀ m < 0x10, 0xe0 ||| m = m + 0xe0) ∧
    (∀ m < 0x08, 0xf0 ||| m = m + 0xf0) ∧ ∀ m < 0x40, 0x80 ||| m = m + 0x80 := by decide

theorem trail_eq (n : Nat) : UInt8.ofNat (0x80 ||| n &&& 0x3f) = UInt8.ofNat (n % 0x40 + 0x80) := by
  rw [show n &&& 0x3f = n % 0x40 from Nat.and_two_pow_sub_one_eq_mod n 6,
    or_prefix.2.2.2 _ (Nat.mod_lt n (by decide))]

theorem shiftRight_eq (n k : Nat) : n >>> k = n / 2 ^ k := Nat.shiftRight_eq_div_pow n k

theorem utf16_1Bytes_eq {x : Bytes} (hx : Hex4 x n) (hn : n < 0x80) :
    utf16_1Bytes (92 :: 117 :: x) = encodeNat n := by
  rw [utf16_1Bytes, ucs2ToInt_two hx (by omega), encodeNat, if_pos (by omega)]

theorem utf16_2Bytes_eq {x : Bytes} (hx : Hex4 x n) (hlow : ¬n < 0x80) (hn : n < 0x800) :
    utf16_2Bytes (92 :: 117 :: x) = encodeNat n := by
  rw [utf16_2Bytes, ucs2ToInt_three hx (by omega), encodeNat, if_neg (by omega), if_pos (by omega)]
  show [UInt8.ofNat (0xc0 ||| n >>> 6), UInt8.ofNat (0x80 ||| n &&& 0x3f)] = _
  rw [trail_eq, shiftRight_eq, or_prefix.1 _ (by omega),
    Nat.mod_eq_of_lt (by omega : n / 64 < 0x20)]
  rfl

theorem utf16_3Bytes_eq {x : Bytes} (hx : Hex4 x n) (hlow : ¬n < 0x800) :
    utf16_3Bytes (92 :: 117 :: x) = encodeNat n := by
  have hlt := lt_of_hex4 hx
  rw [utf16_3Bytes, ucs2ToInt_hex4 hx, encodeNat, if_neg (by omega), if_neg (by omega),
    if_pos (by omega)]
  show [UInt8.ofNat (0xe0 ||| n >>> 12), UInt8.ofNat (0x80 ||| n >>> 6 &&& 0x3f),
    UInt8.ofNat (0x80 ||| n &&& 0x3f)] = _
  rw [trail_eq, trail_eq, shiftRight_eq, shiftRight_eq, or_prefix.2.1 _ (by omega),
    Nat.mod_eq_of_lt (by omega : n / 4096 < 0x10)]
  rfl

theorem utf16_4Bytes_eq {x y : Bytes} {hi lo : Nat} (hx : Hex4 x hi) (hy : Hex4 y lo)
    (hhi : 0xD800 ≤ hi ∧ hi ≤ 0xDBFF) (hlo : 0xDC00 ≤ lo ∧ lo ≤ 0xDFFF)
    (hn : n = 0x10000 + (hi - 0xD800) * 0x400 + (lo - 0xDC00)) :
    utf16_4Bytes (92 :: 117 :: (x ++ 92 :: 117 :: y)) = encodeNat n := by
  obtain ⟨hlast, hfirst⟩ := ucs2ToInt_pair hx hy
  have hvalue : (hi &&& 0x3FF) <<< 10 + (lo &&& 0x3FF) + 0x10000 = n := by
    rw [show hi &&& 0x3FF = hi % 0x400 from Nat.and_two_pow_sub_one_eq_mod hi 10,
      show lo &&& 0x3FF = lo % 0x400 from Nat.and_two_pow_sub_one_eq_mod lo 10, Nat.shiftLeft_eq]
    omega
  rw [utf16_4Bytes, hlast, hfirst]
  show [UInt8.ofNat (0xf0 ||| ((hi &&& 0x3FF) <<< 10 + (lo &&& 0x3FF) + 0x10000) >>> 18),
    UInt8.ofNat (0x80 ||| ((hi &&& 0x3FF) <<< 10 + (lo &&& 0x3FF) + 0x10000) >>> 12 &&& 0x3f),
    UInt8.ofNat (0x80 ||| ((hi &&& 0x3FF) <<< 10 + (lo &&& 0x3FF) + 0x10000) >>> 6 &&& 0x3f),
    UInt8.ofNat (0x80 ||| ((hi &&& 0x3FF) <<< 10 + (lo &&& 0x3FF) + 0x10000) &&& 0x3f)] = _
  rw [hvalue, trail_eq, trail_eq, trail_eq, shiftRight_eq, shiftRight_eq, shiftRight_eq,
    or_prefix.2.2.1 _ (by omega), encodeNat, if_neg (by omega), if_neg (by omega),
    if_neg (by omega), Nat.mod_eq_of_lt (by omega : n / 262144 < 0x08)]
  rfl

theorem strP2_unicode {c : Char} {x : Bytes} (hx : Hex4 x c.toNat) (r region out : Bytes) :
    strP2 (92 :: 117 :: (x ++ r)) region out =
      strP2 r [] (out ++ region ++ String.utf8EncodeChar c) := by
  have hlen : (92 :: 117 :: x).length = 6 := congrArg (· + 2) (length_of_hex4 hx)
  have htake : (92 :: 117 :: (x ++ r)).take 6 = 92 :: 117 :: x := take_left' hlen
  have hdrop' : ((117 :: x) ++ r).drop 5 = r :=
    drop_left' (congrArg (· + 1) (length_of_hex4 hx))
  have hdrop : (117 :: (x ++ r)).drop 5 = r := hdrop'
  have hpair : ¬starts utf16_4 (92 :: 117 :: (x ++ r)) = true := by
    intro h
    obtain ⟨x', y, hi, lo, t, heq, hx', hy, hhi, hlo⟩ := starts_utf16_4_iff.mp h
    have hn := (hex4_append_inj hx hx' (List.cons.inj (List.cons.inj heq).2).2).1
    have hscalar := isScalar_toNat c
    rw [IsScalar] at hscalar
    omega
  have hthree : c.toNat < 0xD800 ∨ 0xDFFF < c.toNat := (isScalar_toNat c).imp_right And.left
  have hmatch : matchP2 (92 :: 117 :: (x ++ r)) =
      if c.toNat < 0x80 then (.utf16_1, 6) else if c.toNat < 0x800 then (.utf16_2, 6)
      else (.utf16_3, 6) := by
    rw [matchP2, if_neg hpair]
    simp only [starts_utf16_1 hx, starts_utf16_2 hx, starts_utf16_3 hx, if_pos hthree]
  rw [strP2, hmatch, utf8EncodeChar_eq]
  by_cases hone : c.toNat < 0x80
  · rw [if_pos hone]
    show strP2 ((117 :: (x ++ r)).drop 5) [] (out ++ copyString (region ++
      (92 :: 117 :: (x ++ r)).take 6) 5 ++ utf16_1Bytes ((92 :: 117 :: (x ++ r)).take 6)) = _
    rw [htake, hdrop, copyString_append hlen, utf16_1Bytes_eq hx hone]
  · rw [if_neg hone]
    by_cases htwo : c.toNat < 0x800
    · rw [if_pos htwo]
      show strP2 ((117 :: (x ++ r)).drop 5) [] (out ++ copyString (region ++
        (92 :: 117 :: (x ++ r)).take 6) 5 ++ utf16_2Bytes ((92 :: 117 :: (x ++ r)).take 6)) = _
      rw [htake, hdrop, copyString_append hlen, utf16_2Bytes_eq hx hone htwo]
    · rw [if_neg htwo]
      show strP2 ((117 :: (x ++ r)).drop 5) [] (out ++ copyString (region ++
        (92 :: 117 :: (x ++ r)).take 6) 5 ++ utf16_3Bytes ((92 :: 117 :: (x ++ r)).take 6)) = _
      rw [htake, hdrop, copyString_append hlen, utf16_3Bytes_eq hx htwo]

theorem strP2_pair {c : Char} {x y : Bytes} {hi lo : Nat} (hx : Hex4 x hi) (hy : Hex4 y lo)
    (hhi : 0xD800 ≤ hi ∧ hi ≤ 0xDBFF) (hlo : 0xDC00 ≤ lo ∧ lo ≤ 0xDFFF)
    (hc : c.toNat = 0x10000 + (hi - 0xD800) * 0x400 + (lo - 0xDC00)) (r region out : Bytes) :
    strP2 (92 :: 117 :: (x ++ 92 :: 117 :: (y ++ r))) region out =
      strP2 r [] (out ++ region ++ String.utf8EncodeChar c) := by
  have hlen : (92 :: 117 :: (x ++ 92 :: 117 :: y)).length = 12 := by
    show (x ++ 92 :: 117 :: y).length + 2 = 12
    rw [length_append, length_cons, length_cons, length_of_hex4 hx,
      length_of_hex4 hy]
  have hassoc : x ++ 92 :: 117 :: (y ++ r) = (x ++ 92 :: 117 :: y) ++ r := by
    simp only [cons_append, append_assoc]
  have htake : (92 :: 117 :: (x ++ 92 :: 117 :: (y ++ r))).take 12 =
      92 :: 117 :: (x ++ 92 :: 117 :: y) := by
    rw [hassoc]
    exact take_left' hlen
  have hdrop' : ((117 :: (x ++ 92 :: 117 :: y)) ++ r).drop 11 = r :=
    drop_left' (Nat.succ.inj hlen)
  have hdrop : (117 :: (x ++ 92 :: 117 :: (y ++ r))).drop 11 = r := by
    rw [hassoc]
    exact hdrop'
  have hmatch : matchP2 (92 :: 117 :: (x ++ 92 :: 117 :: (y ++ r))) = (.utf16_4, 12) := by
    rw [matchP2, if_pos (starts_utf16_4_iff.mpr ⟨x, y, hi, lo, r, rfl, hx, hy, hhi, hlo⟩)]
  rw [strP2, hmatch]
  show strP2 ((117 :: (x ++ 92 :: 117 :: (y ++ r))).drop 11) [] (out ++ copyString (region ++
    (92 :: 117 :: (x ++ 92 :: 117 :: (y ++ r))).take 12) 11 ++
    utf16_4Bytes ((92 :: 117 :: (x ++ 92 :: 117 :: (y ++ r))).take 12)) = _
  rw [htake, hdrop, copyString_append hlen, utf16_4Bytes_eq hx hy hhi hlo hc, utf8EncodeChar_eq]

theorem strP2_literal {cs : List Char} {body : Bytes} (h : Literal cs body)
    (rest region out : Bytes) :
    strP2 (body ++ 34 :: rest) region out = .ok (out ++ region ++ encode cs, rest) := by
  -- induction on the characters
  induction h generalizing region out with
  | nil => rw [nil_append, strP2_quote, encode_nil, append_nil]
  | @cons c cs p s hc hcs ih =>
    rw [append_assoc, encode_cons]
    cases hc with
    | unescaped hcontrol hquote hback =>
      rw [strP2_append (mem_unescaped hquote hback), ih]
      simp only [append_assoc]
    | @escape e he =>
      obtain ⟨hsym, hchar, hlt⟩ := escape_of_twoCharacter he
      have hbyte : String.utf8EncodeChar c = [UInt8.ofNat c.toNat] := by
        rw [utf8EncodeChar_eq, encodeNat, if_pos (by omega)]
      rw [cons_append, singleton_append, strP2_escape hsym hchar, ih, hbyte]
      simp only [append_assoc, append_nil]
    | unicode hx =>
      rw [cons_append, cons_append, strP2_unicode hx, ih]
      simp only [append_assoc, append_nil]
    | @pair x y hi lo hx hy hhi hlo hc =>
      rw [show (92 :: 117 :: x ++ 92 :: 117 :: y) ++ (s ++ 34 :: rest) =
          92 :: 117 :: (x ++ 92 :: 117 :: (y ++ (s ++ 34 :: rest))) by
        simp only [cons_append, append_assoc], strP2_pair hx hy hhi hlo hc, ih]
      simp only [append_assoc, append_nil]

/-! ## Strings -/

section

variable {δ : Type*} (P : Platform δ)

def Token.text : Token δ → Bytes
  | .string s => s
  | _ => []

def stringValue (body : Bytes) : Bytes := (scanString P (body ++ [34])).1.text

theorem scanString_eq {cursor : Nat} {strEsc : Int32} {out : Bytes}
    (hfirst : strP1 s 0 0 = .ok (cursor, strEsc, r)) (hsecond : strP2 s [] [] = .ok (out, r)) :
    scanString P s =
      if firstPassLength cursor strEsc = 0 then (.estring, r)
      else if strEsc ≠ 0 then
        (.string (slice (store P.uninit 0 out) 0 (firstPassLength cursor strEsc)), r)
      else
        (.string (slice (store P.uninit 0 (s.take (firstPassLength cursor strEsc))) 0
          (firstPassLength cursor strEsc)), r) := by
  rw [scanString, hfirst]
  simp only [hsecond]

theorem toInt_ofNat {k : Nat} (hk : k < 2 ^ 31) : (Int32.ofNat k).toInt = k :=
  Int32.toInt_ofNat_of_lt hk

/-- **The passes agree**: what the first one measures is what the second one writes. -/
theorem passes_agree {cs : List Char} {body : Bytes} (h : Literal cs body)
    (hshort : body.length < (encode cs).length + 2 ^ 31) (rest : Bytes) :
    ∃ cursor strEsc, strP1 (body ++ 34 :: rest) 0 0 = .ok (cursor, strEsc, rest) ∧
      firstPassLength cursor strEsc = (encode cs).length ∧ (strEsc = 0 → body = encode cs) ∧
        strP2 (body ++ 34 :: rest) [] [] = .ok (encode cs, rest) := by
  obtain ⟨k, hk, hplain, hrun⟩ := strP1_literal h
  have hint := toInt_ofNat (k := k) (by omega)
  refine ⟨_, _, hrun rest 0 0, ?_, ?_, strP2_literal h rest [] []⟩
  · rw [firstPassLength, Int32.zero_add, hint]
    omega
  · intro hzero
    rw [Int32.zero_add] at hzero
    rw [hzero] at hint
    exact hplain (Int.ofNat_inj.mp hint).symm

theorem scanString_literal {cs : List Char} {body : Bytes} (h : Literal cs body) (rest : Bytes) :
    scanString P (body ++ 34 :: rest) = (.string (stringValue P body), rest) ∨
      scanString P (body ++ 34 :: rest) = (.estring, rest) ∧ stringValue P body = [] := by
  obtain ⟨k, hk, hplain, hrun⟩ := strP1_literal h
  have hscan (rest : Bytes) := scanString_eq P (hrun rest 0 0) (strP2_literal h rest [] [])
  rw [stringValue, hscan, hscan]
  by_cases hlen : firstPassLength (0 + body.length + 1) (0 + Int32.ofNat k) = 0
  · rw [if_pos hlen, if_pos hlen]
    exact .inr ⟨rfl, rfl⟩
  · rw [if_neg hlen, if_neg hlen]
    by_cases hesc : 0 + Int32.ofNat k ≠ 0
    · rw [if_pos hesc, if_pos hesc]
      exact .inl rfl
    · have hall : firstPassLength (0 + body.length + 1) (0 + Int32.ofNat k) = body.length := by
        rw [Decidable.not_not.mp hesc, firstPassLength]
        show ((0 + body.length + 1 : Nat) - 0 - 1 : Int).toNat = body.length
        omega
      rw [if_neg hesc, if_neg hesc, hall, take_left, take_left]
      exact .inl rfl

/-- **What is read is the encoding of the characters**, unless `str_esc` overflows. -/
theorem stringValue_eq {cs : List Char} {body : Bytes} (h : Literal cs body)
    (hshort : body.length < (encode cs).length + 2 ^ 31) : stringValue P body = encode cs := by
  obtain ⟨cursor, strEsc, hfirst, hlen, hplain, hsecond⟩ := passes_agree h hshort []
  rw [stringValue, scanString_eq P hfirst hsecond, hlen]
  split
  next hzero => exact (length_eq_zero_iff.mp hzero).symm
  next hpos =>
    split
    next hesc => exact slice_store_self P.uninit 0 (encode cs)
    next hesc =>
      have hbody := hplain (Decidable.not_not.mp hesc)
      rw [hbody, take_left]
      exact slice_store_self P.uninit 0 (encode cs)

end

end Json

end Phpce
