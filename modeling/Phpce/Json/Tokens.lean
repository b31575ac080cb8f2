import Mathlib.Data.List.TakeWhile
import Phpce.Json.Literals

/-!
# The tokens that the scanner reads

* `Lexeme t l` says that `l` is a text of the grammar for which the scanner returns the token `t`.
* `lexeme_of_scan` — a token that is no error has been read from such a text, behind whitespace.
* `scan_lexeme` and `scan_number` — such texts are read, numbers where nothing continues them.
-/

namespace Phpce

namespace Json

open Bytes JsonText List Option

/-! ## Digits -/

theorem digit_iff {c : UInt8} : digit c = true ↔ IsDigit c := range_eq_true

def NoDigit (s : Bytes) : Prop := ∀ c, s.head? = some c → digit c = false

def Follow (s : Bytes) : Prop := ∀ c, s.head? = some c → digit c = false ∧ c ≠ 46 ∧ c ≠ 101 ∧ c ≠ 69

variable {s r i f e ds : Bytes}

theorem Follow.noDigit (h : Follow s) : NoDigit s := fun c hc => (h c hc).1

theorem follow_nil : Follow [] := fun c hc => absurd hc (by simp)

theorem NoDigit.takeWhile (h : NoDigit s) : s.takeWhile digit = [] := by
  cases s with
  | nil => rfl
  | cons c s => rw [takeWhile_cons_of_neg (by rw [h c rfl]; decide)]

theorem takeWhile_digits (hds : ∀ c ∈ ds, IsDigit c) (hr : NoDigit r) :
    (ds ++ r).takeWhile digit = ds := by
  rw [takeWhile_append_of_pos fun c hc => digit_iff.mpr (hds c hc), hr.takeWhile,
    append_nil]

theorem digits_takeWhile (s : Bytes) : ∀ c ∈ s.takeWhile digit, IsDigit c := fun _ hc =>
  digit_iff.mp (mem_takeWhile_imp hc)

theorem take_takeWhile (s : Bytes) :
    s.take (s.takeWhile digit).length = s.takeWhile digit :=
  (prefix_iff_eq_take.mp (List.takeWhile_prefix digit)).symm

/-! ## The parts of a number -/

theorem digitnz_iff {c : UInt8} : digitnz c = true ↔ IsDigit c ∧ c ≠ 48 :=
  forall_byte (by decide +kernel) c

theorem uintLength_append (hds : Canonical ds) (hr : NoDigit r) :
    uintLength (ds ++ r) = ds.length := by
  obtain ⟨c, t, rfl⟩ := exists_cons_of_ne_nil hds.nonempty
  obtain ⟨hc, ht⟩ := forall_mem_cons.mp hds.digits
  rw [cons_append, uintLength]
  by_cases hzero : c = 48
  · subst hzero
    rw [if_pos rfl]
    exact (hds.noLeadingZero rfl).symm
  · rw [if_neg hzero, if_pos (digitnz_iff.mpr ⟨hc, hzero⟩), takeWhile_digits ht hr]
    rfl

theorem canonical_uint (h : uintLength s ≠ 0) : Canonical (s.take (uintLength s)) := by
  cases s with
  | nil => exact absurd rfl h
  | cons c s =>
    rw [uintLength] at h ⊢
    by_cases hzero : c = 48
    · subst hzero
      exact ⟨cons_ne_nil _ _, forall_mem_singleton.mpr (by decide), fun _ => rfl⟩
    · rw [if_neg hzero] at h ⊢
      by_cases hnz : digitnz c = true
      · rw [if_pos hnz, take_succ_cons, take_takeWhile]
        exact ⟨cons_ne_nil _ _,
          forall_mem_cons.mpr ⟨(digitnz_iff.mp hnz).1, digits_takeWhile s⟩,
          fun hhead => absurd (some.inj hhead) hzero⟩
      · exact absurd (if_neg hnz) h

theorem intLength_append (hi : Integer i) (hr : NoDigit r) : intLength (i ++ r) = i.length := by
  cases hi with
  | nonneg hds =>
    have hlen := uintLength_append hds hr
    obtain ⟨c, t, rfl⟩ := exists_cons_of_ne_nil hds.nonempty
    have hc : c ≠ 45 := by
      rintro rfl
      exact absurd (hds.digits 45 mem_cons_self) (by decide)
    rw [cons_append] at hlen
    rw [cons_append, intLength, if_neg hc, hlen]
  | @neg ds hds =>
    have hpos : ds.length ≠ 0 := fun h => hds.nonempty (length_eq_zero_iff.mp h)
    rw [cons_append, intLength, if_pos rfl, uintLength_append hds hr, if_neg hpos]
    rfl

theorem integer_int (h : intLength s ≠ 0) : Integer (s.take (intLength s)) := by
  cases s with
  | nil => exact absurd rfl h
  | cons c s =>
    rw [intLength] at h ⊢
    by_cases hminus : c = 45
    · subst hminus
      rw [if_pos rfl] at h ⊢
      by_cases hnone : uintLength s = 0
      · exact absurd (if_pos hnone) h
      · rw [if_neg hnone, take_succ_cons]
        exact .neg (canonical_uint hnone)
    · rw [if_neg hminus] at h ⊢
      exact .nonneg (canonical_uint h)

theorem fractionLength_append (hf : Fraction f) (hr : NoDigit r)
    (hdot : f = [] → r.head? ≠ some 46) : fractionLength (f ++ r) = f.length := by
  cases hf with
  | none =>
    cases r with
    | nil => rfl
    | cons c r =>
      have hc : c ≠ 46 := fun h => hdot rfl (congrArg some h)
      rw [nil_append, fractionLength, if_neg fun h => hc h.1]
      rfl
  | some hds =>
    rw [cons_append, fractionLength, takeWhile_digits hds.2 hr, if_pos ⟨rfl, hds.1⟩]
    rfl

theorem fraction_fraction (s : Bytes) : Fraction (s.take (fractionLength s)) := by
  cases s with
  | nil => exact .none
  | cons c s =>
    rw [fractionLength]
    split
    next h =>
      rw [take_succ_cons, take_takeWhile, h.1]
      exact .some ⟨h.2, digits_takeWhile s⟩
    next => exact .none

theorem signLength_append {sign : Bytes} (hsign : sign = [] ∨ sign = [43] ∨ sign = [45])
    (hds : Digits ds) (r : Bytes) : signLength (sign ++ (ds ++ r)) = sign.length := by
  rcases hsign with rfl | rfl | rfl
  · obtain ⟨d, t, rfl⟩ := exists_cons_of_ne_nil hds.1
    have hd := hds.2 d mem_cons_self
    refine if_neg ?_
    rintro (h | h)
    · obtain rfl := some.inj h
      exact absurd hd (by decide)
    · obtain rfl := some.inj h
      exact absurd hd (by decide)
  · exact if_pos (.inl rfl)
  · exact if_pos (.inr rfl)

theorem exponentLength_append (he : Exponent e) (hr : NoDigit r)
    (hletter : e = [] → r.head? ≠ some 101 ∧ r.head? ≠ some 69) :
    exponentLength (e ++ r) = e.length := by
  cases he with
  | none =>
    cases r with
    | nil => rfl
    | cons c r =>
      have hc : ¬(c = 101 ∨ c = 69) := by
        rintro (rfl | rfl)
        · exact (hletter rfl).1 rfl
        · exact (hletter rfl).2 rfl
      rw [nil_append, exponentLength, if_neg fun h => hc h.1]
      rfl
  | @some c sign ds hc hsign hds =>
    rw [cons_append, append_assoc, exponentLength, signLength_append hsign hds,
      drop_left, takeWhile_digits hds.2 hr, if_pos ⟨hc, hds.1⟩, length_cons,
      length_append, Nat.add_comm sign.length]

theorem exponent_exponent (s : Bytes) : Exponent (s.take (exponentLength s)) := by
  cases s with
  | nil => exact .none
  | cons c s =>
    rw [exponentLength]
    split
    next h =>
      have hsign : s.take (signLength s) = [] ∨ s.take (signLength s) = [43] ∨
          s.take (signLength s) = [45] := by
        cases s with
        | nil => exact .inl rfl
        | cons b t =>
          rw [signLength]
          split
          next hb =>
            exact .inr (hb.imp (fun hb => by rw [some.inj hb]; rfl)
              fun hb => by rw [some.inj hb]; rfl)
          next => exact .inl rfl
      rw [take_succ_cons, Nat.add_comm, take_add, take_takeWhile]
      exact .some h.1 hsign ⟨h.2, digits_takeWhile _⟩
    next => exact .none

/-! ## Numbers -/

section

variable {δ : Type*} (P : Platform δ) (options : ParserOptions)

def partsToken (i f e : Bytes) : Token δ :=
  if f.length + e.length = 0 then intToken P options i else .double (P.strtod (i ++ f ++ e))

theorem head?_fraction (hf : Fraction f) : f = [] ∨ f.head? = some 46 := by
  cases hf with
  | none => exact .inl rfl
  | some hds => exact .inr rfl

theorem head?_exponent (he : Exponent e) : e = [] ∨ e.head? = some 101 ∨ e.head? = some 69 := by
  cases he with
  | none => exact .inl rfl
  | some he hsign hds => exact .inr (he.imp (fun h => by rw [h]; rfl) fun h => by rw [h]; rfl)

theorem NoDigit.append (hr : NoDigit r) (hs : s = [] ∨ ∃ c, s.head? = some c ∧ digit c = false) :
    NoDigit (s ++ r) := by
  rcases hs with rfl | ⟨c, hc, hdigit⟩
  · exact hr
  · obtain ⟨t, rfl⟩ := List.head?_eq_some_iff.mp hc
    intro b hb
    rwa [← some.inj hb]

theorem noDigit_exponent (he : Exponent e) (hr : NoDigit r) : NoDigit (e ++ r) :=
  hr.append ((head?_exponent he).imp_right fun h =>
    h.elim (fun h => ⟨101, h, by decide⟩) fun h => ⟨69, h, by decide⟩)

theorem noDigit_fraction (hf : Fraction f) (hr : NoDigit r) : NoDigit (f ++ r) :=
  hr.append ((head?_fraction hf).imp_right fun h => ⟨46, h, by decide⟩)

/-- **The longest match**: a number is read to its end, where nothing continues it. -/
theorem scanNumber_parts (hi : Integer i) (hf : Fraction f) (he : Exponent e) (hr : Follow r) :
    scanNumber P options (i ++ f ++ e ++ r) = some (partsToken P options i f e, r) := by
  have hint : intLength (i ++ (f ++ (e ++ r))) = i.length :=
    intLength_append hi (noDigit_fraction hf (noDigit_exponent he hr.noDigit))
  have hdot : f = [] → (e ++ r).head? ≠ some 46 := by
    intro _ h
    rcases head?_exponent he with rfl | hhead | hhead
    · exact (hr 46 h).2.1 rfl
    · rw [List.head?_append, hhead, some_or] at h
      exact absurd h (by decide)
    · rw [List.head?_append, hhead, some_or] at h
      exact absurd h (by decide)
  have hfraction := fractionLength_append hf (noDigit_exponent he hr.noDigit) hdot
  have hexponent := exponentLength_append he hr.noDigit fun _ =>
    ⟨fun h => (hr 101 h).2.2.1 rfl, fun h => (hr 69 h).2.2.2 rfl⟩
  have hpos : i.length ≠ 0 := by
    cases hi with
    | nonneg hds => exact fun h => hds.nonempty (length_eq_zero_iff.mp h)
    | neg hds => exact Nat.succ_ne_zero _
  have hdrop : (i ++ (f ++ (e ++ r))).drop (i.length + f.length) = e ++ r := by
    rw [← drop_drop, drop_left, drop_left]
  rw [append_assoc, append_assoc, scanNumber, hint]
  show (if i.length = 0 then none
    else if fractionLength ((i ++ (f ++ (e ++ r))).drop i.length) + exponentLength
      ((i ++ (f ++ (e ++ r))).drop (i.length +
        fractionLength ((i ++ (f ++ (e ++ r))).drop i.length))) = 0 then
      some (intToken P options ((i ++ (f ++ (e ++ r))).take i.length),
        (i ++ (f ++ (e ++ r))).drop i.length)
    else _) = _
  rw [if_neg hpos, drop_left, take_left, hfraction, hdrop, hexponent, partsToken]
  by_cases hzero : f.length + e.length = 0
  · rw [if_pos hzero, if_pos hzero, length_eq_zero_iff.mp (by omega : f.length = 0),
      length_eq_zero_iff.mp (by omega : e.length = 0)]
    rfl
  · have hlen : i.length + f.length + e.length = (i ++ f ++ e).length := by
      rw [length_append, length_append]
    rw [if_neg hzero, if_neg hzero]
    show some (Token.double (P.strtod ((i ++ (f ++ (e ++ r))).take
      (i.length + f.length + e.length))), (i ++ (f ++ (e ++ r))).drop
        (i.length + f.length + e.length)) = _
    rw [hlen, ← append_assoc, ← append_assoc, take_left, drop_left]

theorem fractionLength_le (s : Bytes) : fractionLength s ≤ s.length := by
  cases s with
  | nil => exact Nat.le_refl _
  | cons c s =>
    rw [fractionLength]
    split
    · exact Nat.succ_le_succ (List.takeWhile_prefix digit).length_le
    · exact Nat.zero_le _

theorem exponentLength_le (s : Bytes) : exponentLength s ≤ s.length := by
  cases s with
  | nil => exact Nat.le_refl _
  | cons c s =>
    rw [exponentLength]
    split
    next h =>
      have hpos := length_pos_iff.mpr h.2
      have hle := (List.takeWhile_prefix (l := s.drop (signLength s)) digit).length_le
      rw [length_drop] at hle
      rw [length_cons]
      omega
    next => exact Nat.zero_le _

theorem parts_of_scanNumber {t : Token δ} (h : scanNumber P options s = some (t, r)) :
    ∃ i f e, Integer i ∧ Fraction f ∧ Exponent e ∧ s = i ++ f ++ e ++ r ∧
      t = partsToken P options i f e := by
  by_cases hpos : intLength s = 0
  · exact absurd h (by rw [scanNumber]; simp [hpos])
  have hi := integer_int hpos
  have hf := fraction_fraction (s.drop (intLength s))
  have hfle := fractionLength_le (s.drop (intLength s))
  rw [scanNumber] at h
  generalize intLength s = n at *
  generalize fractionLength (s.drop n) = m at *
  replace h : (if n = 0 then none
      else if m + exponentLength (s.drop (n + m)) = 0 then
        some (intToken P options (s.take n), s.drop n)
      else some (.double (P.strtod (s.take (n + m + exponentLength (s.drop (n + m))))),
        s.drop (n + m + exponentLength (s.drop (n + m))))) = some (t, r) := h
  have he := exponent_exponent (s.drop (n + m))
  have hele := exponentLength_le (s.drop (n + m))
  generalize exponentLength (s.drop (n + m)) = k at *
  have htake : s.take n ++ (s.drop n).take m ++ (s.drop (n + m)).take k = s.take (n + m + k) := by
    rw [take_add, take_add]
  have hlen : ((s.drop n).take m).length + ((s.drop (n + m)).take k).length = m + k := by
    rw [length_take_of_le hfle, length_take_of_le hele]
  refine ⟨s.take n, (s.drop n).take m, (s.drop (n + m)).take k, hi, hf, he, ?_, ?_⟩
  · rw [htake]
    rw [if_neg hpos] at h
    split at h
    next hzero =>
      obtain ⟨-, rfl⟩ := Prod.mk.inj (some.inj h)
      rw [show n + m + k = n by omega, take_append_drop]
    next =>
      obtain ⟨-, rfl⟩ := Prod.mk.inj (some.inj h)
      rw [take_append_drop]
  · rw [partsToken, hlen, htake]
    rw [if_neg hpos] at h
    split at h
    next hzero =>
      rw [if_pos hzero]
      exact (Prod.mk.inj (some.inj h)).1.symm
    next hzero =>
      rw [if_neg hzero]
      exact (Prod.mk.inj (some.inj h)).1.symm

def numberToken (lexeme : Bytes) : Token δ :=
  ((scanNumber P options lexeme).map Prod.fst).getD .nul

theorem numberToken_parts (hi : Integer i) (hf : Fraction f) (he : Exponent e) :
    numberToken P options (i ++ f ++ e) = partsToken P options i f e := by
  have h := scanNumber_parts P options hi hf he follow_nil
  rw [append_nil] at h
  rw [numberToken, h]
  rfl

theorem scanNumber_number {l : Bytes} (hl : Number l) (hr : Follow r) :
    scanNumber P options (l ++ r) = some (numberToken P options l, r) := by
  cases hl with
  | intro hi hf he =>
    rw [scanNumber_parts P options hi hf he hr, numberToken_parts P options hi hf he]

theorem number_of_scanNumber {t : Token δ} (h : scanNumber P options s = some (t, r)) :
    ∃ l, Number l ∧ s = l ++ r ∧ t = numberToken P options l := by
  obtain ⟨i, f, e, hi, hf, he, hs, ht⟩ := parts_of_scanNumber P options h
  exact ⟨_, .intro hi hf he, hs, ht.trans (numberToken_parts P options hi hf he).symm⟩

theorem scanNumber_eq_none {c : UInt8} (hdigit : digit c = false) (hminus : c ≠ 45) :
    scanNumber P options (c :: s) = none := by
  have hzero : c ≠ 48 := by
    rintro rfl
    exact absurd hdigit (by decide)
  have hnz : ¬digitnz c = true := by
    rw [digitnz_iff, ← digit_iff, hdigit]
    exact fun h => absurd h.1 (by decide)
  have hint : intLength (c :: s) = 0 := by
    rw [intLength, if_neg hminus, uintLength, if_neg hzero, if_neg hnz]
  rw [scanNumber, hint]
  rfl

/-! ## Lexemes -/

inductive Lexeme : Token δ → Bytes → Prop
  | lbrace : Lexeme .lbrace [123]
  | rbrace : Lexeme .rbrace [125]
  | lbracket : Lexeme .lbracket [91]
  | rbracket : Lexeme .rbracket [93]
  | colon : Lexeme .colon [58]
  | comma : Lexeme .comma [44]
  | nul : Lexeme .nul (ascii "null")
  | tru : Lexeme .tru (ascii "true")
  | fls : Lexeme .fls (ascii "false")
  | number {l : Bytes} (hl : Number l) : Lexeme (numberToken P options l) l
  | string {cs : List Char} {body : Bytes} (h : Literal cs body) :
      Lexeme (.string (stringValue P body)) (quoted body)
  | estring {cs : List Char} {body : Bytes} (h : Literal cs body)
      (hempty : stringValue P body = []) : Lexeme .estring (quoted body)

theorem isBlank_iff {c : UInt8} : isBlank c = true ↔ IsSpace c :=
  forall_byte (by decide +kernel) c

theorem dropWhile_space {w : Bytes} (hw : Space w) (s : Bytes) :
    (w ++ s).dropWhile isBlank = s.dropWhile isBlank :=
  dropWhile_append_of_pos fun c hc => isBlank_iff.mpr (hw c hc)

theorem scan_space {w : Bytes} (hw : Space w) (s : Bytes) :
    scan P options (w ++ s) = scan P options s := by
  rw [scan, scan, dropWhile_space hw]

theorem scan_of_not_space {c : UInt8} (hc : ¬IsSpace c) (s : Bytes) :
    scan P options (c :: s) = scanToken P options (c :: s) := by
  rw [scan, dropWhile_cons_of_neg (mt isBlank_iff.mp hc)]

theorem scan_nil : scan P options [] = (.eoi, []) := rfl

theorem scan_structural (s : Bytes) :
    scan P options (123 :: s) = (.lbrace, s) ∧ scan P options (125 :: s) = (.rbrace, s) ∧
      scan P options (91 :: s) = (.lbracket, s) ∧ scan P options (93 :: s) = (.rbracket, s) ∧
      scan P options (58 :: s) = (.colon, s) ∧ scan P options (44 :: s) = (.comma, s) :=
  ⟨rfl, rfl, rfl, rfl, rfl, rfl⟩

theorem scan_literals (s : Bytes) :
    scan P options (ascii "null" ++ s) = (.nul, s) ∧
      scan P options (ascii "true" ++ s) = (.tru, s) ∧
      scan P options (ascii "false" ++ s) = (.fls, s) :=
  ⟨rfl, rfl, rfl⟩

theorem head_number {l : Bytes} (hl : Number l) :
    ∃ c t, l = c :: t ∧ (digit c = true ∨ c = 45) := by
  cases hl with
  | @intro i f e hi hf he =>
    cases hi with
    | @nonneg _ hds =>
      obtain ⟨c, t, rfl⟩ := exists_cons_of_ne_nil hds.nonempty
      exact ⟨c, t ++ f ++ e, rfl, .inl (digit_iff.mpr (hds.digits c mem_cons_self))⟩
    | @neg ds hds => exact ⟨45, ds ++ f ++ e, rfl, .inr rfl⟩

theorem scan_number {l : Bytes} (hl : Number l) (hr : Follow r) :
    scan P options (l ++ r) = (numberToken P options l, r) := by
  have hscan := scanNumber_number P options hl hr
  obtain ⟨c, t, rfl, hc⟩ := head_number hl
  have hbyte : ¬IsSpace c ∧ c ≠ 123 ∧ c ≠ 125 ∧ c ≠ 91 ∧ c ≠ 93 ∧ c ≠ 58 ∧ c ≠ 44 ∧ c ≠ 110 ∧
      c ≠ 116 ∧ c ≠ 102 := by
    revert hc
    exact forall_byte (by decide +kernel) c
  obtain ⟨hspace, h1, h2, h3, h4, h5, h6, hn, ht, hf⟩ := hbyte
  have hprefix {b : UInt8} (hb : c ≠ b) (w : Bytes) :
      ¬(b :: w).isPrefixOf (c :: (t ++ r)) = true := by
    rw [List.isPrefixOf, beq_false_of_ne (Ne.symm hb), Bool.false_and]
    exact Bool.false_ne_true
  rw [cons_append] at hscan
  rw [cons_append, scan_of_not_space P options hspace, scanToken, if_neg h1, if_neg h2,
    if_neg h3, if_neg h4, if_neg h5, if_neg h6,
    if_neg (show ¬(ascii "null").isPrefixOf _ = true from hprefix hn _),
    if_neg (show ¬(ascii "true").isPrefixOf _ = true from hprefix ht _),
    if_neg (show ¬(ascii "false").isPrefixOf _ = true from hprefix hf _), hscan]

theorem scan_quoted {cs : List Char} {body : Bytes} (h : Literal cs body) (r : Bytes) :
    scan P options (quoted body ++ r) = (.string (stringValue P body), r) ∨
      scan P options (quoted body ++ r) = (.estring, r) ∧ stringValue P body = [] := by
  have happend : quoted body ++ r = 34 :: (body ++ 34 :: r) := by
    rw [quoted, cons_append, append_assoc]
    rfl
  have hscan : scan P options (quoted body ++ r) = scanString P (body ++ 34 :: r) := by
    rw [happend, scan_of_not_space P options (by decide), scanToken,
      scanNumber_eq_none P options (by decide) (by decide)]
    rfl
  rw [hscan]
  exact scanString_literal P h r

theorem scanString_cases (s : Bytes) :
    (∃ errcode, (scanString P s).1 = .error errcode) ∨
      ∃ cs body, Literal cs body ∧ s = body ++ 34 :: (scanString P s).2 ∧
        ((scanString P s).1 = .string (stringValue P body) ∨
          (scanString P s).1 = .estring ∧ stringValue P body = []) := by
  cases hfirst : strP1 s 0 0 with
  | error errcode =>
    refine .inl ⟨errcode, ?_⟩
    rw [scanString, hfirst]
  | ok result =>
    obtain ⟨cs, body, hbody, hs⟩ := literal_of_strP1 hfirst
    rw [hs]
    rcases scanString_literal P hbody result.2.2 with hscan | ⟨hscan, hempty⟩
    · rw [hscan]
      exact .inr ⟨cs, body, hbody, rfl, .inl rfl⟩
    · rw [hscan]
      exact .inr ⟨cs, body, hbody, rfl, .inr ⟨rfl, hempty⟩⟩

theorem eq_append_drop {p : Bytes} {b c : UInt8} (h : (b :: p).isPrefixOf (c :: s) = true) :
    c :: s = b :: p ++ s.drop p.length := by
  obtain ⟨t, ht⟩ := isPrefixOf_iff_prefix.mp h
  have hcons : b :: (p ++ t) = c :: s := ht
  obtain ⟨rfl, rfl⟩ := List.cons.inj hcons
  rw [drop_left]
  rfl

theorem scanToken_cases {t : Token δ} (h : scanToken P options s = (t, r)) :
    (∃ errcode, t = .error errcode) ∨ (t = .eoi ∧ s = []) ∨
      ∃ l, s = l ++ r ∧ Lexeme P options t l := by
  cases s with
  | nil => exact .inr (.inl ⟨(Prod.mk.inj h).1.symm, rfl⟩)
  | cons c s =>
    rw [scanToken] at h
    by_cases h1 : c = 123
    · obtain ⟨rfl, rfl⟩ := Prod.mk.inj ((if_pos h1).symm.trans h)
      exact .inr (.inr ⟨_, by rw [h1]; rfl, .lbrace⟩)
    rw [if_neg h1] at h
    by_cases h2 : c = 125
    · obtain ⟨rfl, rfl⟩ := Prod.mk.inj ((if_pos h2).symm.trans h)
      exact .inr (.inr ⟨_, by rw [h2]; rfl, .rbrace⟩)
    rw [if_neg h2] at h
    by_cases h3 : c = 91
    · obtain ⟨rfl, rfl⟩ := Prod.mk.inj ((if_pos h3).symm.trans h)
      exact .inr (.inr ⟨_, by rw [h3]; rfl, .lbracket⟩)
    rw [if_neg h3] at h
    by_cases h4 : c = 93
    · obtain ⟨rfl, rfl⟩ := Prod.mk.inj ((if_pos h4).symm.trans h)
      exact .inr (.inr ⟨_, by rw [h4]; rfl, .rbracket⟩)
    rw [if_neg h4] at h
    by_cases h5 : c = 58
    · obtain ⟨rfl, rfl⟩ := Prod.mk.inj ((if_pos h5).symm.trans h)
      exact .inr (.inr ⟨_, by rw [h5]; rfl, .colon⟩)
    rw [if_neg h5] at h
    by_cases h6 : c = 44
    · obtain ⟨rfl, rfl⟩ := Prod.mk.inj ((if_pos h6).symm.trans h)
      exact .inr (.inr ⟨_, by rw [h6]; rfl, .comma⟩)
    rw [if_neg h6] at h
    by_cases hnull : (ascii "null").isPrefixOf (c :: s) = true
    · obtain ⟨rfl, rfl⟩ := Prod.mk.inj ((if_pos hnull).symm.trans h)
      exact .inr (.inr ⟨_, eq_append_drop hnull, .nul⟩)
    rw [if_neg hnull] at h
    by_cases htrue : (ascii "true").isPrefixOf (c :: s) = true
    · obtain ⟨rfl, rfl⟩ := Prod.mk.inj ((if_pos htrue).symm.trans h)
      exact .inr (.inr ⟨_, eq_append_drop htrue, .tru⟩)
    rw [if_neg htrue] at h
    by_cases hfalse : (ascii "false").isPrefixOf (c :: s) = true
    · obtain ⟨rfl, rfl⟩ := Prod.mk.inj ((if_pos hfalse).symm.trans h)
      exact .inr (.inr ⟨_, eq_append_drop hfalse, .fls⟩)
    rw [if_neg hfalse] at h
    cases hnumber : scanNumber P options (c :: s) with
    | some result =>
      rw [hnumber] at h
      obtain rfl : result = (t, r) := h
      obtain ⟨l, hl, hs, ht⟩ := number_of_scanNumber P options hnumber
      rw [ht]
      exact .inr (.inr ⟨l, hs, .number hl⟩)
    | none =>
      simp only [hnumber] at h
      by_cases hquote : c = 34
      · rw [if_pos hquote] at h
        rcases scanString_cases P s with ⟨errcode, hfail⟩ | ⟨cs, body, hbody, hs, hstring⟩
        · rw [h] at hfail
          exact .inl ⟨errcode, hfail⟩
        · rw [h] at hs hstring
          have happend : c :: s = quoted body ++ r := by
            rw [hquote, hs, quoted, cons_append, append_assoc]
            rfl
          rcases hstring with hstring | ⟨hestring, hempty⟩
          · obtain rfl : t = _ := hstring
            exact .inr (.inr ⟨_, happend, .string hbody⟩)
          · obtain rfl : t = _ := hestring
            exact .inr (.inr ⟨_, happend, .estring hbody hempty⟩)
      · rw [if_neg hquote] at h
        split at h
        · exact .inl ⟨_, (Prod.mk.inj h).1.symm⟩
        · split at h
          · exact .inl ⟨_, (Prod.mk.inj h).1.symm⟩
          · exact .inl ⟨_, (Prod.mk.inj h).1.symm⟩

theorem space_takeWhile (s : Bytes) : Space (s.takeWhile isBlank) := fun _ hc =>
  isBlank_iff.mp (mem_takeWhile_imp hc)

theorem lexeme_of_scan {t : Token δ} (h : scan P options s = (t, r)) :
    (∃ errcode, t = .error errcode) ∨ (t = .eoi ∧ Space s) ∨
      ∃ w l, Space w ∧ s = w ++ l ++ r ∧ Lexeme P options t l := by
  have hw := space_takeWhile s
  have hs : s.takeWhile isBlank ++ s.dropWhile isBlank = s := takeWhile_append_dropWhile
  rcases scanToken_cases P options h with herror | ⟨heoi, hnil⟩ | ⟨l, hl, hlexeme⟩
  · exact .inl herror
  · rw [hnil, append_nil] at hs
    rw [← hs]
    exact .inr (.inl ⟨heoi, hw⟩)
  · rw [hl, ← append_assoc] at hs
    exact .inr (.inr ⟨_, l, hw, hs.symm, hlexeme⟩)

end

end Json

end Phpce
