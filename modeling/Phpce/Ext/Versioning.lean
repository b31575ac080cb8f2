import Mathlib.Data.List.Find
import Phpce.Lib.Cut
import Phpce.Lib.Decimal
import Phpce.Lib.ThreeWay

/-!
# Version strings

`php_version_compare`: a version string is rewritten by `php_canonicalize_version`, which puts a dot
for each separator and between digits and other characters, and the two forms are compared piece by
piece; what one of them has left over is compared to `#N#`. A C string is the list of its bytes
before the NUL.

* **`phpVersionCompare_eq`** — the loop and the recursion end, and what they return is
  `versionOrder`, a recursion on the two lists of pieces.
-/

namespace Phpce

namespace Versioning

open Bytes ThreeWay List

/-! ## The canonical form -/

def isdigit (c : UInt8) : Bool := 48 ≤ c ∧ c ≤ 57

def isalnum (c : UInt8) : Bool := isdigit c ∨ 65 ≤ c ∧ c ≤ 90 ∨ 97 ≤ c ∧ c ≤ 122

def isdig (x : UInt8) : Bool := isdigit x ∧ x ≠ 46

def isndig (x : UInt8) : Bool := ¬isdigit x ∧ x ≠ 46

def isspecialver (x : UInt8) : Bool := x = 45 ∨ x = 95 ∨ x = 43

/-- What one turn of the loop appends: `lp` is the character before, `lq` the one stored last. -/
def canonicalizeChar (lp lq p : UInt8) : Bytes :=
  let dot : Bytes := if lq ≠ 46 then [46] else []
  if isspecialver p then dot
  else if isndig lp && isdig p || isdig lp && isndig p then dot ++ [p]
  else if !isalnum p then dot
  else [p]

def canonicalizeLoop (lp : UInt8) (q : Bytes) : Bytes → Bytes
  | [] => q
  | p :: rest => canonicalizeLoop p (q ++ canonicalizeChar lp (q.getLastD 0) p) rest

def phpCanonicalizeVersion : Bytes → Bytes
  | [] => []
  | p :: rest => canonicalizeLoop p [p] rest

/-! ## Comparing forms -/

def specialForms : List (Bytes × Int) :=
  [(ascii "dev", 0), (ascii "alpha", 1), (ascii "a", 1), (ascii "beta", 2), (ascii "b", 2),
    (ascii "RC", 3), (ascii "rc", 3), (ascii "#", 4), (ascii "pl", 5), (ascii "p", 5)]

/-- The order of the first name that the form starts with. -/
def found (form : Bytes) : Int :=
  match specialForms.find? fun pp => pp.1.isPrefixOf form with
  | some pp => pp.2
  | none => -1

def sign (n : Int) : Int := if n < 0 then -1 else if n > 0 then 1 else 0

def compareSpecialVersionForms (form1 form2 : Bytes) : Int := sign (found form1 - found form2)

/-- `strtol` to the base 10 of a text that starts with a digit; it saturates at `LONG_MAX`. -/
def strtol (nptr : Bytes) : Int :=
  min (value (nptr.takeWhile fun c => isdigit c)) 9223372036854775807

def startsWithDigit (p : Bytes) : Bool := p.head?.any isdigit

def numberForm : Bytes := ascii "#N#"

/-- The comparison of two pieces, in the body of the loop. -/
def comparePieces (p1 p2 : Bytes) : Int :=
  if startsWithDigit p1 && startsWithDigit p2 then sign (strtol p1 - strtol p2)
  else if !startsWithDigit p1 && !startsWithDigit p2 then compareSpecialVersionForms p1 p2
  else if startsWithDigit p1 then compareSpecialVersionForms numberForm p2
  else compareSpecialVersionForms p1 numberForm

/-- `strchr`, and the NUL stored at the dot: the piece, and what stands behind the dot. -/
def nextPiece (p : Bytes) : Bytes × Option Bytes :=
  match cutAt 46 p with
  | some (piece, n) => (piece, some n)
  | none => (p, none)

/-- The loop, as long as there is fuel: the comparison, and for each string what is left over behind
the last dot that was found, if one was. -/
def versionLoop : Nat → Bytes → Bytes → Option (Int × Option Bytes × Option Bytes)
  | 0, _, _ => none
  | fuel + 1, p1, p2 =>
    if p1 = [] ∨ p2 = [] then some (0, some p1, some p2)
    else
      let next1 := nextPiece p1
      let next2 := nextPiece p2
      let compare := comparePieces next1.1 next2.1
      if compare ≠ 0 then some (compare, next1.2, next2.2)
      else
        match next1.2, next2.2 with
        | some p1, some p2 => versionLoop fuel p1 p2
        | n1, n2 => some (0, n1, n2)

def comparedForm (orig : Bytes) : Bytes :=
  if orig.head? = some 35 then orig else phpCanonicalizeVersion orig

/-- What follows the loop when it found no difference; `self` is the recursive call. -/
def compareLeftOver (self : Bytes → Bytes → Option Int) : Option Bytes → Option Bytes → Option Int
  | some p1, _ => if startsWithDigit p1 then some 1 else self p1 numberForm
  | none, some p2 => if startsWithDigit p2 then some (-1) else self numberForm p2
  | none, none => some 0

def phpVersionCompare : Nat → Bytes → Bytes → Option Int
  | 0, _, _ => none
  | fuel + 1, orig1, orig2 =>
    if orig1 = [] ∨ orig2 = [] then
      if orig1 = [] ∧ orig2 = [] then some 0 else some (if orig1 ≠ [] then 1 else -1)
    else
      match versionLoop fuel (comparedForm orig1) (comparedForm orig2) with
      | none => none
      | some (compare, n1, n2) =>
        if compare ≠ 0 then some compare else compareLeftOver (phpVersionCompare fuel) n1 n2

/-! ## The pieces of a text -/

def pieces (p : Bytes) : List Bytes := (cutAll 46 [] p).1 ++ [(cutAll 46 [] p).2]

variable {p r t : Bytes} {c : UInt8}

theorem pieces_of_notMem (h : 46 ∉ t) : pieces t = [t] := by
  rw [pieces, cutAll_of_notMem h]
  rfl

theorem pieces_append_cons (h : 46 ∉ t) (r : Bytes) : pieces (t ++ 46 :: r) = t :: pieces r := by
  rw [pieces, cutAll_append_cons h]
  rfl

theorem pieces_induction {motive : Bytes → Prop} (last : ∀ t, 46 ∉ t → motive t)
    (cons : ∀ t r, 46 ∉ t → motive r → motive (t ++ 46 :: r)) (p : Bytes) : motive p := by
  induction hn : p.length using Nat.strongRecOn generalizing p with
  | ind n ih =>
    cases hcut : cutAt 46 p with
    | none => exact last p (cutAt_eq_none_iff.mp hcut)
    | some cut =>
      obtain ⟨rfl, ht⟩ := cutAt_eq_some_iff.mp hcut
      rw [length_append, length_cons] at hn
      exact cons cut.1 cut.2 ht (ih cut.2.length (by omega) cut.2 rfl)

theorem nextPiece_of_notMem (h : 46 ∉ t) : nextPiece t = (t, none) := by
  rw [nextPiece, cutAt_eq_none_iff.mpr h]

theorem nextPiece_append_cons (h : 46 ∉ t) (r : Bytes) :
    nextPiece (t ++ 46 :: r) = (t, some r) := by
  rw [nextPiece, cutAt_append h]

theorem pieces_ne_nil (p : Bytes) : pieces p ≠ [] := append_ne_nil_of_right_ne_nil _ (by simp)

/-! ## Comparing lists of pieces -/

/-- How the pieces left over compare to `#N#`. -/
def restOrder : List Bytes → Int
  | [] => 0
  | e :: es =>
    if startsWithDigit e then 1
    else if compareSpecialVersionForms e numberForm ≠ 0 then
      compareSpecialVersionForms e numberForm
    else restOrder es

def piecesOrder : List Bytes → List Bytes → Int
  | [], es2 => -restOrder es2
  | e :: es, [] => restOrder (e :: es)
  | e1 :: es1, e2 :: es2 =>
    -- a text that has come to its end has one empty piece
    if e1 :: es1 = [[]] then -1
    else if e2 :: es2 = [[]] then restOrder (e1 :: es1)
    else if comparePieces e1 e2 ≠ 0 then comparePieces e1 e2
    else piecesOrder es1 es2

def versionOrder (orig1 orig2 : Bytes) : Int :=
  if orig1 = [] ∨ orig2 = [] then
    if orig1 = [] ∧ orig2 = [] then 0 else if orig1 ≠ [] then 1 else -1
  else piecesOrder (pieces (comparedForm orig1)) (pieces (comparedForm orig2))

/-! ## The names that a text starts with -/

def IsLetter (c : UInt8) : Prop := 65 ≤ c ∧ c ≤ 90 ∨ 97 ≤ c ∧ c ≤ 122

instance (c : UInt8) : Decidable (IsLetter c) := inferInstanceAs (Decidable (_ ∨ _))

theorem isLetter_classes (h : IsLetter c) :
    isspecialver c = false ∧ isdig c = false ∧ isndig c = true ∧ isalnum c = true ∧ c ≠ 46 := by
  revert h
  exact forall_byte (by decide +kernel) c

theorem isdig_of_isalnum (h : isalnum c = true) (hletter : ¬IsLetter c) : isdig c = true := by
  revert h hletter
  exact forall_byte (by decide +kernel) c

def appended (lp lq : UInt8) : Bytes → Bytes
  | [] => []
  | p :: rest =>
    canonicalizeChar lp lq p ++ appended p ((canonicalizeChar lp lq p).getLastD lq) rest

theorem canonicalizeLoop_eq (lp : UInt8) (q s : Bytes) :
    canonicalizeLoop lp q s = q ++ appended lp (q.getLastD 0) s := by
  induction s generalizing lp q with
  | nil => exact (append_nil q).symm
  | cons p s ih =>
    have hlast : ∀ out : Bytes, (q ++ out).getLastD 0 = out.getLastD (q.getLastD 0) := by
      intro out
      rw [getLastD_eq_getLast?, getLastD_eq_getLast?, getLastD_eq_getLast?,
        List.getLast?_append]
      cases out.getLast? <;> rfl
    rw [canonicalizeLoop, ih, hlast, appended, append_assoc]

theorem phpCanonicalizeVersion_cons (c : UInt8) (s : Bytes) :
    phpCanonicalizeVersion (c :: s) = c :: appended c c s := canonicalizeLoop_eq c [c] s

theorem canonicalizeChar_letter {lp lq : UInt8} (hlp : isdig lp = false) (h : IsLetter c) :
    canonicalizeChar lp lq c = [c] := by
  obtain ⟨hspecial, hdig, -, halnum, -⟩ := isLetter_classes h
  rw [canonicalizeChar, hspecial, hdig, hlp, halnum]
  simp

theorem canonicalizeChar_of_not_letter {lp : UInt8} (hlp : IsLetter lp) (h : ¬IsLetter c) :
    ∃ out, canonicalizeChar lp lp c = 46 :: out := by
  obtain ⟨-, -, hndig, -, hdot⟩ := isLetter_classes hlp
  rw [canonicalizeChar, hndig, if_pos hdot]
  by_cases hspecial : isspecialver c = true
  · exact ⟨[], if_pos hspecial⟩
  rw [if_neg hspecial]
  by_cases hdig : isdig c = true
  · exact ⟨[c], if_pos (by rw [hdig]; rfl)⟩
  have halnum : isalnum c = false :=
    Bool.eq_false_iff.mpr fun halnum => hdig (isdig_of_isalnum halnum h)
  rw [halnum]
  split
  next => exact ⟨[c], rfl⟩
  next => exact ⟨[], rfl⟩

theorem isPrefixOf_appended {w : Bytes} (hw : ∀ x ∈ w, IsLetter x) {lp : UInt8}
    (hlp : IsLetter lp) (s : Bytes) : w.isPrefixOf (appended lp lp s) = w.isPrefixOf s := by
  induction s generalizing w lp with
  | nil => rfl
  | cons c s ih =>
    cases w with
    | nil => rfl
    | cons x w =>
      obtain ⟨hx, hw⟩ := forall_mem_cons.mp hw
      by_cases hc : IsLetter c
      · rw [appended, canonicalizeChar_letter (isLetter_classes hlp).2.1 hc]
        show (x == c && w.isPrefixOf (appended c c s)) = (x == c && w.isPrefixOf s)
        rw [ih hw hc]
      · obtain ⟨out, hout⟩ := canonicalizeChar_of_not_letter hlp hc
        have hne : x ≠ c := fun h => hc (h ▸ hx)
        rw [appended, hout]
        show (x == 46 && _) = (x == c && _)
        rw [beq_false_of_ne hne, beq_false_of_ne (isLetter_classes hx).2.2.2.2]
        rfl

theorem isPrefixOf_append_cons {w : Bytes} (hw : 46 ∉ w) (t r : Bytes) :
    w.isPrefixOf (t ++ 46 :: r) = w.isPrefixOf t := by
  induction t generalizing w with
  | nil =>
    cases w with
    | nil => rfl
    | cons x w =>
      have hx : x ≠ 46 := fun h => hw (h ▸ mem_cons_self)
      show (x == 46 && _) = false
      rw [beq_false_of_ne hx]
      rfl
  | cons c t ih =>
    cases w with
    | nil => rfl
    | cons x w =>
      show (x == c && w.isPrefixOf (t ++ 46 :: r)) = (x == c && w.isPrefixOf t)
      rw [ih fun h => hw (mem_cons_of_mem x h)]

theorem found_congr {p q : Bytes}
    (h : ∀ pp ∈ specialForms, pp.1.isPrefixOf p = pp.1.isPrefixOf q) : found p = found q := by
  rw [found, found, List.find?_congr h]

theorem found_nextPiece (p : Bytes) : found (nextPiece p).1 = found p := by
  cases hcut : cutAt 46 p with
  | none => rw [nextPiece, hcut]
  | some cut =>
    obtain ⟨rfl, ht⟩ := cutAt_eq_some_iff.mp hcut
    rw [nextPiece_append_cons ht]
    have hnames : ∀ pp ∈ specialForms, 46 ∉ pp.1 := by decide
    exact found_congr fun pp hpp => (isPrefixOf_append_cons (hnames pp hpp) _ _).symm

theorem specialForms_letters : ∀ pp ∈ specialForms, ∃ x w, pp.1 = x :: w ∧
    (∀ y ∈ w, IsLetter y) ∧ (w = [] ∨ IsLetter x) := by
  intro pp hpp
  have htable : ∀ pp ∈ specialForms, pp.1 ≠ [] ∧ (∀ y ∈ pp.1.tail, IsLetter y) ∧
      (pp.1.tail = [] ∨ IsLetter (pp.1.headD 0)) := by decide
  obtain ⟨hne, hletters, hhead⟩ := htable pp hpp
  obtain ⟨x, w, hcons⟩ := exists_cons_of_ne_nil hne
  rw [hcons] at hletters hhead
  exact ⟨x, w, hcons, hletters, hhead⟩

theorem found_phpCanonicalizeVersion (p : Bytes) : found (phpCanonicalizeVersion p) = found p := by
  cases p with
  | nil => rfl
  | cons c s =>
    rw [phpCanonicalizeVersion_cons]
    refine found_congr fun pp hpp => ?_
    obtain ⟨x, w, hname, hw, hhead⟩ := specialForms_letters pp hpp
    rw [hname]
    show (x == c && w.isPrefixOf (appended c c s)) = (x == c && w.isPrefixOf s)
    by_cases hxc : x = c
    · subst hxc
      rcases hhead with rfl | hx
      · rfl
      · rw [isPrefixOf_appended hw hx]
    · rw [beq_false_of_ne hxc]
      rfl

theorem found_eq_four_iff : found p = 4 ↔ p.head? = some 35 := by
  constructor
  · intro h
    have htable : ∀ pp ∈ specialForms, pp.2 = 4 → pp.1 = [35] := by decide
    rw [found] at h
    cases hfind : specialForms.find? fun pp => pp.1.isPrefixOf p with
    | none =>
      rw [hfind] at h
      exact absurd h (by decide)
    | some pp =>
      rw [hfind] at h
      have hstart := List.find?_some hfind
      rw [htable pp (mem_of_find?_eq_some hfind) h] at hstart
      obtain ⟨s, rfl⟩ := isPrefixOf_iff_prefix.mp hstart
      rfl
  · intro h
    obtain ⟨s, rfl⟩ := List.head?_eq_some_iff.mp h
    rfl

theorem found_bounds (p : Bytes) : -1 ≤ found p ∧ found p ≤ 5 := by
  have htable : ∀ pp ∈ specialForms, -1 ≤ pp.2 ∧ pp.2 ≤ 5 := by decide
  rw [found]
  split
  next pp hfind => exact htable pp (mem_of_find?_eq_some hfind)
  next => decide

/-! ## The order of two pieces -/

theorem sign_sub (m n : Int) : sign (m - n) = threeWay m n := by
  rw [sign, threeWay]
  exact if_congr (by omega) rfl (if_congr (by omega) rfl rfl)

theorem compareSpecial_eq (p q : Bytes) :
    compareSpecialVersionForms p q = threeWay (found p) (found q) := sign_sub _ _

theorem strtol_nonneg (p : Bytes) : 0 ≤ strtol p := by
  rw [strtol]
  omega

theorem comparePieces_self (p : Bytes) : comparePieces p p = 0 := by
  rw [comparePieces, sign_sub, compareSpecial_eq, threeWay_self, threeWay_self]
  cases startsWithDigit p <;> rfl

theorem startsWithDigit_of_head (h : p.head? = some 35) : startsWithDigit p = false := by
  rw [startsWithDigit, h]
  rfl

theorem comparePieces_numberForm (h : startsWithDigit p = false) :
    comparePieces p numberForm = compareSpecialVersionForms p numberForm := by
  rw [comparePieces, h]
  rfl

theorem comparePieces_numberForm_left (h : startsWithDigit p = false) :
    comparePieces numberForm p = -compareSpecialVersionForms p numberForm := by
  rw [comparePieces, h]
  show compareSpecialVersionForms numberForm p = _
  rw [compareSpecial_eq, compareSpecial_eq, threeWay_swap]

theorem compareSpecial_numberForm_eq_zero_iff :
    compareSpecialVersionForms p numberForm = 0 ↔ p.head? = some 35 := by
  rw [compareSpecial_eq, threeWay_eq_zero_iff, ← found_eq_four_iff]
  rfl

/-! ## The loop -/

def leftPieces : Option Bytes → List Bytes
  | some p => pieces p
  | none => []

theorem pieces_eq_cons (p : Bytes) :
    pieces p = (nextPiece p).1 :: leftPieces (nextPiece p).2 := by
  cases hcut : cutAt 46 p with
  | none =>
    have hp := cutAt_eq_none_iff.mp hcut
    rw [pieces_of_notMem hp, nextPiece_of_notMem hp]
    rfl
  | some cut =>
    obtain ⟨rfl, ht⟩ := cutAt_eq_some_iff.mp hcut
    rw [pieces_append_cons ht, nextPiece_append_cons ht]
    rfl

theorem pieces_eq_singleton_nil_iff : pieces p = [[]] ↔ p = [] := by
  refine ⟨fun h => ?_, fun h => by rw [h]; rfl⟩
  cases hcut : cutAt 46 p with
  | none =>
    rw [pieces_of_notMem (cutAt_eq_none_iff.mp hcut)] at h
    exact (List.cons.inj h).1
  | some cut =>
    obtain ⟨rfl, ht⟩ := cutAt_eq_some_iff.mp hcut
    rw [pieces_append_cons ht] at h
    exact absurd (List.cons.inj h).2 (pieces_ne_nil _)

def leftOrder : Option Bytes → Option Bytes → Int
  | some p1, _ => restOrder (pieces p1)
  | none, n2 => -restOrder (leftPieces n2)

/-- What becomes of the loop's result, the comparisons to `#N#` being done. -/
def outcome (compare : Int) (n1 n2 : Option Bytes) : Int :=
  if compare ≠ 0 then compare else leftOrder n1 n2

theorem piecesOrder_of_ne_nil {p1 p2 : Bytes} (h1 : p1 ≠ []) (h2 : p2 ≠ []) :
    piecesOrder (pieces p1) (pieces p2) =
      if comparePieces (nextPiece p1).1 (nextPiece p2).1 ≠ 0 then
        comparePieces (nextPiece p1).1 (nextPiece p2).1
      else piecesOrder (leftPieces (nextPiece p1).2) (leftPieces (nextPiece p2).2) := by
  have hne1 := mt pieces_eq_singleton_nil_iff.mp h1
  have hne2 := mt pieces_eq_singleton_nil_iff.mp h2
  rw [pieces_eq_cons] at hne1 hne2 ⊢
  rw [pieces_eq_cons p2, piecesOrder, if_neg hne1, if_neg hne2]

theorem versionLoop_eq {fuel : Nat} (p1 p2 : Bytes) (hfuel : (pieces p1).length ≤ fuel) :
    ∃ compare n1 n2, versionLoop fuel p1 p2 = some (compare, n1, n2) ∧
      outcome compare n1 n2 = piecesOrder (pieces p1) (pieces p2) ∧
      (leftPieces n1).length ≤ (pieces p1).length ∧
      (leftPieces n2).length ≤ (pieces p2).length := by
  -- induction on the fuel
  induction fuel generalizing p1 p2 with
  | zero => exact absurd (length_eq_zero_iff.mp (Nat.le_zero.mp hfuel)) (pieces_ne_nil p1)
  | succ fuel ih =>
    rw [versionLoop]
    by_cases h1 : p1 = []
    · subst h1
      refine ⟨0, some [], some p2, if_pos (.inl rfl), ?_, Nat.le_refl _, Nat.le_refl _⟩
      rw [pieces_eq_cons p2]
      rfl
    by_cases h2 : p2 = []
    · subst h2
      refine ⟨0, some p1, some [], if_pos (.inr rfl), ?_, Nat.le_refl _, Nat.le_refl _⟩
      have hne := mt pieces_eq_singleton_nil_iff.mp h1
      show restOrder (pieces p1) = piecesOrder (pieces p1) [[]]
      rw [pieces_eq_cons p1] at hne ⊢
      rw [piecesOrder, if_neg hne, if_pos rfl]
    rw [if_neg (not_or.mpr ⟨h1, h2⟩), piecesOrder_of_ne_nil h1 h2]
    have hlength1 := congrArg List.length (pieces_eq_cons p1)
    have hlength2 := congrArg List.length (pieces_eq_cons p2)
    rw [length_cons] at hlength1 hlength2
    dsimp only
    generalize (nextPiece p1).1 = piece1
    generalize (nextPiece p2).1 = piece2
    generalize (nextPiece p1).2 = n1 at hlength1 ⊢
    generalize (nextPiece p2).2 = n2 at hlength2 ⊢
    by_cases hcompare : comparePieces piece1 piece2 = 0
    · rw [if_neg (not_not_intro hcompare), if_neg (not_not_intro hcompare)]
      match n1, n2 with
      | some q1, some q2 =>
        obtain ⟨compare, m1, m2, hloop, houtcome, hle1, hle2⟩ :=
          ih q1 q2 (by change _ = (pieces q1).length + 1 at hlength1; omega)
        change _ = (pieces q1).length + 1 at hlength1
        change _ = (pieces q2).length + 1 at hlength2
        exact ⟨compare, m1, m2, hloop, houtcome, by omega, by omega⟩
      | some q1, none =>
        refine ⟨0, some q1, none, rfl, ?_, by omega, by omega⟩
        show restOrder (pieces q1) = piecesOrder (pieces q1) []
        rw [pieces_eq_cons, piecesOrder]
      | none, n2 => exact ⟨0, none, n2, rfl, rfl, by omega, by omega⟩
    · rw [if_pos hcompare, if_pos hcompare]
      exact ⟨_, n1, n2, rfl, if_pos hcompare, by omega, by omega⟩

/-! ## The recursion -/

theorem comparedForm_of_head (h : p.head? = some 35) : comparedForm p = p := if_pos h

theorem comparedForm_eq_nil_iff : comparedForm p = [] ↔ p = [] := by
  rw [comparedForm]
  split
  next => exact Iff.rfl
  next =>
    cases p with
    | nil => exact iff_of_true rfl rfl
    | cons c s =>
      rw [phpCanonicalizeVersion_cons]
      exact iff_of_false (cons_ne_nil _ _) (cons_ne_nil _ _)

theorem found_comparedForm (p : Bytes) : found (comparedForm p) = found p := by
  rw [comparedForm]
  split
  next => rfl
  next => exact found_phpCanonicalizeVersion p

theorem startsWithDigit_comparedForm (p : Bytes) :
    startsWithDigit (comparedForm p) = startsWithDigit p := by
  rw [comparedForm]
  split
  next => rfl
  next =>
    cases p with
    | nil => rfl
    | cons c s =>
      rw [phpCanonicalizeVersion_cons]
      rfl

theorem startsWithDigit_nextPiece (p : Bytes) :
    startsWithDigit (nextPiece p).1 = startsWithDigit p := by
  cases hcut : cutAt 46 p with
  | none => rw [nextPiece, hcut]
  | some cut =>
    obtain ⟨hp, ht⟩ := cutAt_eq_some_iff.mp hcut
    rw [nextPiece, hcut]
    rw [hp]
    cases cut.1 <;> rfl

theorem phpVersionCompare_of_loop {fuel : Nat} {orig1 orig2 : Bytes} {compare : Int}
    {n1 n2 : Option Bytes} (h1 : orig1 ≠ []) (h2 : orig2 ≠ [])
    (hloop : versionLoop fuel (comparedForm orig1) (comparedForm orig2) =
      some (compare, n1, n2)) :
    phpVersionCompare (fuel + 1) orig1 orig2 =
      if compare ≠ 0 then some compare
      else compareLeftOver (phpVersionCompare fuel) n1 n2 := by
  rw [phpVersionCompare, if_neg (not_or.mpr ⟨h1, h2⟩), hloop]

theorem restOrder_of_digit (h : startsWithDigit p = true) : restOrder (pieces p) = 1 := by
  rw [pieces_eq_cons, restOrder, startsWithDigit_nextPiece, h]
  rfl

theorem phpVersionCompare_numberForm {fuel : Nat} (p : Bytes) (hdigit : startsWithDigit p = false)
    (hfuel : (pieces p).length < fuel) :
    phpVersionCompare fuel p numberForm = some (restOrder (pieces p)) ∧
      phpVersionCompare fuel numberForm p = some (-restOrder (pieces p)) := by
  -- induction on the fuel
  induction fuel generalizing p with
  | zero => exact absurd hfuel (Nat.not_lt_zero _)
  | succ fuel ih =>
    by_cases hnil : p = []
    · subst hnil
      exact ⟨rfl, rfl⟩
    have hform : comparedForm p ≠ [] := mt comparedForm_eq_nil_iff.mp hnil
    have hnumber : numberForm ≠ [] := by decide
    have hfirst : startsWithDigit (nextPiece (comparedForm p)).1 = false := by
      rw [startsWithDigit_nextPiece, startsWithDigit_comparedForm, hdigit]
    have hcompare : compareSpecialVersionForms (nextPiece (comparedForm p)).1 numberForm =
        compareSpecialVersionForms (nextPiece p).1 numberForm := by
      rw [compareSpecial_eq, compareSpecial_eq, found_nextPiece, found_comparedForm,
        found_nextPiece]
    have hlength := congrArg List.length (pieces_eq_cons p)
    rw [length_cons] at hlength
    obtain ⟨fuel, rfl⟩ : ∃ n, fuel = n + 1 := ⟨fuel - 1, by omega⟩
    by_cases hzero : compareSpecialVersionForms (nextPiece p).1 numberForm = 0
    · -- it starts with `#`, and the recursion goes on behind its first piece
      have hself : comparedForm p = p := by
        rw [compareSpecial_numberForm_eq_zero_iff, ← found_eq_four_iff, found_nextPiece,
          found_eq_four_iff] at hzero
        exact comparedForm_of_head hzero
      have hleft : versionLoop (fuel + 1) (comparedForm p) numberForm =
          some (0, (nextPiece p).2, none) := by
        rw [versionLoop, if_neg (not_or.mpr ⟨hform, hnumber⟩),
          show nextPiece numberForm = (numberForm, none) from rfl]
        dsimp only
        rw [comparePieces_numberForm hfirst, hcompare, hzero, if_neg (not_not_intro rfl), hself]
        cases (nextPiece p).2 <;> rfl
      have hright : versionLoop (fuel + 1) numberForm (comparedForm p) =
          some (0, none, (nextPiece p).2) := by
        rw [versionLoop, if_neg (not_or.mpr ⟨hnumber, hform⟩),
          show nextPiece numberForm = (numberForm, none) from rfl]
        dsimp only
        rw [comparePieces_numberForm_left hfirst, hcompare, hzero, Int.neg_zero,
          if_neg (not_not_intro rfl), hself]
      have hrest : restOrder (pieces p) = restOrder (leftPieces (nextPiece p).2) := by
        rw [pieces_eq_cons p, restOrder, startsWithDigit_nextPiece, hdigit,
          if_neg Bool.false_ne_true, if_neg (not_not_intro hzero)]
      rw [phpVersionCompare_of_loop hnil hnumber hleft,
        phpVersionCompare_of_loop hnumber hnil hright, if_neg (not_not_intro rfl),
        if_neg (not_not_intro rfl), hrest]
      cases hn : (nextPiece p).2 with
      | none => exact ⟨rfl, rfl⟩
      | some r =>
        dsimp only [leftPieces, compareLeftOver]
        cases hr : startsWithDigit r with
        | true =>
          rw [restOrder_of_digit hr]
          exact ⟨rfl, rfl⟩
        | false =>
          rw [hn] at hlength
          change _ = (pieces r).length + 1 at hlength
          exact ih r hr (by omega)
    · have hleft : versionLoop (fuel + 1) (comparedForm p) numberForm = some
          (compareSpecialVersionForms (nextPiece p).1 numberForm,
            (nextPiece (comparedForm p)).2, none) := by
        rw [versionLoop, if_neg (not_or.mpr ⟨hform, hnumber⟩),
          show nextPiece numberForm = (numberForm, none) from rfl]
        dsimp only
        rw [comparePieces_numberForm hfirst, hcompare, if_pos hzero]
      have hright : versionLoop (fuel + 1) numberForm (comparedForm p) = some
          (-compareSpecialVersionForms (nextPiece p).1 numberForm, none,
            (nextPiece (comparedForm p)).2) := by
        rw [versionLoop, if_neg (not_or.mpr ⟨hnumber, hform⟩),
          show nextPiece numberForm = (numberForm, none) from rfl]
        dsimp only
        rw [comparePieces_numberForm_left hfirst, hcompare, if_pos (Int.neg_ne_zero.mpr hzero)]
      rw [phpVersionCompare_of_loop hnil hnumber hleft,
        phpVersionCompare_of_loop hnumber hnil hright, if_pos hzero,
        if_pos (Int.neg_ne_zero.mpr hzero), pieces_eq_cons p, restOrder,
        startsWithDigit_nextPiece, hdigit, if_neg Bool.false_ne_true, if_pos hzero]
      exact ⟨rfl, rfl⟩

/-- **The comparison.** The loop and the recursion end, given fuel for the pieces. -/
theorem phpVersionCompare_eq {fuel : Nat} (orig1 orig2 : Bytes)
    (hfuel : (pieces (comparedForm orig1)).length + (pieces (comparedForm orig2)).length < fuel) :
    phpVersionCompare fuel orig1 orig2 = some (versionOrder orig1 orig2) := by
  obtain ⟨fuel, rfl⟩ : ∃ n, fuel = n + 1 := ⟨fuel - 1, by omega⟩
  rw [versionOrder]
  by_cases hnil : orig1 = [] ∨ orig2 = []
  · rw [phpVersionCompare, if_pos hnil, if_pos hnil]
    split <;> rfl
  rw [if_neg hnil]
  obtain ⟨h1, h2⟩ := not_or.mp hnil
  have hturns : (pieces (comparedForm orig1)).length ≤ fuel := by omega
  obtain ⟨compare, n1, n2, hloop, houtcome, hle1, hle2⟩ :=
    versionLoop_eq (comparedForm orig1) (comparedForm orig2) hturns
  have hpos1 := length_pos_iff.mpr (pieces_ne_nil (comparedForm orig1))
  have hpos2 := length_pos_iff.mpr (pieces_ne_nil (comparedForm orig2))
  rw [phpVersionCompare_of_loop h1 h2 hloop, ← houtcome, outcome]
  split
  next => rfl
  next =>
    cases n1 with
    | some p1 =>
      change (pieces p1).length ≤ _ at hle1
      dsimp only [leftOrder, compareLeftOver]
      cases hdigit : startsWithDigit p1 with
      | true => rw [restOrder_of_digit hdigit]; rfl
      | false => exact (phpVersionCompare_numberForm p1 hdigit (by omega)).1
    | none =>
      cases n2 with
      | none => rfl
      | some p2 =>
        change (pieces p2).length ≤ _ at hle2
        dsimp only [leftOrder, leftPieces, compareLeftOver]
        cases hdigit : startsWithDigit p2 with
        | true => rw [restOrder_of_digit hdigit]; rfl
        | false => exact (phpVersionCompare_numberForm p2 hdigit (by omega)).2

end Versioning

end Phpce
