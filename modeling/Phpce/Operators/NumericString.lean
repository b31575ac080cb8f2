import Mathlib.Data.Nat.Find
import Phpce.Lib.Decimal
import Phpce.Operators.Pow

/-!
# `_is_numeric_string_ex`

The digits of a string are counted and taken into a `zend_long`; 20 of them are too many, and at 19
the text is compared with the digits of the minimum. The look-ahead for an exponent moves `ptr`, and
the comparison goes on to the end of the string.

* `checkDigits_append`: what the loop has read when it comes behind the digits.
* `strcmp_min`, `strcmp_min_moved`: what the comparison says where `ptr` stands behind the digits,
  and where it was moved.
* **`isNumericStringEx_iff`**: when an integer string is classified exactly.
-/

namespace Phpce

namespace NumericString

open Bytes List

inductive NumericType where
  | none
  | long
  | double
  deriving DecidableEq, Repr

/-- What is returned and written: `lval` and `dval` are `none` where they are left as they were. -/
structure NumericResult (δ : Type*) where
  type : NumericType
  lval : Option Int64
  dval : Option δ
  oflowInfo : Option Int
  notice : Bool
  deriving DecidableEq, Repr

def maxLengthOfLong : Nat := 20

def longMinDigits : Bytes := ascii "9223372036854775808"

def isBlank (c : UInt8) : Bool :=
  c = 32 || c = 9 || c = 10 || c = 13 || c = 11 || c = 12

/-- A byte of a string, which ends in a NUL. -/
def at' (s : Bytes) (i : Nat) : UInt8 := s.getD i 0

/-- `digits`, `ptr` from `str` on, and `tmp_lval`; `jumped` is set where the loop was left for
`process_double`. -/
structure Scan where
  digits : Nat
  ptr : Nat
  tmpLval : Int64
  type : NumericType
  jumped : Bool
  deriving DecidableEq, Repr

/-- The loop around `check_digits`, with what stands from `ptr` on. With `stop` it ends at too many
digits, and with `check` the double goes on to be checked here. -/
def checkDigits (stop check : Bool) :
    (text : Bytes) → (dpOrE digits ptr : Nat) → Int64 → NumericType → Scan
  | [], _, digits, ptr, tmp, type => ⟨digits, ptr, tmp, type, false⟩
  | c :: text, dpOrE, digits, ptr, tmp, type =>
      if stop ∧ digits ≥ maxLengthOfLong then ⟨digits, ptr, tmp, type, false⟩
      else if IsDigit c then
        checkDigits stop check text dpOrE (digits + 1) (ptr + 1)
          (tmp * 10 + Int64.ofNat c.toNat - 48) type
      else if c = 46 ∧ dpOrE < 1 then
        if check then checkDigits stop check text 1 digits (ptr + 1) tmp .double
        else ⟨digits, ptr, tmp, .double, true⟩
      else if (c = 101 ∨ c = 69) ∧ dpOrE < 2 then
        match text with
        | [] => ⟨digits, ptr, tmp, type, false⟩
        | e :: text =>
            if e = 45 ∨ e = 43 then
              -- `ptr = e++`
              if IsDigit (at' text 0) then
                if check then checkDigits stop check text 2 digits (ptr + 2) tmp .double
                else ⟨digits, ptr + 1, tmp, .double, true⟩
              else ⟨digits, ptr + 1, tmp, type, false⟩
            else if IsDigit e then
              if check then checkDigits stop check (e :: text) 2 digits (ptr + 1) tmp .double
              else ⟨digits, ptr, tmp, .double, true⟩
            else ⟨digits, ptr, tmp, type, false⟩
      else ⟨digits, ptr, tmp, type, false⟩

section

variable {δ : Type*} (strtod : Bytes → δ × Nat)

/-- `process_double` behind too many digits, or where the loop was left for it: the conversion moves
`ptr` to the end of what it has read. -/
def processDouble (str : Bytes) (hasDval : Bool) (scan : Scan) : Scan :=
  { scan with type := .double, ptr := if hasDval then (strtod str).2 else scan.ptr }

/-- From the test of the end of the string on. -/
def finish (str : Bytes) (hasDval : Bool) (allowErrors : Int) (oflow : Int) (scan : Scan) :
    NumericResult δ :=
  let sign : Int := if at' str 0 = 45 then -1 else 1
  if scan.ptr ≠ str.length ∧ allowErrors = 0 then ⟨.none, none, none, some oflow, false⟩
  else
    let notice : Bool := scan.ptr ≠ str.length ∧ allowErrors = -1
    let dval := if hasDval then some (strtod str).1 else none
    if scan.type = .long then
      let cmp := strcmp (str.drop (scan.ptr - scan.digits)) longMinDigits
      if scan.digits = maxLengthOfLong - 1 ∧ ¬(cmp = .lt ∨ cmp = .eq ∧ at' str 0 = 45) then
        ⟨.double, none, dval, some sign, notice⟩
      else
        ⟨.long, some (if at' str 0 = 45 then -scan.tmpLval else scan.tmpLval), none, some oflow,
          notice⟩
    else ⟨.double, none, dval, some oflow, notice⟩

/-- Behind the loop: the conversion, where it was left for it or there are too many digits. -/
def afterLoop (str : Bytes) (hasDval : Bool) (allowErrors : Int) (scan : Scan) :
    NumericResult δ :=
  if scan.jumped then
    finish strtod str hasDval allowErrors 0 (processDouble strtod str hasDval scan)
  else if scan.digits ≥ maxLengthOfLong then
    finish strtod str hasDval allowErrors (if at' str 0 = 45 then -1 else 1)
      (processDouble strtod str hasDval scan)
  else finish strtod str hasDval allowErrors 0 scan

/-- `_is_numeric_string_ex` with an `lval` and an `oflow_info`; `hasDval` says whether `dval` is
given. -/
def isNumericStringEx (text : Bytes) (hasDval : Bool) (allowErrors : Int) : NumericResult δ :=
  if text.length = 0 then ⟨.none, none, none, none, false⟩
  else
    let stop : Bool := hasDval || allowErrors = 1
    let check : Bool := !hasDval && allowErrors ≠ 1
    let str := text.dropWhile isBlank
    let signLen := if at' str 0 = 45 ∨ at' str 0 = 43 then 1 else 0
    let body := str.drop signLen
    if IsDigit (at' body 0) then
      let zeros := (body.takeWhile (· = 48)).length
      afterLoop strtod str hasDval allowErrors
        (checkDigits stop check (body.drop zeros) 0 0 (signLen + zeros) 0 .long)
    else if at' body 0 = 46 ∧ IsDigit (at' body 1) then
      afterLoop strtod str hasDval allowErrors
        (if check then checkDigits stop check (body.drop 1) 1 0 (signLen + 1) 0 .double
        else ⟨0, signLen, 0, .double, true⟩)
    else ⟨.none, none, none, some 0, false⟩

end

example :
    (isNumericStringEx (fun s => (s, s.length)) (ascii " -012abc") true 1).lval = some (-12) := by
  decide +kernel

/-! ## Integer strings -/

structure FollowsInteger (rest : Bytes) : Prop where
  notDigit : ¬IsDigit (at' rest 0)
  notFraction : at' rest 0 ≠ 46
  notExponent : at' rest 0 = 101 ∨ at' rest 0 = 69 →
    ¬IsDigit (at' rest 1) ∧ (at' rest 1 = 45 ∨ at' rest 1 = 43 → ¬IsDigit (at' rest 2))

structure IntegerString where
  blanks : Bytes
  sign : Bytes
  digits : Bytes
  rest : Bytes
  blank_of_mem : ∀ c ∈ blanks, isBlank c = true
  sign_eq : sign = [] ∨ sign = [45] ∨ sign = [43]
  digits_ne_nil : digits ≠ []
  digit_of_mem : ∀ c ∈ digits, IsDigit c
  follows : FollowsInteger rest

def dropSign (b : Bytes) : Bytes := if at' b 0 = 45 ∨ at' b 0 = 43 then b.drop 1 else b

def isExponent : Bytes → Bool
  | [] => true
  | e :: b => (e = 101 || e = 69) && dropSign b ≠ [] && (dropSign b).all (IsDigit ·)

/-- A number as `zend_strtod` reads it, from the sign on: the mantissa has a digit. -/
def isFloat (b : Bytes) : Bool :=
  let int := (dropSign b).takeWhile (IsDigit ·)
  let b := (dropSign b).dropWhile (IsDigit ·)
  if at' b 0 = 46 then
    (int ≠ [] || (b.drop 1).takeWhile (IsDigit ·) ≠ []) &&
      isExponent ((b.drop 1).dropWhile (IsDigit ·))
  else int ≠ [] && isExponent b

/-- Of the prefixes that are numbers, the longest one is read. -/
def ReadsLongestFloat {δ : Type*} (strtod : Bytes → δ × Nat) : Prop :=
  ∀ text n, n ≤ text.length → isFloat (text.take n) = true →
    n ≤ (strtod text).2 ∧ (strtod text).2 ≤ text.length ∧
      isFloat (text.take (strtod text).2) = true

namespace IntegerString

variable (s : IntegerString)

def str : Bytes := s.sign ++ (s.digits ++ s.rest)

def text : Bytes := s.blanks ++ s.str

def value : Int := if s.sign = [45] then -(Bytes.value s.digits : Int) else Bytes.value s.digits

def significant : Bytes := s.digits.dropWhile (· = 48)

/-- The look-ahead moves `ptr`: an exponent letter and a sign follow. -/
def MovesPtr : Prop :=
  (at' s.rest 0 = 101 ∨ at' s.rest 0 = 69) ∧ (at' s.rest 1 = 45 ∨ at' s.rest 1 = 43)

instance : Decidable s.MovesPtr := inferInstanceAs (Decidable (_ ∧ _))

def ClassifiesExactly {δ : Type*} (allowErrors : Int) (r : NumericResult δ) : Prop :=
  (r.type = .none ↔ allowErrors = 0 ∧ s.rest ≠ []) ∧
  (¬(allowErrors = 0 ∧ s.rest ≠ []) →
    (InLong s.value → r.type = .long ∧ ∃ l, r.lval = some l ∧ l.toInt = s.value) ∧
    (¬InLong s.value →
      r.type = .double ∧ r.oflowInfo = some (if s.sign = [45] then -1 else 1)))

end IntegerString

/-! ## Digits -/

variable {text ds rest : Bytes} {digits ptr : Nat} {tmp : Int64} {c : UInt8}

theorem at'_drop (text : Bytes) (n i : Nat) : at' (text.drop n) i = at' text (n + i) := by
  unfold at'
  rw [getD_eq_getElem?_getD, getD_eq_getElem?_getD, List.getElem?_drop]

theorem at'_take {n i : Nat} (h : at' (text.take n) i ≠ 0) : at' (text.take n) i = at' text i := by
  unfold at' at h ⊢
  rw [getD_eq_getElem?_getD] at h
  rw [getD_eq_getElem?_getD, getD_eq_getElem?_getD]
  rcases Nat.lt_or_ge i n with hlt | hge
  · rw [List.getElem?_take_of_lt hlt]
  · rw [List.getElem?_eq_none (by rw [length_take]; omega)] at h
    exact absurd rfl h

theorem takeWhile_digits (hds : ∀ c ∈ ds, IsDigit c) (hrest : ¬IsDigit (at' rest 0)) :
    (ds ++ rest).takeWhile (IsDigit ·) = ds := by
  rw [takeWhile_append_of_pos (fun c hc => decide_eq_true (hds c hc))]
  cases rest with
  | nil => rw [takeWhile_nil, append_nil]
  | cons c rest => rw [takeWhile_cons_of_neg (by simpa [at'] using hrest), append_nil]

theorem dropWhile_digits (hds : ∀ c ∈ ds, IsDigit c) (hrest : ¬IsDigit (at' rest 0)) :
    (ds ++ rest).dropWhile (IsDigit ·) = rest := by
  rw [dropWhile_append_of_pos (fun c hc => decide_eq_true (hds c hc))]
  cases rest with
  | nil => rfl
  | cons c rest => rw [dropWhile_cons_of_neg (by simpa [at'] using hrest)]

/-- A digit more, in `tmp_lval`. -/
def accumulate (tmp : Int64) (c : UInt8) : Int64 := tmp * 10 + Int64.ofNat c.toNat - 48

theorem foldl_accumulate (hds : ∀ c ∈ ds, IsDigit c) :
    ds.foldl accumulate 0 = Int64.ofInt (Bytes.value ds) := by
  -- induction on the digits, the last one first
  induction ds using List.reverseRecOn with
  | nil => rfl
  | append_singleton ds c ih =>
    have hc := (hds c (mem_append_right _ mem_cons_self)).bounds
    rw [foldl_append, foldl_cons, foldl_nil, accumulate,
      ih fun d hd => hds d (mem_append_left _ hd), value_append_singleton]
    have hcast : ((Bytes.value ds * 10 + (c.toNat - 48) : Nat) : Int) =
        (Bytes.value ds : Int) * 10 + (c.toNat : Int) - 48 := by omega
    rw [hcast, Int64.ofInt_sub, Int64.ofInt_add, Int64.ofInt_mul]
    rfl

theorem checkDigits_append (hds : ∀ c ∈ ds, IsDigit c) (hlen : digits + ds.length ≤ 20) :
    checkDigits true false (ds ++ rest) 0 digits ptr tmp .long =
      checkDigits true false rest 0 (digits + ds.length) (ptr + ds.length)
        (ds.foldl accumulate tmp) .long := by
  -- induction on the digits
  induction ds generalizing digits ptr tmp with
  | nil => rfl
  | cons c ds ih =>
    rw [length_cons] at hlen
    have hmax : ¬(true = true ∧ digits ≥ maxLengthOfLong) := by
      show ¬(true = true ∧ digits ≥ 20)
      omega
    rw [cons_append, checkDigits.eq_def]
    dsimp only
    rw [if_neg hmax, if_pos (hds c mem_cons_self),
      ih (fun d hd => hds d (mem_cons_of_mem _ hd)) (by omega), length_cons,
      foldl_cons]
    congr 1 <;> omega

theorem checkDigits_max :
    checkDigits true false text 0 20 ptr tmp .long = ⟨20, ptr, tmp, .long, false⟩ := by
  cases text with
  | nil => rfl
  | cons c text =>
    rw [checkDigits.eq_def]
    exact if_pos ⟨rfl, by decide⟩

theorem checkDigits_rest (hrest : FollowsInteger rest) (hmax : digits < 20) :
    checkDigits true false rest 0 digits ptr tmp .long =
      ⟨digits, if (at' rest 0 = 101 ∨ at' rest 0 = 69) ∧ (at' rest 1 = 45 ∨ at' rest 1 = 43)
        then ptr + 1 else ptr, tmp, .long, false⟩ := by
  obtain ⟨hdigit, hfraction, hexponent⟩ := hrest
  cases rest with
  | nil => rfl
  | cons c rest =>
    have hmax' : ¬(true = true ∧ digits ≥ maxLengthOfLong) := by
      show ¬(true = true ∧ digits ≥ 20)
      omega
    change ¬IsDigit c at hdigit
    change c ≠ 46 at hfraction
    change c = 101 ∨ c = 69 → ¬IsDigit (at' rest 0) ∧ (at' rest 0 = 45 ∨ at' rest 0 = 43 →
      ¬IsDigit (at' rest 1)) at hexponent
    show checkDigits true false (c :: rest) 0 digits ptr tmp .long = ⟨digits,
      if (c = 101 ∨ c = 69) ∧ (at' rest 0 = 45 ∨ at' rest 0 = 43) then ptr + 1 else ptr, tmp,
      .long, false⟩
    rw [checkDigits.eq_def]
    dsimp only
    rw [if_neg hmax', if_neg hdigit, if_neg fun h => hfraction h.1]
    by_cases he : c = 101 ∨ c = 69
    · obtain ⟨hnext, hsigned⟩ := hexponent he
      rw [if_pos ⟨he, by decide⟩]
      cases rest with
      | nil => rw [if_neg (by rintro ⟨-, h⟩; exact absurd h (by decide))]
      | cons e rest =>
        change ¬IsDigit e at hnext
        change e = 45 ∨ e = 43 → ¬IsDigit (at' rest 0) at hsigned
        show (if e = 45 ∨ e = 43 then _ else _) = Scan.mk digits
          (if (c = 101 ∨ c = 69) ∧ (e = 45 ∨ e = 43) then ptr + 1 else ptr) tmp .long false
        by_cases hsign : e = 45 ∨ e = 43
        · rw [if_pos hsign, if_neg (hsigned hsign), if_pos ⟨he, hsign⟩]
        · rw [if_neg hsign, if_neg hnext, if_neg fun h => hsign h.2]
    · rw [if_neg fun h => he h.1, if_neg fun h => he h.1]

namespace IntegerString

variable (s : IntegerString)

/-! ## What stands where -/

theorem exists_digits_eq : ∃ c ds, s.digits = c :: ds ∧ IsDigit c := by
  obtain ⟨c, ds, h⟩ := exists_cons_of_ne_nil s.digits_ne_nil
  exact ⟨c, ds, h, s.digit_of_mem c (h ▸ mem_cons_self)⟩

theorem at'_body_zero : IsDigit (at' (s.digits ++ s.rest) 0) := by
  obtain ⟨c, ds, h, hc⟩ := s.exists_digits_eq
  rw [h]
  exact hc

theorem at'_str_zero (c : UInt8) (hc : c = 45 ∨ c = 43) : at' s.str 0 = c ↔ s.sign = [c] := by
  have hdigit := s.at'_body_zero
  unfold str
  rcases s.sign_eq with h | h | h
  · rw [h]
    refine iff_of_false (fun heq => ?_) (by simp)
    rw [nil_append] at heq
    rw [heq] at hdigit
    rcases hc with rfl | rfl <;> exact absurd hdigit (by decide)
  · rw [h]
    show 45 = c ↔ _
    rw [cons_eq_cons]
    simp
  · rw [h]
    show 43 = c ↔ _
    rw [cons_eq_cons]
    simp

theorem signLen_eq : (if at' s.str 0 = 45 ∨ at' s.str 0 = 43 then 1 else 0) = s.sign.length := by
  simp only [s.at'_str_zero 45 (.inl rfl), s.at'_str_zero 43 (.inr rfl)]
  rcases s.sign_eq with h | h | h
  · rw [h, if_neg (by simp)]
    rfl
  · rw [h, if_pos (by simp)]
    rfl
  · rw [h, if_pos (by simp)]
    rfl

theorem dropWhile_text : s.text.dropWhile isBlank = s.str := by
  unfold text
  rw [dropWhile_append_of_pos s.blank_of_mem]
  obtain ⟨c, ds, hds, hdigit⟩ := s.exists_digits_eq
  have hc : isBlank c = false := by
    revert hdigit
    exact forall_byte (by decide +kernel) c
  unfold str
  rcases s.sign_eq with h | h | h
  · rw [h, hds]
    exact dropWhile_cons_of_neg (by rw [hc]; decide)
  · rw [h]
    exact dropWhile_cons_of_neg (by decide)
  · rw [h]
    exact dropWhile_cons_of_neg (by decide)

theorem drop_str : s.str.drop s.sign.length = s.digits ++ s.rest := drop_left

def zeros : Bytes := s.digits.takeWhile (· = 48)

theorem zeros_append : s.zeros ++ s.significant = s.digits := takeWhile_append_dropWhile

theorem significant_cons_ne {c : UInt8} {ds : Bytes} (h : s.significant = c :: ds) : c ≠ 48 := by
  intro hc
  have hnot := List.head?_dropWhile_not (fun c : UInt8 => decide (c = 48)) s.digits
  unfold significant at h
  rw [h, hc] at hnot
  cases hnot

theorem digit_of_mem_significant : ∀ c ∈ s.significant, IsDigit c :=
  fun c hc => s.digit_of_mem c ((dropWhile_sublist _).subset hc)

theorem takeWhile_zeros : (s.digits ++ s.rest).takeWhile (· = 48) = s.zeros := by
  have hzero : ∀ c ∈ s.zeros, decide (c = 48) = true :=
    fun c hc => mem_takeWhile_imp (p := fun c : UInt8 => decide (c = 48)) hc
  rw [← s.zeros_append, append_assoc, takeWhile_append_of_pos hzero]
  cases hsig : s.significant with
  | nil =>
    cases hrest : s.rest with
    | nil => rw [append_nil, takeWhile_nil, append_nil]
    | cons c rest =>
      have hc := s.follows.notDigit
      rw [hrest] at hc
      rw [nil_append, takeWhile_cons_of_neg, append_nil]
      intro heq
      rw [of_decide_eq_true heq] at hc
      exact hc (show IsDigit 48 by decide)
  | cons c ds =>
    rw [cons_append, takeWhile_cons_of_neg, append_nil]
    exact fun heq => s.significant_cons_ne hsig (of_decide_eq_true heq)

theorem value_significant : Bytes.value s.digits = Bytes.value s.significant := by
  have hdrop : ∀ ds : Bytes, Bytes.value (ds.dropWhile (· = 48)) = Bytes.value ds := by
    intro ds
    induction ds with
    | nil => rfl
    | cons c ds ih =>
      by_cases hc : c = 48
      · subst hc
        rw [dropWhile_cons_of_pos (by decide), ih, value_cons]
        show _ = (48 - 48) * _ + _
        omega
      · rw [dropWhile_cons_of_neg (by simpa using hc)]
  exact (hdrop s.digits).symm

/-- `ptr` behind the loop. -/
def endPtr : Nat := s.sign.length + s.digits.length + if s.MovesPtr then 1 else 0

theorem length_str : s.str.length = s.sign.length + s.digits.length + s.rest.length := by
  unfold str
  rw [length_append, length_append, Nat.add_assoc]

theorem length_rest_of_movesPtr (h : s.MovesPtr) : 2 ≤ s.rest.length := by
  obtain ⟨-, hsign⟩ := h
  by_contra hlt
  have hnone : at' s.rest 1 = 0 := by
    unfold at'
    rw [getD_eq_getElem?_getD, List.getElem?_eq_none (by omega)]
    rfl
  rw [hnone] at hsign
  exact absurd hsign (by decide)

theorem endPtr_ne_iff : s.endPtr ≠ s.str.length ↔ s.rest ≠ [] := by
  rw [endPtr, length_str, ← length_pos_iff]
  split
  · rename_i hmoves
    have := s.length_rest_of_movesPtr hmoves
    omega
  · omega

def scanned : Scan :=
  ⟨s.significant.length, s.endPtr, Int64.ofInt (Bytes.value s.digits), .long, false⟩

theorem checkDigits_eq (hlen : s.significant.length < 20) :
    checkDigits true false (s.significant ++ s.rest) 0 0 (s.sign.length + s.zeros.length) 0 .long =
      s.scanned := by
  rw [checkDigits_append s.digit_of_mem_significant (by omega), Nat.zero_add,
    checkDigits_rest s.follows hlen, foldl_accumulate s.digit_of_mem_significant]
  have hdigits : s.zeros.length + s.significant.length = s.digits.length := by
    rw [← length_append, zeros_append]
  have hptr : (if s.MovesPtr then s.sign.length + s.zeros.length + s.significant.length + 1
      else s.sign.length + s.zeros.length + s.significant.length) = s.endPtr := by
    rw [endPtr]
    split <;> omega
  rw [scanned, value_significant, ← hptr]
  rfl

/-! ## The conversion to a double -/

theorem dropSign_append (r : Bytes) : dropSign (s.sign ++ (s.digits ++ r)) = s.digits ++ r := by
  obtain ⟨c, ds, hds, hdigit⟩ := s.exists_digits_eq
  rcases s.sign_eq with h | h | h
  · rw [h, hds]
    refine if_neg ?_
    show ¬(c = 45 ∨ c = 43)
    rintro (rfl | rfl) <;> exact absurd hdigit (by decide)
  · rw [h]
    rfl
  · rw [h]
    rfl

theorem isFloat_append {r : Bytes} (hdigit : ¬IsDigit (at' r 0)) (hfraction : at' r 0 ≠ 46) :
    isFloat (s.sign ++ (s.digits ++ r)) = isExponent r := by
  unfold isFloat
  rw [s.dropSign_append, takeWhile_digits s.digit_of_mem hdigit,
    dropWhile_digits s.digit_of_mem hdigit]
  dsimp only
  rw [if_neg hfraction, decide_eq_true s.digits_ne_nil, Bool.true_and]

theorem take_rest_eq_nil {m : Nat} (h : isExponent (s.rest.take m) = true) :
    s.rest.take m = [] := by
  obtain ⟨-, -, hexponent⟩ := s.follows
  cases hrest : s.rest with
  | nil => exact take_nil
  | cons e rest =>
    rw [hrest] at h hexponent
    cases m with
    | zero => exact take_zero
    | succ m =>
      exfalso
      change e = 101 ∨ e = 69 → ¬IsDigit (at' rest 0) ∧ (at' rest 0 = 45 ∨ at' rest 0 = 43 →
        ¬IsDigit (at' rest 1)) at hexponent
      rw [take_succ_cons, isExponent, Bool.and_eq_true, Bool.and_eq_true, Bool.or_eq_true,
        decide_eq_true_iff, decide_eq_true_iff, decide_eq_true_iff, List.all_eq_true] at h
      obtain ⟨⟨he, hne⟩, hall⟩ := h
      obtain ⟨hnext, hsigned⟩ := hexponent he
      obtain ⟨d, ds, hds⟩ := exists_cons_of_ne_nil hne
      have hd : IsDigit d := of_decide_eq_true (hall d (hds ▸ mem_cons_self))
      unfold dropSign at hds
      split at hds
      · rename_i hsign
        have hd' : at' (rest.take m) 1 = d := by
          rw [← at'_drop (rest.take m) 1 0, hds]
          rfl
        rw [at'_take (by rw [hd']; rintro rfl; exact absurd hd (by decide))] at hd'
        rw [at'_take (by rcases hsign with h | h <;> rw [h] <;> decide)] at hsign
        exact hsigned hsign (hd' ▸ hd)
      · have hd' : at' (rest.take m) 0 = d := by rw [hds]; rfl
        rw [at'_take (by rw [hd']; rintro rfl; exact absurd hd (by decide))] at hd'
        exact hnext (hd' ▸ hd)

theorem strtod_str {δ : Type*} {strtod : Bytes → δ × Nat} (hstrtod : ReadsLongestFloat strtod) :
    (strtod s.str).2 = s.sign.length + s.digits.length := by
  have htake : ∀ m, s.str.take (s.sign.length + s.digits.length + m) =
      s.sign ++ (s.digits ++ s.rest.take m) := by
    intro m
    unfold str
    rw [Nat.add_assoc, take_length_add_append, take_length_add_append]
  have hlen := s.length_str
  obtain ⟨hle, hbound, hfloat⟩ := hstrtod s.str (s.sign.length + s.digits.length) (by omega) (by
    have h := htake 0
    rw [Nat.add_zero, take_zero] at h
    rw [h, s.isFloat_append (r := []) (show ¬IsDigit 0 by decide)
      (show (0 : UInt8) ≠ 46 by decide)]
    rfl)
  obtain ⟨m, hm⟩ := Nat.exists_eq_add_of_le hle
  rw [hm, htake] at hfloat
  rw [hm] at hbound ⊢
  have hnil : s.rest.take m = [] := by
    rcases Nat.eq_zero_or_pos m with rfl | hpos
    · exact take_zero
    · have hhead : at' (s.rest.take m) 0 = at' s.rest 0 := by
        unfold at'
        rw [getD_eq_getElem?_getD, getD_eq_getElem?_getD, List.getElem?_take_of_lt hpos]
      rw [s.isFloat_append (hhead ▸ s.follows.notDigit) (hhead ▸ s.follows.notFraction)] at hfloat
      exact s.take_rest_eq_nil hfloat
  have hzero := congrArg List.length hnil
  rw [length_take, length_nil] at hzero
  omega

/-! ## The comparison -/

theorem longMinDigits_digit : ∀ c ∈ longMinDigits, IsDigit c := by
  decide

theorem strcmp_min (hmoves : ¬s.MovesPtr) (hlen : s.significant.length = 19) :
    strcmp (s.str.drop (s.endPtr - 19)) longMinDigits =
      if Bytes.value s.digits < 9223372036854775808 then .lt
      else if 9223372036854775808 < Bytes.value s.digits then .gt else strcmp s.rest [] := by
  have hdigits : s.zeros.length + s.significant.length = s.digits.length := by
    rw [← length_append, zeros_append]
  have hdrop : s.str.drop (s.endPtr - 19) = s.significant ++ s.rest := by
    have hptr : s.endPtr - 19 = (s.sign ++ s.zeros).length := by
      rw [endPtr, if_neg hmoves, length_append]
      omega
    unfold str
    rw [hptr, ← s.zeros_append, append_assoc, ← append_assoc, drop_left]
  have hcmp := strcmp_digits (x := s.rest) (y := []) s.digit_of_mem_significant longMinDigits_digit
    (hlen.trans (by decide))
  rw [append_nil, show Bytes.value longMinDigits = 9223372036854775808 by decide,
    ← value_significant] at hcmp
  rw [hdrop, hcmp]

theorem strcmp_min_moved (hmoves : s.MovesPtr) (hlen : s.significant.length = 19) :
    strcmp (s.str.drop (s.endPtr - 19)) longMinDigits =
      if Bytes.value s.significant.tail < 922337203685477580 then .lt else .gt := by
  have hdigits : s.zeros.length + s.significant.length = s.digits.length := by
    rw [← length_append, zeros_append]
  obtain ⟨c, ds, hsig⟩ := exists_cons_of_length_eq_add_one hlen
  obtain ⟨e, rest, hrest⟩ : ∃ e rest, s.rest = e :: rest :=
    exists_cons_of_length_pos (by have := s.length_rest_of_movesPtr hmoves; omega)
  have he : e = 101 ∨ e = 69 := by
    have := hmoves.1
    rwa [hrest] at this
  have hdrop : s.str.drop (s.endPtr - 19) = ds ++ e :: rest := by
    have hptr : s.endPtr - 19 = (s.sign ++ (s.zeros ++ [c])).length := by
      rw [endPtr, if_pos hmoves, length_append, length_append, length_singleton]
      omega
    have hstr : s.str = (s.sign ++ (s.zeros ++ [c])) ++ (ds ++ e :: rest) := by
      unfold str
      rw [← s.zeros_append, hsig, hrest]
      simp only [append_assoc, cons_append, nil_append]
    rw [hptr, hstr, drop_left]
  have hds : ∀ d ∈ ds, IsDigit d := fun d hd =>
    s.digit_of_mem_significant d (hsig ▸ mem_cons_of_mem _ hd)
  have hlen' : ds.length = (longMinDigits.take 18).length := by
    rw [hsig] at hlen
    exact (Nat.succ.inj hlen).trans (by decide)
  have hcmp := strcmp_digits (x := e :: rest) (y := [56]) hds
    (fun c hc => longMinDigits_digit c (mem_of_mem_take hc)) hlen'
  have hend : strcmp (e :: rest) [56] = .gt := by
    rcases he with rfl | rfl <;> rfl
  rw [show longMinDigits.take 18 ++ [56] = longMinDigits by decide,
    show Bytes.value (longMinDigits.take 18) = 922337203685477580 by decide, hend,
    ite_self] at hcmp
  rw [hdrop, hcmp, hsig]
  rfl

/-! ## The classification -/

def Overflows (scan : Scan) : Prop :=
  scan.digits = 19 ∧ ¬(strcmp (s.str.drop (scan.ptr - scan.digits)) longMinDigits = .lt ∨
    strcmp (s.str.drop (scan.ptr - scan.digits)) longMinDigits = .eq ∧ s.sign = [45])

theorem inLong_value_iff : InLong s.value ↔ Bytes.value s.digits < 9223372036854775808 ∨
    Bytes.value s.digits = 9223372036854775808 ∧ s.sign = [45] := by
  unfold InLong value
  split
  · rename_i hneg
    simp only [hneg, and_true]
    omega
  · rename_i hpos
    simp only [hpos, and_false, or_false]
    omega

variable {s} {δ : Type*} {strtod : Bytes → δ × Nat} {allowErrors oflow : Int} {scan : Scan}

theorem classifiesExactly_of_rejected (hptr : scan.ptr ≠ s.str.length ↔ s.rest ≠ [])
    (hrej : allowErrors = 0 ∧ s.rest ≠ []) :
    s.ClassifiesExactly allowErrors (finish strtod s.str true allowErrors oflow scan) := by
  unfold finish
  rw [if_pos ⟨hptr.mpr hrej.2, hrej.1⟩]
  exact ⟨iff_of_true rfl hrej, fun h => absurd hrej h⟩

theorem classifiesExactly_long_iff (hptr : scan.ptr ≠ s.str.length ↔ s.rest ≠ [])
    (hrej : ¬(allowErrors = 0 ∧ s.rest ≠ [])) (htype : scan.type = .long)
    (htmp : scan.tmpLval = Int64.ofInt (Bytes.value s.digits)) :
    s.ClassifiesExactly allowErrors (finish strtod s.str true allowErrors 0 scan) ↔
      (s.Overflows scan ↔ ¬InLong s.value) := by
  have hneg : at' s.str 0 = 45 ↔ s.sign = [45] := s.at'_str_zero 45 (.inl rfl)
  unfold finish
  rw [if_neg (by rw [hptr]; exact fun h => hrej ⟨h.2, h.1⟩), if_pos htype]
  simp only [hneg]
  by_cases hover : scan.digits = maxLengthOfLong - 1 ∧
      ¬(strcmp (s.str.drop (scan.ptr - scan.digits)) longMinDigits = .lt ∨
        strcmp (s.str.drop (scan.ptr - scan.digits)) longMinDigits = .eq ∧ s.sign = [45])
  · rw [if_pos hover]
    constructor
    · exact fun h => iff_of_true hover fun hin => by cases ((h.2 hrej).1 hin).1
    · intro h
      exact ⟨iff_of_false (fun h => by cases h) hrej,
        fun _ => ⟨fun hin => absurd hin (h.mp hover), fun _ => ⟨rfl, rfl⟩⟩⟩
  · rw [if_neg hover]
    constructor
    · exact fun h => iff_of_false hover fun hout => by cases ((h.2 hrej).2 hout).1
    · intro h
      have hin : InLong s.value := by
        by_contra hout
        exact hover (h.mpr hout)
      refine ⟨iff_of_false (fun h => by cases h) hrej, fun _ => ⟨fun _ => ⟨rfl, _, rfl, ?_⟩,
        fun hout => absurd hin hout⟩⟩
      -- the accumulator may wrap only to the minimum
      obtain ⟨hlo, hhi⟩ := hin
      have hsize : Int64.size = 18446744073709551616 := rfl
      rw [htmp]
      unfold value at hlo hhi ⊢
      split
      · rename_i hsign
        rw [if_pos hsign] at hlo hhi
        rw [← Int64.ofInt_neg, Int64.toInt_ofInt]
        exact Int.bmod_eq_of_le (by omega) (by omega)
      · rename_i hsign
        rw [if_neg hsign] at hlo hhi
        rw [Int64.toInt_ofInt]
        exact Int.bmod_eq_of_le (by omega) (by omega)

theorem isNumericStringEx_text (s : IntegerString) (allowErrors : Int) :
    isNumericStringEx strtod s.text true allowErrors =
      afterLoop strtod s.str true allowErrors
        (checkDigits true false (s.significant ++ s.rest) 0 0
          (s.sign.length + s.zeros.length) 0 .long) := by
  have hdrop : (s.digits ++ s.rest).drop s.zeros.length = s.significant ++ s.rest := by
    rw [← s.zeros_append, append_assoc, drop_left]
  have hne : s.text.length ≠ 0 := by
    have := length_pos_iff.mpr s.digits_ne_nil
    unfold text str
    simp only [length_append]
    omega
  unfold isNumericStringEx
  rw [if_neg hne]
  simp only [s.dropWhile_text, s.signLen_eq, s.drop_str, if_pos s.at'_body_zero, s.takeWhile_zeros,
    hdrop]
  rfl

theorem value_bounds (s : IntegerString) :
    (s.significant.length < 19 → Bytes.value s.digits < 9223372036854775808) ∧
    (19 < s.significant.length → 9223372036854775808 < Bytes.value s.digits) := by
  rw [value_significant]
  constructor
  · intro hlen
    have hlt := value_lt s.digit_of_mem_significant
    have hpow : 10 ^ s.significant.length ≤ 10 ^ 18 :=
      Nat.pow_le_pow_right (by decide) (by omega)
    omega
  · intro hlen
    obtain ⟨c, ds, hsig⟩ := exists_cons_of_length_pos (show 0 < s.significant.length by omega)
    have hc := (s.digit_of_mem_significant c (hsig ▸ mem_cons_self)).bounds
    have hne : c.toNat ≠ 48 := fun h => s.significant_cons_ne hsig (UInt8.toNat_inj.mp h)
    have hpow : 10 ^ 19 ≤ 10 ^ ds.length := by
      refine Nat.pow_le_pow_right (by decide) ?_
      rw [hsig, length_cons] at hlen
      omega
    have hmul := Nat.mul_le_mul_right (10 ^ ds.length) (show 1 ≤ c.toNat - 48 by omega)
    rw [hsig, value_cons]
    omega

theorem classifiesExactly_of_many (hstrtod : ReadsLongestFloat strtod) (s : IntegerString)
    (allowErrors : Int) (hlen : 19 < s.significant.length) :
    s.ClassifiesExactly allowErrors (isNumericStringEx strtod s.text true allowErrors) := by
  have hout : ¬InLong s.value := by
    have := s.value_bounds.2 hlen
    rw [inLong_value_iff]
    omega
  have hneg : at' s.str 0 = 45 ↔ s.sign = [45] := s.at'_str_zero 45 (.inl rfl)
  have hsplit : s.significant ++ s.rest =
      s.significant.take 20 ++ (s.significant.drop 20 ++ s.rest) := by
    rw [← append_assoc, take_append_drop]
  have htake : (s.significant.take 20).length = 20 := by
    rw [length_take]
    omega
  rw [isNumericStringEx_text, hsplit, checkDigits_append
    (fun c hc => s.digit_of_mem_significant c (mem_of_mem_take hc)) (by omega), htake,
    Nat.zero_add, checkDigits_max]
  have hptr : (processDouble strtod s.str true ⟨20, s.sign.length + s.zeros.length + 20,
      (s.significant.take 20).foldl accumulate 0, .long, false⟩).ptr ≠ s.str.length ↔
        s.rest ≠ [] := by
    show (strtod s.str).2 ≠ _ ↔ _
    rw [s.strtod_str hstrtod, length_str, ← length_pos_iff]
    omega
  show s.ClassifiesExactly allowErrors (finish strtod s.str true allowErrors
    (if at' s.str 0 = 45 then -1 else 1) (processDouble strtod s.str true _))
  by_cases hrej : allowErrors = 0 ∧ s.rest ≠ []
  · exact classifiesExactly_of_rejected hptr hrej
  · unfold finish
    rw [if_neg (by rw [hptr]; exact fun h => hrej ⟨h.2, h.1⟩)]
    simp only [hneg]
    exact ⟨iff_of_false (fun h => by cases h) hrej,
      fun _ => ⟨fun hin => absurd hin hout, fun _ => ⟨rfl, rfl⟩⟩⟩

theorem isNumericStringEx_of_few (strtod : Bytes → δ × Nat) (s : IntegerString)
    (allowErrors : Int) (hlen : s.significant.length < 20) :
    isNumericStringEx strtod s.text true allowErrors =
      finish strtod s.str true allowErrors 0 s.scanned := by
  rw [isNumericStringEx_text, checkDigits_eq s hlen]
  unfold afterLoop
  rw [if_neg (show ¬s.scanned.jumped = true from Bool.false_ne_true),
    if_neg (show ¬s.scanned.digits ≥ maxLengthOfLong from Nat.not_le.mpr hlen)]

theorem classifiesExactly_iff_of_few (strtod : Bytes → δ × Nat) (s : IntegerString)
    (hrej : ¬(allowErrors = 0 ∧ s.rest ≠ [])) (hlen : s.significant.length < 20) :
    s.ClassifiesExactly allowErrors (isNumericStringEx strtod s.text true allowErrors) ↔
      (s.Overflows s.scanned ↔ ¬InLong s.value) := by
  rw [isNumericStringEx_of_few strtod s allowErrors hlen]
  exact classifiesExactly_long_iff s.endPtr_ne_iff hrej rfl rfl

theorem strcmp_nil_eq_iff (text : Bytes) : strcmp text [] = .eq ↔ at' text 0 = 0 := by
  cases text with
  | nil => exact iff_of_true rfl rfl
  | cons c text =>
    rw [strcmp]
    show _ ↔ c = 0
    split
    · rename_i hc
      exact iff_of_true rfl hc
    · rename_i hc
      exact iff_of_false (fun h => by cases h) hc

/-- The condition: in the mode that allows errors, with 19 significant digits, `ptr` was moved and
the last 18 digits say the same as all of them, or it was not moved and the minimum is not followed
by other text. -/
def HoldsWhen (s : IntegerString) (allowErrors : Int) : Prop :=
  allowErrors = 0 ∨ s.significant.length ≠ 19 ∨
    if s.MovesPtr then
      Bytes.value s.significant.tail < 922337203685477580 ↔ InLong s.value
    else ¬(s.value = -9223372036854775808 ∧ at' s.rest 0 ≠ 0)

theorem value_eq_min_iff (s : IntegerString) : s.value = -9223372036854775808 ↔
    Bytes.value s.digits = 9223372036854775808 ∧ s.sign = [45] := by
  unfold value
  split
  · rename_i hneg
    simp only [hneg, and_true]
    omega
  · rename_i hpos
    simp only [hpos, and_false, iff_false]
    omega

theorem overflows_iff (s : IntegerString) (hlen : s.significant.length = 19)
    (hmoves : ¬s.MovesPtr) :
    (s.Overflows s.scanned ↔ ¬InLong s.value) ↔
      ¬(s.value = -9223372036854775808 ∧ at' s.rest 0 ≠ 0) := by
  have hcmp := s.strcmp_min hmoves hlen
  have hover : s.Overflows s.scanned ↔ ¬(strcmp (s.str.drop (s.endPtr - 19)) longMinDigits = .lt ∨
      strcmp (s.str.drop (s.endPtr - 19)) longMinDigits = .eq ∧ s.sign = [45]) := by
    unfold Overflows scanned
    rw [hlen]
    exact and_iff_right rfl
  rw [hover, hcmp, inLong_value_iff, value_eq_min_iff, not_iff_not]
  rcases Nat.lt_trichotomy (Bytes.value s.digits) 9223372036854775808 with hlt | heq | hgt
  · rw [if_pos hlt]
    simp only [hlt, true_or, Nat.ne_of_lt hlt, false_and, not_false_eq_true]
  · rw [if_neg (by omega), if_neg (by omega), heq, strcmp_nil_eq_iff]
    have hnlt : strcmp s.rest [] ≠ .lt := by
      cases s.rest with
      | nil => exact fun h => by cases h
      | cons c rest =>
        rw [strcmp]
        split <;> exact fun h => by cases h
    simp only [hnlt, false_or, Nat.lt_irrefl, true_and]
    by_cases hsign : s.sign = [45]
    · simp only [hsign, and_true, true_and, ne_eq, not_not, iff_true]
    · simp only [hsign, and_false, false_and, not_false_eq_true]
  · rw [if_neg (by omega), if_pos hgt]
    simp only [reduceCtorEq, false_or, false_and, Nat.lt_asymm hgt, Nat.ne_of_gt hgt,
      not_false_eq_true]

theorem overflows_iff_of_moved (s : IntegerString) (hlen : s.significant.length = 19)
    (hmoves : s.MovesPtr) :
    (s.Overflows s.scanned ↔ ¬InLong s.value) ↔
      (Bytes.value s.significant.tail < 922337203685477580 ↔ InLong s.value) := by
  have hcmp := s.strcmp_min_moved hmoves hlen
  have hover : s.Overflows s.scanned ↔ ¬(strcmp (s.str.drop (s.endPtr - 19)) longMinDigits = .lt ∨
      strcmp (s.str.drop (s.endPtr - 19)) longMinDigits = .eq ∧ s.sign = [45]) := by
    unfold Overflows scanned
    rw [hlen]
    exact and_iff_right rfl
  rw [hover, hcmp, not_iff_not]
  by_cases hlt : Bytes.value s.significant.tail < 922337203685477580
  · rw [if_pos hlt]
    simp only [hlt, true_or, true_iff]
  · rw [if_neg hlt]
    simp only [hlt, reduceCtorEq, false_and, or_self, false_iff]

end IntegerString

/-- **An integer string is classified exactly** if and only if the comparison with the minimum is
not made, or says the same with the text behind the digits. -/
theorem isNumericStringEx_iff {δ : Type*} {strtod : Bytes → δ × Nat}
    (hstrtod : ReadsLongestFloat strtod) (s : IntegerString) {allowErrors : Int}
    (hallow : allowErrors = 0 ∨ allowErrors = 1) :
    s.ClassifiesExactly allowErrors (isNumericStringEx strtod s.text true allowErrors) ↔
      s.HoldsWhen allowErrors := by
  by_cases hmany : 19 < s.significant.length
  · exact iff_of_true (IntegerString.classifiesExactly_of_many hstrtod s allowErrors hmany)
      (.inr (.inl (Nat.ne_of_gt hmany)))
  by_cases hrej : allowErrors = 0 ∧ s.rest ≠ []
  · refine iff_of_true ?_ (.inl hrej.1)
    rw [IntegerString.isNumericStringEx_of_few strtod s allowErrors (by omega)]
    exact IntegerString.classifiesExactly_of_rejected s.endPtr_ne_iff hrej
  rw [IntegerString.classifiesExactly_iff_of_few strtod s hrej (by omega)]
  unfold IntegerString.HoldsWhen
  by_cases hlen : s.significant.length = 19
  · by_cases hmoves : s.MovesPtr
    · have hallow' : allowErrors ≠ 0 := by
        rintro rfl
        refine hrej ⟨rfl, fun hnil => ?_⟩
        have := s.length_rest_of_movesPtr hmoves
        rw [hnil] at this
        cases this
      rw [if_pos hmoves, s.overflows_iff_of_moved hlen hmoves]
      simp only [hallow', hlen, ne_eq, not_true_eq_false, false_or]
    · rw [if_neg hmoves, s.overflows_iff hlen hmoves]
      rcases hallow with rfl | rfl
      · refine iff_of_true ?_ (.inl rfl)
        rintro ⟨-, hrest⟩
        refine hrej ⟨rfl, fun hnil => hrest ?_⟩
        rw [hnil]
        rfl
      · simp only [one_ne_zero, hlen, ne_eq, not_true_eq_false, false_or]
  · refine iff_of_true ?_ (.inr (.inl hlen))
    have hin : InLong s.value := IntegerString.inLong_value_iff s |>.mpr
      (.inl (s.value_bounds.1 (by omega)))
    exact iff_of_false (fun h => hlen h.1) (fun h => h hin)

/-- The longest number that a text begins with, as the text itself and its length. -/
def longestFloat (text : Bytes) : Bytes × Nat :=
  let n := Nat.findGreatest (fun n => isFloat (text.take n) = true) text.length
  (text.take n, n)

theorem readsLongestFloat_longestFloat : ReadsLongestFloat longestFloat := by
  intro text n hn hfloat
  exact ⟨Nat.le_findGreatest hn hfloat, Nat.findGreatest_le _,
    Nat.findGreatest_spec (P := fun n => isFloat (text.take n) = true) hn hfloat⟩

/-- `-9223372036854775808`. -/
def minimum : IntegerString where
  blanks := []
  sign := [45]
  digits := longMinDigits
  rest := []
  blank_of_mem _ h := by cases h
  sign_eq := .inr (.inl rfl)
  digits_ne_nil := by decide
  digit_of_mem := IntegerString.longMinDigits_digit
  follows := ⟨by decide, by decide, by decide⟩

theorem isNumericStringEx_iff_minimum :
    minimum.ClassifiesExactly 0 (isNumericStringEx longestFloat minimum.text true 0) ↔
      minimum.HoldsWhen 0 :=
  isNumericStringEx_iff readsLongestFloat_longestFloat minimum (.inl rfl)

/-- `1999999999999999999e+`, in which the digits from the second one on are compared. -/
def shifted : IntegerString where
  blanks := []
  sign := []
  digits := ascii "1999999999999999999"
  rest := ascii "e+"
  blank_of_mem _ h := by cases h
  sign_eq := .inl rfl
  digits_ne_nil := by decide
  digit_of_mem := by decide
  follows := ⟨by decide, by decide, by decide⟩

theorem not_classifiesExactly_shifted :
    ¬∀ (strtod : Bytes → Bytes × Nat) (s : IntegerString) (allowErrors : Int),
      ReadsLongestFloat strtod → allowErrors = 0 ∨ allowErrors = 1 →
        s.ClassifiesExactly allowErrors (isNumericStringEx strtod s.text true allowErrors) := by
  intro h
  have hexact := h longestFloat shifted 1 readsLongestFloat_longestFloat (.inr rfl)
  rw [IntegerString.classifiesExactly_iff_of_few longestFloat shifted (by decide)
    (by decide)] at hexact
  have hin : InLong shifted.value := by decide
  refine hexact.mp ⟨by decide, ?_⟩ hin
  decide

end NumericString

end Phpce
