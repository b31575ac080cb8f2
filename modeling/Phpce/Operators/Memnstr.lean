import Phpce.Lib.Bytes
import Phpce.Lib.SkipSearch
import Mathlib.Data.List.Induction
import Mathlib.Logic.Function.Basic
import Mathlib.Tactic.ByContra

/-!
# `zend_memnstr` and `zend_memnrstr`

Three paths in each direction: one byte, a probe of the first and the last byte, and for long inputs
the Sunday algorithm, which skips by a table over the byte next to the window. The table is made of
`unsigned int`, and the one for the way back is filled by an `int`.

* `IsLeftmost.memnstrProbe`, `IsRightmost.memnrstrProbe`: the probing paths are right.
* `zendMemnstrEx_eq`, `zendMemnrstrEx_eq`: the Sunday loops are `SkipSearch.descend`.
* `safe_forwards`, `safe_backwards`: up to `2^31` bytes of needle, their skips are safe.
* **`zendMemnstr_zendMemnrstr_iff`**: for longer needles they are right when the skips still are.
-/

namespace Phpce

open SkipSearch List Option

/-- What stops a search before its answer: a read outside the haystack, or that it has no end. -/
inductive SearchStop where
  | outside
  | endless
  deriving DecidableEq, Repr

/-- A position in the haystack, `none` for `NULL`. -/
abbrev Search := Except SearchStop (Option Nat)

def readAt (haystack : Bytes) (p : Nat) : Except SearchStop UInt8 :=
  match haystack[p]? with
  | some b => .ok b
  | none => .error .outside

/-- `memchr` of `n` bytes from `p` on. -/
def memchr (haystack : Bytes) (c : UInt8) : (p n : Nat) → Search
  | _, 0 => .ok none
  | p, n + 1 => do
      if (← readAt haystack p) = c then return some p
      else memchr haystack c (p + 1) n

/-- `memcmp` of the first `n` bytes of the needle with those from `p` on, which are all read. -/
def memcmpZero (haystack needle : Bytes) (p n : Nat) : Except SearchStop Bool :=
  if p + n ≤ haystack.length then .ok ((haystack.drop p).take n = needle.take n)
  else .error .outside

def zendMemrchr (haystack : Bytes) (c : UInt8) : (n : Nat) → Search
  | 0 => .ok none
  | n + 1 => do
      if (← readAt haystack n) = c then return some n
      else zendMemrchr haystack c n

/-! ## Probing the first and the last byte -/

/-- `ne == p[needle_len-1]`, and then `memcmp`. -/
def probeAt (haystack needle : Bytes) (p : Nat) : Except SearchStop Bool := do
  if (← readAt haystack (p + needle.length - 1)) = needle.getLastD 0 then
    memcmpZero haystack needle p (needle.length - 1)
  else return false

/-- `while (p <= end)`, where `end` is the last place for the needle. -/
def memnstrProbe (haystack needle : Bytes) : (fuel p : Nat) → Search
  | 0, _ => .error .endless
  | fuel + 1, p =>
      if p ≤ haystack.length - needle.length then do
        match ← memchr haystack (needle.headD 0) p (haystack.length - needle.length - p + 1) with
        | none => return none
        | some p =>
            if ← probeAt haystack needle p then return some p
            else memnstrProbe haystack needle fuel (p + 1)
      else .ok none

/-- `do { } while (p-- >= haystack)`, with `n` for `(p - haystack) + 1`. -/
def memnrstrProbe (haystack needle : Bytes) : (fuel n : Nat) → Search
  | 0, _ => .error .endless
  | fuel + 1, n => do
      match ← zendMemrchr haystack (needle.headD 0) n with
      | none => return none
      | some p =>
          if ← probeAt haystack needle p then return some p
          else memnrstrProbe haystack needle fuel p

/-! ## The Sunday algorithm -/

/-- `td[(unsigned char)needle[i]] = ..` for the `i` of a loop. -/
def fillTable (needle : Bytes) (entry : Nat → UInt32) (td : UInt8 → UInt32) (is : List Nat) :
    UInt8 → UInt32 :=
  is.foldl (fun td i => Function.update td (needle.getD i 0) (entry i)) td

/-- The `i` of the loop back, an `int` that starts at `needle_len - 1`. -/
def reverseIndices (needleLen : Nat) : List Nat :=
  if (needleLen - 1) % 4294967296 < 2147483648 then
    (List.range ((needleLen - 1) % 4294967296 + 1)).reverse
  else []

def zendMemnstrExPre (needle : Bytes) (reverse : Bool) : UInt8 → UInt32 :=
  let td : UInt8 → UInt32 := fun _ => UInt32.ofNat (needle.length + 1)
  if reverse then
    fillTable needle (fun i => UInt32.ofNat (i + 1)) td (reverseIndices needle.length)
  else
    fillTable needle (fun i => UInt32.ofNat needle.length - UInt32.ofNat i) td
      (List.range needle.length)

/-- `for (i = 0; i < needle_len; i++)`, up to the first difference. -/
def comparesEqual (haystack : Bytes) : (needle : Bytes) → (p : Nat) → Except SearchStop Bool
  | [], _ => .ok true
  | c :: needle, p => do
      if (← readAt haystack p) = c then comparesEqual haystack needle (p + 1)
      else return false

/-- `while (p <= end)`, which is tested after each skip. -/
def memnstrExLoop (haystack needle : Bytes) (td : UInt8 → UInt32) : (fuel p : Nat) → Search
  | 0, _ => .error .endless
  | fuel + 1, p => do
      if ← comparesEqual haystack needle p then return some p
      else if p = haystack.length - needle.length then return none
      else
        let p := p + (td (← readAt haystack (p + needle.length))).toNat
        if p ≤ haystack.length - needle.length then memnstrExLoop haystack needle td fuel p
        else return none

def zendMemnstrEx (haystack needle : Bytes) : Search :=
  if needle.length = 0 ∨ haystack.length < needle.length then .ok none
  else memnstrExLoop haystack needle (zendMemnstrExPre needle false) (haystack.length + 1) 0

/-- `while (p >= haystack)`, which is tested after each skip. -/
def memnrstrExLoop (haystack needle : Bytes) (td : UInt8 → UInt32) : (fuel p : Nat) → Search
  | 0, _ => .error .endless
  | fuel + 1, p => do
      if ← comparesEqual haystack needle p then return some p
      else if p = 0 then return none
      else
        let skip := (td (← readAt haystack (p - 1))).toNat
        if skip ≤ p then memnrstrExLoop haystack needle td fuel (p - skip)
        else return none

def zendMemnrstrEx (haystack needle : Bytes) : Search :=
  if needle.length = 0 ∨ haystack.length < needle.length then .ok none
  else memnrstrExLoop haystack needle (zendMemnstrExPre needle true) (haystack.length + 1)
    (haystack.length - needle.length)

/-! ## The paths -/

def zendMemnstr (haystack needle : Bytes) : Search :=
  if needle.length = 1 then memchr haystack (needle.headD 0) 0 haystack.length
  else if haystack.length < needle.length then .ok none
  else if haystack.length < 1024 ∨ needle.length < 9 then
    memnstrProbe haystack needle (haystack.length + 1) 0
  else zendMemnstrEx haystack needle

def zendMemnrstr (haystack needle : Bytes) : Search :=
  if needle.length = 1 then zendMemrchr haystack (needle.headD 0) haystack.length
  else if haystack.length < needle.length then .ok none
  else if haystack.length < 1024 ∨ needle.length < 3 then
    memnrstrProbe haystack needle (haystack.length + 1) (haystack.length - needle.length + 1)
  else zendMemnrstrEx haystack needle

example : zendMemnstr (Bytes.ascii "abcabcab") (Bytes.ascii "cab") = .ok (some 2) := by decide
example : zendMemnrstr (Bytes.ascii "abcabcab") (Bytes.ascii "cab") = .ok (some 5) := by decide

/-! ## Reading and comparing -/

variable {haystack needle : Bytes} {td : UInt8 → UInt32} {c : UInt8} {fuel p q r n i : Nat}

theorem ok_bind {β γ : Type} (b : β) (f : β → Except SearchStop γ) :
    (Except.ok b >>= f) = f b :=
  rfl

theorem readAt_eq {b : UInt8} (h : haystack[p]? = some b) : readAt haystack p = .ok b := by
  unfold readAt
  rw [h]

theorem comparesEqual_eq (h : p + needle.length ≤ haystack.length) :
    comparesEqual haystack needle p = .ok (decide (OccursAt haystack needle p)) := by
  -- induction on the needle: each byte moves the window by one
  induction needle generalizing p with
  | nil =>
    rw [decide_eq_true ⟨h, rfl⟩]
    rfl
  | cons c needle ih =>
    rw [length_cons] at h
    have hp : p < haystack.length := by omega
    have hdrop := drop_eq_getElem_cons hp
    unfold comparesEqual
    rw [readAt_eq (List.getElem?_eq_getElem hp), ok_bind]
    split
    · rename_i heq
      rw [ih (by omega)]
      congr 1
      rw [decide_eq_decide]
      unfold OccursAt
      rw [hdrop, length_cons, take_succ_cons, heq]
      constructor
      · exact fun ⟨_, heq⟩ => ⟨by omega, by rw [heq]⟩
      · exact fun ⟨_, heq⟩ => ⟨by omega, tail_eq_of_cons_eq heq⟩
    · rename_i hne
      rw [decide_eq_false]
      · rfl
      · rintro ⟨-, heq⟩
        rw [hdrop, length_cons, take_succ_cons] at heq
        exact hne (head_eq_of_cons_eq heq)

theorem occursAt_iff_probe (hlen : 1 ≤ needle.length) (h : p + needle.length ≤ haystack.length) :
    OccursAt haystack needle p ↔ haystack[p + needle.length - 1]? = some (needle.getLastD 0) ∧
      (haystack.drop p).take (needle.length - 1) = needle.take (needle.length - 1) := by
  obtain ⟨m, hm⟩ := Nat.exists_eq_add_of_le' hlen
  rw [hm] at h
  have hlast : needle[m]? = some (needle.getLastD 0) := by
    rw [getLastD_eq_getLast?, List.getLast?_eq_getElem?, hm, Nat.add_sub_cancel,
      List.getElem?_eq_getElem (show m < needle.length by omega)]
    rfl
  have hneedle : needle = needle.take m ++ [needle.getLastD 0] := by
    conv_lhs => rw [← take_length (l := needle), hm, take_add_one, hlast]
    rfl
  obtain ⟨b, hb⟩ : ∃ b, haystack[p + m]? = some b :=
    ⟨_, List.getElem?_eq_getElem (show p + m < haystack.length by omega)⟩
  unfold OccursAt
  rw [hm, Nat.add_sub_cancel, ← Nat.add_assoc, Nat.add_sub_cancel, hb, take_add_one,
    List.getElem?_drop, hb]
  show (_ ∧ _ ++ [b] = needle) ↔ _
  constructor
  · rintro ⟨-, heq⟩
    rw [hneedle] at heq
    obtain ⟨hinit, hend⟩ := append_inj' heq rfl
    exact ⟨congrArg some (head_eq_of_cons_eq hend), hinit⟩
  · rintro ⟨hend, hinit⟩
    rw [hinit, some.inj hend]
    exact ⟨h, hneedle.symm⟩

theorem probeAt_eq (hlen : 1 ≤ needle.length) (h : p + needle.length ≤ haystack.length) :
    probeAt haystack needle p = .ok (decide (OccursAt haystack needle p)) := by
  have hlast := List.getElem?_eq_getElem (show p + needle.length - 1 < haystack.length by omega)
  unfold probeAt
  rw [readAt_eq hlast, ok_bind]
  split
  · rename_i heq
    unfold memcmpZero
    rw [if_pos (by omega)]
    congr 1
    rw [decide_eq_decide, occursAt_iff_probe hlen h, hlast, heq]
    exact ⟨fun hinit => ⟨rfl, hinit⟩, fun ⟨_, hinit⟩ => hinit⟩
  · rename_i hne
    rw [decide_eq_false]
    · rfl
    · intro hocc
      rw [occursAt_iff_probe hlen h, hlast] at hocc
      exact hne (some.inj hocc.1)

theorem not_occursAt_of_ne (hlen : 1 ≤ needle.length)
    (h : haystack[p]? ≠ some (needle.headD 0)) : ¬OccursAt haystack needle p := by
  intro hocc
  obtain ⟨b, needle, rfl⟩ := exists_cons_of_length_pos hlen
  exact h (hocc.getElem? (i := 0) (Nat.succ_pos _))

/-! ## The probing paths -/

theorem memchr_spec (h : p + n ≤ haystack.length) :
    (memchr haystack c p n = .ok none ∧ ∀ q, p ≤ q → q < p + n → haystack[q]? ≠ some c) ∨
    ∃ q, memchr haystack c p n = .ok (some q) ∧ p ≤ q ∧ q < p + n ∧ haystack[q]? = some c ∧
      ∀ q', p ≤ q' → q' < q → haystack[q']? ≠ some c := by
  -- induction on the bytes to look at
  induction n generalizing p with
  | zero => exact .inl ⟨rfl, fun q hle hlt => absurd hlt (Nat.not_lt.mpr hle)⟩
  | succ n ih =>
    have hget := List.getElem?_eq_getElem (show p < haystack.length by omega)
    have hstep : memchr haystack c p (n + 1) =
        if haystack[p] = c then .ok (some p) else memchr haystack c (p + 1) n := by
      rw [memchr, readAt_eq hget, ok_bind]
      rfl
    by_cases hc : haystack[p] = c
    · rw [if_pos hc] at hstep
      refine .inr ⟨p, hstep, Nat.le_refl p, by omega, hc ▸ hget, fun q' hle hlt => ?_⟩
      exact absurd hlt (Nat.not_lt.mpr hle)
    · rw [if_neg hc] at hstep
      have hp : haystack[p]? ≠ some c := fun heq => hc (some.inj (hget.symm.trans heq))
      rcases ih (show p + 1 + n ≤ haystack.length by omega) with
        ⟨hnone, hno⟩ | ⟨q, hsome, hle, hlt, hq, hno⟩
      · refine .inl ⟨hstep.trans hnone, fun q hle hlt => ?_⟩
        rcases Nat.eq_or_lt_of_le hle with rfl | hgt
        · exact hp
        · exact hno q hgt (by omega)
      · refine .inr ⟨q, hstep.trans hsome, by omega, by omega, hq, fun q' hle hlt => ?_⟩
        rcases Nat.eq_or_lt_of_le hle with rfl | hgt
        · exact hp
        · exact hno q' hgt hlt

theorem zendMemrchr_spec (h : n ≤ haystack.length) :
    (zendMemrchr haystack c n = .ok none ∧ ∀ q < n, haystack[q]? ≠ some c) ∨
    ∃ q, zendMemrchr haystack c n = .ok (some q) ∧ q < n ∧ haystack[q]? = some c ∧
      ∀ q', q < q' → q' < n → haystack[q']? ≠ some c := by
  -- induction on the bytes to look at
  induction n with
  | zero => exact .inl ⟨rfl, fun q hlt => absurd hlt (Nat.not_lt_zero q)⟩
  | succ n ih =>
    have hget := List.getElem?_eq_getElem (show n < haystack.length by omega)
    have hstep : zendMemrchr haystack c (n + 1) =
        if haystack[n] = c then .ok (some n) else zendMemrchr haystack c n := by
      rw [zendMemrchr, readAt_eq hget, ok_bind]
      rfl
    by_cases hc : haystack[n] = c
    · rw [if_pos hc] at hstep
      refine .inr ⟨n, hstep, Nat.lt_succ_self n, hc ▸ hget, fun q' hgt hlt => ?_⟩
      omega
    · rw [if_neg hc] at hstep
      have hn : haystack[n]? ≠ some c := fun heq => hc (some.inj (hget.symm.trans heq))
      rcases ih (show n ≤ haystack.length by omega) with
        ⟨hnone, hno⟩ | ⟨q, hsome, hlt, hq, hno⟩
      · refine .inl ⟨hstep.trans hnone, fun q hlt => ?_⟩
        rcases Nat.eq_or_lt_of_le (Nat.le_of_lt_succ hlt) with rfl | hlt'
        · exact hn
        · exact hno q hlt'
      · refine .inr ⟨q, hstep.trans hsome, by omega, hq, fun q' hgt hlt' => ?_⟩
        rcases Nat.eq_or_lt_of_le (Nat.le_of_lt_succ hlt') with rfl | hlt''
        · exact hn
        · exact hno q' hgt hlt''

theorem memnstrProbe_spec (hlen : 1 ≤ needle.length) (hle : needle.length ≤ haystack.length)
    (hfuel : haystack.length - needle.length + 1 < fuel + p)
    (hp : p ≤ haystack.length - needle.length + 1)
    (hno : ∀ q < p, ¬OccursAt haystack needle q) :
    ∃ res, memnstrProbe haystack needle fuel p = .ok res ∧ IsLeftmost haystack needle res := by
  -- induction on the fuel: every round leaves at least one place behind
  induction fuel generalizing p with
  | zero => omega
  | succ fuel ih =>
    unfold memnstrProbe
    by_cases hin : p ≤ haystack.length - needle.length
    · rw [if_pos hin]
      rcases memchr_spec (c := needle.headD 0)
        (show p + (haystack.length - needle.length - p + 1) ≤ haystack.length by omega) with
        ⟨hnone, hno'⟩ | ⟨q, hsome, hpq, hlt, hq, hno'⟩
      · rw [hnone]
        refine ⟨none, rfl, fun q hocc => ?_⟩
        rcases Nat.lt_or_ge q p with hqp | hqp
        · exact hno q hqp hocc
        · exact not_occursAt_of_ne hlen (hno' q hqp (by have := hocc.le; omega)) hocc
      · rw [hsome, ok_bind]
        dsimp only
        rw [probeAt_eq hlen (show q + needle.length ≤ haystack.length by omega), ok_bind]
        have hbefore : ∀ q' < q, ¬OccursAt haystack needle q' := by
          intro q' hlt'
          rcases Nat.lt_or_ge q' p with hqp | hqp
          · exact hno q' hqp
          · exact not_occursAt_of_ne hlen (hno' q' hqp hlt')
        by_cases hocc : OccursAt haystack needle q
        · rw [if_pos (decide_eq_true hocc)]
          exact ⟨some q, rfl, hocc, hbefore⟩
        · rw [if_neg (by rwa [decide_eq_true_iff])]
          refine ih (by omega) (by omega) fun q' hlt' => ?_
          rcases Nat.eq_or_lt_of_le (Nat.le_of_lt_succ hlt') with rfl | hlt''
          · exact hocc
          · exact hbefore q' hlt''
    · rw [if_neg hin]
      exact ⟨none, rfl, fun q hocc => hno q (by have := hocc.le; omega) hocc⟩

theorem memnrstrProbe_spec (hlen : 1 ≤ needle.length) (hle : needle.length ≤ haystack.length)
    (hfuel : n < fuel) (hn : n ≤ haystack.length - needle.length + 1)
    (hno : ∀ q, n ≤ q → ¬OccursAt haystack needle q) :
    ∃ res, memnrstrProbe haystack needle fuel n = .ok res ∧ IsRightmost haystack needle res := by
  -- induction on the fuel: every round leaves at least one place behind
  induction fuel generalizing n with
  | zero => omega
  | succ fuel ih =>
    unfold memnrstrProbe
    rcases zendMemrchr_spec (c := needle.headD 0) (show n ≤ haystack.length by omega) with
      ⟨hnone, hno'⟩ | ⟨q, hsome, hlt, hq, hno'⟩
    · rw [hnone]
      refine ⟨none, rfl, fun q hocc => ?_⟩
      rcases Nat.lt_or_ge q n with hqn | hqn
      · exact not_occursAt_of_ne hlen (hno' q hqn) hocc
      · exact hno q hqn hocc
    · rw [hsome, ok_bind]
      dsimp only
      rw [probeAt_eq hlen (show q + needle.length ≤ haystack.length by omega), ok_bind]
      have hafter : ∀ q', q < q' → ¬OccursAt haystack needle q' := by
        intro q' hgt
        rcases Nat.lt_or_ge q' n with hqn | hqn
        · exact not_occursAt_of_ne hlen (hno' q' hgt hqn)
        · exact hno q' hqn
      by_cases hocc : OccursAt haystack needle q
      · rw [if_pos (decide_eq_true hocc)]
        exact ⟨some q, rfl, hocc, hafter⟩
      · rw [if_neg (by rwa [decide_eq_true_iff])]
        refine ih (by omega) (by omega) fun q' hle' => ?_
        rcases Nat.eq_or_lt_of_le hle' with rfl | hlt'
        · exact hocc
        · exact hafter q' hlt'

/-! ## The skip tables -/

theorem fillTable_cases {R : Nat → Nat → Prop} {is : List Nat} (hR : is.Pairwise R)
    (needle : Bytes) (entry : Nat → UInt32) (td : UInt8 → UInt32) (c : UInt8) :
    ((∀ i ∈ is, needle.getD i 0 ≠ c) ∧ fillTable needle entry td is c = td c) ∨
    ∃ i ∈ is, (∀ j ∈ is, needle.getD j 0 = c → j = i ∨ R j i) ∧
      fillTable needle entry td is c = entry i := by
  -- induction from the last write back
  induction is using List.reverseRecOn with
  | nil => exact .inl ⟨fun i hi => (by cases hi), rfl⟩
  | append_singleton is i ih =>
    obtain ⟨hRis, -, hRi⟩ := pairwise_append.mp hR
    have hstep : fillTable needle entry td (is ++ [i]) =
        Function.update (fillTable needle entry td is) (needle.getD i 0) (entry i) := by
      unfold fillTable
      rw [foldl_append]
      rfl
    rw [hstep]
    by_cases hi : needle.getD i 0 = c
    · refine .inr ⟨i, mem_append_right _ mem_cons_self, fun j hj _ => ?_, ?_⟩
      · rcases mem_append.mp hj with hj | hj
        · exact .inr (hRi j hj i mem_cons_self)
        · exact .inl (mem_singleton.mp hj)
      · rw [hi, Function.update_self]
    · rw [Function.update_of_ne (Ne.symm hi)]
      rcases ih hRis with ⟨hno, htd⟩ | ⟨k, hk, hlast, htd⟩
      · refine .inl ⟨fun j hj => ?_, htd⟩
        rcases mem_append.mp hj with hj | hj
        · exact hno j hj
        · rwa [mem_singleton.mp hj]
      · refine .inr ⟨k, mem_append_left _ hk, fun j hj hc => ?_, htd⟩
        rcases mem_append.mp hj with hj | hj
        · exact hlast j hj hc
        · exact absurd (mem_singleton.mp hj ▸ hc) hi

theorem toNat_ofNat (h : n < 4294967296) : (UInt32.ofNat n).toNat = n :=
  UInt32.toNat_ofNat_of_lt' h

theorem skip_forwards (hmax : needle.length ≤ 2147483648) :
    0 < (zendMemnstrExPre needle false c).toNat ∧
    (zendMemnstrExPre needle false c).toNat ≤ needle.length + 1 ∧
    ∀ j < needle.length, needle.getD j 0 = c →
      (zendMemnstrExPre needle false c).toNat ≤ needle.length - j := by
  have hpre : zendMemnstrExPre needle false = fillTable needle
      (fun i => UInt32.ofNat needle.length - UInt32.ofNat i)
      (fun _ => UInt32.ofNat (needle.length + 1)) (List.range needle.length) := rfl
  rw [hpre]
  rcases fillTable_cases pairwise_lt_range needle
    (fun i => UInt32.ofNat needle.length - UInt32.ofNat i)
    (fun _ => UInt32.ofNat (needle.length + 1)) c with ⟨hno, htd⟩ | ⟨i, hi, hlast, htd⟩
  · rw [htd, toNat_ofNat (by omega)]
    exact ⟨Nat.succ_pos _, Nat.le_refl _,
      fun j hj hc => absurd hc (hno j (mem_range.mpr hj))⟩
  · have hiL := mem_range.mp hi
    have hval : (UInt32.ofNat needle.length - UInt32.ofNat i).toNat = needle.length - i := by
      rw [UInt32.toNat_sub_of_le, toNat_ofNat (by omega), toNat_ofNat (by omega)]
      rw [UInt32.le_iff_toNat_le, toNat_ofNat (by omega), toNat_ofNat (by omega)]
      exact hiL.le
    rw [htd, hval]
    refine ⟨by omega, by omega, fun j hj hc => ?_⟩
    rcases hlast j (mem_range.mpr hj) hc with rfl | hlt <;> omega

theorem reverseIndices_eq (hlen : 1 ≤ n) (hmax : n ≤ 2147483648) :
    reverseIndices n = (List.range n).reverse := by
  have hmod : (n - 1) % 4294967296 = n - 1 := Nat.mod_eq_of_lt (by omega)
  unfold reverseIndices
  rw [hmod, if_pos (by omega), Nat.sub_add_cancel hlen]

theorem skip_backwards (hlen : 1 ≤ needle.length) (hmax : needle.length ≤ 2147483648) :
    0 < (zendMemnstrExPre needle true c).toNat ∧
    (zendMemnstrExPre needle true c).toNat ≤ needle.length + 1 ∧
    ∀ j < needle.length, needle.getD j 0 = c →
      (zendMemnstrExPre needle true c).toNat ≤ j + 1 := by
  have hpre : zendMemnstrExPre needle true = fillTable needle (fun i => UInt32.ofNat (i + 1))
      (fun _ => UInt32.ofNat (needle.length + 1)) (List.range needle.length).reverse := by
    rw [← reverseIndices_eq hlen hmax]
    rfl
  rw [hpre]
  rcases fillTable_cases (pairwise_reverse.mpr pairwise_lt_range) needle
    (fun i => UInt32.ofNat (i + 1)) (fun _ => UInt32.ofNat (needle.length + 1)) c with
    ⟨hno, htd⟩ | ⟨i, hi, hlast, htd⟩
  · rw [htd, toNat_ofNat (by omega)]
    exact ⟨Nat.succ_pos _, Nat.le_refl _,
      fun j hj hc => absurd hc (hno j (mem_reverse.mpr (mem_range.mpr hj)))⟩
  · have hiL := mem_range.mp (mem_reverse.mp hi)
    rw [htd, toNat_ofNat (by omega)]
    refine ⟨Nat.succ_pos _, by omega, fun j hj hc => ?_⟩
    rcases hlast j (mem_reverse.mpr (mem_range.mpr hj)) hc with rfl | hlt <;> omega

/-! ## The Sunday loops -/

/-- Forwards, the place `r` is so far from the last position. -/
def hitForwards (haystack needle : Bytes) (r : Nat) : Bool :=
  OccursAt haystack needle (haystack.length - needle.length - r)

def skipForwards (haystack needle : Bytes) (r : Nat) : Nat :=
  (zendMemnstrExPre needle false (haystack.getD (haystack.length - r) 0)).toNat

def hitBackwards (haystack needle : Bytes) (r : Nat) : Bool := OccursAt haystack needle r

def skipBackwards (haystack needle : Bytes) (r : Nat) : Nat :=
  (zendMemnstrExPre needle true (haystack.getD (r - 1) 0)).toNat

theorem getD_eq_of_occursAt (h : OccursAt haystack needle p) (hi : i < needle.length) :
    needle.getD i 0 = haystack.getD (p + i) 0 := by
  rw [getD_eq_getElem?_getD, getD_eq_getElem?_getD, h.getElem? hi]

theorem safe_forwards (hmax : needle.length ≤ 2147483648)
    (hle : needle.length ≤ haystack.length) :
    Safe (hitForwards haystack needle) (skipForwards haystack needle)
      (haystack.length - needle.length) := by
  refine safe_of_forall (m := haystack.length - needle.length) (fun r hr hne => ?_) (Nat.le_refl _)
  obtain ⟨hpos, hskip, hbyte⟩ := skip_forwards (c := haystack.getD (haystack.length - r) 0) hmax
  refine ⟨hpos, fun q hq hover => decide_eq_false fun hocc => ?_⟩
  -- the byte behind the window stands in the occurrence that would be passed over
  have hskip' : skipForwards haystack needle r ≤ needle.length + 1 := hskip
  obtain ⟨j, hj⟩ : ∃ j, j = needle.length - (r - q) := ⟨_, rfl⟩
  have hjL : j < needle.length := by omega
  have hc := getD_eq_of_occursAt hocc hjL
  rw [show haystack.length - needle.length - q + j = haystack.length - r by omega] at hc
  have hle' : skipForwards haystack needle r ≤ needle.length - j := hbyte j hjL hc
  omega

theorem safe_backwards (hlen : 1 ≤ needle.length) (hmax : needle.length ≤ 2147483648)
    (r : Nat) : Safe (hitBackwards haystack needle) (skipBackwards haystack needle) r := by
  refine safe_of_forall (m := r) (fun r hr hne => ?_) (Nat.le_refl _)
  obtain ⟨hpos, hskip, hbyte⟩ := skip_backwards (c := haystack.getD (r - 1) 0) hlen hmax
  refine ⟨hpos, fun q hq hover => decide_eq_false fun hocc => ?_⟩
  -- the byte before the window stands in the occurrence that would be passed over
  have hskip' : skipBackwards haystack needle r ≤ needle.length + 1 := hskip
  obtain ⟨j, hj⟩ : ∃ j, j = r - 1 - q := ⟨_, rfl⟩
  have hjL : j < needle.length := by omega
  have hc := getD_eq_of_occursAt hocc hjL
  rw [show q + j = r - 1 by omega] at hc
  have hle' : skipBackwards haystack needle r ≤ j + 1 := hbyte j hjL hc
  omega

def ofDescend (position : Nat → Nat) : Option (Option Nat) → Search
  | none => .error .endless
  | some res => .ok (res.map position)

theorem exists_of_ofDescend {position : Nat → Nat} {found : Option (Option Nat)}
    {res : Option Nat} (h : ofDescend position found = .ok res) :
    ∃ res', found = some res' ∧ res'.map position = res := by
  cases found with
  | none => cases h
  | some res' => exact ⟨res', rfl, Except.ok.inj h⟩

theorem readAt_getD (h : p < haystack.length) : readAt haystack p = .ok (haystack.getD p 0) := by
  rw [readAt_eq (List.getElem?_eq_getElem h), getD_eq_getElem?_getD,
    List.getElem?_eq_getElem h]
  rfl

theorem memnstrExLoop_eq (fuel : Nat) (hle : needle.length ≤ haystack.length)
    (hr : r ≤ haystack.length - needle.length) :
    memnstrExLoop haystack needle (zendMemnstrExPre needle false) fuel
        (haystack.length - needle.length - r) =
      ofDescend (haystack.length - needle.length - ·)
        (descend (hitForwards haystack needle) (skipForwards haystack needle) fuel r) := by
  -- induction on the fuel: one round is one place
  induction fuel generalizing r with
  | zero => rfl
  | succ fuel ih =>
    have hcmp : comparesEqual haystack needle (haystack.length - needle.length - r) =
      .ok (hitForwards haystack needle r) := comparesEqual_eq (by omega)
    unfold memnstrExLoop descend
    rw [hcmp, ok_bind]
    by_cases hhit : hitForwards haystack needle r = true
    · rw [if_pos hhit, if_pos hhit]
      rfl
    rw [if_neg hhit, if_neg hhit]
    by_cases hzero : r = 0
    · rw [if_pos hzero, if_pos (by omega)]
      rfl
    rw [if_neg hzero, if_neg (by omega), readAt_getD (by omega), ok_bind,
      show haystack.length - needle.length - r + needle.length = haystack.length - r by omega]
    show (if _ + skipForwards haystack needle r ≤ _ then
      memnstrExLoop _ _ _ fuel (_ + skipForwards haystack needle r) else _) = _
    by_cases hskip : skipForwards haystack needle r ≤ r
    · rw [if_pos hskip, if_pos (by omega), ← ih (by omega)]
      congr 1
      omega
    · rw [if_neg hskip, if_neg (by omega)]
      rfl

theorem memnrstrExLoop_eq (fuel : Nat) (hle : needle.length ≤ haystack.length)
    (hr : r ≤ haystack.length - needle.length) :
    memnrstrExLoop haystack needle (zendMemnstrExPre needle true) fuel r =
      ofDescend id
        (descend (hitBackwards haystack needle) (skipBackwards haystack needle) fuel r) := by
  -- induction on the fuel: one round is one place
  induction fuel generalizing r with
  | zero => rfl
  | succ fuel ih =>
    have hcmp : comparesEqual haystack needle r = .ok (hitBackwards haystack needle r) :=
      comparesEqual_eq (by omega)
    unfold memnrstrExLoop descend
    rw [hcmp, ok_bind]
    by_cases hhit : hitBackwards haystack needle r = true
    · rw [if_pos hhit, if_pos hhit]
      rfl
    rw [if_neg hhit, if_neg hhit]
    by_cases hzero : r = 0
    · rw [if_pos hzero, if_pos hzero]
      rfl
    rw [if_neg hzero, if_neg hzero, readAt_getD (by omega), ok_bind]
    show (if skipBackwards haystack needle r ≤ r then
      memnrstrExLoop _ _ _ fuel (r - skipBackwards haystack needle r) else _) = _
    by_cases hskip : skipBackwards haystack needle r ≤ r
    · rw [if_pos hskip, if_pos hskip, ih (by omega)]
    · rw [if_neg hskip, if_neg hskip]
      rfl

/-- `zend_memnstr` finds the leftmost occurrence. -/
def FindsLeftmost (haystack needle : Bytes) : Prop :=
  ∃ res, zendMemnstr haystack needle = .ok res ∧ IsLeftmost haystack needle res

/-- `zend_memnrstr` finds the rightmost occurrence. -/
def FindsRightmost (haystack needle : Bytes) : Prop :=
  ∃ res, zendMemnrstr haystack needle = .ok res ∧ IsRightmost haystack needle res

theorem isLeftmost_map_iff {res : Option Nat} (hres : ∀ q ∈ res,
      q ≤ haystack.length - needle.length) :
    IsLeftmost haystack needle (res.map (haystack.length - needle.length - ·)) ↔
      IsUppermost (hitForwards haystack needle) (haystack.length - needle.length) res := by
  cases res with
  | none =>
    constructor
    · exact fun h q _ => decide_eq_false (h _)
    · intro h q hocc
      have hq := h (haystack.length - needle.length - q) (Nat.sub_le _ _)
      refine of_decide_eq_false hq ?_
      rwa [Nat.sub_sub_self hocc.le]
  | some q =>
    have hq := hres q rfl
    constructor
    · rintro ⟨hocc, hno⟩
      refine ⟨hq, decide_eq_true hocc, fun q' hlt hle => decide_eq_false (hno _ ?_)⟩
      show haystack.length - needle.length - q' < haystack.length - needle.length - q
      omega
    · rintro ⟨-, hhit, hno⟩
      refine ⟨of_decide_eq_true hhit, fun q' hlt hocc => ?_⟩
      change q' < haystack.length - needle.length - q at hlt
      have hq' := hno (haystack.length - needle.length - q') (by omega) (Nat.sub_le _ _)
      refine of_decide_eq_false hq' ?_
      rwa [Nat.sub_sub_self hocc.le]

theorem isRightmost_iff {res : Option Nat} (hres : ∀ q ∈ res,
      q ≤ haystack.length - needle.length) :
    IsRightmost haystack needle res ↔
      IsUppermost (hitBackwards haystack needle) (haystack.length - needle.length) res := by
  cases res with
  | none =>
    constructor
    · exact fun h q _ => decide_eq_false (h q)
    · exact fun h q hocc => of_decide_eq_false (h q hocc.le) hocc
  | some q =>
    have hq := hres q rfl
    constructor
    · rintro ⟨hocc, hno⟩
      exact ⟨hq, decide_eq_true hocc, fun q' hlt _ => decide_eq_false (hno q' hlt)⟩
    · rintro ⟨-, hhit, hno⟩
      exact ⟨of_decide_eq_true hhit, fun q' hlt hocc =>
        of_decide_eq_false (hno q' hlt hocc.le) hocc⟩

theorem zendMemnstrEx_iff (hlen : 1 ≤ needle.length) (hle : needle.length ≤ haystack.length) :
    (∃ res, zendMemnstrEx haystack needle = .ok res ∧ IsLeftmost haystack needle res) ↔
      Safe (hitForwards haystack needle) (skipForwards haystack needle)
        (haystack.length - needle.length) := by
  have hrun := memnstrExLoop_eq (haystack.length + 1) hle (Nat.le_refl _)
  rw [Nat.sub_self] at hrun
  rw [← descend_iff (show haystack.length - needle.length < haystack.length + 1 by omega),
    zendMemnstrEx, if_neg (by omega), hrun]
  constructor
  · rintro ⟨res, hres, hleft⟩
    obtain ⟨res', hres', rfl⟩ := exists_of_ofDescend hres
    refine ⟨res', hres', (isLeftmost_map_iff fun q hq => ?_).mp hleft⟩
    rw [mem_def.mp hq] at hres'
    exact descend_le hres'
  · rintro ⟨res, hres, hupper⟩
    refine ⟨_, by rw [hres]; rfl, (isLeftmost_map_iff fun q hq => ?_).mpr hupper⟩
    rw [mem_def.mp hq] at hupper
    exact hupper.1

theorem zendMemnrstrEx_iff (hlen : 1 ≤ needle.length) (hle : needle.length ≤ haystack.length) :
    (∃ res, zendMemnrstrEx haystack needle = .ok res ∧ IsRightmost haystack needle res) ↔
      Safe (hitBackwards haystack needle) (skipBackwards haystack needle)
        (haystack.length - needle.length) := by
  have hrun := memnrstrExLoop_eq (haystack.length + 1) hle (Nat.le_refl _)
  rw [← descend_iff (show haystack.length - needle.length < haystack.length + 1 by omega),
    zendMemnrstrEx, if_neg (by omega), hrun]
  constructor
  · rintro ⟨res, hres, hright⟩
    obtain ⟨res', hres', rfl⟩ := exists_of_ofDescend hres
    rw [Option.map_id] at hright
    refine ⟨res', hres', (isRightmost_iff fun q hq => ?_).mp hright⟩
    rw [mem_def.mp hq] at hres'
    exact descend_le hres'
  · rintro ⟨res, hres, hupper⟩
    refine ⟨res, by rw [hres, ofDescend, Option.map_id]; rfl, (isRightmost_iff fun q hq => ?_).mpr
      hupper⟩
    rw [mem_def.mp hq] at hupper
    exact hupper.1

/-! ## All paths -/

theorem occursAt_singleton : OccursAt haystack [c] p ↔ haystack[p]? = some c := by
  constructor
  · exact fun hocc => hocc.getElem? (i := 0) Nat.one_pos
  · intro hc
    obtain ⟨hp, hget⟩ := List.getElem?_eq_some_iff.mp hc
    refine ⟨hp, ?_⟩
    rw [drop_eq_getElem_cons hp, hget]
    rfl

theorem findsLeftmost_of_le (hlen : 1 ≤ needle.length) (hmax : needle.length ≤ 2147483648) :
    FindsLeftmost haystack needle := by
  unfold FindsLeftmost zendMemnstr
  by_cases hone : needle.length = 1
  · rw [if_pos hone]
    obtain ⟨c, rfl⟩ := length_eq_one_iff.mp hone
    show ∃ res, memchr haystack c 0 haystack.length = .ok res ∧ _
    rcases memchr_spec (c := c) (show 0 + haystack.length ≤ haystack.length by omega) with
      ⟨hnone, hno⟩ | ⟨q, hsome, -, -, hq, hno⟩
    · refine ⟨none, hnone, fun q hocc => ?_⟩
      exact hno q (Nat.zero_le q) (by have := hocc.1; rw [length_singleton] at this; omega)
        (occursAt_singleton.mp hocc)
    · exact ⟨some q, hsome, occursAt_singleton.mpr hq, fun q' hlt hocc =>
        hno q' (Nat.zero_le q') hlt (occursAt_singleton.mp hocc)⟩
  rw [if_neg hone]
  by_cases hlt : haystack.length < needle.length
  · rw [if_pos hlt]
    exact ⟨none, rfl, fun q hocc => absurd hocc.1 (by omega)⟩
  rw [if_neg hlt]
  split
  · exact memnstrProbe_spec hlen (by omega) (by omega) (by omega)
      fun q hq => absurd hq (Nat.not_lt_zero q)
  · exact (zendMemnstrEx_iff hlen (by omega)).mpr (safe_forwards hmax (by omega))

theorem findsRightmost_of_le (hlen : 1 ≤ needle.length) (hmax : needle.length ≤ 2147483648) :
    FindsRightmost haystack needle := by
  unfold FindsRightmost zendMemnrstr
  by_cases hone : needle.length = 1
  · rw [if_pos hone]
    obtain ⟨c, rfl⟩ := length_eq_one_iff.mp hone
    show ∃ res, zendMemrchr haystack c haystack.length = .ok res ∧ _
    rcases zendMemrchr_spec (c := c) (Nat.le_refl haystack.length) with
      ⟨hnone, hno⟩ | ⟨q, hsome, -, hq, hno⟩
    · refine ⟨none, hnone, fun q hocc => ?_⟩
      exact hno q (by have := hocc.1; rw [length_singleton] at this; omega)
        (occursAt_singleton.mp hocc)
    · refine ⟨some q, hsome, occursAt_singleton.mpr hq, fun q' hgt hocc => ?_⟩
      exact hno q' hgt (by have := hocc.1; rw [length_singleton] at this; omega)
        (occursAt_singleton.mp hocc)
  rw [if_neg hone]
  by_cases hlt : haystack.length < needle.length
  · rw [if_pos hlt]
    exact ⟨none, rfl, fun q hocc => absurd hocc.1 (by omega)⟩
  rw [if_neg hlt]
  split
  · exact memnrstrProbe_spec hlen (by omega) (by omega) (Nat.le_refl _)
      fun q hle hocc => by have := hocc.le; omega
  · exact (zendMemnrstrEx_iff hlen (by omega)).mpr (safe_backwards hlen hmax _)

theorem zendMemnstr_of_lt (hbig : 2147483648 < needle.length)
    (hle : needle.length ≤ haystack.length) :
    zendMemnstr haystack needle = zendMemnstrEx haystack needle := by
  rw [zendMemnstr, if_neg (by omega), if_neg (by omega), if_neg (by omega)]

theorem zendMemnrstr_of_lt (hbig : 2147483648 < needle.length)
    (hle : needle.length ≤ haystack.length) :
    zendMemnrstr haystack needle = zendMemnrstrEx haystack needle := by
  rw [zendMemnrstr, if_neg (by omega), if_neg (by omega), if_neg (by omega)]

/-- **The searches are right** on every needle of up to `2^31` bytes; on a longer one, as long as
the entries of the tables, which are then cut, lead past no occurrence. -/
theorem zendMemnstr_zendMemnrstr_iff (hlen : 1 ≤ needle.length) :
    FindsLeftmost haystack needle ∧ FindsRightmost haystack needle ↔
      needle.length ≤ 2147483648 ∨ haystack.length < needle.length ∨
      Safe (hitForwards haystack needle) (skipForwards haystack needle)
        (haystack.length - needle.length) ∧
      Safe (hitBackwards haystack needle) (skipBackwards haystack needle)
        (haystack.length - needle.length) := by
  rcases Nat.lt_or_ge 2147483648 needle.length with hbig | hmax
  · rcases Nat.lt_or_ge haystack.length needle.length with hlt | hle
    · refine iff_of_true ⟨⟨none, ?_, ?_⟩, none, ?_, ?_⟩ (.inr (.inl hlt))
      · rw [zendMemnstr, if_neg (by omega), if_pos hlt]
      · exact fun q hocc => absurd hocc.1 (by omega)
      · rw [zendMemnrstr, if_neg (by omega), if_pos hlt]
      · exact fun q hocc => absurd hocc.1 (by omega)
    · rw [← zendMemnstrEx_iff hlen hle, ← zendMemnrstrEx_iff hlen hle]
      unfold FindsLeftmost FindsRightmost
      rw [zendMemnstr_of_lt hbig hle, zendMemnrstr_of_lt hbig hle]
      exact ⟨fun h => .inr (.inr h), fun h => (h.resolve_left (by omega)).resolve_left (by omega)⟩
  · exact iff_of_true ⟨findsLeftmost_of_le hlen hmax, findsRightmost_of_le hlen hmax⟩ (.inl hmax)

theorem zendMemnstr_zendMemnrstr_iff_cab :
    FindsLeftmost (Bytes.ascii "abcabcab") (Bytes.ascii "cab") ∧
    FindsRightmost (Bytes.ascii "abcabcab") (Bytes.ascii "cab") :=
  (zendMemnstr_zendMemnrstr_iff (by decide)).mpr (.inl (by decide))

/-! ## A needle that the table of the way back leaves out -/

theorem zendMemnrstr_replicate (hbig : 2147483648 < n) (hmax : n < 4294967295) (a b : UInt8)
    (hne : a ≠ b) :
    zendMemnrstr (List.replicate n a ++ [b]) (List.replicate n a) = .ok none := by
  obtain ⟨needle, hneedle⟩ : ∃ needle, needle = List.replicate n a := ⟨_, rfl⟩
  obtain ⟨haystack, hhaystack⟩ : ∃ haystack, haystack = needle ++ [b] := ⟨_, rfl⟩
  have hlen : needle.length = n := by rw [hneedle, length_replicate]
  have hlen' : haystack.length = n + 1 := by rw [hhaystack, length_append, hlen]; rfl
  rw [← hneedle, ← hhaystack, zendMemnrstr_of_lt (by omega) (by omega), zendMemnrstrEx,
    if_neg (by omega), memnrstrExLoop_eq _ (by omega) (by omega)]
  have hhit : ¬hitBackwards haystack needle (haystack.length - needle.length) = true := by
    intro hhit
    have hend := (of_decide_eq_true hhit).getElem? (show n - 1 < needle.length by omega)
    have hb : haystack[haystack.length - needle.length + (n - 1)]? = some b := by
      rw [show haystack.length - needle.length + (n - 1) = n by omega, hhaystack,
        List.getElem?_append_right (by omega), hlen, Nat.sub_self]
      rfl
    have ha : needle[n - 1]? = some a := by
      rw [hneedle, List.getElem?_replicate, if_pos (by omega)]
    rw [hb, ha] at hend
    exact hne (some.inj hend).symm
  have hskip : skipBackwards haystack needle (haystack.length - needle.length) = n + 1 := by
    -- the `int` is negative from the beginning
    have hempty : reverseIndices needle.length = [] := by
      unfold reverseIndices
      rw [hlen, if_neg (by omega)]
    unfold skipBackwards zendMemnstrExPre
    rw [if_pos rfl, hempty, hlen]
    exact toNat_ofNat (by omega)
  rw [descend, if_neg hhit, if_neg (by omega), hskip, if_neg (by omega)]
  rfl

/-- `2^31 + 1` times one byte, in a text with one more byte. -/
theorem not_findsRightmost_replicate :
    ¬∀ haystack needle : Bytes, 1 ≤ needle.length →
      FindsLeftmost haystack needle ∧ FindsRightmost haystack needle := by
  intro h
  obtain ⟨res, hres, hright⟩ := (h (List.replicate 2147483649 97 ++ [98])
    (List.replicate 2147483649 97) (by rw [length_replicate]; decide)).2
  rw [zendMemnrstr_replicate (by decide) (by decide) 97 98 (by decide)] at hres
  obtain rfl := Except.ok.inj hres
  refine hright 0 ⟨?_, ?_⟩
  · rw [length_append]
    omega
  · rw [drop_zero, take_left]

end Phpce
