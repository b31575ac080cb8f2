import Phpce.Lib.BitString
import Phpce.Lib.Buffer

/-!
# Base64

`php_base64_encode` and `php_base64_decode_ex`. The decoder counts the characters of the alphabet
and the pad characters in an `int` each; a count beyond `INT_MAX` has no meaning in C.

* `base64_iff`: which strings come back, and which texts the strict mode decodes by its grammar.
-/

namespace Phpce

namespace Base64

open Bytes Buffer List

def base64Table : Bytes := ascii "ABCDEFGHIJKLMNOPQRSTUVWXYZabcdefghijklmnopqrstuvwxyz0123456789+/"

/-- `'='`. -/
def base64Pad : UInt8 := 61

/-- The upper half of the table has no characters. -/
def base64ReverseTable : List Int :=
  [-2, -2, -2, -2, -2, -2, -2, -2, -2, -1, -1, -2, -2, -1, -2, -2,
   -2, -2, -2, -2, -2, -2, -2, -2, -2, -2, -2, -2, -2, -2, -2, -2,
   -1, -2, -2, -2, -2, -2, -2, -2, -2, -2, -2, 62, -2, -2, -2, 63,
   52, 53, 54, 55, 56, 57, 58, 59, 60, 61, -2, -2, -2, -2, -2, -2,
   -2,  0,  1,  2,  3,  4,  5,  6,  7,  8,  9, 10, 11, 12, 13, 14,
   15, 16, 17, 18, 19, 20, 21, 22, 23, 24, 25, -2, -2, -2, -2, -2,
   -2, 26, 27, 28, 29, 30, 31, 32, 33, 34, 35, 36, 37, 38, 39, 40,
   41, 42, 43, 44, 45, 46, 47, 48, 49, 50, 51, -2, -2, -2, -2, -2] ++
  replicate 128 (-2)

def tableAt (v : UInt8) : UInt8 := base64Table.getD v.toNat 0

/-- `base64_reverse_table[c]`. -/
def reverseAt (c : UInt8) : Int := base64ReverseTable.getD c.toNat (-2)

/-- `php_base64_encode`. -/
def phpBase64Encode : Bytes → Bytes
  | a :: b :: c :: s =>
    tableAt (a >>> 2) :: tableAt (((a &&& 0x03) <<< 4) + (b >>> 4)) ::
      tableAt (((b &&& 0x0f) <<< 2) + (c >>> 6)) :: tableAt (c &&& 0x3f) :: phpBase64Encode s
  | [a, b] =>
    [tableAt (a >>> 2), tableAt (((a &&& 0x03) <<< 4) + (b >>> 4)), tableAt ((b &&& 0x0f) <<< 2),
      base64Pad]
  | [a] => [tableAt (a >>> 2), tableAt ((a &&& 0x03) <<< 4), base64Pad, base64Pad]
  | [] => []

def INT_MAX : Nat := 0x7FFFFFFF

/-- What a step of the decoder comes to: `overflow` is an `int` beyond `INT_MAX`. -/
inductive Outcome (α : Type*) where
  | ok (a : α)
  | fail
  | overflow

/-- The variables of `php_base64_decode_ex`. -/
structure Decoder where
  i : Nat
  j : Nat
  padding : Nat
  result : Nat → UInt8

/-- The `switch` on `i % 4`. -/
def store4 (d : Decoder) (ch : UInt8) : Decoder :=
  match d.i % 4 with
  | 0 => { d with result := store d.result d.j [ch <<< 2] }
  | 1 =>
    { d with
      j := d.j + 1
      result := store d.result d.j [d.result d.j ||| ch >>> 4, (ch &&& 0x0f) <<< 4] }
  | 2 =>
    { d with
      j := d.j + 1
      result := store d.result d.j [d.result d.j ||| ch >>> 2, (ch &&& 0x03) <<< 6] }
  | _ => { d with j := d.j + 1, result := store d.result d.j [d.result d.j ||| ch] }

/-- A round of the loop. -/
def decodeChar (strict : Bool) (d : Decoder) (c : UInt8) : Outcome Decoder :=
  if c = base64Pad then
    if d.padding = INT_MAX then .overflow else .ok { d with padding := d.padding + 1 }
  else
    let ch := reverseAt c
    if strict = false ∧ ch < 0 then .ok d
    else if strict = true ∧ ch = -1 then .ok d
    else if strict = true ∧ (ch = -2 ∨ d.padding ≠ 0) then .fail
    else
      let d := store4 d (UInt8.ofInt ch)
      if d.i = INT_MAX ∨ d.j > INT_MAX then .overflow else .ok { d with i := d.i + 1 }

def decodeLoop (strict : Bool) (d : Decoder) : Bytes → Outcome Decoder
  | [] => .ok d
  | c :: s =>
    match decodeChar strict d c with
    | .ok d => decodeLoop strict d s
    | .fail => .fail
    | .overflow => .overflow

/-- The tests behind the loop, and the string that is returned. -/
def finish (strict : Bool) (d : Decoder) : Outcome Bytes :=
  if strict = true ∧ d.i % 4 = 1 then .fail
  else if strict = true ∧ d.padding ≠ 0 then
    if d.padding > 2 then .fail
    else if d.i + d.padding > INT_MAX then .overflow
    else if (d.i + d.padding) % 4 ≠ 0 then .fail
    else .ok (slice d.result 0 d.j)
  else .ok (slice d.result 0 d.j)

/-- `php_base64_decode_ex`; `garbage` is what the new string holds at first. -/
def phpBase64DecodeEx (garbage : Nat → UInt8) (s : Bytes) (strict : Bool) : Outcome Bytes :=
  match decodeLoop strict ⟨0, 0, 0, garbage⟩ s with
  | .ok d => finish strict d
  | .fail => .fail
  | .overflow => .overflow

/-! ## The alphabet -/

def inAlphabet (c : UInt8) : Bool := 0 ≤ reverseAt c

def isSpace (c : UInt8) : Bool := reverseAt c = -1

/-- The six bits that a character of the alphabet stands for. -/
def valueOf (c : UInt8) : UInt8 := UInt8.ofInt (reverseAt c)

theorem reverseAt_cases (c : UInt8) :
    reverseAt c = -2 ∨ reverseAt c = -1 ∨ 0 ≤ reverseAt c ∧ (valueOf c).toNat < 64 := by
  have htable : ∀ z ∈ base64ReverseTable, z = -2 ∨ z = -1 ∨ 0 ≤ z ∧ (UInt8.ofInt z).toNat < 64 := by
    have hall : (base64ReverseTable.all fun z =>
        decide (z = -2 ∨ z = -1 ∨ 0 ≤ z ∧ (UInt8.ofInt z).toNat < 64)) = true := by
      decide +kernel
    exact fun z hz => of_decide_eq_true (List.all_eq_true.mp hall z hz)
  have hlength : base64ReverseTable.length = 256 := by decide +kernel
  have hlt : c.toNat < base64ReverseTable.length := hlength ▸ c.toNat_lt
  refine htable (reverseAt c) ?_
  rw [reverseAt, getD_eq_getElem?_getD, List.getElem?_eq_getElem hlt]
  exact getElem_mem hlt

theorem valueOf_lt {c : UInt8} (h : inAlphabet c = true) : (valueOf c).toNat < 64 := by
  have hnonneg : 0 ≤ reverseAt c := of_decide_eq_true h
  rcases reverseAt_cases c with h | h | ⟨-, h⟩
  · omega
  · omega
  · exact h

theorem tableAt_spec {v : UInt8} (h : v.toNat < 64) :
    inAlphabet (tableAt v) = true ∧ valueOf (tableAt v) = v := by
  have htable : ((List.range 64).all fun n =>
      inAlphabet (tableAt (UInt8.ofNat n)) && valueOf (tableAt (UInt8.ofNat n)) == UInt8.ofNat n) =
      true := by
    decide
  have hv := List.all_eq_true.mp htable v.toNat (mem_range.mpr h)
  rw [UInt8.ofNat_toNat, Bool.and_eq_true, beq_iff_eq] at hv
  exact hv

/-! ## Sextets and octets -/

theorem forall_below {p : UInt8 → UInt8 → Bool} {k l : Nat}
    (h : ((List.range k).all fun m => (List.range l).all fun n =>
      p (UInt8.ofNat m) (UInt8.ofNat n)) = true) {a b : UInt8} (ha : a.toNat < k)
    (hb : b.toNat < l) : p a b = true := by
  have hm := List.all_eq_true.mp h a.toNat (mem_range.mpr ha)
  have hn := List.all_eq_true.mp hm b.toNat (mem_range.mpr hb)
  rwa [UInt8.ofNat_toNat, UInt8.ofNat_toNat] at hn

/-- The bytes that the values of characters come to, and the byte that is not full. -/
def regroup : Bytes → Bytes × Bytes
  | a :: b :: c :: d :: vs =>
    ((a <<< 2 ||| b >>> 4) :: ((b &&& 0x0f) <<< 4 ||| c >>> 2) :: ((c &&& 0x03) <<< 6 ||| d) ::
      (regroup vs).1, (regroup vs).2)
  | [a, b, c] => ([a <<< 2 ||| b >>> 4, (b &&& 0x0f) <<< 4 ||| c >>> 2], [(c &&& 0x03) <<< 6])
  | [a, b] => ([a <<< 2 ||| b >>> 4], [(b &&& 0x0f) <<< 4])
  | [a] => ([], [a <<< 2])
  | [] => ([], [])

theorem bits₂₄ (v : UInt8) : bits 6 v = bits 2 (v >>> 4) ++ bits 4 (v &&& 0x0f) :=
  bits_add 2 v (show 4 < 8 by decide)

theorem bits₄₂ (v : UInt8) : bits 6 v = bits 4 (v >>> 2) ++ bits 2 (v &&& 0x03) :=
  bits_add 4 v (show 2 < 8 by decide)

theorem toNat_shiftRight_lt {v : UInt8} {k n : Nat} (hv : v.toNat < k * 2 ^ n) (hn : n < 8) :
    (v >>> UInt8.ofNat n).toNat < k := by
  rw [toNat_shiftRight_ofNat v hn, Nat.shiftRight_eq_div_pow]
  exact Nat.div_lt_of_lt_mul (Nat.mul_comm k _ ▸ hv)

theorem toNat_and_lt (v m : UInt8) : (v &&& m).toNat < m.toNat + 1 := by
  rw [UInt8.toNat_and]
  exact Nat.lt_succ_of_le Nat.and_le_right

theorem octet_first {a b : UInt8} (ha : a.toNat < 64) (hb : b.toNat < 64) :
    octet (bits 6 a ++ (bits 6 b).take 2) = a <<< 2 ||| b >>> 4 := by
  have hlt : (b >>> 4).toNat < 4 := toNat_shiftRight_lt (k := 4) (n := 4) hb (by decide)
  have htable := forall_below (p := fun a q => octet (bits 6 a ++ bits 2 q) == a <<< 2 ||| q)
    (show _ = true by decide) ha hlt
  rw [bits₂₄ b]
  exact eq_of_beq htable

theorem octet_second {c : UInt8} (b : UInt8) (hc : c.toNat < 64) :
    octet ((bits 6 b).drop 2 ++ (bits 6 c).take 4) = (b &&& 0x0f) <<< 4 ||| c >>> 2 := by
  have hlt : (c >>> 2).toNat < 16 := toNat_shiftRight_lt (k := 16) (n := 2) hc (by decide)
  have htable := forall_below (p := fun q r => octet (bits 4 q ++ bits 4 r) == q <<< 4 ||| r)
    (show _ = true by decide) (toNat_and_lt b 0x0f) hlt
  rw [bits₂₄ b, bits₄₂ c]
  exact eq_of_beq htable

theorem octet_third {d : UInt8} (c : UInt8) (hd : d.toNat < 64) :
    octet ((bits 6 c).drop 4 ++ bits 6 d) = (c &&& 0x03) <<< 6 ||| d := by
  have htable := forall_below (p := fun q d => octet (bits 2 q ++ bits 6 d) == q <<< 6 ||| d)
    (show _ = true by decide) (toNat_and_lt c 0x03) hd
  rw [bits₄₂ c]
  exact eq_of_beq htable

theorem octets_sextets {vs : Bytes} (h : ∀ v ∈ vs, v.toNat < 64) :
    octets (vs.flatMap (bits 6)) = (regroup vs).1 := by
  -- induction on the groups of four
  fun_induction regroup vs with
  | case1 a b c d vs ih =>
    have ha := h a (by simp)
    have hb := h b (by simp)
    have hc := h c (by simp)
    have hd := h d (by simp)
    rw [← octet_first ha hb, ← octet_second b hc, ← octet_third c hd,
      ← ih fun v hv => h v (by simp [hv])]
    rfl
  | case2 a b c =>
    have ha := h a (by simp)
    have hb := h b (by simp)
    have hc := h c (by simp)
    rw [← octet_first ha hb, ← octet_second b hc]
    rfl
  | case3 a b =>
    rw [← octet_first (h a (by simp)) (h b (by simp))]
    rfl
  | case4 a => rfl
  | case5 => rfl

/-! ## The loop -/

def regroupOne (r : Bytes × Bytes) (k : Nat) (v : UInt8) : Bytes × Bytes :=
  match k with
  | 0 => (r.1, [v <<< 2])
  | 1 => (r.1 ++ [r.2.headD 0 ||| v >>> 4], [(v &&& 0x0f) <<< 4])
  | 2 => (r.1 ++ [r.2.headD 0 ||| v >>> 2], [(v &&& 0x03) <<< 6])
  | _ => (r.1 ++ [r.2.headD 0 ||| v], [])

theorem regroup_append_singleton (vs : Bytes) (v : UInt8) :
    regroup (vs ++ [v]) = regroupOne (regroup vs) (vs.length % 4) v := by
  -- induction on the groups of four
  fun_induction regroup vs with
  | case1 a b c d vs ih =>
    have hmod : (a :: b :: c :: d :: vs).length % 4 = vs.length % 4 := by
      simp only [length_cons]
      omega
    show ((a <<< 2 ||| b >>> 4) :: ((b &&& 0x0f) <<< 4 ||| c >>> 2) :: ((c &&& 0x03) <<< 6 ||| d) ::
      (regroup (vs ++ [v])).1, (regroup (vs ++ [v])).2) = _
    rw [hmod, ih]
    unfold regroupOne
    split <;> rfl
  | case2 a b c => rfl
  | case3 a b => rfl
  | case4 a => rfl
  | case5 => rfl

theorem length_regroup (vs : Bytes) :
    (regroup vs).1.length = 6 * vs.length / 8 ∧
      (regroup vs).2.length = min (vs.length % 4) 1 := by
  fun_induction regroup vs with
  | case1 a b c d vs ih =>
    obtain ⟨hfull, hrest⟩ := ih
    simp only [length_cons]
    refine ⟨by omega, ?_⟩
    rw [hrest, show (vs.length + 1 + 1 + 1 + 1) % 4 = vs.length % 4 from by omega]
  | case2 a b c => simp
  | case3 a b => simp
  | case4 a => simp
  | case5 => simp

/-- The decoder has taken in the values `vs`. -/
structure Taken (d : Decoder) (vs : Bytes) : Prop where
  i : d.i = vs.length
  j : d.j = (regroup vs).1.length
  result : slice d.result 0 (d.j + (regroup vs).2.length) = (regroup vs).1 ++ (regroup vs).2

theorem Taken.decoded {d : Decoder} {vs : Bytes} (h : Taken d vs) :
    slice d.result 0 d.j = (regroup vs).1 := by
  have hresult := h.result
  rw [slice_add] at hresult
  exact (List.append_inj hresult (by rw [length_slice, h.j])).1

theorem Taken.cell {d : Decoder} {vs : Bytes} {t : UInt8} (h : Taken d vs)
    (ht : (regroup vs).2 = [t]) : d.result d.j = t := by
  have hresult := h.result
  rw [slice_add, ht] at hresult
  have hlast := (List.append_inj hresult (by rw [length_slice, h.j])).2
  rw [Nat.zero_add] at hlast
  exact (List.cons.inj hlast).1

theorem taken_start (garbage : Nat → UInt8) : Taken ⟨0, 0, 0, garbage⟩ [] := ⟨rfl, rfl, rfl⟩

theorem Taken.store4 {d : Decoder} {vs : Bytes} (h : Taken d vs) (v : UInt8) :
    (store4 d v).i = d.i ∧ (store4 d v).padding = d.padding ∧
      (store4 d v).j = (regroup (vs ++ [v])).1.length ∧
      slice (store4 d v).result 0 ((store4 d v).j + (regroup (vs ++ [v])).2.length) =
        (regroup (vs ++ [v])).1 ++ (regroup (vs ++ [v])).2 := by
  obtain ⟨-, hlast⟩ := length_regroup vs
  have hdone := h.decoded
  have hj := h.j
  rw [regroup_append_singleton, Base64.store4, h.i]
  -- what is stored from `j` on stands behind what has been decoded
  have hstore : ∀ bs : Bytes, slice (store d.result d.j bs) 0 (d.j + bs.length) =
      (regroup vs).1 ++ bs := by
    intro bs
    have happend := slice_store_append d.result 0 d.j bs
    rw [Nat.zero_add] at happend
    rw [happend, hdone]
  rcases (by omega : vs.length % 4 = 0 ∨ vs.length % 4 = 1 ∨ vs.length % 4 = 2 ∨
    vs.length % 4 = 3) with hmod | hmod | hmod | hmod
  · rw [hmod]
    exact ⟨rfl, rfl, hj, hstore [v <<< 2]⟩
  all_goals
    rw [hmod] at hlast ⊢
    obtain ⟨t, ht⟩ := length_eq_one_iff.mp hlast
    have hcell := h.cell ht
    have hlen : ∀ x, d.j + 1 = ((regroup vs).1 ++ [x]).length := fun x => by
      rw [length_append, length_singleton, hj]
    have hpair : ∀ x y, slice (store d.result d.j [x, y]) 0 (d.j + 1 + 1) =
        (regroup vs).1 ++ [x] ++ [y] := fun x y => by
      rw [append_assoc]
      exact hstore [x, y]
    unfold regroupOne
    rw [ht, headD_cons]
  · exact ⟨rfl, rfl, hlen _, hcell ▸ hpair _ _⟩
  · exact ⟨rfl, rfl, hlen _, hcell ▸ hpair _ _⟩
  · refine ⟨rfl, rfl, hlen _, ?_⟩
    show slice (store d.result d.j [d.result d.j ||| v]) 0 (d.j + 1) =
      (regroup vs).1 ++ [t ||| v] ++ []
    rw [append_nil, hcell]
    exact hstore [t ||| v]

/-! ## Where the decoder stops -/

/-- What the decoder reads of a text, up to the character that makes it fail; `padded` is whether
there has been a pad character. -/
def readable (strict : Bool) : Bool → Bytes → Bytes
  | _, [] => []
  | padded, c :: s =>
    if c = base64Pad then c :: readable strict true s
    else if inAlphabet c = false ∧ (strict = false ∨ isSpace c = true) then
      c :: readable strict padded s
    else if strict = true ∧ (inAlphabet c = false ∨ padded = true) then []
    else c :: readable strict padded s

def letters (s : Bytes) : Bytes := s.filter inAlphabet

def pads (s : Bytes) : Nat := s.count base64Pad

def valuesOf (s : Bytes) : Bytes := (letters s).map valueOf

/-- How the loop ends, where it has taken in `vs` and seen `padding` pad characters. -/
def Ends (strict : Bool) (vs : Bytes) (padding : Nat) (s : Bytes) (out : Outcome Decoder) : Prop :=
  let u := readable strict (padding != 0) s
  if vs.length + (letters u).length > INT_MAX ∨ padding + pads u > INT_MAX then out = .overflow
  else if u = s then
    ∃ d, out = .ok d ∧ Taken d (vs ++ valuesOf u) ∧ d.padding = padding + pads u
  else out = .fail

variable {strict padded : Bool} {vs vs' s : Bytes} {padding padding' : Nat} {c : UInt8}
  {d : Decoder} {out : Outcome Decoder}

theorem letters_cons_of_pos (h : inAlphabet c = true) : letters (c :: s) = c :: letters s :=
  filter_cons_of_pos h

theorem letters_cons_of_neg (h : inAlphabet c = false) : letters (c :: s) = letters s :=
  filter_cons_of_neg (by rw [h]; exact Bool.false_ne_true)

theorem pads_cons_self : pads (base64Pad :: s) = pads s + 1 := count_cons_self

theorem pads_cons_of_ne (h : c ≠ base64Pad) : pads (c :: s) = pads s :=
  count_cons_of_ne h

theorem ne_pad_of_inAlphabet (h : inAlphabet c = true) : c ≠ base64Pad := by
  rintro rfl
  exact absurd h (by decide)

theorem inAlphabet_eq_false_iff : inAlphabet c = false ↔ reverseAt c < 0 := by
  rw [inAlphabet, decide_eq_false_iff_not, Int.not_le]

/-! A character is a pad character, or skipped, or makes the decoder fail, or is taken in. -/

theorem readable_pad :
    readable strict padded (base64Pad :: s) = base64Pad :: readable strict true s :=
  if_pos rfl

theorem readable_skip (hpad : c ≠ base64Pad) (hnot : inAlphabet c = false)
    (hskip : strict = false ∨ isSpace c = true) :
    readable strict padded (c :: s) = c :: readable strict padded s := by
  rw [readable, if_neg hpad]
  exact if_pos ⟨hnot, hskip⟩

theorem readable_fail (hpad : c ≠ base64Pad)
    (hskip : ¬(inAlphabet c = false ∧ (strict = false ∨ isSpace c = true)))
    (hstrict : strict = true) (hbad : inAlphabet c = false ∨ padded = true) :
    readable strict padded (c :: s) = [] := by
  rw [readable, if_neg hpad]
  exact (if_neg hskip).trans (if_pos ⟨hstrict, hbad⟩)

theorem readable_letter (halpha : inAlphabet c = true) (hgood : strict = false ∨ padded = false) :
    readable strict padded (c :: s) = c :: readable strict padded s := by
  rw [readable, if_neg (ne_pad_of_inAlphabet halpha)]
  refine (if_neg fun h => ?_).trans (if_neg fun h => ?_)
  · rw [halpha] at h
    exact Bool.noConfusion h.1
  · obtain ⟨rfl, hbad⟩ := h
    rcases hgood with hgood | rfl
    · cases hgood
    · rcases hbad with hbad | hbad
      · rw [halpha] at hbad
        cases hbad
      · cases hbad

theorem decodeChar_pad :
    decodeChar strict d base64Pad =
      if d.padding = INT_MAX then .overflow else .ok { d with padding := d.padding + 1 } :=
  if_pos rfl

theorem decodeChar_skip (hpad : c ≠ base64Pad) (hnot : inAlphabet c = false)
    (hskip : strict = false ∨ isSpace c = true) : decodeChar strict d c = .ok d := by
  rw [decodeChar, if_neg hpad]
  cases strict with
  | false => exact if_pos ⟨rfl, inAlphabet_eq_false_iff.mp hnot⟩
  | true =>
    have hspace : reverseAt c = -1 := of_decide_eq_true (hskip.resolve_left (by decide))
    exact (if_neg fun h => Bool.noConfusion h.1).trans (if_pos ⟨rfl, hspace⟩)

theorem decodeChar_fail (hpad : c ≠ base64Pad)
    (hskip : ¬(inAlphabet c = false ∧ (strict = false ∨ isSpace c = true)))
    (hstrict : strict = true) (hbad : inAlphabet c = false ∨ d.padding ≠ 0) :
    decodeChar strict d c = .fail := by
  subst hstrict
  have hspace : reverseAt c ≠ -1 := fun h =>
    hskip ⟨inAlphabet_eq_false_iff.mpr (by omega), .inr (decide_eq_true h)⟩
  have hstop : reverseAt c = -2 ∨ d.padding ≠ 0 := by
    refine hbad.imp_left fun hnot => ?_
    have hneg := inAlphabet_eq_false_iff.mp hnot
    rcases reverseAt_cases c with h | h | ⟨h, -⟩
    · exact h
    · exact absurd h hspace
    · omega
  rw [decodeChar, if_neg hpad]
  exact (if_neg fun h => Bool.noConfusion h.1).trans
    ((if_neg fun h => hspace h.2).trans (if_pos ⟨rfl, hstop⟩))

theorem decodeChar_letter (halpha : inAlphabet c = true) (hgood : strict = false ∨ d.padding = 0) :
    decodeChar strict d c =
      if (store4 d (valueOf c)).i = INT_MAX ∨ (store4 d (valueOf c)).j > INT_MAX then .overflow
      else .ok { store4 d (valueOf c) with i := (store4 d (valueOf c)).i + 1 } := by
  have hnonneg : 0 ≤ reverseAt c := of_decide_eq_true halpha
  rw [decodeChar, if_neg (ne_pad_of_inAlphabet halpha)]
  refine (if_neg fun h => ?_).trans ((if_neg fun h => ?_).trans (if_neg fun h => ?_))
  · have hneg := h.2
    omega
  · have hspace := h.2
    omega
  · obtain ⟨rfl, hbad⟩ := h
    rcases hbad with hbad | hbad
    · omega
    · exact hbad (hgood.resolve_left (by decide))

theorem Ends.cons
    (hread : readable strict (padding != 0) (c :: s) = c :: readable strict (padding' != 0) s)
    (hcount : ∀ u, vs.length + (letters (c :: u)).length = vs'.length + (letters u).length)
    (hpads : ∀ u, padding + pads (c :: u) = padding' + pads u)
    (hvalues : ∀ u, vs ++ valuesOf (c :: u) = vs' ++ valuesOf u)
    (h : Ends strict vs' padding' s out) : Ends strict vs padding (c :: s) out := by
  unfold Ends at h ⊢
  dsimp only at h ⊢
  rw [hread, hcount, hpads, hvalues]
  simp only [List.cons.injEq, true_and]
  exact h

theorem ends_of_overflow (hover : vs.length + (letters (readable strict (padding != 0) s)).length >
    INT_MAX ∨ padding + pads (readable strict (padding != 0) s) > INT_MAX) :
    Ends strict vs padding s .overflow := by
  unfold Ends
  exact if_pos hover ▸ rfl

theorem decodeLoop_ends (htaken : Taken d vs) (hi : vs.length ≤ INT_MAX)
    (hpadding : d.padding ≤ INT_MAX) :
    Ends strict vs d.padding s (decodeLoop strict d s) := by
  -- induction on what is still to be read
  induction s generalizing d vs with
  | nil =>
    have hnone : ¬(vs.length + 0 > INT_MAX ∨ d.padding + 0 > INT_MAX) := by omega
    unfold Ends
    refine (if_neg hnone).mpr ((if_pos rfl).mpr ⟨d, rfl, ?_, rfl⟩)
    show Taken d (vs ++ [])
    rw [append_nil]
    exact htaken
  | cons c s ih =>
    rw [decodeLoop]
    by_cases hpad : c = base64Pad
    · subst hpad
      rw [decodeChar_pad]
      by_cases hfull : d.padding = INT_MAX
      · rw [if_pos hfull]
        refine ends_of_overflow (.inr ?_)
        rw [readable_pad, pads_cons_self]
        omega
      · rw [if_neg hfull]
        have hrest := @ih vs { d with padding := d.padding + 1 } ⟨htaken.i, htaken.j, htaken.result⟩
          hi (show d.padding + 1 ≤ INT_MAX by omega)
        refine Ends.cons (readable_pad.trans ?_) (fun u => ?_) (fun u => ?_) (fun u => ?_) hrest
        · rw [show (d.padding + 1 != 0) = true from rfl]
        · rw [letters_cons_of_neg (by decide)]
        · rw [pads_cons_self]
          show d.padding + (pads u + 1) = d.padding + 1 + pads u
          omega
        · rw [valuesOf, letters_cons_of_neg (by decide)]
          rfl
    · by_cases hskip : inAlphabet c = false ∧ (strict = false ∨ isSpace c = true)
      · obtain ⟨hnot, hmode⟩ := hskip
        rw [decodeChar_skip hpad hnot hmode]
        refine Ends.cons (readable_skip hpad hnot hmode) (fun u => ?_) (fun u => ?_) (fun u => ?_)
          (ih htaken hi hpadding)
        · rw [letters_cons_of_neg hnot]
        · rw [pads_cons_of_ne hpad]
        · rw [valuesOf, letters_cons_of_neg hnot]
          rfl
      · by_cases hfail : strict = true ∧ (inAlphabet c = false ∨ d.padding ≠ 0)
        · obtain ⟨hstrict, hbad⟩ := hfail
          rw [decodeChar_fail hpad hskip hstrict hbad]
          unfold Ends
          rw [readable_fail hpad hskip hstrict (hbad.imp_right fun h => bne_iff_ne.mpr h)]
          have hnone : ¬(vs.length + 0 > INT_MAX ∨ d.padding + 0 > INT_MAX) := by omega
          exact (if_neg hnone).mpr ((if_neg (by simp)).mpr rfl)
        · obtain ⟨halpha, hgood⟩ : inAlphabet c = true ∧ (strict = false ∨ d.padding = 0) := by
            cases strict with
            | false => exact ⟨eq_true_of_ne_false fun h => hskip ⟨h, .inl rfl⟩, .inl rfl⟩
            | true =>
              obtain ⟨halpha, hzero⟩ := not_or.mp fun h => hfail ⟨rfl, h⟩
              exact ⟨eq_true_of_ne_false halpha, .inr (Nat.eq_zero_of_not_pos fun h =>
                hzero (Nat.ne_of_gt h))⟩
          have hread : readable strict (d.padding != 0) (c :: s) =
              c :: readable strict (d.padding != 0) s := by
            refine readable_letter halpha (hgood.imp_right fun h => ?_)
            rw [h]
            rfl
          obtain ⟨hsame, hkept, hj, hresult⟩ := htaken.store4 (valueOf c)
          have hlength : (vs ++ [valueOf c]).length = vs.length + 1 := by
            rw [length_append, length_singleton]
          rw [decodeChar_letter halpha hgood]
          by_cases hfull : vs.length = INT_MAX
          · rw [if_pos (.inl (hsame.trans (htaken.i.trans hfull)))]
            refine ends_of_overflow (.inl ?_)
            rw [hread, letters_cons_of_pos halpha, length_cons]
            omega
          · have hfits : ¬((store4 d (valueOf c)).i = INT_MAX ∨
                (store4 d (valueOf c)).j > INT_MAX) := by
              obtain ⟨hdecoded, -⟩ := length_regroup (vs ++ [valueOf c])
              rw [hsame, hj, hdecoded, hlength, htaken.i]
              omega
            rw [if_neg hfits]
            have htaken' : Taken { store4 d (valueOf c) with i := (store4 d (valueOf c)).i + 1 }
                (vs ++ [valueOf c]) := by
              refine ⟨?_, hj, hresult⟩
              show (store4 d (valueOf c)).i + 1 = _
              rw [hsame, htaken.i, hlength]
            have hrest := ih htaken' (by omega) (show (store4 d (valueOf c)).padding ≤ INT_MAX by
              rw [hkept]; exact hpadding)
            rw [show ({ store4 d (valueOf c) with i := (store4 d (valueOf c)).i + 1 } :
              Decoder).padding = d.padding from hkept] at hrest
            refine Ends.cons hread (fun u => ?_) (fun u => ?_) (fun u => ?_) hrest
            · rw [letters_cons_of_pos halpha, length_cons, hlength]
              omega
            · rw [pads_cons_of_ne hpad]
            · rw [valuesOf, letters_cons_of_pos halpha, map_cons, append_assoc]
              rfl

/-! ## The whole decoder -/

/-- A text that is read to its end in the strict mode. -/
def Complete (s : Bytes) : Prop := readable true false s = s

theorem complete_of_not_strict (s : Bytes) (padded : Bool) : readable false padded s = s := by
  -- induction on the text
  induction s generalizing padded with
  | nil => rfl
  | cons c s ih =>
    by_cases hpad : c = base64Pad
    · subst hpad
      rw [readable_pad, ih]
    · cases halpha : inAlphabet c with
      | true => rw [readable_letter halpha (.inl rfl), ih]
      | false => rw [readable_skip hpad halpha (.inl rfl), ih]

theorem finish_false (d : Decoder) : finish false d = .ok (slice d.result 0 d.j) := by
  rw [finish]
  exact (if_neg fun h => Bool.noConfusion h.1).trans (if_neg fun h => Bool.noConfusion h.1)

/-- The bytes that a text's characters of the alphabet stand for. -/
def bitString (s : Bytes) : List Bool := (letters s).flatMap fun c => bits 6 (valueOf c)

theorem octets_bitString (s : Bytes) : octets (bitString s) = (regroup (valuesOf s)).1 := by
  rw [← octets_sextets, bitString, valuesOf, flatMap_map]
  intro v hv
  obtain ⟨c, hc, rfl⟩ := List.mem_map.mp hv
  exact valueOf_lt (mem_filter.mp hc).2

variable (garbage : Nat → UInt8)

theorem decodeEx_of_not_strict (hletters : (letters s).length ≤ INT_MAX)
    (hpads : pads s ≤ INT_MAX) :
    phpBase64DecodeEx garbage s false = .ok (octets (bitString s)) := by
  have hends : Ends false [] 0 s (decodeLoop false ⟨0, 0, 0, garbage⟩ s) :=
    decodeLoop_ends (taken_start garbage) (Nat.zero_le _) (Nat.zero_le _)
  unfold Ends at hends
  rw [show readable false (0 != 0) s = s from complete_of_not_strict s _] at hends
  dsimp only at hends
  rw [if_neg (by rw [length_nil]; omega), if_pos rfl] at hends
  obtain ⟨d, hloop, htaken, -⟩ := hends
  rw [phpBase64DecodeEx, hloop]
  dsimp only
  rw [finish_false, htaken.decoded, nil_append, octets_bitString]

def solid (s : Bytes) : Bytes := s.filter fun c => !isSpace c

theorem not_isSpace_of_inAlphabet (h : inAlphabet c = true) : isSpace c = false := by
  have hnonneg : 0 ≤ reverseAt c := of_decide_eq_true h
  refine decide_eq_false fun hspace => ?_
  omega

theorem inAlphabet_of_mem_letters (h : c ∈ letters s) : inAlphabet c = true :=
  (mem_filter.mp h).2

/-- **What is read to its end** is, without its whitespace, characters of the alphabet and then pad
characters. -/
theorem readable_eq_self_iff (padded : Bool) (s : Bytes) :
    readable true padded s = s ↔
      solid s = letters s ++ replicate (pads s) base64Pad ∧
        (padded = true → letters s = []) := by
  -- induction on the text
  induction s generalizing padded with
  | nil => exact ⟨fun _ => ⟨rfl, fun _ => rfl⟩, fun _ => rfl⟩
  | cons c s ih =>
    by_cases hpad : c = base64Pad
    · subst hpad
      have hsolid : solid (base64Pad :: s) = base64Pad :: solid s :=
        filter_cons_of_pos (by decide)
      rw [readable_pad, List.cons.injEq, ih, hsolid, letters_cons_of_neg (by decide),
        pads_cons_self, replicate_succ]
      constructor
      · rintro ⟨-, heq, hnone⟩
        rw [hnone rfl] at heq ⊢
        exact ⟨congrArg (base64Pad :: ·) heq, fun _ => rfl⟩
      · rintro ⟨heq, -⟩
        -- the pad character does not begin with a character of the alphabet
        have hnone : letters s = [] := by
          cases hletters : letters s with
          | nil => rfl
          | cons x xs =>
            rw [hletters] at heq
            have hx := inAlphabet_of_mem_letters (hletters ▸ mem_cons_self : x ∈ letters s)
            exact absurd (List.cons.inj heq).1.symm (ne_pad_of_inAlphabet hx)
        rw [hnone] at heq ⊢
        exact ⟨rfl, (List.cons.inj heq).2, fun _ => rfl⟩
    · rw [pads_cons_of_ne hpad]
      cases halpha : inAlphabet c with
      | true =>
        have hsolid : solid (c :: s) = c :: solid s :=
          filter_cons_of_pos (by rw [not_isSpace_of_inAlphabet halpha]; rfl)
        rw [hsolid, letters_cons_of_pos halpha, cons_append, List.cons.injEq]
        cases padded with
        | false =>
          rw [readable_letter halpha (.inr rfl), List.cons.injEq, ih]
          simp
        | true =>
          rw [readable_fail hpad (fun h => by rw [halpha] at h; cases h.1) rfl (.inr rfl)]
          simp
      | false =>
        rw [letters_cons_of_neg halpha]
        cases hspace : isSpace c with
        | true =>
          have hsolid : solid (c :: s) = solid s :=
            filter_cons_of_neg (by rw [hspace]; exact Bool.false_ne_true)
          rw [readable_skip hpad halpha (.inr hspace), List.cons.injEq, ih, hsolid]
          simp
        | false =>
          have hsolid : solid (c :: s) = c :: solid s :=
            filter_cons_of_pos (by rw [hspace]; rfl)
          rw [readable_fail hpad (fun h => by
            rcases h.2 with hmode | hmode
            · cases hmode
            · rw [hspace] at hmode
              cases hmode) rfl (.inl halpha), hsolid]
          refine ⟨fun h => absurd h.symm (cons_ne_nil c s), fun ⟨heq, _⟩ => ?_⟩
          have hmem : c ∈ letters s ++ replicate (pads s) base64Pad := heq ▸ mem_cons_self
          rcases mem_append.mp hmem with hmem | hmem
          · rw [inAlphabet_of_mem_letters hmem] at halpha
            cases halpha
          · exact absurd (eq_of_mem_replicate hmem) hpad

/-- The grammar of the strict mode: the characters `as` of the alphabet and `p` pad characters, with
whitespace anywhere. -/
structure Grammar (s as : Bytes) (p : Nat) : Prop where
  solid : solid s = as ++ replicate p base64Pad
  letters : ∀ c ∈ as, inAlphabet c = true
  whole : as.length % 4 ≠ 1
  padded : p = 0 ∨ p ≤ 2 ∧ (as.length + p) % 4 = 0

theorem counts_of_solid {as : Bytes} {p : Nat} (h : solid s = as ++ replicate p base64Pad)
    (hletters : ∀ c ∈ as, inAlphabet c = true) : letters s = as ∧ pads s = p := by
  have hsolid : letters (solid s) = letters s := by
    rw [letters, solid, List.filter_filter]
    refine filter_congr fun c _ => ?_
    cases halpha : inAlphabet c with
    | true => rw [not_isSpace_of_inAlphabet halpha]; rfl
    | false => rfl
  have hpads : pads (solid s) = pads s := count_filter (by decide)
  rw [← hsolid, ← hpads, h]
  constructor
  · rw [letters, filter_append, filter_eq_self.mpr hletters,
      filter_eq_nil_iff.mpr fun c hc => ?_, append_nil]
    rw [eq_of_mem_replicate hc]
    decide
  · rw [pads, count_append, count_replicate_self,
      count_eq_zero_of_not_mem fun hmem => ?_, Nat.zero_add]
    exact ne_pad_of_inAlphabet (hletters _ hmem) rfl

/-- What the tests of the strict mode come to. -/
structure Accepted (s : Bytes) : Prop where
  complete : Complete s
  whole : (letters s).length % 4 ≠ 1
  padded : pads s = 0 ∨ pads s ≤ 2 ∧ ((letters s).length + pads s) % 4 = 0

theorem accepted_of_grammar {as : Bytes} {p : Nat} (h : Grammar s as p) :
    Accepted s ∧ letters s = as := by
  obtain ⟨rfl, rfl⟩ := counts_of_solid h.solid h.letters
  exact ⟨⟨(readable_eq_self_iff false s).mpr ⟨h.solid, fun hpadded => by cases hpadded⟩, h.whole,
    h.padded⟩, rfl⟩

theorem Accepted.grammar (h : Accepted s) : Grammar s (letters s) (pads s) :=
  ⟨((readable_eq_self_iff false s).mp h.complete).1, fun _ => inAlphabet_of_mem_letters, h.whole,
    h.padded⟩

/-- The counts fit in an `int`: those of the characters that are read before the decoder stops, and
their sum where it is formed. -/
def CountersFit (s : Bytes) : Prop :=
  (letters (readable true false s)).length ≤ INT_MAX ∧ pads (readable true false s) ≤ INT_MAX ∧
    (Complete s → (letters s).length % 4 ≠ 1 → pads s ≠ 0 → pads s ≤ 2 →
      (letters s).length + pads s ≤ INT_MAX)

theorem decodeEx_strict (hletters : (letters (readable true false s)).length ≤ INT_MAX)
    (hpads : pads (readable true false s) ≤ INT_MAX) :
    (Complete s → ∃ d, phpBase64DecodeEx garbage s true = finish true d ∧
      d.i = (letters s).length ∧ d.padding = pads s ∧
      slice d.result 0 d.j = octets (bitString s)) ∧
    (¬Complete s → phpBase64DecodeEx garbage s true = .fail) := by
  have hends : Ends true [] 0 s (decodeLoop true ⟨0, 0, 0, garbage⟩ s) :=
    decodeLoop_ends (taken_start garbage) (Nat.zero_le _) (Nat.zero_le _)
  unfold Ends at hends
  rw [show ((0 : Nat) != 0) = false from rfl] at hends
  dsimp only at hends
  rw [if_neg (by rw [length_nil]; omega)] at hends
  constructor
  · intro hcomplete
    have hall : readable true false s = s := hcomplete
    rw [if_pos hall, hall] at hends
    obtain ⟨d, hloop, htaken, hpadding⟩ := hends
    refine ⟨d, by rw [phpBase64DecodeEx, hloop], ?_, hpadding.trans (Nat.zero_add _), ?_⟩
    · rw [htaken.i, nil_append, valuesOf, length_map]
    · rw [htaken.decoded, nil_append, octets_bitString]
  · intro hcomplete
    rw [if_neg (show ¬readable true false s = s from hcomplete)] at hends
    rw [phpBase64DecodeEx, hends]

theorem decodeEx_of_accepted (hfit : CountersFit s) (h : Accepted s) :
    phpBase64DecodeEx garbage s true = .ok (octets (bitString s)) := by
  obtain ⟨hletters, hpads, hsum⟩ := hfit
  obtain ⟨d, hout, hi, hpadding, hresult⟩ :=
    (decodeEx_strict garbage hletters hpads).1 h.complete
  rw [hout, finish, if_neg fun hbad => h.whole (hi ▸ hbad.2)]
  by_cases hzero : pads s = 0
  · rw [if_neg fun hbad => hbad.2 (hpadding.trans hzero), hresult]
  · obtain ⟨htwo, hmod⟩ := h.padded.resolve_left hzero
    have hfits := hsum h.complete h.whole hzero htwo
    rw [if_pos ⟨rfl, hpadding ▸ hzero⟩, if_neg (by omega), if_neg (by omega), if_neg (by omega),
      hresult]

theorem decodeEx_of_not_accepted (hfit : CountersFit s) (h : ¬Accepted s) :
    phpBase64DecodeEx garbage s true = .fail := by
  obtain ⟨hletters, hpads, hsum⟩ := hfit
  obtain ⟨hread, hstop⟩ := decodeEx_strict garbage hletters hpads
  by_cases hcomplete : Complete s
  · obtain ⟨d, hout, hi, hpadding, -⟩ := hread hcomplete
    rw [hout, finish]
    by_cases hwhole : (letters s).length % 4 = 1
    · rw [if_pos ⟨rfl, by rw [hi]; exact hwhole⟩]
    · rw [if_neg fun hbad => hwhole (hi ▸ hbad.2)]
      by_cases hzero : pads s = 0
      · exact absurd ⟨hcomplete, hwhole, .inl hzero⟩ h
      · rw [if_pos ⟨rfl, hpadding ▸ hzero⟩]
        by_cases htwo : pads s ≤ 2
        · have hfits := hsum hcomplete hwhole hzero htwo
          have hmod : ((letters s).length + pads s) % 4 ≠ 0 := fun hmod =>
            h ⟨hcomplete, hwhole, .inr ⟨htwo, hmod⟩⟩
          rw [if_neg (by omega), if_neg (by omega), if_pos (by omega)]
        · rw [if_pos (by omega)]
  · exact hstop hcomplete

theorem decodeEx_of_not_fit (hfit : ¬CountersFit s) :
    phpBase64DecodeEx garbage s true = .overflow := by
  by_cases hover : (letters (readable true false s)).length > INT_MAX ∨
      pads (readable true false s) > INT_MAX
  · have hends : Ends true [] 0 s (decodeLoop true ⟨0, 0, 0, garbage⟩ s) :=
      decodeLoop_ends (taken_start garbage) (Nat.zero_le _) (Nat.zero_le _)
    unfold Ends at hends
    rw [show ((0 : Nat) != 0) = false from rfl] at hends
    dsimp only at hends
    rw [length_nil, Nat.zero_add, Nat.zero_add, if_pos hover] at hends
    rw [phpBase64DecodeEx, hends]
  · rw [not_or, Nat.not_lt, Nat.not_lt] at hover
    obtain ⟨hletters, hpads⟩ := hover
    have hsum : ¬(Complete s → (letters s).length % 4 ≠ 1 → pads s ≠ 0 → pads s ≤ 2 →
        (letters s).length + pads s ≤ INT_MAX) := fun hsum => hfit ⟨hletters, hpads, hsum⟩
    simp only [not_forall] at hsum
    obtain ⟨hcomplete, hwhole, hzero, htwo, hlong⟩ := hsum
    obtain ⟨d, hout, hi, hpadding, -⟩ :=
      (decodeEx_strict garbage hletters hpads).1 hcomplete
    rw [hout, finish, if_neg fun hbad => hwhole (hi ▸ hbad.2), if_pos ⟨rfl, hpadding ▸ hzero⟩,
      if_neg (by omega), if_pos (by omega)]

/-- The strict mode accepts the grammar, and gives the bytes of its bit string. -/
def DecodesGrammar (garbage : Nat → UInt8) (s : Bytes) : Prop :=
  (∀ out, phpBase64DecodeEx garbage s true = .ok out ↔
    ∃ as p, Grammar s as p ∧ out = octets (bitString as)) ∧
  (phpBase64DecodeEx garbage s true = .fail ↔ ¬∃ as p, Grammar s as p)

theorem bitString_letters (s : Bytes) : bitString (letters s) = bitString s := by
  rw [bitString, bitString, letters, letters, List.filter_filter]
  simp

theorem decodesGrammar_iff : DecodesGrammar garbage s ↔ CountersFit s := by
  constructor
  · rintro ⟨hok, hfail⟩
    by_contra hfit
    have hout := decodeEx_of_not_fit garbage hfit
    by_cases hgrammar : ∃ as p, Grammar s as p
    · obtain ⟨as, p, hgrammar⟩ := hgrammar
      have heq := (hok _).mpr ⟨as, p, hgrammar, rfl⟩
      rw [hout] at heq
      cases heq
    · have heq := hfail.mpr hgrammar
      rw [hout] at heq
      cases heq
  · intro hfit
    by_cases haccepted : Accepted s
    · have hout := decodeEx_of_accepted garbage hfit haccepted
      refine ⟨fun out => ?_, ?_⟩
      · rw [hout]
        constructor
        · rintro ⟨⟩
          exact ⟨_, _, haccepted.grammar, by rw [bitString_letters]⟩
        · rintro ⟨as, p, hgrammar, rfl⟩
          rw [← (accepted_of_grammar hgrammar).2, bitString_letters]
      · rw [hout]
        exact ⟨fun h => (by cases h), fun h => absurd ⟨_, _, haccepted.grammar⟩ h⟩
    · have hout := decodeEx_of_not_accepted garbage hfit haccepted
      have hnone : ¬∃ as p, Grammar s as p := fun ⟨_, _, hgrammar⟩ =>
        haccepted (accepted_of_grammar hgrammar).1
      refine ⟨fun out => ?_, ?_⟩
      · rw [hout]
        exact ⟨fun h => (by cases h), fun ⟨as, p, hgrammar, _⟩ => absurd ⟨as, p, hgrammar⟩ hnone⟩
      · rw [hout]
        exact ⟨fun _ => hnone, fun _ => rfl⟩

/-! ## The encoder -/

/-- The values that the encoder looks up. -/
def sextets : Bytes → Bytes
  | a :: b :: c :: s =>
    (a >>> 2) :: (((a &&& 0x03) <<< 4) + (b >>> 4)) :: (((b &&& 0x0f) <<< 2) + (c >>> 6)) ::
      (c &&& 0x3f) :: sextets s
  | [a, b] => [a >>> 2, ((a &&& 0x03) <<< 4) + (b >>> 4), (b &&& 0x0f) <<< 2]
  | [a] => [a >>> 2, (a &&& 0x03) <<< 4]
  | [] => []

theorem phpBase64Encode_eq (s : Bytes) :
    phpBase64Encode s = (sextets s).map tableAt ++
      replicate (4 * ((s.length + 2) / 3) - (sextets s).length) base64Pad ∧
      (sextets s).length = (4 * s.length + 2) / 3 := by
  -- induction on the groups of three
  fun_induction phpBase64Encode s with
  | case1 a b c s ih =>
    obtain ⟨heq, hlen⟩ := ih
    have hlong : (a :: b :: c :: s).length = s.length + 3 := rfl
    have hfour : (sextets (a :: b :: c :: s)).length = (sextets s).length + 4 := rfl
    have hpads : 4 * ((s.length + 3 + 2) / 3) - ((sextets s).length + 4) =
        4 * ((s.length + 2) / 3) - (sextets s).length := by
      rw [show (s.length + 3 + 2) / 3 = (s.length + 2) / 3 + 1 from by omega]
      omega
    rw [hlong, hfour, hpads]
    refine ⟨?_, by omega⟩
    rw [heq]
    rfl
  | case2 a b => exact ⟨by simp [sextets], by simp [sextets]⟩
  | case3 a => exact ⟨by simp [sextets, replicate_succ], by simp [sextets]⟩
  | case4 => exact ⟨rfl, rfl⟩

theorem bits₆₂ (v : UInt8) : bits 8 v = bits 6 (v >>> 2) ++ bits 2 (v &&& 0x03) :=
  bits_add 6 v (show 2 < 8 by decide)

theorem bits₄₄ (v : UInt8) : bits 8 v = bits 4 (v >>> 4) ++ bits 4 (v &&& 0x0f) :=
  bits_add 4 v (show 4 < 8 by decide)

theorem bits₂₆ (v : UInt8) : bits 8 v = bits 2 (v >>> 6) ++ bits 6 (v &&& 0x3f) :=
  bits_add 2 v (show 6 < 8 by decide)

theorem shiftRight_lt (v : UInt8) :
    (v >>> 2).toNat < 64 ∧ (v >>> 4).toNat < 16 ∧ (v >>> 6).toNat < 4 :=
  ⟨toNat_shiftRight_lt (k := 64) (n := 2) v.toNat_lt (by decide),
    toNat_shiftRight_lt (k := 16) (n := 4) v.toNat_lt (by decide),
    toNat_shiftRight_lt (k := 4) (n := 6) v.toNat_lt (by decide)⟩

theorem bits_join₂₄ {q r : UInt8} (hq : q.toNat < 4) (hr : r.toNat < 16) :
    bits 6 ((q <<< 4) + r) = bits 2 q ++ bits 4 r ∧ ((q <<< 4) + r).toNat < 64 := by
  have htable := forall_below (p := fun q r => decide
    (bits 6 ((q <<< 4) + r) = bits 2 q ++ bits 4 r ∧ ((q <<< 4) + r).toNat < 64))
    (show _ = true by decide) hq hr
  exact of_decide_eq_true htable

theorem bits_join₄₂ {q r : UInt8} (hq : q.toNat < 16) (hr : r.toNat < 4) :
    bits 6 ((q <<< 2) + r) = bits 4 q ++ bits 2 r ∧ ((q <<< 2) + r).toNat < 64 := by
  have htable := forall_below (p := fun q r => decide
    (bits 6 ((q <<< 2) + r) = bits 4 q ++ bits 2 r ∧ ((q <<< 2) + r).toNat < 64))
    (show _ = true by decide) hq hr
  exact of_decide_eq_true htable

theorem sextets_spec (s : Bytes) :
    (∀ v ∈ sextets s, v.toNat < 64) ∧
      ∃ t, (sextets s).flatMap (bits 6) = s.flatMap (bits 8) ++ t ∧ t.length < 8 := by
  -- induction on the groups of three
  fun_induction sextets s with
  | case1 a b c s ih =>
    obtain ⟨hlt, t, hbits, ht⟩ := ih
    obtain ⟨ha₂, -⟩ := shiftRight_lt a
    obtain ⟨-, hb₄, -⟩ := shiftRight_lt b
    obtain ⟨-, -, hc₆⟩ := shiftRight_lt c
    obtain ⟨hab, hab_lt⟩ := bits_join₂₄ (toNat_and_lt a 0x03) hb₄
    obtain ⟨hbc, hbc_lt⟩ := bits_join₄₂ (toNat_and_lt b 0x0f) hc₆
    constructor
    · simp only [forall_mem_cons]
      exact ⟨ha₂, hab_lt, hbc_lt, toNat_and_lt c 0x3f, hlt⟩
    · refine ⟨t, ?_, ht⟩
      simp only [flatMap_cons]
      rw [hbits, hab, hbc, bits₆₂ a, bits₄₄ b, bits₂₆ c]
      simp only [append_assoc]
  | case2 a b =>
    obtain ⟨ha₂, -⟩ := shiftRight_lt a
    obtain ⟨-, hb₄, -⟩ := shiftRight_lt b
    obtain ⟨hab, hab_lt⟩ := bits_join₂₄ (toNat_and_lt a 0x03) hb₄
    obtain ⟨hb₀, hb₀_lt⟩ := bits_join₄₂ (toNat_and_lt b 0x0f) (show (0 : UInt8).toNat < 4 by decide)
    rw [UInt8.add_zero] at hb₀ hb₀_lt
    constructor
    · simp only [forall_mem_cons]
      exact ⟨ha₂, hab_lt, hb₀_lt, fun v hv => absurd hv not_mem_nil⟩
    · refine ⟨bits 2 0, ?_, by decide⟩
      simp only [flatMap_cons, flatMap_nil]
      rw [hab, hb₀, bits₆₂ a, bits₄₄ b]
      simp only [append_assoc, append_nil]
  | case3 a =>
    obtain ⟨ha₂, -⟩ := shiftRight_lt a
    obtain ⟨ha₀, ha₀_lt⟩ :=
      bits_join₂₄ (toNat_and_lt a 0x03) (show (0 : UInt8).toNat < 16 by decide)
    rw [UInt8.add_zero] at ha₀ ha₀_lt
    constructor
    · simp only [forall_mem_cons]
      exact ⟨ha₂, ha₀_lt, fun v hv => absurd hv not_mem_nil⟩
    · refine ⟨bits 4 0, ?_, by decide⟩
      simp only [flatMap_cons, flatMap_nil]
      rw [ha₀, bits₆₂ a]
      simp only [append_assoc, append_nil]
  | case4 => exact ⟨fun v hv => absurd hv not_mem_nil, [], rfl, Nat.zero_lt_succ 7⟩

/-! ## Round trips -/

theorem letters_eq_self {as : Bytes} (h : ∀ c ∈ as, inAlphabet c = true) : letters as = as :=
  filter_eq_self.mpr h

theorem phpBase64Encode_spec (s : Bytes) :
    ∃ as p t, phpBase64Encode s = as ++ replicate p base64Pad ∧
      (∀ c ∈ as, inAlphabet c = true) ∧ as.length = (4 * s.length + 2) / 3 ∧
      as.length + p = 4 * ((s.length + 2) / 3) ∧
      bitString as = s.flatMap (bits 8) ++ t ∧ t.length < 8 := by
  obtain ⟨heq, hlen⟩ := phpBase64Encode_eq s
  obtain ⟨hlt, t, hbits, ht⟩ := sextets_spec s
  have halpha : ∀ c ∈ (sextets s).map tableAt, inAlphabet c = true := by
    intro c hc
    obtain ⟨v, hv, rfl⟩ := List.mem_map.mp hc
    exact (tableAt_spec (hlt v hv)).1
  refine ⟨_, _, t, heq, halpha, by rw [length_map, hlen], ?_, ?_, ht⟩
  · rw [length_map, hlen]
    omega
  · rw [bitString, letters_eq_self halpha, flatMap_map, ← hbits]
    refine flatMap_congr fun v hv => ?_
    rw [(tableAt_spec (hlt v hv)).2]

def RoundTrips (garbage : Nat → UInt8) (s : Bytes) : Prop :=
  ∀ strict, phpBase64DecodeEx garbage (phpBase64Encode s) strict = .ok s

theorem solid_of_letters {as : Bytes} {p : Nat} (h : ∀ c ∈ as, inAlphabet c = true) :
    solid (as ++ replicate p base64Pad) = as ++ replicate p base64Pad := by
  refine filter_eq_self.mpr fun c hc => ?_
  rcases mem_append.mp hc with hc | hc
  · rw [not_isSpace_of_inAlphabet (h c hc)]
    rfl
  · rw [eq_of_mem_replicate hc]
    rfl

theorem roundTrips_iff : RoundTrips garbage s ↔ s.length ≤ 1610612733 := by
  obtain ⟨as, p, t, hencode, halpha, hlen, hsum, hbits, ht⟩ := phpBase64Encode_spec s
  have hsolid : solid (phpBase64Encode s) = as ++ replicate p base64Pad := by
    rw [hencode, solid_of_letters halpha]
  obtain ⟨hletters, hpads⟩ := counts_of_solid hsolid halpha
  have hoctets : octets (bitString (phpBase64Encode s)) = s := by
    rw [← bitString_letters, hletters, hbits, octets_bits, octets_short ht, append_nil]
  have haccepted : Accepted (phpBase64Encode s) := by
    refine (accepted_of_grammar ⟨hsolid, halpha, by omega, ?_⟩).1
    by_cases hp : p = 0
    · exact .inl hp
    · exact .inr ⟨by omega, by omega⟩
  have hread : readable true false (phpBase64Encode s) = phpBase64Encode s := haccepted.complete
  have hfit : CountersFit (phpBase64Encode s) ↔ s.length ≤ 1610612733 := by
    unfold CountersFit
    rw [hread, hletters, hpads]
    constructor
    · rintro ⟨hfits, -, hboth⟩
      have hmax : INT_MAX = 2147483647 := rfl
      by_cases hp : p = 0
      · omega
      · have hfits' := hboth haccepted.complete (by omega) hp (by omega)
        omega
    · intro hshort
      have hmax : INT_MAX = 2147483647 := rfl
      exact ⟨by omega, by omega, fun _ _ _ _ => by omega⟩
  rw [← hfit]
  constructor
  · intro h
    by_contra hnot
    have hout := decodeEx_of_not_fit garbage hnot
    rw [h true] at hout
    cases hout
  · intro h strict
    cases strict with
    | true =>
      rw [decodeEx_of_accepted garbage h haccepted, hoctets]
    | false =>
      obtain ⟨hfits, hpadsFit, -⟩ := h
      rw [hread] at hfits hpadsFit
      rw [decodeEx_of_not_strict garbage hfits hpadsFit, hoctets]

/-- **Base64.** A string comes back from both modes if and only if it has at most 1610612733 bytes;
and the strict mode accepts exactly its grammar on a text if and only if the counts of the text fit
in an `int`. -/
theorem base64_iff (garbage : Nat → UInt8) (s text : Bytes) :
    (RoundTrips garbage s ↔ s.length ≤ 1610612733) ∧
      (DecodesGrammar garbage text ↔ CountersFit text) :=
  ⟨roundTrips_iff garbage, decodesGrammar_iff garbage⟩

/-- A string of 1610612734 zero bytes does not come back. -/
theorem not_base64 :
    ¬∀ garbage s text, RoundTrips garbage s ∧ DecodesGrammar garbage text := by
  intro h
  have hshort := (roundTrips_iff _).mp (h (fun _ => 0) (replicate 1610612734 0) []).1
  rw [length_replicate] at hshort
  omega

end Base64

end Phpce
