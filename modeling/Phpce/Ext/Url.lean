import Phpce.Lib.Bytes
import Phpce.Lib.InPlace

/-!
# URL coding

The four loops of `url.c`: `php_url_encode`, `php_url_decode`, `php_raw_url_encode` and
`php_raw_url_decode`. The encoders append to a string of their own, and the decoders work in the
memory of the string that they decode.

* **`urlCoding_roundTrip`** — both decoders undo their encoders, the encoders emit safe characters
  and escapes only, in at most three bytes for one, and the decoders never write behind the byte
  that they read.
-/

namespace Phpce

namespace Url

open Bytes Buffer List

/-- `isxdigit`. -/
def isxdigit (c : UInt8) : Bool :=
  48 ≤ c ∧ c ≤ 57 ∨ 65 ≤ c ∧ c ≤ 70 ∨ 97 ≤ c ∧ c ≤ 102

/-- The value that `php_htoi` takes a character for. -/
def htoiDigit (c : UInt8) : Int :=
  let c := (toLower c).toNat
  if 48 ≤ c ∧ c ≤ 57 then c - 48 else c - 97 + 10

def phpHtoi (s₀ s₁ : UInt8) : Int := htoiDigit s₀ * 16 + htoiDigit s₁

def hexchars : Bytes := ascii "0123456789ABCDEF"

/-- `'%'`, and the character's two digits. -/
def escape (c : UInt8) : Bytes :=
  [37, hexchars.getD (c >>> 4).toNat 0, hexchars.getD (c &&& 15).toNat 0]

/-- The body of the loop in `php_url_encode`, where `c` is an `unsigned char`. -/
def phpUrlEncodeChar (c : UInt8) : Bytes :=
  if c = 32 then [43]
  else if c < 48 ∧ c ≠ 45 ∧ c ≠ 46 ∨ c < 65 ∧ c > 57 ∨ c > 90 ∧ c < 97 ∧ c ≠ 95 ∨ c > 122 then
    escape c
  else [c]

def phpUrlEncode (s : Bytes) : Bytes := s.foldl (fun dst c => dst ++ phpUrlEncodeChar c) []

/-- The body of the loop in `php_raw_url_encode`, where what was stored is read back as a `char`:
from 128 on it is negative. -/
def phpRawUrlEncodeChar (c : UInt8) : Bytes :=
  let stored := c.toInt8.toInt
  if stored < 48 ∧ stored ≠ 45 ∧ stored ≠ 46 ∨ stored < 65 ∧ stored > 57 ∨
      stored > 90 ∧ stored < 97 ∧ stored ≠ 95 ∨ stored > 122 ∧ stored ≠ 126 then
    escape c
  else [c]

def phpRawUrlEncode (s : Bytes) : Bytes := s.foldl (fun dst c => dst ++ phpRawUrlEncodeChar c) []

/-- The body of the loop in `php_url_decode`; `len` is counted down already. -/
def phpUrlDecodeChar : InPlace.Decoder UInt8 := fun mem data len =>
  if mem data = 43 then (32, 0)
  else if mem data = 37 ∧ len ≥ 2 ∧ isxdigit (mem (data + 1)) ∧ isxdigit (mem (data + 2)) then
    (UInt8.ofInt (phpHtoi (mem (data + 1)) (mem (data + 2))), 2)
  else (mem data, 0)

/-- The body of the loop in `php_raw_url_decode`. -/
def phpRawUrlDecodeChar : InPlace.Decoder UInt8 := fun mem data len =>
  if mem data = 37 ∧ len ≥ 2 ∧ isxdigit (mem (data + 1)) ∧ isxdigit (mem (data + 2)) then
    (UInt8.ofInt (phpHtoi (mem (data + 1)) (mem (data + 2))), 2)
  else (mem data, 0)

/-- A decoder's loop, the NUL that it stores, and the length that it returns. -/
def decodeLoop (decodeChar : InPlace.Decoder UInt8) (str : Nat → UInt8) (len : Nat) :
    (Nat → UInt8) × Nat :=
  let d := (InPlace.start str len).run decodeChar
  (store d.mem d.dest [0], d.dest)

def phpUrlDecode (str : Nat → UInt8) (len : Nat) : (Nat → UInt8) × Nat :=
  decodeLoop phpUrlDecodeChar str len

def phpRawUrlDecode (str : Nat → UInt8) (len : Nat) : (Nat → UInt8) × Nat :=
  decodeLoop phpRawUrlDecodeChar str len

/-- The string that a decoder leaves where `s` and its NUL stood; `rest` is the memory around. -/
def decoded (decode : (Nat → UInt8) → Nat → (Nat → UInt8) × Nat) (rest : Nat → UInt8) (s : Bytes) :
    Bytes :=
  let out := decode (store rest 0 (s ++ [0])) s.length
  slice out.1 0 out.2

/-! ## What the encoders emit -/

def unreserved (c : UInt8) : Bool :=
  (ascii "ABCDEFGHIJKLMNOPQRSTUVWXYZabcdefghijklmnopqrstuvwxyz0123456789-._~").contains c

/-- A text of characters that satisfy `safe`, and of escapes. -/
inductive Encoded (safe : UInt8 → Bool) : Bytes → Prop where
  | nil : Encoded safe []
  | safe (c : UInt8) (s : Bytes) (hc : safe c = true) (hs : Encoded safe s) : Encoded safe (c :: s)
  | escape (hi lo : UInt8) (s : Bytes) (hhi : isxdigit hi = true) (hlo : isxdigit lo = true)
      (hs : Encoded safe s) : Encoded safe (37 :: hi :: lo :: s)

/-! ## One character -/

theorem escape_digits (c : UInt8) :
    isxdigit (hexchars.getD (c >>> 4).toNat 0) = true ∧
      isxdigit (hexchars.getD (c &&& 15).toNat 0) = true ∧
      UInt8.ofInt (phpHtoi (hexchars.getD (c >>> 4).toNat 0) (hexchars.getD (c &&& 15).toNat 0)) =
        c :=
  forall_byte (by decide +kernel) c

theorem phpUrlEncodeChar_cases (c : UInt8) :
    c = 32 ∧ phpUrlEncodeChar c = [43] ∨ phpUrlEncodeChar c = escape c ∨
      phpUrlEncodeChar c = [c] ∧ c ≠ 43 ∧ c ≠ 37 ∧ unreserved c = true :=
  forall_byte (by decide +kernel) c

theorem phpRawUrlEncodeChar_cases (c : UInt8) :
    phpRawUrlEncodeChar c = escape c ∨
      phpRawUrlEncodeChar c = [c] ∧ c ≠ 37 ∧ unreserved c = true :=
  forall_byte (by decide +kernel) c

variable {mem : Nat → UInt8} {data len : Nat}

theorem escape_at {c : UInt8} (h : slice mem data 3 = escape c) :
    mem data = 37 ∧ isxdigit (mem (data + 1)) = true ∧ isxdigit (mem (data + 2)) = true ∧
      UInt8.ofInt (phpHtoi (mem (data + 1)) (mem (data + 2))) = c := by
  rw [escape, slice_succ, slice_succ, slice_succ] at h
  simp only [List.cons.injEq] at h
  obtain ⟨hpercent, hhi, hlo, -⟩ := h
  rw [hpercent, hhi, show data + 2 = data + 1 + 1 from rfl, hlo]
  exact ⟨rfl, escape_digits c⟩

theorem char_at {c : UInt8} (h : slice mem data 1 = [c]) : mem data = c := by
  rw [slice_succ] at h
  exact (List.cons.inj h).1

theorem phpUrlDecodeChar_undoes : InPlace.Undoes phpUrlDecodeChar phpUrlEncodeChar where
  nonempty c := by
    rcases phpUrlEncodeChar_cases c with ⟨-, h⟩ | h | ⟨h, -⟩ <;> rw [h] <;>
      exact cons_ne_nil _ _
  decode_eq c mem data len hcode hlen := by
    rcases phpUrlEncodeChar_cases c with ⟨rfl, h⟩ | h | ⟨h, hplus, hpercent, -⟩
    · rw [h] at hcode ⊢
      rw [phpUrlDecodeChar, if_pos (char_at hcode)]
      rfl
    · rw [h] at hcode hlen ⊢
      obtain ⟨hat, hhi, hlo, hvalue⟩ := escape_at hcode
      have hlen₂ : 2 ≤ len := by
        rw [show (escape c).length = 3 from rfl] at hlen
        omega
      rw [phpUrlDecodeChar, if_neg (by rw [hat]; decide), if_pos ⟨hat, hlen₂, hhi, hlo⟩, hvalue]
      rfl
    · rw [h] at hcode ⊢
      have hat := char_at hcode
      rw [phpUrlDecodeChar, hat, if_neg hplus, if_neg fun hand => hpercent hand.1]
      rfl

theorem phpRawUrlDecodeChar_undoes : InPlace.Undoes phpRawUrlDecodeChar phpRawUrlEncodeChar where
  nonempty c := by
    rcases phpRawUrlEncodeChar_cases c with h | ⟨h, -⟩ <;> rw [h] <;> exact cons_ne_nil _ _
  decode_eq c mem data len hcode hlen := by
    rcases phpRawUrlEncodeChar_cases c with h | ⟨h, hpercent, -⟩
    · rw [h] at hcode hlen ⊢
      obtain ⟨hat, hhi, hlo, hvalue⟩ := escape_at hcode
      have hlen₂ : 2 ≤ len := by
        rw [show (escape c).length = 3 from rfl] at hlen
        omega
      rw [phpRawUrlDecodeChar, if_pos ⟨hat, hlen₂, hhi, hlo⟩, hvalue]
      rfl
    · rw [h] at hcode ⊢
      have hat := char_at hcode
      rw [phpRawUrlDecodeChar, hat, if_neg fun hand => hpercent hand.1]
      rfl

theorem phpUrlDecodeChar_inside : InPlace.Inside phpUrlDecodeChar := by
  intro mem data len
  unfold phpUrlDecodeChar
  split
  · exact Nat.zero_le _
  · split
    next h => exact h.2.1
    next => exact Nat.zero_le _

theorem phpRawUrlDecodeChar_inside : InPlace.Inside phpRawUrlDecodeChar := by
  intro mem data len
  unfold phpRawUrlDecodeChar
  split
  next h => exact h.2.1
  next => exact Nat.zero_le _

/-! ## Texts -/

theorem phpUrlEncode_eq (s : Bytes) : phpUrlEncode s = s.flatMap phpUrlEncodeChar :=
  flatMap_eq_foldl.symm

theorem phpRawUrlEncode_eq (s : Bytes) : phpRawUrlEncode s = s.flatMap phpRawUrlEncodeChar :=
  flatMap_eq_foldl.symm

theorem decoded_flatMap {decodeChar : InPlace.Decoder UInt8} {encodeChar : UInt8 → Bytes}
    (hundoes : InPlace.Undoes decodeChar encodeChar) (rest : Nat → UInt8) (s : Bytes) :
    decoded (decodeLoop decodeChar) rest (s.flatMap encodeChar) = s := by
  have htext : slice (store rest 0 (s.flatMap encodeChar ++ [0])) 0 (s.flatMap encodeChar).length =
      s.flatMap encodeChar :=
    slice_of_isPrefix (n := (s.flatMap encodeChar ++ [0]).length) (by
      rw [slice_store_self]
      exact prefix_append _ _)
  have hrun := InPlace.run_flatMap (d := .start (store rest 0 (s.flatMap encodeChar ++ [0]))
    (s.flatMap encodeChar).length) hundoes s (Nat.le_refl 0) htext
  rw [InPlace.start, slice_zero, nil_append] at hrun
  -- the NUL is stored behind what was decoded
  rw [decoded, decodeLoop, slice_store_before (by rw [Nat.zero_add])]
  exact hrun

variable {safe : UInt8 → Bool} {encodeChar : UInt8 → Bytes}

inductive Code (safe : UInt8 → Bool) : Bytes → Prop where
  | char (c : UInt8) (hc : safe c = true) : Code safe [c]
  | escape (c : UInt8) : Code safe (escape c)

theorem Code.append {code s : Bytes} (hcode : Code safe code) (hs : Encoded safe s) :
    Encoded safe (code ++ s) := by
  cases hcode with
  | char c hc => exact .safe c s hc hs
  | escape c =>
    obtain ⟨hhi, hlo, -⟩ := escape_digits c
    exact .escape _ _ s hhi hlo hs

theorem Code.length_le {code : Bytes} (hcode : Code safe code) : code.length ≤ 3 := by
  cases hcode with
  | char c hc => exact Nat.succ_le_succ (Nat.zero_le 2)
  | escape c => exact Nat.le_refl 3

theorem encoded_flatMap (hcode : ∀ c, Code safe (encodeChar c)) (s : Bytes) :
    Encoded safe (s.flatMap encodeChar) ∧ (s.flatMap encodeChar).length ≤ 3 * s.length := by
  -- induction on the characters
  induction s with
  | nil => exact ⟨.nil, Nat.le_refl 0⟩
  | cons c s ih =>
    obtain ⟨htext, hlength⟩ := ih
    have hlen := (hcode c).length_le
    refine ⟨(hcode c).append htext, ?_⟩
    rw [flatMap_cons, length_append, length_cons]
    omega

theorem phpUrlEncodeChar_code (c : UInt8) :
    Code (fun c => unreserved c || c == 43) (phpUrlEncodeChar c) := by
  rcases phpUrlEncodeChar_cases c with ⟨-, h⟩ | h | ⟨h, -, -, hsafe⟩ <;> rw [h]
  · exact .char 43 rfl
  · exact .escape c
  · exact .char c (Bool.or_eq_true_iff.mpr (.inl hsafe))

theorem phpRawUrlEncodeChar_code (c : UInt8) : Code unreserved (phpRawUrlEncodeChar c) := by
  rcases phpRawUrlEncodeChar_cases c with h | ⟨h, -, hsafe⟩ <;> rw [h]
  · exact .escape c
  · exact .char c hsafe

/-- A decoder's cursors on any text: it writes at the byte that it reads or before, which is inside
the text, and its NUL at the end of the text or before. -/
def WritesBehind (decodeChar : InPlace.Decoder UInt8) : Prop :=
  ∀ (str : Nat → UInt8) (len : Nat),
    (∀ d, InPlace.Reaches decodeChar (.start str len) d → d.dest ≤ d.data ∧ d.data + d.len = len) ∧
      (decodeLoop decodeChar str len).2 ≤ len

theorem writesBehind_of_inside {decodeChar : InPlace.Decoder UInt8}
    (hinside : InPlace.Inside decodeChar) : WritesBehind decodeChar := by
  intro str len
  have hcursors : ∀ d, InPlace.Reaches decodeChar (.start str len) d →
      d.dest ≤ d.data ∧ d.data + d.len = len := by
    intro d h
    obtain ⟨hdest, hend⟩ := InPlace.reaches_inv hinside h (Nat.le_refl 0)
    exact ⟨hdest, hend.trans (Nat.zero_add len)⟩
  obtain ⟨hdest, hend⟩ := hcursors _ (InPlace.reaches_run decodeChar _)
  have hlen := InPlace.len_run decodeChar (.start str len)
  refine ⟨hcursors, ?_⟩
  show ((InPlace.start str len).run decodeChar).dest ≤ len
  omega

/-! ## What is decoded -/

/-- The text without its escapes, and with spaces for plus signs. -/
def urlDecode : Bytes → Bytes
  | [] => []
  | [c] => [if c = 43 then 32 else c]
  | [c, d] => [if c = 43 then 32 else c, if d = 43 then 32 else d]
  | c :: hi :: lo :: s =>
    if c = 37 ∧ isxdigit hi ∧ isxdigit lo then UInt8.ofInt (phpHtoi hi lo) :: urlDecode s
    else (if c = 43 then 32 else c) :: urlDecode (hi :: lo :: s)

theorem phpUrlDecodeChar_reads : InPlace.Reads phpUrlDecodeChar urlDecode where
  nil := rfl
  cons := by
    intro mem data c s h
    rw [slice_succ] at h
    obtain ⟨hc, hs⟩ := List.cons.inj h
    -- where no escape can stand, one character is read
    have hshort : s.length < 2 → phpUrlDecodeChar mem data s.length =
        (if c = 43 then 32 else c, 0) := by
      intro hlen
      have hescape : ¬(c = 37 ∧ s.length ≥ 2 ∧ isxdigit (mem (data + 1)) ∧
          isxdigit (mem (data + 2))) := fun h => Nat.not_le.mpr hlen h.2.1
      rw [phpUrlDecodeChar, hc, if_neg hescape]
      split <;> rfl
    match s with
    | [] =>
      rw [hshort (by decide)]
      rfl
    | [d] =>
      rw [hshort (Nat.lt_succ_self 1)]
      rfl
    | hi :: lo :: s =>
      rw [length_cons, length_cons, slice_succ, slice_succ] at hs
      obtain ⟨hhi, hs⟩ := List.cons.inj hs
      obtain ⟨hlo, -⟩ := List.cons.inj hs
      have hlen : (hi :: lo :: s).length ≥ 2 := Nat.le_add_left 2 s.length
      rw [phpUrlDecodeChar, hc, hhi, hlo, urlDecode]
      by_cases hplus : c = 43
      · have hpercent : ¬(c = 37 ∧ isxdigit hi ∧ isxdigit lo) := fun h =>
          absurd (hplus.symm.trans h.1) (by decide)
        rw [if_pos hplus, if_neg hpercent, if_pos hplus]
        rfl
      · rw [if_neg hplus, if_neg hplus]
        by_cases hescape : c = 37 ∧ isxdigit hi ∧ isxdigit lo
        · rw [if_pos hescape, if_pos ⟨hescape.1, hlen, hescape.2⟩]
          rfl
        · rw [if_neg hescape, if_neg fun h => hescape ⟨h.1, h.2.2⟩]
          rfl

/-- **Decoding.** The text that stands at the start of a memory is overwritten. -/
theorem phpUrlDecode_eq {str : Nat → UInt8} {s : Bytes} (h : slice str 0 s.length = s) :
    phpUrlDecode str s.length =
      (store str 0 (urlDecode s ++ [0]), (urlDecode s).length) := by
  obtain ⟨hmem, hdest⟩ := InPlace.run_eq (d := InPlace.start str s.length) phpUrlDecodeChar_reads s
    (Nat.le_refl 0) h
  have hdest : ((InPlace.start str s.length).run phpUrlDecodeChar).dest = (urlDecode s).length :=
    hdest.trans (Nat.zero_add _)
  rw [phpUrlDecode, decodeLoop, hmem, hdest, store_append, Nat.zero_add]
  rfl

/-- **URL coding round trips.** -/
theorem urlCoding_roundTrip :
    (∀ rest s, decoded phpUrlDecode rest (phpUrlEncode s) = s) ∧
    (∀ rest s, decoded phpRawUrlDecode rest (phpRawUrlEncode s) = s) ∧
    (∀ s, Encoded (fun c => unreserved c || c == 43) (phpUrlEncode s) ∧
      (phpUrlEncode s).length ≤ 3 * s.length) ∧
    (∀ s, Encoded unreserved (phpRawUrlEncode s) ∧ (phpRawUrlEncode s).length ≤ 3 * s.length) ∧
    WritesBehind phpUrlDecodeChar ∧ WritesBehind phpRawUrlDecodeChar := by
  refine ⟨fun rest s => ?_, fun rest s => ?_, fun s => ?_, fun s => ?_,
    writesBehind_of_inside phpUrlDecodeChar_inside,
    writesBehind_of_inside phpRawUrlDecodeChar_inside⟩
  · rw [phpUrlEncode_eq]
    exact decoded_flatMap phpUrlDecodeChar_undoes rest s
  · rw [phpRawUrlEncode_eq]
    exact decoded_flatMap phpRawUrlDecodeChar_undoes rest s
  · rw [phpUrlEncode_eq]
    exact encoded_flatMap phpUrlEncodeChar_code s
  · rw [phpRawUrlEncode_eq]
    exact encoded_flatMap phpRawUrlEncodeChar_code s

end Url

end Phpce
