import Phpce.Lib.Buffer
import Phpce.Lib.JsonText

/-!
# The JSON scanner

`php_json_scan`, which finds the next token of a NUL-terminated buffer.

What stands from the cursor on is a list of bytes; its end is the NUL at `limit`. The rules of a
condition are tried longest first, and those of one length in their order. Contents of fresh memory
(`uninit`) and `zend_strtod` are parameters.
-/

namespace Phpce

namespace Json

open Bytes Buffer JsonText

/-- `php_json_error_code` -/
inductive ErrorCode where
  | depth
  | stateMismatch
  | ctrlChar
  | syntaxError
  | utf8
  | recursion
  | infOrNan
  | unsupportedType
  | utf16
  deriving DecidableEq

/-! ## Byte classes -/

abbrev Class := UInt8 → Bool

def is (c : UInt8) : Class := fun b => b == c

def range (lo hi : UInt8) : Class := fun b => decide (lo ≤ b ∧ b ≤ hi)

def either (p q : Class) : Class := fun b => p b || q b

def digit : Class := range 48 57

def digitnz : Class := range 49 57

def hex : Class := either digit (either (range 97 102) (range 65 70))

def hex7 : Class := range 48 55

def hexc : Class := either digit (either (range 97 99) (range 65 67))

def ctrl : Class := range 0x00 0x1F

def utf8T : Class := range 0x80 0xBF

def utf8_1 : List Class := [range 0x00 0x7F]

def utf8_2 : List Class := [range 0xC2 0xDF, utf8T]

def utf8_3 : List (List Class) :=
  [[is 0xE0, range 0xA0 0xBF, utf8T], [range 0xE1 0xEC, utf8T, utf8T],
    [is 0xED, range 0x80 0x9F, utf8T], [range 0xEE 0xEF, utf8T, utf8T]]

def utf8_4 : List (List Class) :=
  [[is 0xF0, range 0x90 0xBF, utf8T, utf8T], [range 0xF1 0xF3, utf8T, utf8T, utf8T],
    [is 0xF4, range 0x80 0x8F, utf8T, utf8T]]

def escpref : Class := is 92

/-- `ESCSYM`: a quote, a backslash, a slash, or one of `bfnrt`. -/
def escsym : Class := fun b => [34, 92, 47, 98, 102, 110, 114, 116].contains b

def esc : List Class := [escpref, escsym]

/-- A backslash and a `u`. -/
def utfpref : List Class := [escpref, is 117]

def ucs2 : List Class := utfpref ++ [hex, hex, hex, hex]

def utf16_1 : List Class := utfpref ++ [is 48, is 48, hex7, hex]

def utf16_2 : List Class := utfpref ++ [is 48, hex7, hex, hex]

/-- `[dD]` -/
def letterD : Class := either (is 100) (is 68)

def utf16_3 : List (List Class) :=
  [utfpref ++ [either hexc (either (range 101 102) (range 69 70)), hex, hex, hex],
    utfpref ++ [letterD, hex7, hex, hex]]

def utf16_4 : List Class :=
  utfpref ++ [letterD, either (range 56 57) (either (range 97 98) (range 65 66)), hex, hex] ++
    utfpref ++ [letterD, either (range 99 102) (range 67 70), hex, hex]

def starts : List Class → Bytes → Bool
  | [], _ => true
  | _ :: _, [] => false
  | p :: ps, b :: s => p b && starts ps s

def startsAny (pss : List (List Class)) (s : Bytes) : Bool := pss.any fun ps => starts ps s

/-! ## The first pass over a string -/

inductive RuleP1 where
  | ctrl | utf16_1 | utf16_2 | utf16_3 | utf16_4 | ucs2 | esc | escpref | quote | utf8 | any

/-- The rule of `STR_P1` that matches at the cursor, and the length of the match. -/
def matchP1 (s : Bytes) : RuleP1 × Nat :=
  if starts utf16_4 s then (.utf16_4, 12)
  else if starts utf16_1 s then (.utf16_1, 6)
  else if starts utf16_2 s then (.utf16_2, 6)
  else if startsAny utf16_3 s then (.utf16_3, 6)
  else if starts ucs2 s then (.ucs2, 6)
  else if startsAny utf8_4 s then (.utf8, 4)
  else if startsAny utf8_3 s then (.utf8, 3)
  else if starts esc s then (.esc, 2)
  else if starts utf8_2 s then (.utf8, 2)
  else if starts [ctrl] s then (.ctrl, 1)
  else if starts [escpref] s then (.escpref, 1)
  else if starts [is 34] s then (.quote, 1)
  else if starts utf8_1 s then (.utf8, 1)
  else (.any, 1)

inductive ActionP1 where
  | fail (errcode : ErrorCode)
  /-- Add to `str_esc`, and scan on. -/
  | goto (strEsc : Int32)
  /-- The closing quote. -/
  | close

def actionP1 : RuleP1 → ActionP1
  | .ctrl => .fail .ctrlChar
  | .utf16_1 => .goto 5
  | .utf16_2 => .goto 4
  | .utf16_3 => .goto 3
  | .utf16_4 => .goto 8
  | .ucs2 => .fail .utf16
  | .esc => .goto 1
  | .escpref => .fail .syntaxError
  | .quote => .close
  | .utf8 => .goto 0
  | .any => .fail .utf8

/-- `STR_P1`, with `cursor - str_start`; where the closing quote is found, the values of that
difference and of `str_esc` behind it, and what stands there. -/
def strP1 (s : Bytes) (cursor : Nat) (strEsc : Int32) : Except ErrorCode (Nat × Int32 × Bytes) :=
  match s with
  -- the NUL at `limit` is a `CTRL`
  | [] => .error .ctrlChar
  | c :: t =>
    let rule := matchP1 (c :: t)
    let s := t.drop (rule.2 - 1)
    match actionP1 rule.1 with
    | .fail errcode => .error errcode
    | .goto more => strP1 s (cursor + rule.2) (strEsc + more)
    | .close => .ok (cursor + rule.2, strEsc, s)
termination_by s.length
decreasing_by simp only [List.length_drop, List.length_cons]; omega

/-! ## The second pass -/

inductive RuleP2 where
  | utf16_1 | utf16_2 | utf16_3 | utf16_4 | escpref | quote | any

def matchP2 (s : Bytes) : RuleP2 × Nat :=
  if starts utf16_4 s then (.utf16_4, 12)
  else if starts utf16_1 s then (.utf16_1, 6)
  else if starts utf16_2 s then (.utf16_2, 6)
  else if startsAny utf16_3 s then (.utf16_3, 6)
  else if starts [escpref] s then (.escpref, 1)
  else if starts [is 34] s then (.quote, 1)
  else (.any, 1)

/-- `php_json_hex_to_int`, on the digits that the rules let through. -/
def hexToInt (code : UInt8) : Nat :=
  if 48 ≤ code ∧ code ≤ 57 then code.toNat - 48
  else if 65 ≤ code ∧ code ≤ 70 then code.toNat - (65 - 10)
  else code.toNat - (97 - 10)

/-- `php_json_ucs2_to_int_ex`, where `token` is what stands before the cursor. -/
def ucs2ToIntEx (token : Bytes) (size start : Nat) : Nat :=
  (List.range size).foldl
    (fun code i => code ||| hexToInt (token.getD (token.length - start - i) 0) <<< (i * 4)) 0

def ucs2ToInt (token : Bytes) (size : Nat) : Nat := ucs2ToIntEx token size 1

/-- What `php_json_scanner_copy_string` copies of the bytes from `str_start` to the cursor. -/
def copyString (region : Bytes) (escSize : Nat) : Bytes :=
  region.take (region.length - escSize - 1)

/-- The bytes that are written for the escape `token`. -/
def utf16_1Bytes (token : Bytes) : Bytes := [UInt8.ofNat (ucs2ToInt token 2)]

def utf16_2Bytes (token : Bytes) : Bytes :=
  let utf16 := ucs2ToInt token 3
  [UInt8.ofNat (0xc0 ||| utf16 >>> 6), UInt8.ofNat (0x80 ||| utf16 &&& 0x3f)]

def utf16_3Bytes (token : Bytes) : Bytes :=
  let utf16 := ucs2ToInt token 4
  [UInt8.ofNat (0xe0 ||| utf16 >>> 12), UInt8.ofNat (0x80 ||| utf16 >>> 6 &&& 0x3f),
    UInt8.ofNat (0x80 ||| utf16 &&& 0x3f)]

def utf16_4Bytes (token : Bytes) : Bytes :=
  let utf16Hi := ucs2ToInt token 4
  let utf16Lo := ucs2ToIntEx token 4 7
  let utf32 := (utf16Lo &&& 0x3FF) <<< 10 + (utf16Hi &&& 0x3FF) + 0x10000
  [UInt8.ofNat (0xf0 ||| utf32 >>> 18), UInt8.ofNat (0x80 ||| utf32 >>> 12 &&& 0x3f),
    UInt8.ofNat (0x80 ||| utf32 >>> 6 &&& 0x3f), UInt8.ofNat (0x80 ||| utf32 &&& 0x3f)]

def escChar (c : UInt8) : Option UInt8 :=
  if c = 98 then some 8
  else if c = 102 then some 12
  else if c = 110 then some 10
  else if c = 114 then some 13
  else if c = 116 then some 9
  else if c = 92 ∨ c = 47 ∨ c = 34 then some c
  else none

/-- `STR_P2`, with the bytes from `str_start` to the cursor and those that have been written; where
it ends, all that has been written, and what stands behind the closing quote. -/
def strP2 (s region out : Bytes) : Except ErrorCode (Bytes × Bytes) :=
  match s with
  -- not reached, since the first pass has found a closing quote
  | [] => .error .syntaxError
  | c :: t =>
    let rule := matchP2 (c :: t)
    let token := (c :: t).take rule.2
    let s := t.drop (rule.2 - 1)
    match rule.1 with
    | .utf16_1 => strP2 s [] (out ++ copyString (region ++ token) 5 ++ utf16_1Bytes token)
    | .utf16_2 => strP2 s [] (out ++ copyString (region ++ token) 5 ++ utf16_2Bytes token)
    | .utf16_3 => strP2 s [] (out ++ copyString (region ++ token) 5 ++ utf16_3Bytes token)
    | .utf16_4 => strP2 s [] (out ++ copyString (region ++ token) 11 ++ utf16_4Bytes token)
    | .escpref =>
      match escChar (s.headD 0) with
      | none => .error .syntaxError
      | some esc => strP2 (s.drop 1) [] (out ++ copyString (region ++ token) 0 ++ [esc])
    | .quote => .ok (out ++ copyString (region ++ token) 0, s)
    | .any => strP2 s (region ++ token) out
termination_by s.length
decreasing_by all_goals simp only [List.length_drop, List.length_cons]; omega

/-! ## Tokens -/

/-- What the scanner returns, with `s->value`. -/
inductive Token (δ : Type*) where
  | lbrace | rbrace | lbracket | rbracket | colon | comma
  | nul | tru | fls
  | int (n : Int)
  | double (d : δ)
  | string (s : Bytes)
  | estring
  | eoi
  | error (errcode : ErrorCode)

/-- `options`, as far as they are read: `PHP_JSON_BIGINT_AS_STRING`. The other one is
`PHP_JSON_OBJECT_AS_ARRAY`, which is set. -/
structure ParserOptions where
  bigintAsString : Bool

/-- What is not under the scanner's control: `zend_strtod`, and what fresh memory holds. -/
structure Platform (δ : Type*) where
  strtod : Bytes → δ
  uninit : Nat → UInt8

/-- `s->cursor - s->str_start - s->str_esc - 1`; the escapes that `str_esc` counts stand before the
cursor, so that a `size_t` holds it. -/
def firstPassLength (cursor : Nat) (strEsc : Int32) : Nat :=
  (cursor - strEsc.toInt - 1 : Int).toNat

/-- `UTF8` matches at the cursor. -/
def startsUtf8 (s : Bytes) : Bool :=
  starts utf8_1 s || starts utf8_2 s || startsAny utf8_3 s || startsAny utf8_4 s

/-- `NL` and `WS` -/
def isBlank (c : UInt8) : Bool := c == 32 || c == 9 || c == 13 || c == 10

section

variable {δ : Type*} (P : Platform δ)

/-- From behind the opening quote. -/
def scanString (s : Bytes) : Token δ × Bytes :=
  match strP1 s 0 0 with
  | .error errcode => (.error errcode, s)
  | .ok (cursor, strEsc, rest) =>
    let len := firstPassLength cursor strEsc
    if len = 0 then (.estring, rest)
    else if strEsc ≠ 0 then
      match strP2 s [] [] with
      | .error errcode => (.error errcode, s)
      | .ok (out, rest) => (.string (slice (store P.uninit 0 out) 0 len), rest)
    else (.string (slice (store P.uninit 0 (s.take len)) 0 len), rest)

/-- The length of the `UINT` at the cursor. -/
def uintLength : Bytes → Nat
  | [] => 0
  | c :: s => if c = 48 then 1 else if digitnz c then (s.takeWhile digit).length + 1 else 0

/-- The length of the `INT` at the cursor. -/
def intLength : Bytes → Nat
  | [] => 0
  | c :: s =>
    if c = 45 then if uintLength s = 0 then 0 else uintLength s + 1 else uintLength (c :: s)

def fractionLength : Bytes → Nat
  | [] => 0
  | c :: s => if c = 46 ∧ s.takeWhile digit ≠ [] then (s.takeWhile digit).length + 1 else 0

/-- The length of `[+-]?`. -/
def signLength (s : Bytes) : Nat := if s.head? = some 43 ∨ s.head? = some 45 then 1 else 0

/-- The length of `[eE] [+-]? DIGIT+`. -/
def exponentLength : Bytes → Nat
  | [] => 0
  | c :: s =>
    if (c = 101 ∨ c = 69) ∧ (s.drop (signLength s)).takeWhile digit ≠ [] then
      ((s.drop (signLength s)).takeWhile digit).length + signLength s + 1
    else 0

/-- `PHP_JSON_INT_MAX_LENGTH` -/
def intMaxLength : Nat := 19

/-- `LONG_MIN_DIGITS` -/
def longMinDigits : Bytes := ascii "9223372036854775808"

/-- `bigint`, for the token of an `INT`. -/
def isBigint (token : Bytes) : Bool :=
  let negative := token.head? = some 45
  let digits := if negative then token.drop 1 else token
  if digits.length ≥ intMaxLength then
    if digits.length = intMaxLength then
      let cmp := strcmp digits longMinDigits
      !(cmp = .lt || (cmp = .eq && negative))
    else true
  else false

/-- `ZEND_STRTOL` of the token of an `INT` that fits. -/
def strtol (token : Bytes) : Int :=
  if token.head? = some 45 then -(value (token.drop 1) : Int) else value token

variable (options : ParserOptions)

def intToken (token : Bytes) : Token δ :=
  if !isBigint token then .int (strtol token)
  else if options.bigintAsString then .string token
  else .double (P.strtod token)

def scanNumber (s : Bytes) : Option (Token δ × Bytes) :=
  let int := intLength s
  if int = 0 then none
  else
    let fraction := fractionLength (s.drop int)
    let exponent := exponentLength (s.drop (int + fraction))
    if fraction + exponent = 0 then some (intToken P options (s.take int), s.drop int)
    else
      let len := int + fraction + exponent
      some (.double (P.strtod (s.take len)), s.drop len)

/-- `JS`, at a byte that is not skipped. -/
def scanToken : Bytes → Token δ × Bytes
  -- the NUL at `limit`
  | [] => (.eoi, [])
  | c :: s =>
    if c = 123 then (.lbrace, s)
    else if c = 125 then (.rbrace, s)
    else if c = 91 then (.lbracket, s)
    else if c = 93 then (.rbracket, s)
    else if c = 58 then (.colon, s)
    else if c = 44 then (.comma, s)
    else if (ascii "null").isPrefixOf (c :: s) then (.nul, s.drop 3)
    else if (ascii "true").isPrefixOf (c :: s) then (.tru, s.drop 3)
    else if (ascii "false").isPrefixOf (c :: s) then (.fls, s.drop 4)
    else
      match scanNumber P options (c :: s) with
      | some r => r
      | none =>
        if c = 34 then scanString P s
        -- `EOI` before `limit`, and `CTRL`
        else if ctrl c then (.error .ctrlChar, s)
        else if startsUtf8 (c :: s) then (.error .syntaxError, s)
        else (.error .utf8, s)

/-- `php_json_scan`: the token, and what stands behind it. -/
def scan (s : Bytes) : Token δ × Bytes := scanToken P options (s.dropWhile isBlank)

end

end Json

end Phpce
