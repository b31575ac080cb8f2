import Phpce.Json.Double
import Phpce.Json.Scanner
import Phpce.Json.Zval
import Phpce.Operators.NumericString

/-!
# The JSON encoder

`php_json_encode_zval`: what is appended to the buffer for each kind of value, with the errors that
are noted and the text that is taken back or put in the place of what cannot be encoded.
-/

namespace Phpce

namespace Json

open Bytes

/-- `options` -/
structure EncoderOptions where
  hexTag : Bool
  hexAmp : Bool
  hexApos : Bool
  hexQuot : Bool
  forceObject : Bool
  numericCheck : Bool
  unescapedSlashes : Bool
  prettyPrint : Bool
  unescapedUnicode : Bool
  partialOutputOnError : Bool
  preserveZeroFraction : Bool
  unescapedLineTerminators : Bool
  deriving DecidableEq

inductive Status where
  | success
  | failure
  deriving DecidableEq

/-- `php_json_encoder`, with the buffer that it appends to. -/
structure Encoder where
  buf : Bytes
  depth : Nat
  errorCode : Option ErrorCode

namespace Encoder

def appendl (encoder : Encoder) (s : Bytes) : Encoder := { encoder with buf := encoder.buf ++ s }

def setError (encoder : Encoder) (errcode : ErrorCode) : Encoder :=
  { encoder with errorCode := some errcode }

end Encoder

/-! ## Characters -/

def utf8Trail (c : UInt8) : Bool := decide (c ≥ 0x80) && decide (c ≤ 0xBF)

def at' (s : Bytes) (i : Nat) : UInt8 := s.getD i 0

/-- `php_next_utf8_char` at the cursor: the character, and how far the cursor is moved. -/
def phpNextUtf8Char (s : Bytes) : Option (Nat × Nat) :=
  let avail := s.length
  let c := at' s 0
  if avail < 1 then none
  else if c < 0x80 then some (c.toNat, 1)
  else if c < 0xc2 then none
  else if c < 0xe0 then
    if avail < 2 ∨ !utf8Trail (at' s 1) then none
    else
      let thisChar := (c.toNat &&& 0x1f) <<< 6 ||| (at' s 1).toNat &&& 0x3f
      if thisChar < 0x80 then none else some (thisChar, 2)
  else if c < 0xf0 then
    if avail < 3 ∨ !utf8Trail (at' s 1) ∨ !utf8Trail (at' s 2) then none
    else
      let thisChar := (c.toNat &&& 0x0f) <<< 12 ||| ((at' s 1).toNat &&& 0x3f) <<< 6 |||
        (at' s 2).toNat &&& 0x3f
      if thisChar < 0x800 then none
      else if thisChar ≥ 0xd800 ∧ thisChar ≤ 0xdfff then none
      else some (thisChar, 3)
  else if c < 0xf5 then
    if avail < 4 ∨ !utf8Trail (at' s 1) ∨ !utf8Trail (at' s 2) ∨ !utf8Trail (at' s 3) then none
    else
      let thisChar := (c.toNat &&& 0x07) <<< 18 ||| ((at' s 1).toNat &&& 0x3f) <<< 12 |||
        ((at' s 2).toNat &&& 0x3f) <<< 6 ||| (at' s 3).toNat &&& 0x3f
      if thisChar < 0x10000 ∨ thisChar > 0x10FFFF then none else some (thisChar, 4)
  else none

/-- The loop of `php_json_utf8_to_utf16` without an array, from the cursor on. -/
def utf16Loop (s : Bytes) (j : Int32) : Int32 :=
  match s with
  | [] => j
  | c :: t =>
    match phpNextUtf8Char (c :: t) with
    | none => -1
    | some (us, len) => utf16Loop (t.drop (len - 1)) (if us ≥ 0x10000 then j + 2 else j + 1)
termination_by s.length
decreasing_by simp only [List.length_drop, List.length_cons]; omega

def phpJsonUtf8ToUtf16 (s : Bytes) : Int32 := utf16Loop s 0

def hexDigits : Bytes := ascii "0123456789abcdef"

/-- `\u` and the digits of a UTF-16 unit. -/
def escapeUnit (us : Nat) : Bytes :=
  ascii "\\u" ++ [at' hexDigits ((us &&& 0xf000) >>> 12), at' hexDigits ((us &&& 0xf00) >>> 8),
    at' hexDigits ((us &&& 0xf0) >>> 4), at' hexDigits (us &&& 0xf)]

section

variable (options : EncoderOptions)

/-- What is appended for a byte that is no part of a longer character, or is copied. -/
def escapeByte (us : UInt8) : Bytes :=
  if us = 34 then if options.hexQuot then ascii "\\u0022" else ascii "\\\""
  else if us = 92 then ascii "\\\\"
  else if us = 47 then if options.unescapedSlashes then ascii "/" else ascii "\\/"
  else if us = 8 then ascii "\\b"
  else if us = 12 then ascii "\\f"
  else if us = 10 then ascii "\\n"
  else if us = 13 then ascii "\\r"
  else if us = 9 then ascii "\\t"
  else if us = 60 then if options.hexTag then ascii "\\u003C" else ascii "<"
  else if us = 62 then if options.hexTag then ascii "\\u003E" else ascii ">"
  else if us = 38 then if options.hexAmp then ascii "\\u0026" else ascii "&"
  else if us = 39 then if options.hexApos then ascii "\\u0027" else ascii "'"
  else if us ≥ 32 then [us]
  else ascii "\\u00" ++
    [at' hexDigits ((us.toNat &&& 0xf0) >>> 4), at' hexDigits (us.toNat &&& 0xf)]

/-- One turn of the loop: what is appended for the character at the cursor, and how far `pos` is
moved. -/
def escapeStep (s : Bytes) : Option (Bytes × Nat) :=
  if at' s 0 ≥ 0x80 ∧ (!options.unescapedUnicode ∨ at' s 0 = 0xE2) then
    match phpNextUtf8Char s with
    | none => none
    | some (us, len) =>
      if options.unescapedUnicode ∧ (options.unescapedLineTerminators ∨ us < 0x2028 ∨ us > 0x2029)
      then some ((s.take len).drop (len - 3), len)
      else if us ≥ 0x10000 then
        let us := us - 0x10000
        some (escapeUnit ((us >>> 10 ||| 0xd800) % 2 ^ 16) ++
          escapeUnit ((us &&& 0x3ff ||| 0xdc00) % 2 ^ 16), len)
      else some (escapeUnit us, len)
  else some (escapeByte options (at' s 0), 1)

/-- The loop, with what has been appended behind the opening quote. -/
def escapeLoop (s out : Bytes) : Option Bytes :=
  match s with
  | [] => some out
  | c :: t =>
    match escapeStep options (c :: t) with
    | none => none
    | some (text, len) => escapeLoop (t.drop (len - 1)) (out ++ text)
termination_by s.length
decreasing_by simp only [List.length_drop, List.length_cons]; omega

/-! ## Strings -/

variable {δ : Type*} (D : Doubles δ)

/-- `is_numeric_string` with `allow_errors` 0. -/
def isNumericString (s : Bytes) : NumericString.NumericResult δ :=
  if (at' s 0).toInt8 > 57 then ⟨.none, none, none, none, false⟩
  else NumericString.isNumericStringEx D.strtod s true 0

def numericText (s : Bytes) : Option Bytes :=
  let r := isNumericString D s
  match r.type with
  | .none => none
  | .long => some (decimal ((r.lval.getD 0).toInt))
  | .double =>
    match r.dval with
    | none => none
    | some d =>
      if D.isValidDouble d then some (encodeDouble D options.preserveZeroFraction d) else none

def utf8Error (encoder : Encoder) : Status × Encoder :=
  let encoder := encoder.setError .utf8
  (.failure, if options.partialOutputOnError then encoder.appendl (ascii "null") else encoder)

/-- `php_json_escape_string` -/
def phpJsonEscapeString (s : Bytes) (encoder : Encoder) : Status × Encoder :=
  if s.length = 0 then (.success, encoder.appendl (ascii "\"\""))
  else
    match if options.numericCheck then numericText options D s else none with
    | some num => (.success, encoder.appendl num)
    | none =>
      if options.unescapedUnicode ∧ phpJsonUtf8ToUtf16 s < 0 then utf8Error options encoder
      else
        let checkpoint := encoder.buf.length
        let opened := encoder.appendl (ascii "\"")
        match escapeLoop options s [] with
        | none => utf8Error options { opened with buf := opened.buf.take checkpoint }
        | some text => (.success, (opened.appendl text).appendl (ascii "\""))

/-! ## Arrays and objects -/

inductive OutputType where
  | array
  | object
  deriving DecidableEq

def OutputType.opening : OutputType → Bytes
  | .array => ascii "["
  | .object => ascii "\x7b"

def OutputType.closing : OutputType → Bytes
  | .array => ascii "]"
  | .object => ascii "\x7d"

/-- The number of elements, as an `int`. -/
def numElements {β : Type*} (entries : List (Key × β)) : Int32 := Int32.ofNat entries.length

/-- The keys are the indices from `idx` on. -/
def isSequence {β : Type*} : List (Key × β) → Nat → Bool
  | [], _ => true
  | (.name _, _) :: _, _ => false
  | (.index h, _) :: entries, idx => h == idx && isSequence entries (idx + 1)

/-- `php_json_determine_array_type`; a packed table without holes has its keys in sequence. -/
def phpJsonDetermineArrayType {β : Type*} (entries : List (Key × β)) : OutputType :=
  if numElements entries > 0 ∧ isSequence entries 0 = false then .object else .array

def outputType {β : Type*} (isObject : Bool) (entries : List (Key × β)) : OutputType :=
  if isObject then .object
  else if options.forceObject then .object
  else phpJsonDetermineArrayType entries

def prettyPrintChar (c : UInt8) (encoder : Encoder) : Encoder :=
  if options.prettyPrint then encoder.appendl [c] else encoder

def prettyPrintIndent (encoder : Encoder) : Encoder :=
  if options.prettyPrint then
    encoder.appendl (List.replicate encoder.depth (ascii "    ")).flatten
  else encoder

def isSkipped (isObject : Bool) : Key → Bool
  | .index _ => false
  | .name key => isObject && decide (key.length > 0) && at' key 0 == 0

/-- `options & ~PHP_JSON_NUMERIC_CHECK` -/
def keyOptions : EncoderOptions := { options with numericCheck := false }

/-- The comma and the line in front of an entry. -/
def startLine (needComma : Bool) (encoder : Encoder) : Encoder :=
  prettyPrintIndent options (prettyPrintChar options 10
    (if needComma then encoder.appendl (ascii ",") else encoder))

def encodeKey (key : Key) (encoder : Encoder) : Encoder :=
  match key with
  -- the status is not looked at
  | .name key => (phpJsonEscapeString (keyOptions options) D key encoder).2
  | .index index => encoder.appendl (ascii "\"" ++ decimal index ++ ascii "\"")

/-- What is written in front of the value of an entry. -/
def startEntry (r : OutputType) (key : Key) (needComma : Bool) (encoder : Encoder) : Encoder :=
  match r with
  | .array => startLine options needComma encoder
  | .object =>
    prettyPrintChar options 32
      ((encodeKey options D key (startLine options needComma encoder)).appendl (ascii ":"))

def openArray (r : OutputType) (encoder : Encoder) : Encoder :=
  let encoder := encoder.appendl r.opening
  { encoder with depth := encoder.depth + 1 }

/-- Behind the loop over the entries. -/
def closeArray (maxDepth : Int) (r : OutputType) (needComma : Bool) (encoder : Encoder) :
    Status × Encoder :=
  let tooDeep := decide ((encoder.depth : Int) > maxDepth)
  let encoder := if tooDeep then encoder.setError .depth else encoder
  if tooDeep ∧ !options.partialOutputOnError then (.failure, encoder)
  else
    let encoder := { encoder with depth := encoder.depth - 1 }
    let encoder :=
      if needComma then prettyPrintIndent options (prettyPrintChar options 10 encoder) else encoder
    (.success, encoder.appendl r.closing)

def encodeArrayBy {β : Type*} (maxDepth : Int) (isObject : Bool) (entries : List (Key × β))
    (loop : OutputType → Encoder → Status × Bool × Encoder) (encoder : Encoder) :
    Status × Encoder :=
  let r := outputType options isObject entries
  let opened := openArray r encoder
  if numElements entries > 0 then
    match loop r opened with
    | (.failure, _, encoder) => (.failure, encoder)
    | (.success, needComma, encoder) => closeArray options maxDepth r needComma encoder
  else closeArray options maxDepth r false opened

/-- The error of a value that cannot be encoded. -/
def failWith (encoder : Encoder) : Status × Encoder :=
  (.failure,
    if options.partialOutputOnError then encoder.appendl (ascii "null") else encoder)

variable (maxDepth : Int)

mutual

/-- `php_json_encode_zval` -/
def phpJsonEncodeZval (val : Zval δ) (encoder : Encoder) : Status × Encoder :=
  match val with
  | .null => (.success, encoder.appendl (ascii "null"))
  | .bool true => (.success, encoder.appendl (ascii "true"))
  | .bool false => (.success, encoder.appendl (ascii "false"))
  | .long n => (.success, encoder.appendl (decimal n))
  | .double d =>
    if D.isValidDouble d then
      (.success, encoder.appendl (encodeDouble D options.preserveZeroFraction d))
    else (.success, (encoder.setError .infOrNan).appendl (ascii "0"))
  | .string s => phpJsonEscapeString options D s encoder
  | .array entries =>
    encodeArrayBy options maxDepth false entries (fun r => encodeEntries false r entries false)
      encoder
  | .object properties =>
    encodeArrayBy options maxDepth true properties
      (fun r => encodeEntries true r properties false) encoder
  | .serializable result => encodeResult result encoder
  | .recursive false =>
    (.failure, (encoder.setError .recursion).appendl (ascii "null"))
  | .recursive true => failWith options (encoder.setError .recursion)
  | .unsupported => failWith options (encoder.setError .unsupportedType)

/-- The loop of `php_json_encode_array`. -/
def encodeEntries (isObject : Bool) (r : OutputType) (entries : List (Key × Zval δ))
    (needComma : Bool) (encoder : Encoder) : Status × Bool × Encoder :=
  match entries with
  | [] => (.success, needComma, encoder)
  | entry :: entries =>
    if r = .object ∧ isSkipped isObject entry.1 then
      encodeEntries isObject r entries needComma encoder
    else
      match encodeEntry entry (startEntry options D r entry.1 needComma encoder) with
      | (status, encoder) =>
        if status = .failure ∧ !options.partialOutputOnError then (.failure, true, encoder)
        else encodeEntries isObject r entries true encoder

def encodeEntry (entry : Key × Zval δ) (encoder : Encoder) : Status × Encoder :=
  match entry with
  | (_, data) => phpJsonEncodeZval data encoder

/-- `php_json_encode_serializable_object`, of what `jsonSerialize` returns. -/
def encodeResult (result : Option (Zval δ)) (encoder : Encoder) : Status × Encoder :=
  match result with
  | none => failWith options encoder
  | some retval => phpJsonEncodeZval retval encoder

end

/-- `php_json_encode_array` of an array that is not being encoded. -/
def phpJsonEncodeArray (entries : List (Key × Zval δ)) (encoder : Encoder) : Status × Encoder :=
  encodeArrayBy options maxDepth false entries
    (fun r => encodeEntries options D maxDepth false r entries false) encoder

end

end Json

end Phpce
