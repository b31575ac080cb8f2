import Phpce.Headers.Basic
import Phpce.Lib.CString

/-!
# The format of the access log

`fpm_log_write` goes through the format of the access log once and puts the line together in a
buffer, or only checks the format. Values are printed with `snprintf`, which is told how much of the
buffer is left, and the length that it returns is added to the length of the line.

* **`safe_iff`** — the format is not read past its end and the line is text, if and only if every
  brace that the scan comes to is closed and no value that it prints fills the rest of the buffer.
-/

namespace Phpce

namespace Log

open Bytes Buffer Headers CString List

/-- `FPM_LOG_BUFFER`. -/
def bufferSize : Nat := 1024

def chr (c : Char) : UInt8 := UInt8.ofNat c.toNat

def openBrace : UInt8 := 123

def closeBrace : UInt8 := 125

/-- What the values are taken from: the slot of the scoreboard, the headers, the environment, and
what the conversions of numbers and times give. -/
structure LogData where
  -- `%.2f` of the share of the CPU: user, system or both
  cpu : Bytes → Bytes
  -- `%.3f` of the duration, in seconds and in milliseconds
  seconds : Bytes
  miliseconds : Bytes
  microseconds : Nat
  env : Bytes → Option Bytes
  scriptFilename : Bytes
  contentLength : Nat
  requestMethod : Bytes
  memory : Nat
  pool : Bytes
  headers : List HeaderStruct
  pid : Int
  ppid : Int
  queryString : Bytes
  requestUri : Bytes
  lastClientIp : Option Bytes
  httpResponseCode : Int
  -- `strftime` of the time at which the request was accepted, or of now
  strftime : Bool → Bytes → Bytes
  authUser : Bytes

inductive LogWarning where
  | modifier (allowed : String) (c : UInt8) (format : Bytes)
  | envName (c : UInt8)
  | headerName
  | closing
  | token (c : UInt8)
  | embrace (c : UInt8)
  deriving DecidableEq, Repr

def text (b : Bytes) : String := String.ofList (b.map fun c => Char.ofNat c.toNat)

def LogWarning.message : LogWarning → String
  | .modifier allowed c format =>
    "only " ++ allowed ++ " are allowed as a modifier for %" ++ text [c] ++ " ('" ++ text format ++
      "')"
  | .envName c =>
    "the name of the environment variable must be set between embraces for %" ++ text [c]
  | .headerName => "the name of the header must be set between embraces for %o"
  | .closing => "missing closing embrace in the access.format"
  | .token c => "Invalid token in the access.format (%" ++ text [c] ++ ")"
  | .embrace c => "embrace is not allowed for modifier %" ++ text [c]

inductive Emit where
  -- the character `%`
  | percent
  -- a value, by `snprintf`
  | print (v : Bytes)
  -- the value of a header, or `-`
  | header (v : Option Bytes)
  deriving DecidableEq, Repr

/-- A string, or `-` where it is empty. -/
def orDash (v : Bytes) : Bytes := if cstr v = [] then ascii "-" else v

/-- The value of the first header that has the name, for `%o`. -/
def headerValue (name : Bytes) (headers : List HeaderStruct) : Option Bytes :=
  headers.findSome? fun h =>
    if h.headerLen = 0 then none
    else if hasSubstring name (cstr h.header) = false then none
    else if h.headerLen ≤ name.length + 2 then none
    else if h.header[name.length]? ≠ some colon ∨ h.header[name.length + 1]? ≠ some space then none
    else some (orDash (h.header.drop (name.length + 2)))

/-- The `switch` of `fpm_log_write` but for the brace: what is put into the line, and what is left
of the text between the braces. -/
def directive (d : LogData) (c : UInt8) (format : Bytes) : Except LogWarning (Emit × Bytes) :=
  let lower := format.map toLower
  if c = chr '%' then .ok (.percent, format)
  else if c = chr 'C' then
    if format = [] ∨ lower = ascii "total" ∨ lower = ascii "user" ∨ lower = ascii "system" then
      .ok (.print (d.cpu lower), [])
    else .error (.modifier "'total', 'user' or 'system'" c format)
  else if c = chr 'd' then
    if format = [] ∨ lower = ascii "seconds" then .ok (.print d.seconds, [])
    else if lower = ascii "miliseconds" ∨ lower = ascii "mili" then
      .ok (.print d.miliseconds, [])
    else if lower = ascii "microseconds" ∨ lower = ascii "micro" then
      .ok (.print (ascii (toString d.microseconds)), [])
    else .error (.modifier "'seconds', 'mili', 'miliseconds', 'micro' or 'microseconds'" c format)
  else if c = chr 'e' then
    if format = [] then .error (.envName c)
    else .ok (.print ((d.env format).getD (ascii "-")), [])
  else if c = chr 'f' then .ok (.print (orDash d.scriptFilename), format)
  else if c = chr 'l' then .ok (.print (ascii (toString d.contentLength)), format)
  else if c = chr 'm' then .ok (.print (orDash d.requestMethod), format)
  else if c = chr 'M' then
    if format = [] ∨ lower = ascii "bytes" then
      .ok (.print (ascii (toString d.memory)), [])
    else if lower = ascii "kilobytes" ∨ lower = ascii "kilo" then
      .ok (.print (ascii (toString (d.memory / 1024))), [])
    else if lower = ascii "megabytes" ∨ lower = ascii "mega" then
      .ok (.print (ascii (toString (d.memory / 1024 / 1024))), [])
    else .error (.modifier "'bytes', 'kilo', 'kilobytes', 'mega' or 'megabytes'" c format)
  else if c = chr 'n' then .ok (.print (orDash d.pool), format)
  else if c = chr 'o' then
    if format = [] then .error .headerName
    else .ok (.header (headerValue format d.headers), [])
  else if c = chr 'p' then .ok (.print (ascii (toString d.pid)), format)
  else if c = chr 'P' then .ok (.print (ascii (toString d.ppid)), format)
  else if c = chr 'q' then .ok (.print d.queryString, format)
  else if c = chr 'Q' then
    .ok (.print (if cstr d.queryString = [] then [] else ascii "?"), format)
  else if c = chr 'r' then .ok (.print d.requestUri, format)
  else if c = chr 'R' then .ok (.print (d.lastClientIp.getD (ascii "-")), format)
  else if c = chr 's' then .ok (.print (ascii (toString d.httpResponseCode)), format)
  else if c = chr 'T' ∨ c = chr 't' then
    .ok (.print (d.strftime (c = chr 't')
      (if format = [] then ascii "%d/%b/%Y:%H:%M:%S %z" else format)), [])
  else if c = chr 'u' then .ok (.print d.authUser, format)
  else .error (.token c)

/-! ## The buffer -/

/-- `buffer`, and how far it has been written to. -/
structure LogBuffer where
  mem : Nat → UInt8
  top : Nat

def LogBuffer.put (buf : LogBuffer) (pos : Nat) (data : Bytes) : LogBuffer :=
  ⟨store buf.mem pos data, max buf.top (pos + data.length)⟩

/-- `snprintf(b, size, ..)` of a value, which is a C string. -/
def LogBuffer.snprintf (buf : LogBuffer) (pos size : Nat) (v : Bytes) : LogBuffer :=
  buf.put pos ((cstr v).take (size - 1) ++ [0])

/-- The length that `snprintf` returns, an `int` that is assigned to a `size_t`. -/
def printedLen (v : Bytes) : Nat := intLen (cstr v).length

/-- What is put into the buffer, and `len2`. A check of the format prints no value. -/
def Emit.put (test : Bool) (buf : LogBuffer) (len : Nat) : Emit → LogBuffer × Nat
  | .percent => (buf.put len [chr '%'], 1)
  | .print v => if test then (buf, 0) else (buf.snprintf len (bufferSize - len) v, printedLen v)
  | .header v =>
    if test then (buf, 0)
    else
      let r := match v with
        | some v => (buf.snprintf len (bufferSize - len) v, printedLen v)
        | none => (buf, 0)
      if r.2 = 0 then (r.1.put len [chr '-'], 1) else r

/-! ## The scan -/

inductive LogOutcome where
  -- `-1`
  | refused (warning : Option LogWarning)
  -- `0`, without and with a line
  | silent
  | line (b : Bytes)
  -- the format is read past its end
  | overread
  -- not reached
  | unfinished
  deriving DecidableEq, Repr

structure LogScan where
  -- the format from `s` on
  rest : Bytes
  token : Bool
  format : Bytes
  buf : LogBuffer
  len : Nat

/-- The loop that looks for the closing brace: what stands before it and behind it. -/
def closing : Bytes → Option (Bytes × Bytes)
  | [] => none
  | c :: rest =>
    if c = closeBrace then some ([], rest) else (closing rest).map fun r => (c :: r.1, r.2)

/-- The end of `fpm_log_write`: the outcome, and how far the buffer has been written to. -/
def finish (test : Bool) (buf : LogBuffer) (len : Nat) : LogOutcome × Nat :=
  if test = false ∧ buf.mem 0 ≠ 0 then
    (.line (slice (buf.put len [10]).mem 0 (len + 1)), (buf.put len [10]).top)
  else (.silent, buf.top)

/-- The loop of `fpm_log_write`, for so many rounds. -/
def scan (d : LogData) (test : Bool) : Nat → LogScan → LogOutcome × Nat
  | 0, st => (.unfinished, st.buf.top)
  | fuel + 1, st =>
    match st.rest with
    | [] => finish test st.buf st.len
    | c :: rest =>
      if bufferSize ≤ st.len then finish test st.buf bufferSize
      else if st.token = false then
        if c = chr '%' then scan d test fuel ⟨rest, true, [], st.buf, st.len⟩
        else if test then scan d test fuel ⟨rest, false, st.format, st.buf, st.len⟩
        else scan d test fuel ⟨rest, false, st.format, st.buf.put st.len [c], st.len + 1⟩
      else if c = openBrace then
        match closing rest with
        -- `s` is at the end of the format, and `s[1]` is read
        | none => (.overread, st.buf.top)
        | some (_, []) => (.refused (some .closing), st.buf.top)
        | some (modifier, rest) =>
          scan d test fuel ⟨rest, true, modifier.take 128, st.buf, st.len⟩
      else
        match directive d c st.format with
        | .error w => (.refused (some w), st.buf.top)
        | .ok (e, format) =>
          let r := e.put test st.buf st.len
          if format ≠ [] then (.refused (some (.embrace c)), r.1.top)
          else
            let len := if test then st.len else (st.len + r.2) % 0x10000000000000000
            if bufferSize ≤ len then finish test r.1 bufferSize
            else scan d test fuel ⟨rest, false, format, r.1, len⟩

/-- A call: the check of a format, or a line for a request; there may be no slot for it. -/
inductive LogCall where
  | test (format : Bytes)
  | access (format : Bytes)
  | noSlot

/-- `fpm_log_write`: the outcome, and how far the buffer has been written to. -/
def fpmLogWrite (d : LogData) : LogCall → LogOutcome × Nat
  | .test format =>
    scan d true ((cstr format).length + 1) ⟨cstr format, false, [], ⟨fun _ => 0, bufferSize + 1⟩, 0⟩
  | .access format =>
    scan d false ((cstr format).length + 1)
      ⟨cstr format, false, [], ⟨fun _ => 0, bufferSize + 1⟩, 0⟩
  | .noSlot => (.refused none, 0)

/-! ## The format as a list of items -/

inductive Item where
  | char (c : UInt8)
  | emit (e : Emit)
  | refused
  -- a brace without a closing brace behind it
  | unclosed
  deriving DecidableEq, Repr

/-- Where in an item the format is: not in one, behind a `%` with the text of the last braces, or
behind an opening brace with the text so far. -/
inductive Mode where
  | plain
  | token (format : Bytes)
  | brace (modifier : Bytes)
  deriving DecidableEq, Repr

/-- The items of a format, up to the first that ends the scan. -/
def items (d : LogData) : Mode → Bytes → List Item
  | .plain, [] => []
  | .plain, c :: rest =>
    if c = chr '%' then items d (.token []) rest else .char c :: items d .plain rest
  | .token _, [] => []
  | .token format, c :: rest =>
    if c = openBrace then items d (.brace []) rest
    else
      match directive d c format with
      | .error _ => [.refused]
      | .ok (e, format) => if format ≠ [] then [.refused] else .emit e :: items d .plain rest
  | .brace _, [] => [.unclosed]
  | .brace modifier, c :: rest =>
    if c = closeBrace then
      if rest = [] then [.refused] else items d (.token (modifier.take 128)) rest
    else items d (.brace (modifier ++ [c])) rest

/-- The length of the line behind a value that is printed at `len`. -/
def advance (len : Nat) (v : Bytes) : Nat := (len + printedLen v) % 0x10000000000000000

/-- The length of the line behind what a modifier puts into it. -/
def Emit.next (test : Bool) (len : Nat) (e : Emit) : Nat :=
  if test then len
  else
    match e with
    | .percent => len + 1
    | .print v => advance len v
    | .header none => len + 1
    | .header (some v) => if printedLen v = 0 then len + 1 else advance len v

/-- A value that is printed at `len` leaves room in the buffer. -/
def Emit.HasRoom (test : Bool) (len : Nat) (e : Emit) : Prop :=
  test = false → ∀ v, e = .print v ∨ (e = .header (some v) ∧ printedLen v ≠ 0) →
    advance len v < bufferSize

/-- From the length `len` on, no brace that the scan comes to is unclosed, and every value that it
prints leaves room in the buffer. -/
def Fits (test : Bool) : Nat → List Item → Prop
  | _, [] => True
  | len, .char _ :: is => bufferSize ≤ len ∨ Fits test (if test then len else len + 1) is
  | len, .emit e :: is => bufferSize ≤ len ∨ e.HasRoom test len ∧ Fits test (e.next test len) is
  | _, .refused :: _ => True
  | len, .unclosed :: _ => bufferSize ≤ len

/-- The format is not read past its end, the buffer is not written past its end, and a line is text
that ends with a newline. -/
structure Safe (r : LogOutcome × Nat) : Prop where
  reads : r.1 ≠ .overread ∧ r.1 ≠ .unfinished
  writes : r.2 ≤ bufferSize + 1
  text : ∀ b, r.1 = .line b → (0 : UInt8) ∉ b ∧ b.getLast? = some 10

def LogCall.Fits (d : LogData) : LogCall → Prop
  | .test format => Log.Fits true 0 (items d .plain (cstr format))
  | .access format => Log.Fits false 0 (items d .plain (cstr format))
  | .noSlot => True

variable {d : LogData} {test : Bool} {buf : LogBuffer} {len fuel pos size : Nat} {v : Bytes}
  {rest format : Bytes} {e : Emit}

/-! ## The buffer -/

theorem mem_put {data : Bytes} : (buf.put pos data).mem = store buf.mem pos data := rfl

theorem mem_snprintf :
    (buf.snprintf pos size v).mem = store buf.mem pos ((cstr v).take (size - 1) ++ [0]) := rfl

/-- The first `len` bytes are text, and nothing has been written behind the buffer. -/
structure Held (buf : LogBuffer) (len : Nat) : Prop where
  noNul : ∀ i, i < len → buf.mem i ≠ 0
  top_le : buf.top ≤ bufferSize + 1

theorem Held.mono {len' : Nat} (h : Held buf len) (hle : len' ≤ len) : Held buf len' :=
  ⟨fun i hi => h.noNul i (Nat.lt_of_lt_of_le hi hle), h.top_le⟩

theorem Held.put {data : Bytes} (h : Held buf len) (hdata : (0 : UInt8) ∉ data)
    (hroom : len + data.length ≤ bufferSize + 1) : Held (buf.put len data) (len + data.length) := by
  refine ⟨fun i hi => ?_, Nat.max_le.mpr ⟨h.top_le, hroom⟩⟩
  by_cases hlt : i < len
  · rw [mem_put, store_before hlt]
    exact h.noNul i hlt
  · obtain ⟨j, rfl⟩ := Nat.exists_eq_add_of_le (Nat.not_lt.mp hlt)
    have hj : j < data.length := by omega
    rw [mem_put, store_at hj]
    exact fun h0 => hdata (h0 ▸ getElem_mem hj)

theorem Held.snprintf (h : Held buf len) (hlen : len < bufferSize) :
    Held (buf.snprintf len (bufferSize - len) v)
      (len + ((cstr v).take (bufferSize - len - 1)).length) := by
  have htake : ((cstr v).take (bufferSize - len - 1)).length ≤ bufferSize - len - 1 :=
    length_take_le ..
  refine ⟨fun i hi => ?_, Nat.max_le.mpr ⟨h.top_le, ?_⟩⟩
  · by_cases hlt : i < len
    · rw [mem_snprintf, store_before hlt]
      exact h.noNul i hlt
    · obtain ⟨j, rfl⟩ := Nat.exists_eq_add_of_le (Nat.not_lt.mp hlt)
      have hj : j < ((cstr v).take (bufferSize - len - 1)).length := by omega
      rw [mem_snprintf, store_at (by rw [length_append]; omega),
        getElem_append_left hj]
      exact fun h0 => noNul_cstr v (h0 ▸ mem_of_mem_take (getElem_mem hj))
  · rw [length_append, length_singleton]
    omega

theorem snprintf_last (hlen : len < bufferSize) (hv : bufferSize - len ≤ (cstr v).length) :
    (buf.snprintf len (bufferSize - len) v).mem (bufferSize - 1) = 0 := by
  have htake : ((cstr v).take (bufferSize - len - 1)).length = bufferSize - len - 1 := by
    rw [length_take]
    omega
  have hpos : bufferSize - 1 = len + ((cstr v).take (bufferSize - len - 1)).length := by omega
  rw [mem_snprintf, hpos, store_at (by rw [length_append]; simp)]
  rw [getElem_append_right (Nat.le_refl _)]
  simp

theorem safe_finish (h : Held buf len) (hlen : len ≤ bufferSize) : Safe (finish test buf len) := by
  unfold finish
  split
  · have hput : slice (buf.put len [10]).mem 0 (len + 1) = slice buf.mem 0 len ++ [10] := by
      have happ := slice_store_append buf.mem 0 len [10]
      rw [Nat.zero_add] at happ
      exact happ
    refine ⟨⟨by simp, by simp⟩, Nat.max_le.mpr ⟨h.top_le, ?_⟩, fun b hb => ?_⟩
    · rw [length_singleton]
      omega
    · cases hb
      rw [hput]
      refine ⟨fun h0 => ?_, List.getLast?_concat ..⟩
      rcases mem_append.mp h0 with h0 | h0
      · obtain ⟨i, hi, h0⟩ := List.mem_map.mp h0
        rw [Nat.zero_add] at h0
        exact h.noNul i (mem_range.mp hi) h0
      · exact absurd (mem_singleton.mp h0) (by decide)
  · exact ⟨⟨by simp, by simp⟩, h.top_le, fun b hb => by cases hb⟩

theorem not_safe_finish (hfirst : buf.mem 0 ≠ 0) (hlast : buf.mem (bufferSize - 1) = 0) :
    ¬Safe (finish false buf bufferSize) := by
  intro hsafe
  have hline : (finish false buf bufferSize).1 =
      .line (slice (buf.put bufferSize [10]).mem 0 (bufferSize + 1)) := by
    rw [finish, if_pos ⟨rfl, hfirst⟩]
  refine (hsafe.text _ hline).1 (List.mem_map.mpr ⟨bufferSize - 1, ?_, ?_⟩)
  · exact mem_range.mpr (by decide)
  · rw [Nat.zero_add, mem_put, store_before (by decide), hlast]

/-! ## What a modifier does -/

def Emit.after (test : Bool) (len len2 : Nat) : Nat :=
  if test then len else (len + len2) % 0x10000000000000000

theorem Held.print (h : Held buf len) (hlen : len < bufferSize) (v : Bytes) :
    (advance len v < bufferSize →
      Held (buf.snprintf len (bufferSize - len) v) (advance len v)) ∧
    (bufferSize ≤ advance len v →
      (buf.snprintf len (bufferSize - len) v).mem 0 ≠ 0 ∧
        (buf.snprintf len (bufferSize - len) v).mem (bufferSize - 1) = 0) := by
  have hheld := h.snprintf (v := v) hlen
  rw [length_take] at hheld
  have hsize : bufferSize < 0x80000000 := by decide
  by_cases hv : bufferSize - len ≤ (cstr v).length
  · rw [Nat.min_eq_left (by omega)] at hheld
    refine ⟨fun hroom => hheld.mono (by omega), fun _ => ⟨hheld.noNul 0 ?_, snprintf_last hlen hv⟩⟩
    have hpos : 1 < bufferSize := by decide
    omega
  · have hadvance : advance len v = len + (cstr v).length := by
      rw [advance, printedLen, intLen_eq_self (by omega), Nat.mod_eq_of_lt (by omega)]
    rw [Nat.min_eq_right (by omega)] at hheld
    rw [hadvance]
    exact ⟨fun _ => hheld, fun hfull => absurd hfull (by omega)⟩

theorem Emit.put_spec (h : Held buf len) (hlen : len < bufferSize) (htest : test = true → len = 0)
    (e : Emit) :
    Emit.after test len (e.put test buf len).2 = e.next test len ∧
      (e.put test buf len).1.top ≤ bufferSize + 1 ∧
      (e.HasRoom test len → e.next test len ≤ bufferSize ∧
        Held (e.put test buf len).1 (e.next test len)) ∧
      (¬e.HasRoom test len → test = false ∧ bufferSize ≤ e.next test len ∧
        (e.put test buf len).1.mem 0 ≠ 0 ∧ (e.put test buf len).1.mem (bufferSize - 1) = 0) := by
  have hchar : ∀ c : UInt8, c ≠ 0 → ∀ buf, Held buf len → Held (buf.put len [c]) (len + 1) := by
    intro c hc buf hbuf
    exact hbuf.put (fun h0 => hc (mem_singleton.mp h0).symm) (by
      rw [length_singleton]
      omega)
  have hone : (len + 1) % 0x10000000000000000 = len + 1 := by
    have hsize : bufferSize < 0x80000000 := by decide
    omega
  have htop : ∀ v, (buf.snprintf len (bufferSize - len) v).top ≤ bufferSize + 1 :=
    fun v => (h.snprintf (v := v) hlen).top_le
  cases test with
  | true =>
    have hzero := htest rfl
    have hroom : e.HasRoom true len := fun hfalse => by cases hfalse
    refine ⟨rfl, ?_, fun _ => ⟨hlen.le, ?_⟩, fun hnot => absurd hroom hnot⟩
    · cases e with
      | percent => exact (hchar (chr '%') (by decide) buf h).top_le
      | print v => exact h.top_le
      | header v => exact h.top_le
    · cases e with
      | percent => exact (hchar (chr '%') (by decide) buf h).mono (Nat.le_succ len)
      | print v => exact h
      | header v => exact h
  | false =>
    cases e with
    | percent =>
      have hput := hchar (chr '%') (by decide) buf h
      refine ⟨hone, hput.top_le, fun _ => ⟨hlen, hput⟩, fun hnot => absurd ?_ hnot⟩
      rintro - v (heq | ⟨heq, -⟩)
      · cases heq
      · cases heq
    | print v =>
      obtain ⟨hfits, hfull⟩ := h.print hlen v
      refine ⟨rfl, htop v, fun hroom => ?_, fun hnot => ?_⟩
      · have hlt := hroom rfl v (.inl rfl)
        exact ⟨hlt.le, hfits hlt⟩
      · have hge : bufferSize ≤ advance len v := by
          by_contra hlt
          refine hnot fun _ v' heq => ?_
          rcases heq with heq | ⟨heq, -⟩
          · cases heq
            exact Nat.lt_of_not_le hlt
          · cases heq
        exact ⟨rfl, hge, hfull hge⟩
    | header v =>
      cases v with
      | none =>
        have hput := hchar (chr '-') (by decide) buf h
        refine ⟨hone, hput.top_le, fun _ => ⟨hlen, hput⟩, fun hnot => absurd ?_ hnot⟩
        rintro - v (heq | ⟨heq, -⟩)
        · cases heq
        · cases heq
      | some v =>
        obtain ⟨hfits, hfull⟩ := h.print hlen v
        by_cases hzero : printedLen v = 0
        · have hprinted : Held (buf.snprintf len (bufferSize - len) v) len :=
            (h.snprintf (v := v) hlen).mono (Nat.le_add_right _ _)
          have hput := hchar (chr '-') (by decide) _ hprinted
          have heq : (Emit.header (some v)).put false buf len =
              ((buf.snprintf len (bufferSize - len) v).put len [chr '-'], 1) := if_pos hzero
          have hnext : (Emit.header (some v)).next false len = len + 1 := if_pos hzero
          rw [heq, hnext]
          refine ⟨hone, hput.top_le, fun _ => ⟨hlen, hput⟩, fun hnot => absurd ?_ hnot⟩
          rintro - v' (heq' | ⟨heq', hne⟩)
          · cases heq'
          · cases heq'
            exact absurd hzero hne
        · have heq : (Emit.header (some v)).put false buf len =
              (buf.snprintf len (bufferSize - len) v, printedLen v) := if_neg hzero
          have hnext : (Emit.header (some v)).next false len = advance len v := if_neg hzero
          rw [heq, hnext]
          refine ⟨rfl, htop v, fun hroom => ?_, fun hnot => ?_⟩
          · have hlt := hroom rfl v (.inr ⟨rfl, hzero⟩)
            exact ⟨hlt.le, hfits hlt⟩
          · have hge : bufferSize ≤ advance len v := by
              by_contra hlt
              refine hnot fun _ v' heq' => ?_
              rcases heq' with heq' | ⟨heq', -⟩
              · cases heq'
              · cases heq'
                exact Nat.lt_of_not_le hlt
            exact ⟨rfl, hge, hfull hge⟩

/-! ## The scan -/

theorem fits_of_le (h : bufferSize ≤ len) (is : List Item) : Fits test len is := by
  cases is with
  | nil => trivial
  | cons i is =>
    cases i with
    | char c => exact .inl h
    | emit e => exact .inl h
    | refused => trivial
    | unclosed => exact h

theorem closing_eq_some {modifier after : Bytes} (h : closing rest = some (modifier, after)) :
    after.length < rest.length ∧ after ⊆ rest := by
  -- induction on the format
  induction rest generalizing modifier with
  | nil => cases h
  | cons c rest ih =>
    rw [closing] at h
    split at h
    · obtain ⟨-, rfl⟩ := Prod.mk.inj (Option.some.inj h)
      exact ⟨Nat.lt_succ_self _, subset_cons_self _ _⟩
    · obtain ⟨⟨m, a⟩, hrest, heq⟩ := Option.map_eq_some_iff.mp h
      obtain ⟨-, rfl⟩ := Prod.mk.inj heq
      obtain ⟨hlength, hsubset⟩ := ih hrest
      exact ⟨Nat.lt_succ_of_lt hlength, List.Subset.trans hsubset (subset_cons_self _ _)⟩

theorem items_brace (d : LogData) (modifier rest : Bytes) :
    items d (.brace modifier) rest =
      match closing rest with
      | none => [.unclosed]
      | some (m, after) =>
        if after = [] then [.refused] else items d (.token ((modifier ++ m).take 128)) after := by
  -- induction on the format
  induction rest generalizing modifier with
  | nil => rfl
  | cons c rest ih =>
    rw [items, closing]
    by_cases hc : c = closeBrace
    · rw [if_pos hc, if_pos hc]
      dsimp only
      rw [append_nil]
    · rw [if_neg hc, if_neg hc, ih]
      cases closing rest with
      | none => rfl
      | some r =>
        dsimp only [Option.map_some]
        rw [append_assoc]
        rfl

def LogScan.mode (st : LogScan) : Mode := if st.token then .token st.format else .plain

theorem safe_refused {w : Option LogWarning} {top : Nat} (htop : top ≤ bufferSize + 1) :
    Safe (.refused w, top) :=
  ⟨⟨by simp, by simp⟩, htop, fun b hb => by cases hb⟩

theorem safe_scan_iff {st : LogScan} (h : Held st.buf st.len) (hlen : st.len ≤ bufferSize)
    (htest : test = true → st.len = 0) (hnul : (0 : UInt8) ∉ st.rest)
    (hfuel : st.rest.length < fuel) :
    Safe (scan d test fuel st) ↔ Fits test st.len (items d st.mode st.rest) := by
  -- induction on the rounds
  induction fuel generalizing st with
  | zero => omega
  | succ fuel ih =>
    obtain ⟨rest, token, format, buf, len⟩ := st
    dsimp only at h hlen htest hnul hfuel ⊢
    cases rest with
    | nil =>
      have hitems : items d (LogScan.mode ⟨[], token, format, buf, len⟩) [] = [] := by
        cases token <;> rfl
      rw [hitems]
      exact iff_of_true (safe_finish h hlen) trivial
    | cons c rest =>
      rw [length_cons] at hfuel
      have hrest : (0 : UInt8) ∉ rest := fun h0 => hnul (mem_cons_of_mem _ h0)
      rw [scan]
      dsimp only
      by_cases hfull : bufferSize ≤ len
      · rw [if_pos hfull]
        exact iff_of_true (safe_finish (h.mono hfull) (Nat.le_refl _))
          (fits_of_le hfull _)
      · rw [if_neg hfull]
        cases token with
        | false =>
          rw [if_pos rfl]
          have hmode : LogScan.mode ⟨c :: rest, false, format, buf, len⟩ = .plain := rfl
          rw [hmode, items]
          by_cases hc : c = chr '%'
          · rw [if_pos hc, if_pos hc]
            exact ih h hlen htest hrest (by dsimp only; omega)
          · rw [if_neg hc, if_neg hc, Fits, or_iff_right hfull]
            cases test with
            | true => exact ih h hlen htest hrest (by dsimp only; omega)
            | false =>
              rw [if_neg Bool.false_ne_true, if_neg Bool.false_ne_true]
              have hput : Held (buf.put len [c]) (len + 1) :=
                h.put (fun h0 => hnul (mem_singleton.mp h0 ▸ mem_cons_self)) (by
                  rw [length_singleton]
                  omega)
              refine ih hput (by dsimp only; omega) (fun hfalse => by cases hfalse) hrest ?_
              dsimp only
              omega
        | true =>
          rw [if_neg (by decide)]
          have hmode : LogScan.mode ⟨c :: rest, true, format, buf, len⟩ = .token format := rfl
          rw [hmode, items]
          by_cases hc : c = openBrace
          · rw [if_pos hc, if_pos hc, items_brace]
            cases hclosing : closing rest with
            | none => exact iff_of_false (fun hsafe => hsafe.reads.1 rfl) hfull
            | some r =>
              obtain ⟨modifier, after⟩ := r
              obtain ⟨hlength, hsubset⟩ := closing_eq_some hclosing
              dsimp only
              cases after with
              | nil => exact iff_of_true (safe_refused h.top_le) trivial
              | cons c' after =>
                rw [if_neg (cons_ne_nil _ _)]
                refine ih h hlen htest (fun h0 => hrest (hsubset h0)) ?_
                dsimp only
                omega
          · rw [if_neg hc, if_neg hc]
            cases hdirective : directive d c format with
            | error w => exact iff_of_true (safe_refused h.top_le) trivial
            | ok r =>
              obtain ⟨e, format'⟩ := r
              obtain ⟨hafter, htop, hroom, hnoRoom⟩ :=
                e.put_spec h (Nat.lt_of_not_le hfull) htest
              dsimp only
              by_cases hformat : format' ≠ []
              · rw [if_pos hformat, if_pos hformat]
                exact iff_of_true (safe_refused htop) trivial
              · rw [if_neg hformat, if_neg hformat, Fits, or_iff_right hfull]
                rw [Emit.after] at hafter
                rw [hafter]
                by_cases hhas : e.HasRoom test len
                · obtain ⟨hle, hheld⟩ := hroom hhas
                  rw [and_iff_right hhas]
                  by_cases hend : bufferSize ≤ e.next test len
                  · rw [if_pos hend]
                    exact iff_of_true (safe_finish (hheld.mono hend) (Nat.le_refl _))
                      (fits_of_le hend _)
                  · rw [if_neg hend]
                    refine ih hheld hle (fun ht => ?_) hrest (by dsimp only; omega)
                    have hnext : e.next test len = len := if_pos ht
                    exact hnext.trans (htest ht)
                · obtain ⟨rfl, hge, hfirst, hlast⟩ := hnoRoom hhas
                  rw [if_pos hge]
                  exact iff_of_false (not_safe_finish hfirst hlast) fun hfits => hhas hfits.1

/-- The format is not read past its end, nothing is written past the end of the buffer, and a line
is text that ends with a newline, if and only if every brace that the scan comes to is closed and no
value that it prints fills the rest of the buffer. -/
theorem safe_iff (d : LogData) (call : LogCall) : Safe (fpmLogWrite d call) ↔ call.Fits d := by
  have hheld : Held ⟨fun _ => 0, bufferSize + 1⟩ 0 :=
    ⟨fun i hi => absurd hi (Nat.not_lt_zero i), Nat.le_refl _⟩
  cases call with
  | test format =>
    exact safe_scan_iff hheld (Nat.zero_le _) (fun _ => rfl) (noNul_cstr format)
      (Nat.lt_succ_self _)
  | access format =>
    exact safe_scan_iff hheld (Nat.zero_le _) (fun _ => rfl) (noNul_cstr format)
      (Nat.lt_succ_self _)
  | noSlot => exact iff_of_true (safe_refused (Nat.zero_le _)) trivial

def noData : LogData where
  cpu _ := []
  seconds := []
  miliseconds := []
  microseconds := 0
  env _ := none
  scriptFilename := []
  contentLength := 0
  requestMethod := []
  memory := 0
  pool := []
  headers := []
  pid := 0
  ppid := 0
  queryString := []
  requestUri := []
  lastClientIp := none
  httpResponseCode := 0
  strftime _ _ := []
  authUser := []

/-- The check of a format that ends in an open brace. -/
theorem not_safe : ¬∀ (d : LogData) (call : LogCall), Safe (fpmLogWrite d call) := by
  intro hclaim
  exact (hclaim noData (.test (ascii "%\x7b"))).reads.1 (by decide)

end Log

end Phpce
