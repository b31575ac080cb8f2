import Mathlib.Data.List.DropRight
import Phpce.Lib.Bytes
import Phpce.Lib.LList
import Phpce.Lib.Run

/-!
# `sapi_header_op`

The routine of `main/SAPI.c` through which a script changes the headers of its response: the list
of header lines, the response code and the status line. A header line is a list of bytes, with the
length that is stored beside it.

A run is a sequence of calls (`system`); what a call reads of the other globals comes with it.
-/

namespace Phpce

namespace Headers

open Bytes List Option

def colon : UInt8 := 58

def space : UInt8 := 32

/-- `isspace` in the C locale. -/
def isSpace (b : UInt8) : Bool := b = 32 || (9 ≤ b && b ≤ 13)

/-- `sapi_header_struct`. -/
structure HeaderStruct where
  header : Bytes
  headerLen : Nat
  deriving DecidableEq, Repr

/-- `sapi_headers_struct`; the elements of the list are named by their addresses. -/
structure SapiHeaders where
  headers : LList Nat HeaderStruct
  httpResponseCode : Int
  sendDefaultContentType : Bool
  mimetype : Option Bytes
  httpStatusLine : Option Bytes

/-- The operations that take a line. -/
inductive LineOp where
  | replace
  | add
  | delete
  deriving DecidableEq, Repr

/-- `sapi_header_line`. -/
structure HeaderLine where
  line : Bytes
  -- as the `int` it is assigned to
  responseCode : Int
  deriving DecidableEq, Repr

inductive HeaderCall where
  | line (op : LineOp) (p : HeaderLine)
  | deleteAll
  | setStatus (code : Int)
  deriving DecidableEq, Repr

/-- What the routine reads and does not change. -/
structure SapiGlobals where
  headersSent : Bool
  noHeaders : Bool
  -- `SG(default_charset)`, or `SAPI_DEFAULT_CHARSET`
  defaultCharset : Bytes
  protoNum : Int
  requestMethod : Option Bytes
  -- where the output was started, for the warning
  outputStart : Option (String × Nat)
  -- whether `sapi_module.header_handler` asks for the header to be added
  headerHandler : Option (HeaderStruct → LineOp → Bool)

inductive HeaderWarning where
  | alreadySent (start : Option (String × Nat))
  | deleteColon
  | newLine
  | nulByte
  deriving DecidableEq, Repr

def HeaderWarning.message : HeaderWarning → String
  | .alreadySent none => "Cannot modify header information - headers already sent"
  | .alreadySent (some (file, line)) =>
    "Cannot modify header information - headers already sent by (output started at " ++ file ++
      ":" ++ toString line ++ ")"
  | .deleteColon => "Header to delete may not contain colon."
  | .newLine => "Header may not contain more than a single header, new line detected"
  | .nulByte => "Header may not contain NUL bytes"

inductive HeaderResult where
  | success
  | failure (warning : Option HeaderWarning)
  deriving DecidableEq, Repr

/-! ## The status -/

/-- `atoi`: what does not fit into a `long` is cut to its range, the `int` has its low 32 bits. -/
def atoi (s : Bytes) : Int :=
  let s := s.dropWhile isSpace
  let digits := if s.head? = some 43 ∨ s.head? = some 45 then s.tail else s
  let value : Nat := (digits.takeWhile fun b => 48 ≤ b && b ≤ 57).foldl
    (fun n b => 10 * n + (b.toNat - 48)) 0
  let long : Int := if s.head? = some 45 then max (-value) (-0x8000000000000000)
    else min value 0x7fffffffffffffff
  (BitVec.ofInt 32 long).toInt

/-- `sapi_extract_response_code`. -/
def sapiExtractResponseCode : Bytes → Int
  | [] => 200
  | b :: s => if b = space ∧ s.head? ≠ some space then atoi s else sapiExtractResponseCode s

/-- `sapi_update_response_code`. -/
def sapiUpdateResponseCode (h : SapiHeaders) (ncode : Int) : SapiHeaders :=
  if h.httpResponseCode = ncode then h
  else { h with httpStatusLine := none, httpResponseCode := ncode }

/-! ## The list -/

/-- `strncasecmp(a, b, n)` is zero. -/
def strncasecmpEq (a b : Bytes) (n : Nat) : Bool :=
  ((cstr a).take n).map toLower = ((cstr b).take n).map toLower

/-- The header is one of the name, in `sapi_remove_header`. -/
def isNamed (name : Bytes) (len : Nat) (e : HeaderStruct) : Bool :=
  len < e.headerLen && e.header[len]? = some colon && strncasecmpEq e.header name len

/-- `sapi_remove_header`. -/
def sapiRemoveHeader (l : LList Nat HeaderStruct) (name : Bytes) (len : Nat) :
    LList Nat HeaderStruct :=
  l.removeWhere (isNamed name len)

/-- `(int)` of a length, where a `size_t` is wanted. -/
def intLen (n : Nat) : Nat := ((BitVec.ofNat 32 n).signExtend 64).toNat

theorem intLen_eq_self {len : Nat} (hlt : len < 0x80000000) : intLen len = len := by
  have hmsb : (BitVec.ofNat 32 len).msb = false := by
    rw [BitVec.msb_eq_decide, BitVec.toNat_ofNat, Nat.mod_eq_of_lt (by omega)]
    simpa using hlt
  rw [intLen, BitVec.toNat_signExtend, hmsb, BitVec.toNat_setWidth, BitVec.toNat_ofNat]
  simp only [Bool.false_eq_true, if_false, Nat.add_zero]
  omega

theorem lt_intLen {len : Nat} (hle : 0x80000000 ≤ len) (hlt : len < 0x100000000) :
    0x100000000 ≤ intLen len := by
  have hmsb : (BitVec.ofNat 32 len).msb = true := by
    rw [BitVec.msb_eq_decide, BitVec.toNat_ofNat, Nat.mod_eq_of_lt (by omega)]
    simpa using hle
  rw [intLen, BitVec.toNat_signExtend, hmsb, if_pos rfl]
  omega

def nameOf (line : Bytes) : Option Bytes :=
  if colon ∈ line then some (line.takeWhile (· ≠ colon)) else none

abbrev Alloc := LList Nat HeaderStruct → Nat

/-- `sapi_module.header_handler` asks for the header to be added, or there is none. -/
def handlerAdds (sg : SapiGlobals) (op : LineOp) (e : HeaderStruct) : Bool :=
  sg.headerHandler.all fun handler => handler e op

/-- `sapi_header_add_op`. -/
def sapiHeaderAddOp (sg : SapiGlobals) (op : LineOp) (e : HeaderStruct) (alloc : Alloc)
    (h : SapiHeaders) : SapiHeaders :=
  if handlerAdds sg op e then
    let headers := match op, nameOf (cstr e.header) with
      | .replace, some name => sapiRemoveHeader h.headers name (intLen name.length)
      | _, _ => h.headers
    { h with headers := headers.add (alloc headers) e }
  else h

/-! ## Lines -/

/-- `sapi_apply_default_charset`, when it changes the type. -/
def sapiApplyDefaultCharset (charset mimetype : Bytes) : Option Bytes :=
  if charset ≠ [] ∧ mimetype.take 5 = ascii "text/" ∧
      hasSubstring (ascii "charset=") mimetype = false then
    some (mimetype ++ ascii ";charset=" ++ charset)
  else none

/-- The loop that looks for line breaks and NULs; `none` when it does not end. -/
def lineCheck (line : Bytes) : Option (Option HeaderWarning) :=
  -- `i` is a `uint`: it starts again before it reaches a length of more than 32 bits
  match (line.take 0x100000000).find? fun b => b = 10 || b = 13 || b = 0 with
  | some b => some (some (if b = 0 then .nulByte else .newLine))
  | none => if line.length < 0x100000000 then some none else none

/-- The redirect for a `Location`, unless the response is one already. -/
def redirect (sg : SapiGlobals) (responseCode : Int) (h : SapiHeaders) : SapiHeaders :=
  if (h.httpResponseCode < 300 ∨ 399 < h.httpResponseCode) ∧ h.httpResponseCode ≠ 201 then
    if responseCode ≠ 0 then sapiUpdateResponseCode h responseCode
    else if 1000 < sg.protoNum ∧ sg.requestMethod.isSome ∧
        sg.requestMethod ≠ some (ascii "HEAD") ∧ sg.requestMethod ≠ some (ascii "GET") then
      sapiUpdateResponseCode h 303
    else sapiUpdateResponseCode h 302
  else h

/-- The media type, which follows the colon and blanks. -/
def mimetypeOf (line : Bytes) : Bytes :=
  ((line.dropWhile (· ≠ colon)).tail).dropWhile (· = space)

/-- A `Content-Type` line: what is stored for it. -/
def contentType (sg : SapiGlobals) (line : Bytes) : HeaderStruct :=
  match sapiApplyDefaultCharset sg.defaultCharset (mimetypeOf line) with
  | some mimetype =>
    let newheader := ascii "Content-type: " ++ mimetype
    -- the length is cast to `uint`
    ⟨newheader, newheader.length % 0x100000000⟩
  | none => ⟨line, line.length⟩

def special (sg : SapiGlobals) (p : HeaderLine) (line : Bytes) (h : SapiHeaders) :
    SapiHeaders × HeaderStruct :=
  match (nameOf line).map (List.map toLower) with
  | none => (h, ⟨line, line.length⟩)
  | some name =>
    if name = ascii "content-type" then
      ({ h with
          mimetype := h.mimetype.or ((sapiApplyDefaultCharset sg.defaultCharset
            (mimetypeOf line)).getD (mimetypeOf line))
          sendDefaultContentType := false },
        contentType sg line)
    else if name = ascii "location" then (redirect sg p.responseCode h, ⟨line, line.length⟩)
    else if name = ascii "www-authenticate" then
      (sapiUpdateResponseCode h 401, ⟨line, line.length⟩)
    else (h, ⟨line, line.length⟩)

/-- Trailing blanks and line breaks are cut off. -/
def trim (line : Bytes) : Bytes := line.rdropWhile isSpace

def isStatusLine (line : Bytes) : Bool := (line.take 5).map toLower = ascii "http/"

/-- `sapi_header_op`; `none` when it does not return. -/
def sapiHeaderOp (sg : SapiGlobals) (call : HeaderCall) (alloc : Alloc) (h : SapiHeaders) :
    Option (SapiHeaders × HeaderResult) :=
  if sg.headersSent ∧ ¬sg.noHeaders then
    some (h, .failure (some (.alreadySent sg.outputStart)))
  else
    match call with
    | .setStatus code => some (sapiUpdateResponseCode h code, .success)
    | .deleteAll =>
      some ({ h with headers := .empty h.headers.links h.headers.data }, .success)
    | .line op p =>
      let line := trim p.line
      if p.line = [] then some (h, .failure none)
      else if op = .delete then
        if colon ∈ cstr line then some (h, .failure (some .deleteColon))
        else some ({ h with headers := sapiRemoveHeader h.headers line line.length }, .success)
      else
        (lineCheck line).map fun
          | some warning => (h, .failure (some warning))
          | none =>
            if isStatusLine line then
              ({ sapiUpdateResponseCode h (sapiExtractResponseCode line) with
                  httpStatusLine := some line }, .success)
            else
              let (h, e) := special sg p line h
              let h := if p.responseCode ≠ 0 then sapiUpdateResponseCode h p.responseCode else h
              (sapiHeaderAddOp sg op e alloc h, .success)

/-! ## Runs -/

structure HeaderEvent where
  sg : SapiGlobals
  call : HeaderCall
  alloc : Alloc

def system : EventSystem SapiHeaders HeaderEvent where
  step h e := (sapiHeaderOp e.sg e.call e.alloc h).map Prod.fst

/-- The allocator gives an address that is not one of the elements of the list. -/
def Fresh (alloc : Alloc) : Prop := ∀ l xs, l.Cells xs → alloc l ∉ xs

def nextAddress : Alloc := fun l => l.cells.foldr max 0 + 1

/-- `sapi_activate`. -/
def sapiActivate (links : Links Nat) (data : Nat → HeaderStruct) (code : Int) : SapiHeaders where
  headers := .empty links data
  httpResponseCode := code
  sendDefaultContentType := true
  mimetype := none
  httpStatusLine := none

/-! ## What a call does to the list -/

def storedHeader (sg : SapiGlobals) (line : Bytes) : HeaderStruct :=
  if (nameOf line).map (List.map toLower) = some (ascii "content-type") then contentType sg line
  else ⟨line, line.length⟩

def addedHeader (sg : SapiGlobals) : HeaderCall → Option HeaderStruct
  | .line op p =>
    let line := trim p.line
    if (sg.headersSent ∧ ¬sg.noHeaders) ∨ p.line = [] ∨ op = .delete ∨
        lineCheck line ≠ some none ∨ isStatusLine line ∨
        handlerAdds sg op (storedHeader sg line) = false then none
    else some (storedHeader sg line)
  | _ => none

def removedName (sg : SapiGlobals) (call : HeaderCall) : Option (Bytes × Nat) :=
  match call with
  | .line .delete p =>
    if (sg.headersSent ∧ ¬sg.noHeaders) ∨ p.line = [] ∨ colon ∈ cstr (trim p.line) then none
    else some (trim p.line, (trim p.line).length)
  | .line .replace _ =>
    (addedHeader sg call).bind fun e =>
      (nameOf (cstr e.header)).map fun name => (name, intLen name.length)
  | _ => none

def clearsAll (sg : SapiGlobals) (call : HeaderCall) : Bool :=
  call = .deleteAll && !(sg.headersSent && !sg.noHeaders)

def listAfter (sg : SapiGlobals) (call : HeaderCall) (es : List HeaderStruct) :
    List HeaderStruct :=
  if clearsAll sg call then []
  else
    (match removedName sg call with
      | some (name, len) => es.filter fun e => !isNamed name len e
      | none => es) ++ (addedHeader sg call).toList

def headersAfter (sg : SapiGlobals) (call : HeaderCall) (alloc : Alloc)
    (l : LList Nat HeaderStruct) : LList Nat HeaderStruct :=
  if clearsAll sg call then .empty l.links l.data
  else
    let l := match removedName sg call with
      | some (name, len) => sapiRemoveHeader l name len
      | none => l
    match addedHeader sg call with
    | some e => l.add (alloc l) e
    | none => l

/-- The list is left alone, the status line is so or is given up. -/
structure KeepsList (h h' : SapiHeaders) : Prop where
  headers : h'.headers = h.headers
  statusLine : h'.httpStatusLine = h.httpStatusLine ∨ h'.httpStatusLine = none

variable {sg : SapiGlobals} {h h' h'' : SapiHeaders} {alloc : Alloc} {p : HeaderLine}
  {op : LineOp} {call : HeaderCall} {line : Bytes} {xs : List Nat} {r : HeaderResult}

theorem KeepsList.refl (h : SapiHeaders) : KeepsList h h := ⟨rfl, .inl rfl⟩

theorem KeepsList.trans (h₁ : KeepsList h h') (h₂ : KeepsList h' h'') : KeepsList h h'' := by
  refine ⟨h₂.headers.trans h₁.headers, ?_⟩
  rcases h₂.statusLine with heq | hnone
  · rw [heq]
    exact h₁.statusLine
  · exact .inr hnone

theorem keepsList_updateResponseCode (h : SapiHeaders) (code : Int) :
    KeepsList h (sapiUpdateResponseCode h code) := by
  unfold sapiUpdateResponseCode
  split
  · exact .refl h
  · exact ⟨rfl, .inr rfl⟩

theorem keepsList_redirect (h : SapiHeaders) (code : Int) : KeepsList h (redirect sg code h) := by
  unfold redirect
  split
  · split
    · exact keepsList_updateResponseCode h _
    · split
      · exact keepsList_updateResponseCode h _
      · exact keepsList_updateResponseCode h _
  · exact .refl h

theorem special_eq (sg : SapiGlobals) (p : HeaderLine) (line : Bytes) (h : SapiHeaders) :
    KeepsList h (special sg p line h).1 ∧ (special sg p line h).2 = storedHeader sg line := by
  unfold special storedHeader
  cases (nameOf line).map (List.map toLower) with
  | none => exact ⟨.refl h, rfl⟩
  | some name =>
    dsimp only
    by_cases htype : name = ascii "content-type"
    · rw [if_pos htype, if_pos (congrArg some htype)]
      exact ⟨⟨rfl, .inl rfl⟩, rfl⟩
    · rw [if_neg htype, if_neg fun heq => htype (some.inj heq)]
      split
      · exact ⟨keepsList_redirect h _, rfl⟩
      · split
        · exact ⟨keepsList_updateResponseCode h _, rfl⟩
        · exact ⟨.refl h, rfl⟩

theorem sapiHeaderAddOp_headers (op : LineOp) (e : HeaderStruct) (hop : op ≠ .delete) :
    (sapiHeaderAddOp sg op e alloc h).headers =
      if handlerAdds sg op e then
        let l := match (if op = .replace then nameOf (cstr e.header) else none) with
          | some name => sapiRemoveHeader h.headers name (intLen name.length)
          | none => h.headers
        l.add (alloc l) e
      else h.headers := by
  unfold sapiHeaderAddOp
  split
  · cases op with
    | replace =>
      cases nameOf (cstr e.header) with
      | none => rfl
      | some name => rfl
    | add => rfl
    | delete => exact absurd rfl hop
  · rfl

theorem headersAfter_of_none {l : LList Nat HeaderStruct} (hclears : clearsAll sg call = false)
    (hremoved : removedName sg call = none) (hadded : addedHeader sg call = none) :
    headersAfter sg call alloc l = l := by
  rw [headersAfter, hclears, hremoved, hadded]
  rfl

theorem clearsAll_line : clearsAll sg (.line op p) = false := rfl

theorem addedHeader_line (sg : SapiGlobals) (op : LineOp) (p : HeaderLine)
    (hsent : ¬(sg.headersSent ∧ ¬sg.noHeaders)) (hline : p.line ≠ [])
    (hop : op ≠ .delete) (hcheck : lineCheck (trim p.line) = some none)
    (hstatus : isStatusLine (trim p.line) = false) :
    addedHeader sg (.line op p) =
      if handlerAdds sg op (storedHeader sg (trim p.line)) then
        some (storedHeader sg (trim p.line)) else none := by
  rw [addedHeader]
  cases hadds : handlerAdds sg op (storedHeader sg (trim p.line)) with
  | true =>
    rw [if_pos rfl, if_neg]
    rintro (h | h | h | h | h | h)
    · exact hsent h
    · exact hline h
    · exact hop h
    · exact h hcheck
    · exact Bool.false_ne_true (hstatus.symm.trans h)
    · cases h
  | false => rw [if_neg Bool.false_ne_true, if_pos (by simp)]

theorem removedName_line (hop : op ≠ .delete) :
    removedName sg (.line op p) =
      if op = .replace then
        (addedHeader sg (.line op p)).bind fun e =>
          (nameOf (cstr e.header)).map fun name => (name, intLen name.length)
      else none := by
  cases op with
  | replace => rfl
  | add => rfl
  | delete => exact absurd rfl hop

theorem removedName_of_not_added (hop : op ≠ .delete)
    (hadded : addedHeader sg (.line op p) = none) : removedName sg (.line op p) = none := by
  rw [removedName_line hop, hadded]
  split
  · rfl
  · rfl

theorem headersAfter_line {l : LList Nat HeaderStruct} (hop : op ≠ .delete)
    (hadded : addedHeader sg (.line op p) =
      if handlerAdds sg op (storedHeader sg line) then some (storedHeader sg line) else none)
    (hkeeps : h'.headers = l) :
    headersAfter sg (.line op p) alloc l =
      (sapiHeaderAddOp sg op (storedHeader sg line) alloc h').headers := by
  rw [sapiHeaderAddOp_headers op _ hop, hkeeps, headersAfter, clearsAll_line,
    if_neg Bool.false_ne_true, removedName_line hop, hadded]
  cases handlerAdds sg op (storedHeader sg line) with
  | true =>
    cases op with
    | replace =>
      simp only [if_true, bind_some]
      cases nameOf (cstr (storedHeader sg line).header) with
      | none => rfl
      | some name => rfl
    | add => rfl
    | delete => exact absurd rfl hop
  | false =>
    cases op with
    | replace => rfl
    | add => rfl
    | delete => exact absurd rfl hop

structure Done (sg : SapiGlobals) (call : HeaderCall) (alloc : Alloc) (h h' : SapiHeaders)
    (r : HeaderResult) : Prop where
  headers : h'.headers = headersAfter sg call alloc h.headers
  statusLine : h'.httpStatusLine = h.httpStatusLine ∨ h'.httpStatusLine = none ∨
    ∃ op p, call = .line op p ∧ lineCheck (trim p.line) = some none ∧
      h'.httpStatusLine = some (trim p.line)
  rejected : ∀ w, r = .failure w → h' = h

theorem done_refused (hclears : clearsAll sg call = false) (hremoved : removedName sg call = none)
    (hadded : addedHeader sg call = none) : Done sg call alloc h h r :=
  ⟨(headersAfter_of_none hclears hremoved hadded).symm, .inl rfl, fun _ _ => rfl⟩

theorem done_refused_line (hremoved : op = .delete → removedName sg (.line op p) = none)
    (hadded : addedHeader sg (.line op p) = none) : Done sg (.line op p) alloc h h r := by
  refine done_refused rfl ?_ hadded
  by_cases hop : op = .delete
  · exact hremoved hop
  · exact removedName_of_not_added hop hadded

theorem done_sent (hsent : sg.headersSent ∧ ¬sg.noHeaders) : Done sg call alloc h h r := by
  cases call with
  | line op p =>
    refine done_refused_line (fun hop => ?_) (by simp [addedHeader, hsent])
    rw [hop, removedName, if_pos (.inl hsent)]
  | deleteAll => exact done_refused (by simp [clearsAll, hsent]) rfl rfl
  | setStatus code => exact done_refused rfl rfl rfl

theorem done_deleteAll (hsent : ¬(sg.headersSent ∧ ¬sg.noHeaders)) :
    Done sg .deleteAll alloc h { h with headers := .empty h.headers.links h.headers.data }
      .success := by
  have hopen : (sg.headersSent && !sg.noHeaders) = false :=
    Bool.eq_false_iff.mpr fun hboth => hsent (by simpa using hboth)
  have hclears : clearsAll sg .deleteAll = true := by simp [clearsAll, hopen]
  refine ⟨?_, .inl rfl, fun _ hw => by cases hw⟩
  rw [headersAfter, if_pos hclears]

theorem done_delete (hsent : ¬(sg.headersSent ∧ ¬sg.noHeaders)) (hline : p.line ≠ [])
    (hcolon : colon ∉ cstr (trim p.line)) :
    Done sg (.line .delete p) alloc h
      { h with headers := sapiRemoveHeader h.headers (trim p.line) (trim p.line).length }
      .success := by
  have hadded : addedHeader sg (.line .delete p) = none := by simp [addedHeader]
  have hremoved : removedName sg (.line .delete p) =
      some (trim p.line, (trim p.line).length) := by
    rw [removedName, if_neg]
    rintro (h | h | h)
    · exact hsent h
    · exact hline h
    · exact hcolon h
  refine ⟨?_, .inl rfl, fun _ hw => by cases hw⟩
  rw [headersAfter, clearsAll_line, hremoved, hadded]
  rfl

theorem done_statusLine (hop : op ≠ .delete) (hcheck : lineCheck (trim p.line) = some none)
    (hstatus : isStatusLine (trim p.line) = true) (code : Int) :
    Done sg (.line op p) alloc h
      { sapiUpdateResponseCode h code with httpStatusLine := some (trim p.line) } .success := by
  have hadded : addedHeader sg (.line op p) = none := by simp [addedHeader, hstatus]
  refine ⟨?_, .inr (.inr ⟨op, p, rfl, hcheck, rfl⟩), fun _ hw => by cases hw⟩
  rw [headersAfter_of_none rfl (removedName_of_not_added hop hadded) hadded]
  exact (keepsList_updateResponseCode h code).headers

theorem statusLine_sapiHeaderAddOp (e : HeaderStruct) :
    (sapiHeaderAddOp sg op e alloc h).httpStatusLine = h.httpStatusLine := by
  unfold sapiHeaderAddOp
  split
  · rfl
  · rfl

theorem done_add (hsent : ¬(sg.headersSent ∧ ¬sg.noHeaders)) (hline : p.line ≠ [])
    (hop : op ≠ .delete) (hcheck : lineCheck (trim p.line) = some none)
    (hstatus : isStatusLine (trim p.line) = false) (hkeeps : KeepsList h h') :
    Done sg (.line op p) alloc h
      (sapiHeaderAddOp sg op (storedHeader sg (trim p.line)) alloc h') .success := by
  have hadded := addedHeader_line sg op p hsent hline hop hcheck hstatus
  refine ⟨(headersAfter_line hop hadded hkeeps.headers).symm, ?_, fun _ hw => by cases hw⟩
  rw [statusLine_sapiHeaderAddOp]
  exact hkeeps.statusLine.imp_right .inl

theorem sapiHeaderOp_done (hr : sapiHeaderOp sg call alloc h = some (h', r)) :
    Done sg call alloc h h' r := by
  unfold sapiHeaderOp at hr
  split at hr
  · rename_i hsent
    obtain ⟨rfl, rfl⟩ := Prod.mk.inj (some.inj hr)
    exact done_sent hsent
  · rename_i hsent
    cases call with
    | setStatus code =>
      obtain ⟨rfl, rfl⟩ := Prod.mk.inj (some.inj hr)
      have hkeeps := keepsList_updateResponseCode h code
      exact ⟨hkeeps.headers, hkeeps.statusLine.imp_right .inl, fun _ hw => by cases hw⟩
    | deleteAll =>
      obtain ⟨rfl, rfl⟩ := Prod.mk.inj (some.inj hr)
      exact done_deleteAll hsent
    | line op p =>
      dsimp only at hr
      split at hr
      · rename_i hline
        obtain ⟨rfl, rfl⟩ := Prod.mk.inj (some.inj hr)
        refine done_refused_line (fun hop => ?_) (by simp [addedHeader, hline])
        rw [hop, removedName, if_pos (.inr (.inl hline))]
      · rename_i hline
        split at hr
        · rename_i hop
          subst hop
          split at hr
          · rename_i hcolon
            obtain ⟨rfl, rfl⟩ := Prod.mk.inj (some.inj hr)
            refine done_refused_line (fun _ => ?_) (by simp [addedHeader])
            rw [removedName, if_pos (.inr (.inr hcolon))]
          · rename_i hcolon
            obtain ⟨rfl, rfl⟩ := Prod.mk.inj (some.inj hr)
            exact done_delete hsent hline hcolon
        · rename_i hop
          obtain ⟨check, hcheck, hcall⟩ := map_eq_some_iff.mp hr
          cases check with
          | some warning =>
            obtain ⟨rfl, rfl⟩ := Prod.mk.inj hcall
            exact done_refused_line (fun h => absurd h hop) (by simp [addedHeader, hcheck])
          | none =>
            dsimp only at hcall
            split at hcall
            · rename_i hstatus
              obtain ⟨rfl, rfl⟩ := Prod.mk.inj hcall
              exact done_statusLine hop hcheck hstatus _
            · rename_i hstatus
              obtain ⟨rfl, rfl⟩ := Prod.mk.inj hcall
              obtain ⟨hspecial, hstored⟩ := special_eq sg p (trim p.line) h
              rw [hstored]
              refine done_add hsent hline hop hcheck (Bool.not_eq_true _ ▸ hstatus) ?_
              split
              · exact hspecial.trans (keepsList_updateResponseCode _ _)
              · exact hspecial

variable {e : HeaderStruct} {b : Bytes}

theorem fresh_nextAddress : Fresh nextAddress := by
  intro l xs hl
  rw [nextAddress, hl.cells_eq]
  have hle : ∀ x ∈ xs, x ≤ xs.foldr max 0 := fun x hx => by
    clear hl
    induction xs with
    | nil => exact absurd hx not_mem_nil
    | cons y ys ih =>
      rw [foldr_cons]
      rcases mem_cons.mp hx with rfl | hx
      · exact Nat.le_max_left ..
      · exact Nat.le_trans (ih hx) (Nat.le_max_right ..)
  intro hmem
  have hself := hle _ hmem
  omega

theorem cells_headersAfter {l : LList Nat HeaderStruct} (halloc : Fresh alloc) (hl : l.Cells xs) :
    (∃ ys, (headersAfter sg call alloc l).Cells ys) ∧
      (headersAfter sg call alloc l).toList = listAfter sg call l.toList := by
  have hremoved : ∃ ys, (match removedName sg call with
      | some (name, len) => sapiRemoveHeader l name len
      | none => l).Cells ys ∧
      (match removedName sg call with
      | some (name, len) => sapiRemoveHeader l name len
      | none => l).toList =
      (match removedName sg call with
      | some (name, len) => l.toList.filter fun e => !isNamed name len e
      | none => l.toList) := by
    cases removedName sg call with
    | none => exact ⟨xs, hl, rfl⟩
    | some named => exact ⟨_, hl.removeWhere, hl.toList_removeWhere⟩
  unfold headersAfter listAfter
  split
  · exact ⟨⟨[], LList.cells_empty _ _⟩, rfl⟩
  · obtain ⟨ys, hys, hlist⟩ := hremoved
    dsimp only
    rw [← hlist]
    cases addedHeader sg call with
    | none => exact ⟨⟨ys, hys⟩, (append_nil _).symm⟩
    | some e =>
      have hfresh := halloc _ _ hys
      exact ⟨⟨_, hys.add hfresh⟩, hys.toList_add hfresh⟩

theorem step_toList {ev : HeaderEvent} (halloc : Fresh ev.alloc) (hl : h.headers.WellFormed)
    (hstep : system.step h ev = some h') :
    h'.headers.WellFormed ∧ h'.headers.toList = listAfter ev.sg ev.call h.headers.toList := by
  obtain ⟨⟨h'', r⟩, hr, rfl⟩ := map_eq_some_iff.mp hstep
  obtain ⟨xs, hxs⟩ := hl
  rw [(sapiHeaderOp_done hr).headers]
  exact cells_headersAfter halloc hxs

/-! ## Lines that pass the check -/

def LineClean (b : Bytes) : Prop := ∀ x ∈ b, x ≠ 10 ∧ x ≠ 13 ∧ x ≠ 0

theorem lineClean_of_all (h : b.all (fun x => x != 10 && x != 13 && x != 0) = true) :
    LineClean b := by
  intro x hx
  simpa [and_assoc] using List.all_eq_true.mp h x hx

theorem lineCheck_eq_some_none :
    lineCheck b = some none ↔ LineClean b ∧ b.length < 0x100000000 := by
  unfold lineCheck
  constructor
  · intro hcheck
    split at hcheck
    · cases hcheck
    · rename_i hnone
      split at hcheck
      · rename_i hlt
        rw [take_of_length_le (Nat.le_of_lt hlt), List.find?_eq_none] at hnone
        exact ⟨fun x hx => by simpa [and_assoc] using hnone x hx, hlt⟩
      · cases hcheck
  · rintro ⟨hclean, hlt⟩
    have hnone : (b.take 0x100000000).find? (fun b => b = 10 || b = 13 || b = 0) = none := by
      rw [take_of_length_le (Nat.le_of_lt hlt), List.find?_eq_none]
      intro x hx
      simpa [and_assoc] using hclean x hx
    rw [hnone]
    exact if_pos hlt

theorem LineClean.append {c : Bytes} (hb : LineClean b) (hc : LineClean c) :
    LineClean (b ++ c) := by
  intro x hx
  rcases mem_append.mp hx with hx | hx
  · exact hb x hx
  · exact hc x hx

theorem LineClean.sublist {c : Bytes} (hb : LineClean b) (hc : c ⊆ b) : LineClean c :=
  fun x hx => hb x (hc hx)

theorem LineClean.cstr_eq (hb : LineClean b) : cstr b = b :=
  takeWhile_eq_self_iff.mpr fun x hx => by simpa using (hb x hx).2.2

theorem mimetypeOf_subset (line : Bytes) : mimetypeOf line ⊆ line :=
  List.Subset.trans (dropWhile_subset _)
    (List.Subset.trans (fun _ => mem_of_mem_tail) (dropWhile_subset _))

theorem sapiApplyDefaultCharset_eq_some {charset mimetype m : Bytes}
    (h : sapiApplyDefaultCharset charset mimetype = some m) :
    m = mimetype ++ ascii ";charset=" ++ charset := by
  unfold sapiApplyDefaultCharset at h
  split at h
  · exact (some.inj h).symm
  · cases h

theorem storedHeader_cases (sg : SapiGlobals) (line : Bytes) :
    storedHeader sg line = ⟨line, line.length⟩ ∨
      ∃ m, (nameOf line).map (List.map toLower) = some (ascii "content-type") ∧
        sapiApplyDefaultCharset sg.defaultCharset (mimetypeOf line) = some m ∧
        storedHeader sg line = ⟨ascii "Content-type: " ++ m,
          (ascii "Content-type: " ++ m).length % 0x100000000⟩ := by
  unfold storedHeader
  split
  · rename_i hname
    unfold contentType
    cases hm : sapiApplyDefaultCharset sg.defaultCharset (mimetypeOf line) with
    | none => exact .inl rfl
    | some m => exact .inr ⟨m, hname, rfl, rfl⟩
  · exact .inl rfl

theorem lineClean_ascii_type : LineClean (ascii "Content-type: ") := lineClean_of_all rfl

theorem lineClean_ascii_charset : LineClean (ascii ";charset=") := lineClean_of_all rfl

theorem lineClean_storedHeader (hline : LineClean line) (hcharset : LineClean sg.defaultCharset) :
    LineClean (storedHeader sg line).header := by
  rcases storedHeader_cases sg line with heq | ⟨m, -, hm, heq⟩
  · rw [heq]
    exact hline
  · rw [heq, sapiApplyDefaultCharset_eq_some hm]
    exact lineClean_ascii_type.append
      (((hline.sublist (mimetypeOf_subset line)).append lineClean_ascii_charset).append hcharset)

theorem addedHeader_eq_some (hadded : addedHeader sg call = some e) :
    ∃ op p, call = .line op p ∧ LineClean (trim p.line) ∧ (trim p.line).length < 0x100000000 ∧
      e = storedHeader sg (trim p.line) := by
  cases call with
  | deleteAll => cases hadded
  | setStatus code => cases hadded
  | line op p =>
    unfold addedHeader at hadded
    dsimp only at hadded
    split at hadded
    · cases hadded
    · rename_i hnot
      simp only [not_or, not_not] at hnot
      obtain ⟨hclean, hlt⟩ := lineCheck_eq_some_none.mp hnot.2.2.2.1
      exact ⟨op, p, rfl, hclean, hlt, (some.inj hadded).symm⟩

theorem mem_listAfter {es : List HeaderStruct} (he : e ∈ listAfter sg call es) :
    e ∈ es ∨ addedHeader sg call = some e := by
  unfold listAfter at he
  split at he
  · cases he
  · rcases mem_append.mp he with he | he
    · left
      split at he
      · exact mem_of_mem_filter he
      · exact he
    · exact .inr (mem_toList.mp he)

theorem addedHeader_mem_listAfter {es : List HeaderStruct} (hadded : addedHeader sg call = some e) :
    e ∈ listAfter sg call es := by
  have hclears : clearsAll sg call = false := by
    obtain ⟨op, p, rfl, -⟩ := addedHeader_eq_some hadded
    rfl
  rw [listAfter, if_neg (by simp [hclears]), hadded]
  exact mem_append_right _ (mem_singleton_self e)

theorem exists_step_of_added (h : SapiHeaders) (ev : HeaderEvent)
    (hadded : addedHeader ev.sg ev.call = some e) :
    ∃ h', system.step h ev = some h' := by
  obtain ⟨sg, call, alloc⟩ := ev
  obtain ⟨op, p, rfl, -⟩ := addedHeader_eq_some hadded
  unfold addedHeader at hadded
  dsimp only at hadded
  split at hadded
  · cases hadded
  · rename_i hnot
    simp only [not_or, ne_eq, not_not] at hnot
    obtain ⟨hsent, hline, hop, hcheck, -⟩ := hnot
    have hsome : ((sapiHeaderOp sg (.line op p) alloc h).map Prod.fst).isSome := by
      rw [sapiHeaderOp, if_neg hsent]
      dsimp only
      rw [if_neg hline, if_neg hop, hcheck]
      rfl
    exact isSome_iff_exists.mp hsome

theorem wellFormed_sapiActivate {links : Links Nat} {data : Nat → HeaderStruct} {code : Int} :
    (sapiActivate links data code).headers.WellFormed :=
  ⟨[], LList.cells_empty _ _⟩

def unsent : SapiGlobals where
  headersSent := false
  noHeaders := false
  defaultCharset := ascii "UTF-8"
  protoNum := 1001
  requestMethod := some (ascii "GET")
  outputStart := none
  headerHandler := none

def onUnsent (call : HeaderCall) : HeaderEvent := ⟨unsent, call, nextAddress⟩

end Headers

end Phpce
