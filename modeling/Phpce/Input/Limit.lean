import Phpce.Input.PostVars
import Phpce.Input.Protected

/-!
# The limit on input variables

The loops that count variables against `max_input_vars`: that of `php_default_treat_data`, which
reads query strings, cookies and strings, that of `add_post_vars`, and that of
`rfc1867_post_handler` over the parts of a multipart body. What reaches
`php_register_variable_safe` is logged.

* **`inputVars_le`**: what the limit bounds.
-/

namespace Phpce

namespace Input

open Bytes List

/-! ## `php_default_treat_data` -/

/-- `PARSE_GET`, `PARSE_COOKIE` and `PARSE_STRING` -/
inductive Parse where
  | get
  | cookie
  | string
  deriving DecidableEq

/-- `php_strtok_r`: the token, and what stands behind the separator that ends it. -/
def phpStrtokR (separator s : Bytes) : Option (Bytes × Bytes) :=
  match s.dropWhile (· ∈ separator) with
  | [] => none
  | c :: r => some ((c :: r).takeWhile (· ∉ separator), ((c :: r).dropWhile (· ∉ separator)).drop 1)

/-- The name and the value of a token; nothing for a cookie without a name. -/
def readVar (arg : Parse) (var : Bytes) : Option (Bytes × Bytes) :=
  let val := (cutAt 61 var).map Prod.snd
  let var := ((cutAt 61 var).map Prod.fst).getD var
  let var := if arg = .cookie then var.dropWhile isspace else var
  if arg = .cookie ∧ var = [] then none
  else some (cstr (Url.urlDecode var), (val.map Url.urlDecode).getD [])

theorem length_phpStrtokR {separator s var rest : Bytes}
    (h : phpStrtokR separator s = some (var, rest)) : rest.length < s.length := by
  have hle := (dropWhile_sublist (· ∈ separator) (l := s)).length_le
  rw [phpStrtokR] at h
  split at h
  next => exact absurd h (Option.some_ne_none _).symm
  next c r hs =>
    obtain ⟨-, rfl⟩ := Prod.mk.inj (Option.some.inj h)
    have hle' := (dropWhile_sublist (· ∉ separator) (l := c :: r)).length_le
    rw [hs, length_cons] at hle
    rw [length_cons] at hle'
    rw [length_drop]
    omega

section

variable (inputFilter : InputFilter) (maxInputVars : Nat)

def filtered (var : Bytes × Bytes) : List (Bytes × Bytes) :=
  ((inputFilter var.1 var.2).map fun val => (var.1, val)).toList

/-- The loop over the tokens of `res`. -/
def treatLoop (arg : Parse) (separator : Bytes) (count : Nat) (res : Bytes) :
    List (Bytes × Bytes) :=
  match _h : phpStrtokR separator res with
  | none => []
  | some (var, rest) =>
    match readVar arg var with
    | none => treatLoop arg separator count rest
    | some var =>
      if maxInputVars < count + 1 then []
      else filtered inputFilter var ++ treatLoop arg separator (count + 1) rest
termination_by res.length
decreasing_by all_goals exact length_phpStrtokR ‹_›

/-- What `php_default_treat_data` registers for a string, which may be missing. -/
def phpDefaultTreatData (arg : Parse) (argSeparator : Bytes) (res : Option Bytes) :
    List (Bytes × Bytes) :=
  match res with
  | none => []
  | some res =>
    treatLoop inputFilter maxInputVars arg (if arg = .cookie then [59] else cstr argSeparator) 0
      (cstr res)

end

/-! ## `rfc1867_post_handler` -/

/-- What `multipart_buffer_headers` has found for a part, and what comes of its body. -/
structure Part where
  /-- It has a `Content-Disposition`. -/
  disposition : Bool
  param : Option Bytes
  filename : Option Bytes
  contentType : Option Bytes
  /-- What `multipart_buffer_read_body` gives for a form variable. -/
  value : Bytes
  /-- What `php_rfc1867_callback` makes of the value of a form variable, unless it refuses it. -/
  formdata : Bytes → Option Bytes
  /-- `php_rfc1867_callback` refuses the file. -/
  refused : Bool
  /-- `cancel_upload` after the body of a file has been read. -/
  cancelUpload : Bool

/-- Where a variable is put: `array_ptr`, nowhere, or `PG(http_globals)[TRACK_VARS_FILES]`. -/
inductive Target where
  | post
  | none
  | files
  deriving DecidableEq

/-- A call of `php_register_variable_safe`. -/
structure Call where
  var : Bytes
  strval : Bytes
  target : Target

/-- The variables of `rfc1867_post_handler` that one part leaves for the next. -/
structure Handler where
  count : Nat
  uploadCnt : Int
  skipUpload : Bool
  anonindex : Nat
  rfc1867ProtectedVariables : List Bytes

/-- The settings, and the functions that the handler is given. -/
structure Upload where
  maxInputVars : Nat
  maxFileUploads : Int
  fileUploads : Bool
  inputFilter : InputFilter
  basename : Bytes → Option Bytes

/-- A name after `normalize_protected_variable`. -/
def normalized (varname : Bytes) : Bytes :=
  cstr ((normalizeProtectedVariable (cstr varname ++ [0])).getD [])

/-- `safe_php_register_variable` without `override_protection`, which leaves the name normalised. -/
def safePhpRegisterVariable (protectedVariables : List Bytes) (var strval : Bytes)
    (target : Target) : List Call :=
  if protectedVariables.contains (normalized var) then [] else [⟨normalized var, strval, target⟩]

/-- The loop over the brackets of a name, of which `c` are open: it sets `skip_upload`. -/
def garbledBrackets : Int → Bytes → Bool
  | c, [] => c ≠ 0
  | c, t :: tmp =>
    let c := if t = 91 then c + 1 else if t = 93 then c - 1 else c
    (t = 93 && tmp ≠ [] && tmp.head? ≠ some 91) || decide (c < 0) || garbledBrackets c tmp

/-- `abuf` and `array_index`, where the name ends in brackets. -/
def arrUpload (param : Bytes) : Option (Bytes × Bytes) :=
  match cutAt 91 param with
  | none => Option.none
  | some (abuf, startArr) =>
    if param.getLast? = some 93 then some (abuf, startArr.dropLast) else Option.none

/-- A name of `$foo_name` or of `$foo[name]`. -/
def fileVar (param : Bytes) (before after : String) : Bytes :=
  match arrUpload param with
  | some (abuf, arrayIndex) =>
    abuf ++ ascii before ++ ascii "[" ++ arrayIndex ++ ascii "]"
  | Option.none => param ++ ascii after

def fileCalls (U : Upload) (protectedVariables : List Bytes) (isAnonymous : Bool)
    (param filename : Bytes) (contentType : Option Bytes) (cancelUpload : Bool) :
    List Call × List Bytes :=
  let s := (U.basename filename).getD filename
  let cd := if cancelUpload then [] else ((contentType.getD []).takeWhile (· ≠ 59))
  let register (var strval : Bytes) (target : Target) :=
    safePhpRegisterVariable protectedVariables var strval target
  let calls :=
    (if isAnonymous then [] else register (fileVar param "_name" "_name") s .none) ++
      register (fileVar param "[name]" "[name]") s .files ++
      (if isAnonymous then [] else register (fileVar param "_type" "_type") cd .none) ++
      register (fileVar param "[type]" "[type]") cd .files
  -- `param` is left normalised, where `abuf` and `array_index` are copies
  let tmpName :=
    match arrUpload param with
    | some _ => fileVar param "[tmp_name]" "[tmp_name]"
    | Option.none => normalized param ++ ascii "[tmp_name]"
  (calls, protectedVariables ++ [normalized param, normalized tmpName])

/-- One part: the calls, and the state after it unless the handler is done. -/
def handlePart (U : Upload) (h : Handler) (part : Part) : List Call × Option Handler :=
  if ¬part.disposition then ([], some h)
  else
    match part.param, part.filename with
    | some param, Option.none =>
      let count := h.count + 1
      let calls :=
        if count ≤ U.maxInputVars then
          match (U.inputFilter param part.value).bind part.formdata with
          | Option.none => []
          | some val => safePhpRegisterVariable h.rfc1867ProtectedVariables param val .post
        else []
      (calls, some { h with count := count })
    | Option.none, Option.none => ([], Option.none)
    | param, some filename =>
      let skipUpload := h.skipUpload || !U.fileUploads || decide (h.uploadCnt ≤ 0)
      let isAnonymous := param.isNone
      let anonindex := if isAnonymous then h.anonindex + 1 else h.anonindex
      let param := param.getD (decimalNat h.anonindex)
      let skipUpload := skipUpload || garbledBrackets 0 param
      if skipUpload ∨ part.refused then
        ([], some { h with skipUpload := skipUpload, anonindex := anonindex })
      else
        -- where no file has been chosen, `cancel_upload` is set and nothing is read
        let cancelUpload := filename = [] || part.cancelUpload
        let uploadCnt := if filename = [] then h.uploadCnt else h.uploadCnt - 1
        let r := fileCalls U h.rfc1867ProtectedVariables isAnonymous param filename
          part.contentType cancelUpload
        (r.1, some { h with
          uploadCnt := uploadCnt
          skipUpload := skipUpload
          anonindex := anonindex
          rfc1867ProtectedVariables := r.2 })

def handleParts (U : Upload) : Handler → List Part → List Call
  | _, [] => []
  | h, part :: parts =>
    match handlePart U h part with
    | (calls, Option.none) => calls
    | (calls, some h) => calls ++ handleParts U h parts

def rfc1867PostHandler (U : Upload) (parts : List Part) : List Call :=
  handleParts U ⟨0, U.maxFileUploads, false, 0, []⟩ parts

/-! ## What is counted -/

section

variable {inputFilter : InputFilter} {maxInputVars : Nat}

theorem length_filtered_le (inputFilter : InputFilter) (var : Bytes × Bytes) :
    (filtered inputFilter var).length ≤ 1 := by
  rw [filtered]
  cases inputFilter var.1 var.2 with
  | none => exact Nat.zero_le 1
  | some val => exact Nat.le_refl 1

theorem length_registered_le (inputFilter : InputFilter) (segment : Bytes) :
    (registered inputFilter segment).length ≤ 1 := length_filtered_le inputFilter (readPair segment)

theorem length_treatLoop_le (arg : Parse) (separator : Bytes) (count : Nat) (res : Bytes) :
    (treatLoop inputFilter maxInputVars arg separator count res).length ≤ maxInputVars - count := by
  fun_induction treatLoop inputFilter maxInputVars arg separator count res with
  | case1 => exact Nat.zero_le _
  | case2 count res var rest _ _ ih => exact ih
  | case3 => exact Nat.zero_le _
  | case4 count res var rest _ var' _ hmax ih =>
    have hone := length_filtered_le inputFilter var'
    rw [length_append]
    omega

theorem length_flatMap_registered_le (segments : List Bytes) :
    (segments.flatMap (registered inputFilter)).length ≤ segments.length := by
  induction segments with
  | nil => exact Nat.le_refl 0
  | cons segment segments ih =>
    have hone := length_registered_le inputFilter segment
    rw [flatMap_cons, length_append, length_cons]
    omega

end

section

variable {U : Upload} {h h' : Handler} {part : Part} {calls : List Call}

def Call.isPost (call : Call) : Bool := call.target = .post

theorem length_safePhpRegisterVariable_le (protectedVariables : List Bytes) (var strval : Bytes)
    (target : Target) :
    (safePhpRegisterVariable protectedVariables var strval target).length ≤ 1 := by
  rw [safePhpRegisterVariable]
  split
  next => exact Nat.zero_le 1
  next => exact Nat.le_refl 1

theorem target_safePhpRegisterVariable {protectedVariables : List Bytes} {var strval : Bytes}
    {target : Target} {call : Call}
    (hcall : call ∈ safePhpRegisterVariable protectedVariables var strval target) :
    call.target = target := by
  rw [safePhpRegisterVariable] at hcall
  split at hcall
  next => exact absurd hcall not_mem_nil
  next => rw [mem_singleton.mp hcall]

theorem fileCalls_le (U : Upload) (protectedVariables : List Bytes) (isAnonymous : Bool)
    (param filename : Bytes) (contentType : Option Bytes) (cancelUpload : Bool) :
    let calls := (fileCalls U protectedVariables isAnonymous param filename contentType
      cancelUpload).1
    calls.filter Call.isPost = [] ∧ calls.length ≤ 4 := by
  have hone := length_safePhpRegisterVariable_le protectedVariables
  constructor
  · refine filter_eq_nil_iff.mpr fun call hcall => ?_
    simp only [fileCalls, mem_append] at hcall
    have htarget : call.target ≠ .post := by
      rcases hcall with ((hcall | hcall) | hcall) | hcall
      · split at hcall
        next => exact absurd hcall not_mem_nil
        next => rw [target_safePhpRegisterVariable hcall]; decide
      · rw [target_safePhpRegisterVariable hcall]; decide
      · split at hcall
        next => exact absurd hcall not_mem_nil
        next => rw [target_safePhpRegisterVariable hcall]; decide
      · rw [target_safePhpRegisterVariable hcall]; decide
    rw [Call.isPost]
    exact fun hpost => htarget (of_decide_eq_true hpost)
  · simp only [fileCalls, length_append]
    have hoptional : ∀ (b : Bool) (l : List Call), l.length ≤ 1 →
        (if b = true then [] else l).length ≤ 1 := by
      intro b l hl
      split
      next => exact Nat.zero_le 1
      next => exact hl
    have hname := hoptional isAnonymous _ (hone (fileVar param "_name" "_name")
      ((U.basename filename).getD filename) .none)
    have hindex := hone (fileVar param "[name]" "[name]") ((U.basename filename).getD filename)
      .files
    have htype := hoptional isAnonymous _ (hone (fileVar param "_type" "_type")
      (if cancelUpload = true then [] else (contentType.getD []).takeWhile (· ≠ 59)) .none)
    have hindex' := hone (fileVar param "[type]" "[type]")
      (if cancelUpload = true then [] else (contentType.getD []).takeWhile (· ≠ 59)) .files
    omega

def Part.isFile (part : Part) : Bool := part.filename.isSome

/-- **One part.** A form variable uses up some of what the count leaves, and a file does not. -/
theorem handlePart_le (U : Upload) (h : Handler) (part : Part) :
    ((handlePart U h part).1.filter Call.isPost).length +
        (((handlePart U h part).2.map fun h => U.maxInputVars - h.count).getD 0) ≤
          U.maxInputVars - h.count ∧
      (handlePart U h part).1.length ≤
        ((handlePart U h part).1.filter Call.isPost).length + if part.isFile then 4 else 0 := by
  rw [handlePart.eq_def]
  split
  next => exact ⟨Nat.le_of_eq (Nat.zero_add _), Nat.zero_le _⟩
  next =>
    split
    next param hparam hfilename =>
      dsimp only
      have hcalls : ∀ calls : List Call, (calls = [] ∨ h.count + 1 ≤ U.maxInputVars ∧
          calls.length ≤ 1 ∧ ∀ call ∈ calls, call.target = .post) →
          (calls.filter Call.isPost).length + (U.maxInputVars - (h.count + 1)) ≤
              U.maxInputVars - h.count ∧
            calls.length ≤ (calls.filter Call.isPost).length + if part.isFile then 4 else 0 := by
        rintro calls (rfl | ⟨hcount, hone, hpost⟩)
        · exact ⟨by rw [filter_nil, length_nil]; omega, Nat.zero_le _⟩
        · have hself : calls.filter Call.isPost = calls :=
            filter_eq_self.mpr fun call hcall => decide_eq_true (hpost call hcall)
          rw [hself]
          exact ⟨by omega, Nat.le_add_right _ _⟩
      refine hcalls _ ?_
      split
      next hcount =>
        split
        next => exact .inl rfl
        next =>
          exact .inr ⟨hcount, length_safePhpRegisterVariable_le _ _ _ _,
            fun call => target_safePhpRegisterVariable⟩
      next => exact .inl rfl
    next => exact ⟨Nat.zero_le _, Nat.zero_le _⟩
    next filename hfilename =>
      have hfile : part.isFile = true := by
        rw [Part.isFile, hfilename]
        rfl
      rw [hfile, if_pos rfl]
      dsimp only
      split
      next => exact ⟨Nat.le_of_eq (Nat.zero_add _), Nat.zero_le _⟩
      next =>
        obtain ⟨hpost, hfour⟩ := fileCalls_le U h.rfc1867ProtectedVariables
          part.param.isNone (part.param.getD (decimalNat h.anonindex)) filename part.contentType
          (filename = [] || part.cancelUpload)
        rw [hpost]
        exact ⟨Nat.le_of_eq (Nat.zero_add _), (Nat.zero_add 4).symm ▸ hfour⟩

theorem handleParts_le (U : Upload) (h : Handler) (parts : List Part) :
    ((handleParts U h parts).filter Call.isPost).length ≤ U.maxInputVars - h.count ∧
      (handleParts U h parts).length ≤
        ((handleParts U h parts).filter Call.isPost).length +
          4 * (parts.filter Part.isFile).length := by
  induction parts generalizing h with
  | nil => exact ⟨Nat.zero_le _, Nat.le_refl 0⟩
  | cons part parts ih =>
    obtain ⟨hpost, hall⟩ := handlePart_le U h part
    have hfiles : (if part.isFile then 4 else 0) + 4 * (parts.filter Part.isFile).length =
        4 * ((part :: parts).filter Part.isFile).length := by
      rw [filter_cons]
      split
      next => rw [length_cons]; omega
      next => omega
    rw [handleParts]
    generalize handlePart U h part = r at hpost hall
    obtain ⟨calls, next⟩ := r
    cases next with
    | none =>
      dsimp only at hpost hall ⊢
      exact ⟨by omega, by omega⟩
    | some h' =>
      obtain ⟨hpost', hall'⟩ := ih h'
      dsimp only [Option.map_some, Option.getD_some] at hpost hall ⊢
      rw [filter_append, length_append, length_append]
      exact ⟨by omega, by omega⟩

end

/-- **The limit** bounds the variables of a query string, of a cookie header and of a string, those
of an urlencoded body that has no more segments, and the form variables of a multipart body. The
files of a multipart body are not counted: each of them is registered under up to four names. -/
theorem inputVars_le (maxInputVars : Nat) :
    (∀ inputFilter arg argSeparator res,
      (phpDefaultTreatData inputFilter maxInputVars arg argSeparator res).length ≤ maxInputVars) ∧
    (∀ inputFilter mem chunks, (segments chunks.flatten).length ≤ maxInputVars →
      (phpStdPostHandler inputFilter maxInputVars mem chunks).length ≤ maxInputVars) ∧
    (∀ U parts, U.maxInputVars = maxInputVars →
      ((rfc1867PostHandler U parts).filter Call.isPost).length ≤ maxInputVars ∧
        (rfc1867PostHandler U parts).length ≤
          maxInputVars + 4 * (parts.filter Part.isFile).length) := by
  refine ⟨fun inputFilter arg argSeparator res => ?_, fun inputFilter mem chunks hmax => ?_,
    fun U parts hU => ?_⟩
  · cases res with
    | none => exact Nat.zero_le _
    | some res => exact length_treatLoop_le _ _ 0 _
  · rw [phpStdPostHandler_eq_segments mem hmax]
    exact (length_flatMap_registered_le _).trans hmax
  · subst hU
    obtain ⟨hpost, hall⟩ := handleParts_le U ⟨0, U.maxFileUploads, false, 0, []⟩ parts
    rw [rfc1867PostHandler]
    exact ⟨hpost, hall.trans (Nat.add_le_add_right hpost _)⟩

def onePart : Part where
  disposition := true
  param := some (ascii "a")
  filename := some (ascii "b")
  contentType := none
  value := []
  formdata := some
  refused := false
  cancelUpload := false

def noVars : Upload where
  maxInputVars := 0
  maxFileUploads := 20
  fileUploads := true
  inputFilter := fun _ val => some val
  basename := some

/-- One file is registered where no variable may be. -/
theorem not_inputVars_le : ¬(rfc1867PostHandler noVars [onePart]).length ≤ 0 := by
  decide

end Input

end Phpce
