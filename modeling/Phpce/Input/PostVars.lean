import Phpce.Ext.Url
import Phpce.Lib.CString
import Phpce.Lib.Cut

/-!
# Form bodies

`add_post_var` and `add_post_vars`, which read the variables of an urlencoded body that comes in
chunks. What is registered is logged as the pairs of a name and a value that reach
`php_register_variable_safe`.

* `addPostVars_eq`: what one call registers, and what it leaves for the next one.
* **`phpStdPostHandler_eq`**: the chunks do not matter.
-/

namespace Phpce

namespace Input

open Bytes Buffer List Option
open Url (phpUrlDecode urlDecode decoded phpUrlDecode_eq)

/-! ## The functions -/

/-- What `sapi_module.input_filter` makes of the value of a name, if it lets it be registered. -/
abbrev InputFilter := Bytes → Bytes → Option Bytes

/-- `post_var_data_t`; `str` is its memory and its length. -/
structure PostVarData where
  mem : Nat → UInt8
  len : Nat
  ptr : Nat
  endPtr : Nat
  cnt : Nat
  alreadyScanned : Nat

/-- `memchr` of `n` bytes from `p` on. -/
def memchr (mem : Nat → UInt8) (p : Nat) (c : UInt8) (n : Nat) : Option Nat :=
  (cutAt c (slice mem p n)).map fun r => p + r.1.length

/-- `php_url_decode` of the `n` bytes at `p`. -/
def decodeAt (mem : Nat → UInt8) (p n : Nat) : Nat → UInt8 :=
  let out := (phpUrlDecode (fun i => mem (p + i)) n).1
  fun i => if i < p then mem i else out (i - p)

section

variable (inputFilter : InputFilter)

/-- What is done for the variable from `ptr` to `vsep`: the memory after it, and what has been
registered. -/
def registerSegment (mem : Nat → UInt8) (ptr vsep : Nat) :
    (Nat → UInt8) × List (Bytes × Bytes) :=
  let ksep := memchr mem ptr 61 (vsep - ptr)
  let klen := ksep.getD vsep - ptr
  let mem :=
    match ksep with
    | some ksep => store mem ksep [0]
    | none => mem
  let mem := decodeAt mem ptr klen
  let val :=
    match ksep with
    | some ksep => slice mem (ksep + 1) (vsep - (ksep + 1))
    | none => []
  let val := if val.length ≠ 0 then decoded phpUrlDecode mem val else val
  let name := cstr (slice mem ptr (klen + 1))
  (mem, ((inputFilter name val).map fun val => (name, val)).toList)

/-- `vsep`, if there is a variable to read. -/
def findVsep (eof : Bool) (var : PostVarData) : Option Nat :=
  let start := var.ptr + var.alreadyScanned
  match memchr var.mem start 38 (var.endPtr - start) with
  | some vsep => some vsep
  | none => if eof then some var.endPtr else none

def addPostVar (eof : Bool) (var : PostVarData) : Bool × PostVarData × List (Bytes × Bytes) :=
  if var.endPtr ≤ var.ptr then (false, var, [])
  else
    match findVsep eof var with
    | none => (false, { var with alreadyScanned := var.endPtr - var.ptr }, [])
    | some vsep =>
      let r := registerSegment inputFilter var.mem var.ptr vsep
      (true, { var with
        mem := r.1
        ptr := vsep + if vsep ≠ var.endPtr then 1 else 0
        alreadyScanned := 0 }, r.2)

theorem le_of_memchr {mem : Nat → UInt8} {p n q : Nat} {c : UInt8} (h : memchr mem p c n = some q) :
    p ≤ q := by
  obtain ⟨r, -, rfl⟩ := map_eq_some_iff.mp h
  exact Nat.le_add_right _ _

theorem addPostVar_lt {eof : Bool} {var : PostVarData} (h : (addPostVar inputFilter eof var).1) :
    (addPostVar inputFilter eof var).2.1.endPtr - (addPostVar inputFilter eof var).2.1.ptr <
      var.endPtr - var.ptr := by
  rw [addPostVar] at h ⊢
  split at h
  next => exact absurd h Bool.false_ne_true
  next hlt =>
    rw [if_neg hlt]
    cases hvsep : findVsep eof var with
    | none =>
      rw [hvsep] at h
      exact absurd h Bool.false_ne_true
    | some vsep =>
      have hle : var.ptr ≤ vsep := by
        rw [findVsep] at hvsep
        split at hvsep
        next hfound =>
          obtain rfl := some.inj hvsep
          exact Nat.le_trans (Nat.le_add_right _ _) (le_of_memchr hfound)
        next =>
          split at hvsep
          next =>
            obtain rfl := some.inj hvsep
            omega
          next => exact absurd hvsep (some_ne_none _).symm
      dsimp only
      split <;> omega

/-- The loop of `add_post_vars`, which fails where more than `maxVars` have been read. -/
def addPostVarsLoop (maxVars : Nat) (eof : Bool) (vars : PostVarData) :
    Bool × PostVarData × List (Bytes × Bytes) :=
  let r := addPostVar inputFilter eof vars
  if _h : r.1 then
    if maxVars < r.2.1.cnt + 1 then (false, { r.2.1 with cnt := r.2.1.cnt + 1 }, r.2.2)
    else
      let rest := addPostVarsLoop maxVars eof { r.2.1 with cnt := r.2.1.cnt + 1 }
      (rest.1, rest.2.1, r.2.2 ++ rest.2.2)
  else (true, r.2.1, [])
termination_by vars.endPtr - vars.ptr
decreasing_by exact addPostVar_lt inputFilter ‹_›

def addPostVars (maxVars : Nat) (eof : Bool) (vars : PostVarData) :
    Bool × PostVarData × List (Bytes × Bytes) :=
  let r := addPostVarsLoop inputFilter maxVars eof { vars with ptr := 0, endPtr := vars.len }
  if r.1 ∧ eof = false ∧ r.2.1.ptr ≠ 0 then
    let n := r.2.1.endPtr - r.2.1.ptr
    (true, { r.2.1 with mem := store r.2.1.mem 0 (slice r.2.1.mem r.2.1.ptr n), len := n }, r.2.2)
  else r

/-- `smart_str_appendl` -/
def smartStrAppendl (vars : PostVarData) (chunk : Bytes) : PostVarData :=
  { vars with mem := store vars.mem vars.len chunk, len := vars.len + chunk.length }

/-- The rest of `php_std_post_handler`, for the chunks that are still to be read. -/
def postHandlerLoop (maxVars : Nat) : List Bytes → PostVarData → List (Bytes × Bytes)
  | [], vars => (addPostVars inputFilter maxVars true vars).2.2
  | chunk :: chunks, vars =>
    let r := addPostVars inputFilter maxVars false (smartStrAppendl vars chunk)
    if r.1 then r.2.2 ++ postHandlerLoop maxVars chunks r.2.1 else r.2.2

/-- What `php_std_post_handler` registers for a body that it reads in chunks; `mem` is what stands
in the memory of the string before it is written. -/
def phpStdPostHandler (maxVars : Nat) (mem : Nat → UInt8) (chunks : List Bytes) :
    List (Bytes × Bytes) :=
  if chunks = [] then [] else postHandlerLoop inputFilter maxVars chunks ⟨mem, 0, 0, 0, 0, 0⟩

/-! ## What a body says -/

/-- The segments of a body; a separator at the end closes the last one. -/
def segments (body : Bytes) : List Bytes :=
  let r := cutAll 38 [] body
  r.1 ++ if r.2 = [] then [] else [r.2]

def readPair (segment : Bytes) : Bytes × Bytes :=
  match cutAt 61 segment with
  | none => (cstr (urlDecode segment), [])
  | some (name, value) => (cstr (urlDecode name), urlDecode value)

def registered (segment : Bytes) : List (Bytes × Bytes) :=
  let pair := readPair segment
  ((inputFilter pair.1 pair.2).map fun val => (pair.1, val)).toList

/-! ## One segment -/

section

variable {mem : Nat → UInt8} {p n : Nat} {s t r : Bytes} {c : UInt8}

theorem memchr_eq (h : slice mem p n = s) :
    memchr mem p c n = (cutAt c s).map fun r => p + r.1.length := by
  rw [memchr, h]

theorem decodeAt_eq (h : slice mem p s.length = s) :
    decodeAt mem p s.length = store mem p (urlDecode s ++ [0]) := by
  have hself : slice (fun i => mem (p + i)) 0 s.length = s := by
    refine Eq.trans ?_ h
    rw [slice, slice]
    simp
  rw [decodeAt, phpUrlDecode_eq hself]
  funext i
  by_cases hi : i < p
  · rw [if_pos hi, store_before hi]
  · have hi' := Nat.not_lt.mp hi
    obtain ⟨k, rfl⟩ := Nat.exists_eq_add_of_le hi'
    rw [if_neg hi, Nat.add_sub_cancel_left]
    show store (fun i => mem (p + i)) 0 (urlDecode s ++ [0]) k = _
    unfold store
    rw [if_pos (Nat.zero_le k), if_pos hi', Nat.add_sub_cancel_left, Nat.sub_zero]

theorem length_urlDecode_le (s : Bytes) : (urlDecode s).length ≤ s.length := by
  fun_induction urlDecode s with
  | case1 => exact Nat.le_refl _
  | case2 => exact Nat.le_refl _
  | case3 => exact Nat.le_refl _
  | case4 c hi lo s _ ih =>
    simp only [length_cons]
    omega
  | case5 c hi lo s _ ih =>
    simp only [length_cons] at ih ⊢
    omega

theorem decoded_eq (rest : Nat → UInt8) (s : Bytes) :
    decoded phpUrlDecode rest s = urlDecode s := by
  have hself : slice (store rest 0 (s ++ [0])) 0 s.length = s := by
    rw [slice_store_take rest 0 (by rw [length_append]; omega), take_left]
  rw [decoded, phpUrlDecode_eq hself]
  dsimp only
  rw [slice_store_take _ _ (by rw [length_append]; omega), take_left]

theorem cstr_decodeAt (h : slice mem p s.length = s) :
    cstr (slice (decodeAt mem p s.length) p (s.length + 1)) = cstr (urlDecode s) := by
  have hle := length_urlDecode_le s
  obtain ⟨k, hk⟩ := Nat.exists_eq_add_of_le hle
  have hlen : s.length + 1 = (urlDecode s ++ [0]).length + k := by
    rw [length_append, length_singleton]
    omega
  rw [decodeAt_eq h, hlen, slice_add, slice_store_self, append_assoc]
  exact CString.cstr_append_zero _ _

theorem slice_decodeAt (h : slice mem p s.length = s) {q m : Nat} (hq : p + s.length < q) :
    slice (decodeAt mem p s.length) q m = slice mem q m := by
  have hle := length_urlDecode_le s
  rw [decodeAt_eq h, slice_store_after]
  rw [length_append, length_singleton]
  omega

theorem registerSegment_eq {ptr vsep : Nat} (h : slice mem ptr (vsep - ptr) = s)
    (hle : ptr ≤ vsep) :
    (registerSegment inputFilter mem ptr vsep).2 = registered inputFilter s ∧
      ∀ q m, vsep < q → slice (registerSegment inputFilter mem ptr vsep).1 q m = slice mem q m := by
  have hlen : vsep - ptr = s.length := by rw [← h, length_slice]
  rw [hlen] at h
  rw [registered, readPair, registerSegment, memchr_eq (hlen ▸ h)]
  cases hcut : cutAt 61 s with
  | none =>
    dsimp only [map_none, getD_none]
    rw [hlen, cstr_decodeAt h]
    refine ⟨rfl, fun q m hq => slice_decodeAt h ?_⟩
    omega
  | some cut =>
    obtain ⟨name, value⟩ := cut
    obtain ⟨rfl, -⟩ := cutAt_eq_some_iff.mp hcut
    rw [length_append, length_cons] at hlen h
    rw [slice_add, slice_succ] at h
    obtain ⟨hname, hrest⟩ := List.append_inj h length_slice
    obtain ⟨-, hvalue⟩ := List.cons.inj hrest
    -- the name is decoded up to the NUL at its separator, and the value stands behind it
    have hname' : slice (store mem (ptr + name.length) [0]) ptr name.length = name :=
      (slice_store_before (Nat.le_refl _)).trans hname
    have hbehind : ∀ q m, ptr + name.length < q →
        slice (decodeAt (store mem (ptr + name.length) [0]) ptr name.length) q m =
          slice mem q m := by
      intro q m hq
      rw [slice_decodeAt hname' hq, slice_store_after]
      rw [length_singleton]
      omega
    have hvlen : vsep - (ptr + name.length + 1) = value.length := by omega
    dsimp only [map_some, getD_some]
    simp only [Nat.add_sub_cancel_left, cstr_decodeAt hname', hbehind _ _ (Nat.lt_succ_self _),
      hvlen, hvalue, decoded_eq]
    have hval : (if value.length ≠ 0 then urlDecode value else value) = urlDecode value := by
      cases value with
      | nil => rfl
      | cons c value => exact if_pos (Nat.succ_ne_zero _)
    rw [hval]
    exact ⟨rfl, fun q m hq => hbehind q m (by omega)⟩

/-! ## The loop -/

/-- The text `u` is still to be read, and what has been scanned of it holds no separator. -/
structure Holds (vars : PostVarData) (u : Bytes) : Prop where
  le : vars.ptr ≤ vars.endPtr
  content : slice vars.mem vars.ptr (vars.endPtr - vars.ptr) = u
  scanned_le : vars.alreadyScanned ≤ u.length
  scanned : 38 ∉ u.take vars.alreadyScanned

variable {vars : PostVarData} {u seg : Bytes} (eof : Bool)

theorem Holds.length_eq (h : Holds vars u) : vars.endPtr - vars.ptr = u.length := by
  rw [← h.content, length_slice]

theorem Holds.memchr_start (h : Holds vars u) :
    memchr vars.mem (vars.ptr + vars.alreadyScanned) 38
        (vars.endPtr - (vars.ptr + vars.alreadyScanned)) =
      (cutAt 38 (u.drop vars.alreadyScanned)).map fun r =>
        vars.ptr + vars.alreadyScanned + r.1.length := by
  refine memchr_eq ?_
  rw [← h.content, drop_slice, Nat.sub_add_eq]

theorem Holds.findVsep_eq (h : Holds vars (seg ++ 38 :: r)) (hseg : 38 ∉ seg) :
    findVsep eof vars = some (vars.ptr + seg.length) := by
  have hle : vars.alreadyScanned ≤ seg.length := by
    by_contra hlt
    refine h.scanned ?_
    rw [take_append]
    obtain ⟨k, hk⟩ := Nat.exists_eq_succ_of_ne_zero
      (show vars.alreadyScanned - seg.length ≠ 0 by omega)
    rw [hk, take_succ_cons]
    exact mem_append_right _ mem_cons_self
  have hdrop : (seg ++ 38 :: r).drop vars.alreadyScanned =
      seg.drop vars.alreadyScanned ++ 38 :: r := drop_append_of_le_length hle
  rw [findVsep, h.memchr_start, hdrop, cutAt_append fun hmem => hseg (mem_of_mem_drop hmem)]
  simp only [map_some, length_drop]
  congr 1
  omega

theorem Holds.findVsep_last (h : Holds vars u) (hu : 38 ∉ u) :
    findVsep eof vars = if eof then some vars.endPtr else none := by
  rw [findVsep, h.memchr_start,
    cutAt_eq_none_iff.mpr fun hmem => hu (mem_of_mem_drop hmem)]
  rfl

theorem addPostVar_nil (h : Holds vars []) :
    addPostVar inputFilter eof vars = (false, vars, []) := by
  have hlen := h.length_eq
  rw [length_nil] at hlen
  exact if_pos (by omega)

theorem addPostVar_cons (h : Holds vars (seg ++ 38 :: r)) (hseg : 38 ∉ seg) :
    ∃ mem, addPostVar inputFilter eof vars =
        (true, { vars with mem := mem, ptr := vars.ptr + seg.length + 1, alreadyScanned := 0 },
          registered inputFilter seg) ∧
      slice mem (vars.ptr + seg.length + 1) (vars.endPtr - (vars.ptr + seg.length + 1)) = r := by
  have hlen := h.length_eq
  rw [length_append, length_cons] at hlen
  have hcontent := h.content
  have hsplit : vars.endPtr - vars.ptr =
      seg.length + ((vars.endPtr - (vars.ptr + seg.length + 1)) + 1) := by omega
  rw [hsplit, slice_add, slice_succ] at hcontent
  obtain ⟨hself, hrest⟩ := List.append_inj hcontent length_slice
  obtain ⟨-, hbehind⟩ := List.cons.inj hrest
  have hsegment : slice vars.mem vars.ptr (vars.ptr + seg.length - vars.ptr) = seg := by
    rwa [Nat.add_sub_cancel_left]
  obtain ⟨hregistered, hmem⟩ :=
    registerSegment_eq inputFilter hsegment (Nat.le_add_right vars.ptr seg.length)
  refine ⟨_, ?_, (hmem _ _ (Nat.lt_succ_self _)).trans hbehind⟩
  rw [addPostVar, if_neg (by omega), h.findVsep_eq eof hseg]
  dsimp only
  rw [hregistered, if_pos (by omega)]

theorem addPostVar_last (h : Holds vars u) (hu : 38 ∉ u) (hne : u ≠ []) :
    addPostVar inputFilter eof vars =
      if eof then
        (true, { vars with
          mem := (registerSegment inputFilter vars.mem vars.ptr vars.endPtr).1
          ptr := vars.endPtr
          alreadyScanned := 0 }, registered inputFilter u)
      else (false, { vars with alreadyScanned := u.length }, []) := by
  have hlen := h.length_eq
  have hpos := length_pos_iff.mpr hne
  have hregistered := (registerSegment_eq inputFilter h.content h.le).1
  rw [addPostVar, if_neg (by omega), h.findVsep_last eof hu]
  cases eof with
  | true =>
    simp only [if_true, hregistered, ne_eq, not_true_eq_false, if_false, Nat.add_zero]
  | false =>
    simp only [Bool.false_eq_true, if_false, hlen]

variable {eof}

theorem addPostVarsLoop_of_false {maxVars : Nat} {vars' : PostVarData} {reg : List (Bytes × Bytes)}
    (h : addPostVar inputFilter eof vars = (false, vars', reg)) :
    addPostVarsLoop inputFilter maxVars eof vars = (true, vars', []) := by
  rw [addPostVarsLoop, h]
  rfl

theorem addPostVarsLoop_of_true {maxVars : Nat} {vars' : PostVarData} {reg : List (Bytes × Bytes)}
    (h : addPostVar inputFilter eof vars = (true, vars', reg)) (hmax : vars'.cnt + 1 ≤ maxVars) :
    addPostVarsLoop inputFilter maxVars eof vars =
      let rest := addPostVarsLoop inputFilter maxVars eof { vars' with cnt := vars'.cnt + 1 }
      (rest.1, rest.2.1, reg ++ rest.2.2) := by
  rw [addPostVarsLoop, h]
  dsimp only
  rw [dif_pos rfl, if_neg (Nat.not_lt.mpr hmax)]

def taken (eof : Bool) (u : Bytes) : List Bytes := if eof then segments u else (cutAll 38 [] u).1

def kept (eof : Bool) (u : Bytes) : Bytes := if eof then [] else (cutAll 38 [] u).2

variable (eof)

theorem taken_cons (hseg : 38 ∉ seg) (r : Bytes) :
    taken eof (seg ++ 38 :: r) = seg :: taken eof r ∧ kept eof (seg ++ 38 :: r) = kept eof r := by
  have hcut := cutAll_append_cons hseg [] r
  rw [nil_append] at hcut
  rw [taken, taken, kept, kept, segments, segments, hcut]
  cases eof <;> exact ⟨rfl, rfl⟩

theorem taken_last (hu : 38 ∉ u) (hne : u ≠ []) :
    taken eof u = (if eof then [u] else []) ∧ kept eof u = if eof then [] else u := by
  have hcut := cutAll_of_notMem hu []
  rw [nil_append] at hcut
  rw [taken, kept, segments, hcut]
  dsimp only
  rw [if_neg hne]
  exact ⟨rfl, rfl⟩

theorem taken_nil : taken eof [] = [] ∧ kept eof [] = [] := by
  cases eof <;> exact ⟨rfl, rfl⟩

theorem notMem_kept (u : Bytes) : 38 ∉ kept eof u := by
  rw [kept]
  split
  next => exact not_mem_nil
  next => exact notMem_cutAll not_mem_nil u

variable {eof}

theorem addPostVarsLoop_eq {maxVars : Nat} (h : Holds vars u)
    (hmax : vars.cnt + (taken eof u).length ≤ maxVars) :
    ∃ vars', addPostVarsLoop inputFilter maxVars eof vars =
        (true, vars', (taken eof u).flatMap (registered inputFilter)) ∧
      Holds vars' (kept eof u) ∧ vars'.endPtr = vars.endPtr ∧ vars'.len = vars.len ∧
      vars'.cnt = vars.cnt + (taken eof u).length := by
  -- induction on the segments that are still to be read
  induction hn : u.length using Nat.strongRecOn generalizing u vars with
  | ind n ih =>
    subst hn
    by_cases hmem : 38 ∈ u
    · obtain ⟨seg, r, rfl, hseg⟩ := eq_append_cons_of_mem hmem
      obtain ⟨htaken, hkept⟩ := taken_cons eof hseg r
      obtain ⟨mem, hadd, hrest⟩ := addPostVar_cons inputFilter eof h hseg
      have hlen := h.length_eq
      rw [length_append, length_cons] at hlen
      rw [htaken, length_cons] at hmax
      have hnext : Holds { vars with
          mem := mem, ptr := vars.ptr + seg.length + 1, alreadyScanned := 0
          cnt := vars.cnt + 1 } r :=
        ⟨by dsimp only; omega, hrest, Nat.zero_le _, by rw [take_zero]; exact not_mem_nil⟩
      have hshorter : r.length < (seg ++ 38 :: r).length := by
        rw [length_append, length_cons]
        omega
      obtain ⟨vars', hloop, hholds, hend, hlen', hcnt⟩ := ih r.length hshorter hnext
        (by dsimp only; omega) rfl
      refine ⟨vars', ?_, hkept ▸ hholds, hend, hlen', ?_⟩
      · rw [addPostVarsLoop_of_true inputFilter hadd (by dsimp only; omega), htaken,
          flatMap_cons]
        dsimp only
        rw [hloop]
      · rw [hcnt, htaken, length_cons]
        dsimp only
        omega
    · by_cases hnil : u = []
      · subst hnil
        obtain ⟨htaken, hkept⟩ := taken_nil eof
        rw [htaken, hkept]
        have hadd := addPostVar_nil inputFilter eof h
        exact ⟨vars, addPostVarsLoop_of_false inputFilter hadd, h, rfl, rfl, rfl⟩
      · obtain ⟨htaken, hkept⟩ := taken_last eof hmem hnil
        have hadd := addPostVar_last inputFilter eof h hmem hnil
        rw [htaken] at hmax ⊢
        rw [hkept]
        cases eof with
        | false =>
          exact ⟨_, addPostVarsLoop_of_false inputFilter hadd,
            ⟨h.le, h.content, Nat.le_refl _, fun hscanned => hmem (mem_of_mem_take hscanned)⟩,
            rfl, rfl, rfl⟩
        | true =>
          have hdone : Holds { vars with
              mem := (registerSegment inputFilter vars.mem vars.ptr vars.endPtr).1
              ptr := vars.endPtr, alreadyScanned := 0, cnt := vars.cnt + 1 } [] := by
            refine ⟨Nat.le_refl _, ?_, Nat.zero_le _, not_mem_nil⟩
            dsimp only
            rw [Nat.sub_self, slice_zero]
          refine ⟨_, ?_, hdone, rfl, rfl, rfl⟩
          rw [addPostVarsLoop_of_true inputFilter hadd hmax,
            addPostVarsLoop_of_false inputFilter (addPostVar_nil inputFilter true hdone)]
          rfl

/-! ## The calls -/

/-- Between two calls, `u` stands in the string, and it has been scanned for separators. -/
structure Keeps (vars : PostVarData) (u : Bytes) : Prop where
  content : slice vars.mem 0 vars.len = u
  scanned_le : vars.alreadyScanned ≤ u.length
  scanned : 38 ∉ u.take vars.alreadyScanned

theorem addPostVars_eq {maxVars : Nat} (h : Keeps vars u)
    (hmax : vars.cnt + (taken eof u).length ≤ maxVars) :
    ∃ vars', addPostVars inputFilter maxVars eof vars =
        (true, vars', (taken eof u).flatMap (registered inputFilter)) ∧
      (eof = false → Keeps vars' (kept eof u)) ∧ vars'.cnt = vars.cnt + (taken eof u).length := by
  have hholds : Holds { vars with ptr := 0, endPtr := vars.len } u :=
    ⟨Nat.zero_le _, h.content, h.scanned_le, h.scanned⟩
  obtain ⟨vars', hloop, hleft, hend, hlen, hcnt⟩ := addPostVarsLoop_eq inputFilter hholds hmax
  rw [addPostVars, hloop]
  dsimp only
  split
  next hmove =>
    refine ⟨_, rfl, fun _ => ⟨?_, hleft.scanned_le, hleft.scanned⟩, hcnt⟩
    dsimp only
    rw [slice_store_take _ _ (Nat.le_of_eq length_slice.symm), hleft.content, hleft.length_eq,
      take_length]
  next hmove =>
    refine ⟨vars', rfl, fun heof => ⟨?_, hleft.scanned_le, hleft.scanned⟩, hcnt⟩
    have hptr : vars'.ptr = 0 := by
      by_contra hne
      exact hmove ⟨rfl, heof, hne⟩
    have hcontent := hleft.content
    rw [hptr, hend] at hcontent
    rw [hlen]
    exact hcontent

theorem Keeps.append (h : Keeps vars u) (chunk : Bytes) :
    Keeps (smartStrAppendl vars chunk) (u ++ chunk) := by
  have hlen : vars.len = u.length := by rw [← h.content, length_slice]
  refine ⟨?_, ?_, ?_⟩
  · have happend := slice_store_append vars.mem 0 vars.len chunk
    rw [Nat.zero_add] at happend
    exact happend.trans (congrArg (· ++ chunk) h.content)
  · rw [length_append]
    exact Nat.le_trans h.scanned_le (Nat.le_add_right _ _)
  · show 38 ∉ (u ++ chunk).take vars.alreadyScanned
    rw [take_append_of_le_length h.scanned_le]
    exact h.scanned

theorem segments_append (s t : Bytes) :
    segments (s ++ t) = (cutAll 38 [] s).1 ++ segments ((cutAll 38 [] s).2 ++ t) := by
  have hkept : (38 : UInt8) ∉ (cutAll 38 [] s).2 := notMem_cutAll not_mem_nil s
  rw [segments, segments, cutAll_append [] s, cutAll_append [] (cutAll 38 [] s).2,
    cutAll_of_notMem hkept]
  dsimp only
  rw [nil_append, nil_append, append_assoc]

/-- **The run**: the invariant is that the string holds what follows the last separator. -/
theorem postHandlerLoop_eq {maxVars : Nat} {chunks : List Bytes} (h : Keeps vars u) (hu : 38 ∉ u)
    (hmax : vars.cnt + (segments (u ++ chunks.flatten)).length ≤ maxVars) :
    postHandlerLoop inputFilter maxVars chunks vars =
      (segments (u ++ chunks.flatten)).flatMap (registered inputFilter) := by
  induction chunks generalizing vars u with
  | nil =>
    rw [flatten_nil, append_nil] at hmax ⊢
    have hmax : vars.cnt + (taken true u).length ≤ maxVars := hmax
    obtain ⟨vars', hcall, -, -⟩ := addPostVars_eq inputFilter h hmax
    rw [postHandlerLoop, hcall]
    rfl
  | cons chunk chunks ih =>
    rw [flatten_cons, ← append_assoc, segments_append] at hmax ⊢
    rw [length_append] at hmax
    have htaken : vars.cnt + (taken false (u ++ chunk)).length ≤ maxVars :=
      Nat.le_trans (Nat.add_le_add_left (Nat.le_add_right _ _) _) hmax
    obtain ⟨vars', hcall, hleft, hcnt⟩ := addPostVars_eq inputFilter (h.append chunk) htaken
    have hcnt : vars'.cnt = vars.cnt + (cutAll 38 [] (u ++ chunk)).1.length := hcnt
    rw [postHandlerLoop, hcall]
    dsimp only
    rw [if_pos rfl, ih (hleft rfl) (notMem_kept false _), flatMap_append]
    · rfl
    · rw [hcnt, Nat.add_assoc]
      exact hmax

variable {inputFilter}

theorem phpStdPostHandler_eq_segments {maxVars : Nat} (mem : Nat → UInt8) {chunks : List Bytes}
    (hmax : (segments chunks.flatten).length ≤ maxVars) :
    phpStdPostHandler inputFilter maxVars mem chunks =
      (segments chunks.flatten).flatMap (registered inputFilter) := by
  have hstart : Keeps ⟨mem, 0, 0, 0, 0, 0⟩ [] := ⟨rfl, Nat.le_refl _, not_mem_nil⟩
  rw [phpStdPostHandler]
  split
  next hnil =>
    subst hnil
    rfl
  next =>
    exact postHandlerLoop_eq inputFilter hstart not_mem_nil
      (Nat.le_trans (Nat.le_of_eq (Nat.zero_add _)) hmax)

/-- **Form bodies.** Whatever the chunks are that a body comes in, its segments are registered in
order, if there are no more of them than the limit. -/
theorem phpStdPostHandler_eq {maxVars : Nat} (mem : Nat → UInt8) {chunks : List Bytes}
    (hmax : (segments chunks.flatten).length ≤ maxVars) :
    phpStdPostHandler inputFilter maxVars mem chunks =
        phpStdPostHandler inputFilter maxVars mem [chunks.flatten] ∧
      phpStdPostHandler inputFilter maxVars mem chunks =
        (segments chunks.flatten).flatMap (registered inputFilter) := by
  have hone : [chunks.flatten].flatten = chunks.flatten := by
    rw [flatten_cons, flatten_nil, append_nil]
  have hchunks := @phpStdPostHandler_eq_segments inputFilter maxVars mem chunks hmax
  refine ⟨hchunks.trans ?_, hchunks⟩
  exact (hone ▸ phpStdPostHandler_eq_segments mem (hone.symm ▸ hmax)).symm

theorem phpStdPostHandler_escape :
    phpStdPostHandler (fun _ val => some val) 2 (fun _ => 0)
          [ascii "a=%4", ascii "1&b", ascii "&"] =
        phpStdPostHandler (fun _ val => some val) 2 (fun _ => 0)
          [[ascii "a=%4", ascii "1&b", ascii "&"].flatten] ∧
      phpStdPostHandler (fun _ val => some val) 2 (fun _ => 0)
          [ascii "a=%4", ascii "1&b", ascii "&"] =
        (segments [ascii "a=%4", ascii "1&b", ascii "&"].flatten).flatMap
          (registered fun _ val => some val) :=
  phpStdPostHandler_eq _ (by decide)

end

end

end Input

end Phpce
