import Mathlib.Logic.Relation
import Phpce.Lib.Buffer
import Phpce.Lib.Bytes

/-!
# Reading a part of a multipart body

`multipart_buffer_read`, which reads a part in blocks up to the boundary that follows it, over a
buffer that `fill_buffer` fills from `read_post`. A call of `read_post` gives as many bytes as it
likes, but at least one, as long as there are any.

* `fillBuffer_eq`: what is buffered does not depend on how the client cuts the stream.
* `Rest.read`: what a call leaves of a body; `Rest.read_nil` and `Rest.read_stuck` say which calls
  return nothing.
* **`delivers_iff`**: when a body arrives unchanged.
-/

namespace Phpce

namespace Input

open Bytes Buffer List Option

/-! ## The functions -/

/-- `FILLUNIT` -/
def fillUnit : Nat := 1024 * 5

/-- `bufsize`, as `multipart_buffer_new` sets it. -/
def bufsize (boundary : Bytes) : Nat :=
  let minsize := boundary.length + 6
  if minsize < fillUnit then fillUnit else minsize

def boundaryNext (boundary : Bytes) : Bytes := 10 :: 45 :: 45 :: boundary

/-- `multipart_buffer`, what the client has still to send, and the calls of `read_post`. -/
structure MultipartBuffer where
  buffer : Nat → UInt8
  bufBegin : Nat
  bytesInBuffer : Nat
  post : Bytes
  calls : Nat
  /-- `*end` -/
  atEnd : Bool

def MultipartBuffer.content (self : MultipartBuffer) : Bytes :=
  slice self.buffer self.bufBegin self.bytesInBuffer

def MultipartBuffer.unread (self : MultipartBuffer) : Bytes := self.content ++ self.post

/-- How many bytes a call of `read_post` gives; `cut` says how the client cuts the stream. -/
def readPost (cut : Nat → Nat) (self : MultipartBuffer) (count : Nat) : Nat :=
  min (max 1 (cut self.calls)) (min count self.post.length)

/-- The loop of `fill_buffer`. -/
def fillLoop (cut : Nat → Nat) (size : Nat) (self : MultipartBuffer) : MultipartBuffer :=
  let bytesToRead := size - self.bytesInBuffer
  if _hto : 0 < bytesToRead then
    let actualRead := readPost cut self bytesToRead
    if _hactual : 0 < actualRead then
      fillLoop cut size { self with
        buffer := store self.buffer self.bytesInBuffer (self.post.take actualRead)
        bytesInBuffer := self.bytesInBuffer + actualRead
        post := self.post.drop actualRead
        calls := self.calls + 1 }
    else { self with calls := self.calls + 1 }
  else self
termination_by size - self.bytesInBuffer
decreasing_by exact Nat.sub_lt_sub_left (Nat.lt_of_sub_pos _hto) (Nat.lt_add_of_pos_right _hactual)

def fillBuffer (cut : Nat → Nat) (size : Nat) (self : MultipartBuffer) : MultipartBuffer :=
  let buffer :=
    if self.bytesInBuffer > 0 ∧ self.bufBegin ≠ 0 then
      store self.buffer 0 (slice self.buffer self.bufBegin self.bytesInBuffer)
    else self.buffer
  fillLoop cut size { self with buffer := buffer, bufBegin := 0 }

/-- `php_ap_memstr`; `cutOff` allows a match that the end of the text cuts off. -/
def phpApMemstr (needle : Bytes) (cutOff : Bool) : Bytes → Option Nat
  | [] => none
  | c :: ptr =>
    let len := (c :: ptr).length
    let n := if needle.length < len then needle.length else len
    if c = needle.headD 0 ∧ needle.take n = (c :: ptr).take n ∧
        (cutOff ∨ len ≥ needle.length) then some 0
    else (phpApMemstr needle cutOff ptr).map (· + 1)

/-- `len` of `multipart_buffer_read`: the bytes up to a boundary, and not a CR in front of it. -/
def readLen (needle content : Bytes) (bytes : Nat) : Nat :=
  let bound := phpApMemstr needle true content
  let max := bound.getD content.length
  let len := if max < bytes - 1 then max else bytes - 1
  if len > 0 ∧ bound.isSome ∧ content.getD (len - 1) 0 = 13 then len - 1 else len

/-- `multipart_buffer_read` of a block of less than `bytes`. -/
def multipartBufferRead (boundary : Bytes) (cut : Nat → Nat) (bytes : Nat)
    (self : MultipartBuffer) : Bytes × MultipartBuffer :=
  let self := if bytes > self.bytesInBuffer then fillBuffer cut (bufsize boundary) self else self
  let needle := boundaryNext boundary
  let len := readLen needle self.content bytes
  (self.content.take len,
    { self with
      bufBegin := self.bufBegin + len
      bytesInBuffer := self.bytesInBuffer - len
      atEnd := self.atEnd ||
        (phpApMemstr needle true self.content).isSome &&
          (phpApMemstr needle false self.content).isSome })

/-! ## Filling the buffer -/

section

variable {cut : Nat → Nat} {self : MultipartBuffer} {size : Nat}

theorem length_content (self : MultipartBuffer) : self.content.length = self.bytesInBuffer :=
  length_slice

theorem fillLoop_eq (hbegin : self.bufBegin = 0) :
    (fillLoop cut size self).content =
        self.content ++ self.post.take (size - self.bytesInBuffer) ∧
      (fillLoop cut size self).post = self.post.drop (size - self.bytesInBuffer) ∧
      (fillLoop cut size self).atEnd = self.atEnd := by
  fun_induction fillLoop cut size self with
  | case1 self bytesToRead hto actualRead hactual ih =>
    have hle : actualRead ≤ bytesToRead ∧ actualRead ≤ self.post.length :=
      Nat.le_min.mp (Nat.min_le_right _ _)
    obtain ⟨hcontent, hpost, hend⟩ := ih hbegin
    have hlen : (self.post.take actualRead).length = actualRead :=
      length_take_of_le hle.2
    have happend := slice_store_append self.buffer 0 self.bytesInBuffer (self.post.take actualRead)
    rw [hlen, Nat.zero_add] at happend
    have hself : self.content = slice self.buffer 0 self.bytesInBuffer := by
      rw [MultipartBuffer.content, hbegin]
    have hnext : size - (self.bytesInBuffer + actualRead) = bytesToRead - actualRead :=
      Nat.sub_add_eq _ _ _
    have hsplit : bytesToRead = actualRead + (bytesToRead - actualRead) :=
      (Nat.add_sub_cancel' hle.1).symm
    refine ⟨?_, ?_, hend⟩
    · rw [hcontent, MultipartBuffer.content]
      dsimp only
      rw [hbegin, happend, hself, hnext, append_assoc]
      congr 1
      show _ = self.post.take bytesToRead
      rw [hsplit, take_add, ← hsplit]
    · rw [hpost]
      dsimp only
      rw [hnext, drop_drop]
      show _ = self.post.drop bytesToRead
      rw [← hsplit]
  | case2 self bytesToRead hto actualRead hactual =>
    have hnil : self.post = [] := by
      rw [← length_eq_zero_iff]
      have hzero : min (max 1 (cut self.calls)) (min bytesToRead self.post.length) = 0 :=
        Nat.le_zero.mp (Nat.not_lt.mp hactual)
      omega
    rw [hnil, take_nil, drop_nil, append_nil]
    exact ⟨rfl, rfl, rfl⟩
  | case3 self bytesToRead hto =>
    have hzero : size - self.bytesInBuffer = 0 := Nat.le_zero.mp (Nat.not_lt.mp hto)
    rw [hzero, take_zero, append_nil]
    exact ⟨rfl, rfl, rfl⟩

theorem fillBuffer_eq (cut : Nat → Nat) (size : Nat) (self : MultipartBuffer) :
    (fillBuffer cut size self).content =
        self.content ++ self.post.take (size - self.bytesInBuffer) ∧
      (fillBuffer cut size self).post = self.post.drop (size - self.bytesInBuffer) ∧
      (fillBuffer cut size self).atEnd = self.atEnd := by
  obtain ⟨hcontent, hpost, hend⟩ := @fillLoop_eq cut
    { self with
      buffer := if self.bytesInBuffer > 0 ∧ self.bufBegin ≠ 0 then
          store self.buffer 0 (slice self.buffer self.bufBegin self.bytesInBuffer)
        else self.buffer
      bufBegin := 0 } size rfl
  refine ⟨hcontent.trans ?_, hpost, hend⟩
  congr 1
  rw [MultipartBuffer.content, MultipartBuffer.content]
  dsimp only
  split
  next =>
    have hself := slice_store_self self.buffer 0
      (slice self.buffer self.bufBegin self.bytesInBuffer)
    rwa [length_slice] at hself
  next hmove =>
    by_cases hzero : self.bytesInBuffer = 0
    · rw [hzero, slice_zero, slice_zero]
    · have hbegin : self.bufBegin = 0 := by
        by_contra hne
        exact hmove ⟨Nat.pos_of_ne_zero hzero, hne⟩
      rw [hbegin]

end

/-! ## Searching -/

/-- The needle stands at the start of the text, or is cut off by its end. -/
def Occurs (needle : Bytes) (cutOff : Bool) (t : Bytes) : Prop :=
  needle <+: t ∨ cutOff = true ∧ t <+: needle

section

variable {needle t s : Bytes} {cutOff : Bool} {k : Nat}

theorem memcmp_iff (hneedle : needle ≠ []) (c : UInt8) (ptr : Bytes) :
    (c = needle.headD 0 ∧
        needle.take (if needle.length < (c :: ptr).length then needle.length
          else (c :: ptr).length) =
        (c :: ptr).take (if needle.length < (c :: ptr).length then needle.length
          else (c :: ptr).length) ∧
        (cutOff = true ∨ (c :: ptr).length ≥ needle.length)) ↔
      Occurs needle cutOff (c :: ptr) := by
  have hhead : ∀ {t : Bytes}, needle <+: t ∨ t <+: needle → t ≠ [] →
      t.headD 0 = needle.headD 0 := by
    rintro t (⟨r, rfl⟩ | ⟨r, rfl⟩) ht
    · obtain ⟨d, needle, rfl⟩ := exists_cons_of_ne_nil hneedle
      rfl
    · obtain ⟨d, t, rfl⟩ := exists_cons_of_ne_nil ht
      rfl
  rw [Occurs]
  split
  next hlt =>
    rw [take_length]
    constructor
    · rintro ⟨-, htake, -⟩
      exact .inl (htake ▸ take_prefix _ _)
    · rintro (hpre | ⟨-, hpre⟩)
      · exact ⟨hhead (.inl hpre) (cons_ne_nil _ _), prefix_iff_eq_take.mp hpre,
          .inr hlt.le⟩
      · exact absurd hpre.length_le (Nat.not_le.mpr hlt)
  next hge =>
    have hge := Nat.not_lt.mp hge
    rw [take_length]
    constructor
    · rintro ⟨-, htake, hcut | hlen⟩
      · exact .inr ⟨hcut, htake ▸ take_prefix _ _⟩
      · rw [take_of_length_le hlen] at htake
        exact .inl (htake ▸ prefix_rfl)
    · rintro (hpre | ⟨hcut, hpre⟩)
      · have hself := hpre.eq_of_length (Nat.le_antisymm hpre.length_le hge)
        rw [← hself, take_length]
        exact ⟨by rw [hself]; rfl, rfl, .inr (Nat.le_refl _)⟩
      · exact ⟨hhead (.inr hpre) (cons_ne_nil _ _),
          (prefix_iff_eq_take.mp hpre).symm, .inl hcut⟩

theorem phpApMemstr_cons (hneedle : needle ≠ []) (c : UInt8) (s : Bytes) :
    (Occurs needle cutOff (c :: s) → phpApMemstr needle cutOff (c :: s) = some 0) ∧
      (¬Occurs needle cutOff (c :: s) →
        phpApMemstr needle cutOff (c :: s) = (phpApMemstr needle cutOff s).map (· + 1)) :=
  ⟨fun h => if_pos ((memcmp_iff hneedle c s).mpr h),
    fun h => if_neg (mt (memcmp_iff hneedle c s).mp h)⟩

theorem phpApMemstr_eq_some (hneedle : needle ≠ []) (h : phpApMemstr needle cutOff s = some k) :
    k < s.length ∧ Occurs needle cutOff (s.drop k) ∧
      ∀ i < k, ¬Occurs needle cutOff (s.drop i) := by
  induction s generalizing k with
  | nil => exact absurd h (some_ne_none _).symm
  | cons c s ih =>
    by_cases hoccurs : Occurs needle cutOff (c :: s)
    · rw [(phpApMemstr_cons hneedle c s).1 hoccurs] at h
      obtain rfl := some.inj h
      exact ⟨Nat.succ_pos _, hoccurs, fun i hi => absurd hi (Nat.not_lt_zero i)⟩
    · rw [(phpApMemstr_cons hneedle c s).2 hoccurs] at h
      obtain ⟨k, hk, rfl⟩ := map_eq_some_iff.mp h
      obtain ⟨hlt, hat, hfirst⟩ := ih hk
      refine ⟨Nat.succ_lt_succ hlt, hat, fun i hi => ?_⟩
      cases i with
      | zero => exact hoccurs
      | succ i => exact hfirst i (Nat.lt_of_succ_lt_succ hi)

theorem phpApMemstr_eq_none (hneedle : needle ≠ []) (h : phpApMemstr needle cutOff s = none) :
    ∀ i < s.length, ¬Occurs needle cutOff (s.drop i) := by
  induction s with
  | nil => exact fun i hi => absurd hi (Nat.not_lt_zero i)
  | cons c s ih =>
    by_cases hoccurs : Occurs needle cutOff (c :: s)
    · rw [(phpApMemstr_cons hneedle c s).1 hoccurs] at h
      exact absurd h (some_ne_none _)
    · rw [(phpApMemstr_cons hneedle c s).2 hoccurs, map_eq_none_iff] at h
      intro i hi
      cases i with
      | zero => exact hoccurs
      | succ i => exact ih h i (Nat.lt_of_succ_lt_succ hi)

/-! ## The first occurrence in what has not been read -/

/-- The needle stands at `q` in the text, and not before. -/
def First (needle u : Bytes) (q : Nat) : Prop :=
  needle <+: u.drop q ∧ ∀ i < q, ¬needle <+: u.drop i

variable {c p u : Bytes} {q n : Nat}

theorem First.lt_length (h : First needle u q) (hneedle : needle ≠ []) : q < u.length := by
  have hlen := h.1.length_le
  have hpos := length_pos_iff.mpr hneedle
  rw [length_drop] at hlen
  omega

theorem First.drop (h : First needle u q) (hn : n ≤ q) : First needle (u.drop n) (q - n) := by
  refine ⟨?_, fun i hi => ?_⟩
  · rw [drop_drop, Nat.add_sub_cancel' hn]
    exact h.1
  · rw [drop_drop]
    exact h.2 _ (by omega)

theorem First.bound_le (h : First needle (c ++ p) q) (hneedle : needle ≠ []) :
    (phpApMemstr needle true c).getD c.length ≤ q := by
  have hoccurs : q < c.length → Occurs needle true (c.drop q) := by
    intro hlt
    have hat := h.1
    rw [drop_append_of_le_length hlt.le] at hat
    exact (List.prefix_or_prefix_of_prefix hat (prefix_append _ _)).imp_right
      fun h => ⟨rfl, h⟩
  cases hbound : phpApMemstr needle true c with
  | none =>
    by_contra hlt
    exact phpApMemstr_eq_none hneedle hbound q (Nat.not_le.mp hlt) (hoccurs (Nat.not_le.mp hlt))
  | some k =>
    obtain ⟨hk, -, hfirst⟩ := phpApMemstr_eq_some hneedle hbound
    by_contra hlt
    have hlt := Nat.not_le.mp hlt
    exact hfirst q hlt (hoccurs (hlt.trans hk))

theorem First.found_iff (h : First needle (c ++ p) q) (hneedle : needle ≠ []) :
    (phpApMemstr needle false c).isSome ↔ q + needle.length ≤ c.length := by
  have hpos := length_pos_iff.mpr hneedle
  constructor
  · intro hsome
    obtain ⟨k, hk⟩ := isSome_iff_exists.mp hsome
    obtain ⟨hlt, hat | ⟨hfalse, -⟩, -⟩ := phpApMemstr_eq_some hneedle hk
    · have hle : q ≤ k := by
        by_contra hgt
        refine h.2 k (Nat.not_le.mp hgt) ?_
        rw [drop_append_of_le_length hlt.le]
        exact hat.trans (prefix_append _ _)
      have hlen := hat.length_le
      rw [length_drop] at hlen
      omega
    · exact absurd hfalse Bool.false_ne_true
  · intro hle
    by_contra hnone
    have hnone := not_isSome_iff_eq_none.mp hnone
    refine phpApMemstr_eq_none hneedle hnone q (by omega) (.inl ?_)
    have hat := h.1
    rw [drop_append_of_le_length (by omega)] at hat
    exact prefix_of_prefix_length_le hat (prefix_append _ _)
      (by rw [length_drop]; omega)

theorem First.bound_eq (h : First needle (c ++ p) q) (hneedle : needle ≠ [])
    (hle : q + needle.length ≤ c.length) : phpApMemstr needle true c = some q := by
  have hmax := h.bound_le hneedle
  have hpos := length_pos_iff.mpr hneedle
  cases hbound : phpApMemstr needle true c with
  | none =>
    rw [hbound, getD_none] at hmax
    omega
  | some k =>
    rw [hbound, getD_some] at hmax
    obtain ⟨hlt, hat, -⟩ := phpApMemstr_eq_some hneedle hbound
    rcases Nat.eq_or_lt_of_le hmax with rfl | hkq
    · rfl
    · rcases hat with hat | ⟨-, hat⟩
      · refine absurd ?_ (h.2 k hkq)
        rw [drop_append_of_le_length hlt.le]
        exact hat.trans (prefix_append _ _)
      · have hlen := hat.length_le
        rw [length_drop] at hlen
        omega

theorem First.cut_off (h : First needle (c ++ p) q) (hneedle : needle ≠ [])
    (hgt : ¬q + needle.length ≤ c.length) (hbound : phpApMemstr needle true c = some k) :
    c.drop k ≠ [] ∧ c.drop k <+: needle ∧ c.drop k ≠ needle := by
  obtain ⟨hlt, hat, -⟩ := phpApMemstr_eq_some hneedle hbound
  have hno : ¬needle <+: c.drop k := by
    intro hwhole
    cases hfound : phpApMemstr needle false c with
    | none => exact phpApMemstr_eq_none hneedle hfound k hlt (.inl hwhole)
    | some j =>
      have hsome : (phpApMemstr needle false c).isSome := by
        rw [hfound]
        rfl
      exact hgt ((h.found_iff hneedle).mp hsome)
  refine ⟨?_, (hat.resolve_left hno).2, fun heq => hno (heq ▸ prefix_rfl)⟩
  rw [← length_pos_iff, length_drop]
  omega

/-! ## One block -/

theorem readLen_le (h : First needle (c ++ p) q) (hneedle : needle ≠ []) (bytes : Nat) :
    readLen needle c bytes ≤ q := by
  have hmax := h.bound_le hneedle
  rw [readLen]
  split <;> split <;> omega

theorem readLen_eq_zero {bytes : Nat} (h : readLen needle c bytes = 0) (hbytes : 3 ≤ bytes)
    (hc : c ≠ []) :
    ∃ k, phpApMemstr needle true c = some k ∧ (k = 0 ∨ k = 1 ∧ c.headD 0 = 13) := by
  have hpos := length_pos_iff.mpr hc
  rw [readLen] at h
  cases hbound : phpApMemstr needle true c with
  | none =>
    rw [hbound] at h
    simp only [getD_none, isSome_none, Bool.false_eq_true, false_and, and_false,
      if_false] at h
    split at h <;> omega
  | some k =>
    rw [hbound] at h
    refine ⟨k, rfl, ?_⟩
    simp only [getD_some, isSome_some, true_and] at h
    by_cases hk : k = 0
    · exact .inl hk
    · right
      by_cases hlt : k < bytes - 1
      · rw [if_pos hlt] at h
        split at h
        next hcr =>
          obtain rfl : k = 1 := by omega
          refine ⟨rfl, ?_⟩
          obtain ⟨d, c, rfl⟩ := exists_cons_of_ne_nil hc
          exact hcr.2
        next => exact absurd h hk
      · rw [if_neg hlt] at h
        split at h <;> omega

theorem readLen_le_length (hneedle : needle ≠ []) (c : Bytes) (bytes : Nat) :
    readLen needle c bytes ≤ c.length := by
  have hk : (phpApMemstr needle true c).getD c.length ≤ c.length := by
    cases hbound : phpApMemstr needle true c with
    | none => exact Nat.le_refl _
    | some k => exact (phpApMemstr_eq_some hneedle hbound).1.le
  rw [readLen]
  split <;> split <;> omega

theorem getLast_block {bytes : Nat} (h : First needle (c ++ p) q) (hneedle : needle ≠ [])
    (hfull : bytes ≤ c.length ∨ p = []) (hbytes : 0 < bytes) (hq : readLen needle c bytes = q)
    (hpos : 0 < q) : (c.take q).getLast? ≠ some 13 := by
  have hmax := h.bound_le hneedle
  have hlt := h.lt_length hneedle
  rw [length_append] at hlt
  have hle : q ≤ c.length := hq ▸ readLen_le_length hneedle c bytes
  have hlen : (if (phpApMemstr needle true c).getD c.length < bytes - 1 then
      (phpApMemstr needle true c).getD c.length else bytes - 1) ≤ q := by
    split <;> omega
  rw [readLen] at hq
  generalize hl : (if (phpApMemstr needle true c).getD c.length < bytes - 1 then
      (phpApMemstr needle true c).getD c.length else bytes - 1) = l at hq hlen
  by_cases hcr : l > 0 ∧ (phpApMemstr needle true c).isSome ∧ c.getD (l - 1) 0 = 13
  · rw [if_pos hcr] at hq
    omega
  · rw [if_neg hcr] at hq
    subst hq
    have hsome : (phpApMemstr needle true c).isSome = true := by
      by_contra hnone
      rw [not_isSome_iff_eq_none.mp hnone, getD_none] at hl hmax
      rcases hfull with hfull | rfl
      · split at hl <;> omega
      · rw [length_nil] at hlt
        omega
    have hne : c.getD (l - 1) 0 ≠ 13 := fun heq => hcr ⟨hpos, hsome, heq⟩
    rw [List.getLast?_eq_getElem?, length_take_of_le hle, List.getElem?_take_of_lt (by omega)]
    intro heq
    rw [getD_eq_getElem?_getD, heq] at hne
    exact hne rfl

end

/-! ## Calls -/

section

variable (boundary : Bytes) (cut : Nat → Nat)

/-- Nothing is read although the boundary is not there: the buffer is not filled, as it holds a
block already, and it ends inside of what may be the boundary. -/
def Stuck (self : MultipartBuffer) : Prop :=
  fillUnit ≤ self.bytesInBuffer ∧
    ∃ t, (self.content = t ∨ self.content = 13 :: t) ∧ t ≠ [] ∧ t <+: boundaryNext boundary ∧
      t ≠ boundaryNext boundary

variable {boundary}

theorem length_boundaryNext (boundary : Bytes) :
    (boundaryNext boundary).length = boundary.length + 3 := rfl

theorem boundaryNext_ne_nil (boundary : Bytes) : boundaryNext boundary ≠ [] :=
  cons_ne_nil _ _

theorem bufsize_le (boundary : Bytes) :
    fillUnit ≤ bufsize boundary ∧ boundary.length + 6 ≤ bufsize boundary := by
  rw [bufsize]
  split <;> omega

theorem filled_eq (boundary : Bytes) (self : MultipartBuffer) :
    ∃ filled : MultipartBuffer,
      multipartBufferRead boundary cut fillUnit self =
        (filled.content.take (readLen (boundaryNext boundary) filled.content fillUnit),
          { filled with
            bufBegin := filled.bufBegin +
              readLen (boundaryNext boundary) filled.content fillUnit
            bytesInBuffer := filled.bytesInBuffer -
              readLen (boundaryNext boundary) filled.content fillUnit
            atEnd := self.atEnd ||
              (phpApMemstr (boundaryNext boundary) true filled.content).isSome &&
                (phpApMemstr (boundaryNext boundary) false filled.content).isSome }) ∧
      filled.content ++ filled.post = self.unread ∧
      self.content <+: filled.content ∧
      (fillUnit ≤ self.bytesInBuffer ∧ filled.content = self.content ∨
        bufsize boundary ≤ filled.content.length ∨ filled.post = []) := by
  rw [multipartBufferRead]
  split
  next hgt =>
    obtain ⟨hcontent, hpost, hend⟩ := fillBuffer_eq cut (bufsize boundary) self
    refine ⟨fillBuffer cut (bufsize boundary) self, by rw [hend], ?_, ?_, .inr ?_⟩
    · rw [hcontent, hpost, append_assoc, take_append_drop, MultipartBuffer.unread]
    · rw [hcontent]
      exact prefix_append _ _
    · by_cases hlen : bufsize boundary - self.bytesInBuffer ≤ self.post.length
      · left
        rw [hcontent, length_append, length_content, length_take_of_le hlen]
        omega
      · right
        rw [hpost, drop_of_length_le (by omega)]
  next hle =>
    exact ⟨self, rfl, rfl, prefix_rfl, .inl ⟨Nat.not_lt.mp hle, rfl⟩⟩

theorem content_drop (filled : MultipartBuffer) (len : Nat) (atEnd : Bool) :
    MultipartBuffer.content { filled with
      bufBegin := filled.bufBegin + len
      bytesInBuffer := filled.bytesInBuffer - len
      atEnd := atEnd } = filled.content.drop len := by
  rw [MultipartBuffer.content, MultipartBuffer.content, drop_slice]

theorem unread_eq_post {self : MultipartBuffer} (h : self.bytesInBuffer = 0) :
    self.unread = self.post := by
  rw [MultipartBuffer.unread, MultipartBuffer.content, h, slice_zero, nil_append]

theorem unread_read (boundary : Bytes) (self : MultipartBuffer) :
    (multipartBufferRead boundary cut fillUnit self).1 =
        self.unread.take (multipartBufferRead boundary cut fillUnit self).1.length ∧
      (multipartBufferRead boundary cut fillUnit self).2.unread =
        self.unread.drop (multipartBufferRead boundary cut fillUnit self).1.length := by
  obtain ⟨filled, hread, hunread, -, -⟩ := filled_eq cut boundary self
  have hle := readLen_le_length (boundaryNext_ne_nil boundary) filled.content fillUnit
  rw [hread, ← hunread]
  dsimp only
  rw [length_take_of_le hle, take_append_of_le_length hle,
    drop_append_of_le_length hle, MultipartBuffer.unread, content_drop]
  exact ⟨rfl, rfl⟩

theorem unread_lt {self : MultipartBuffer}
    (hcons : (multipartBufferRead boundary cut fillUnit self).1 ≠ []) :
    (multipartBufferRead boundary cut fillUnit self).2.unread.length < self.unread.length := by
  obtain ⟨hblock, hnext⟩ := unread_read cut boundary self
  have hpos := length_pos_iff.mpr hcons
  have hle := congrArg List.length hblock
  rw [length_take] at hle
  rw [hnext, length_drop]
  omega

/-- A body that is left to read: the boundary behind it is not found before its own place, and
`end` is only set when the boundary is buffered. -/
structure Rest (boundary tail rest : Bytes) (mb : MultipartBuffer) : Prop where
  unread : mb.unread = rest ++ 13 :: (boundaryNext boundary ++ tail)
  inside : ∀ i < rest.length, ¬boundaryNext boundary <+: mb.unread.drop i
  atEnd : mb.atEnd = true →
    rest.length + 1 + (boundaryNext boundary).length ≤ mb.bytesInBuffer

variable {tail rest : Bytes} {self : MultipartBuffer}

theorem Rest.first (h : Rest boundary tail rest self) :
    First (boundaryNext boundary) self.unread (rest.length + 1) := by
  refine ⟨?_, fun i hi => ?_⟩
  · rw [h.unread, drop_length_add_append]
    exact prefix_append _ _
  · rcases Nat.eq_or_lt_of_le (Nat.le_of_lt_succ hi) with rfl | hlt
    · rw [h.unread, drop_left]
      rintro ⟨r, hr⟩
      exact absurd (List.cons.inj hr).1 (by decide)
    · exact h.inside i hlt

theorem Rest.found_iff (h : Rest boundary tail rest self) {filled : MultipartBuffer}
    (hunread : filled.content ++ filled.post = self.unread) :
    ((phpApMemstr (boundaryNext boundary) true filled.content).isSome &&
        (phpApMemstr (boundaryNext boundary) false filled.content).isSome) = true ↔
      rest.length + 1 + (boundaryNext boundary).length ≤ filled.content.length := by
  have hneedle := boundaryNext_ne_nil boundary
  have hfirst := h.first
  rw [← hunread] at hfirst
  rw [Bool.and_eq_true, hfirst.found_iff hneedle]
  refine ⟨And.right, fun hle => ⟨?_, hle⟩⟩
  rw [hfirst.bound_eq hneedle hle]
  rfl

theorem Rest.read (h : Rest boundary tail rest self) :
    ∃ rest', rest = (multipartBufferRead boundary cut fillUnit self).1 ++ rest' ∧
      Rest boundary tail rest' (multipartBufferRead boundary cut fillUnit self).2 := by
  obtain ⟨filled, hread, hunread, hpre, hfill⟩ := filled_eq cut boundary self
  have hneedle := boundaryNext_ne_nil boundary
  obtain ⟨hblock, hnext⟩ := unread_read cut boundary self
  have hfirst := h.first
  rw [← hunread] at hfirst
  have hlen := readLen_le_length hneedle filled.content fillUnit
  have hone : (multipartBufferRead boundary cut fillUnit self).1.length =
      readLen (boundaryNext boundary) filled.content fillUnit := by
    rw [hread, length_take_of_le hlen]
  have hfull : fillUnit ≤ filled.content.length ∨ filled.post = [] := by
    rcases hfill with ⟨hfull, heq⟩ | hfull | hpost
    · exact .inl (by rwa [heq, length_content])
    · exact .inl ((bufsize_le boundary).1.trans hfull)
    · exact .inr hpost
  have hle : (multipartBufferRead boundary cut fillUnit self).1.length ≤ rest.length := by
    rcases Nat.lt_or_eq_of_le (readLen_le hfirst hneedle fillUnit) with hlt | heq
    · rw [hone]
      exact Nat.le_of_lt_succ hlt
    · -- the CR in front of the boundary is not taken
      refine absurd ?_ (getLast_block hfirst hneedle hfull (by decide) heq (Nat.succ_pos _))
      have htake : filled.content.take (rest.length + 1) =
          (filled.content ++ filled.post).take (rest.length + 1) :=
        (take_append_of_le_length (heq ▸ hlen)).symm
      rw [htake, hunread, h.unread, take_length_add_append]
      exact List.getLast?_concat
  have htake : rest.take (multipartBufferRead boundary cut fillUnit self).1.length =
      (multipartBufferRead boundary cut fillUnit self).1 := by
    conv_rhs => rw [hblock, h.unread, take_append_of_le_length hle]
  refine ⟨rest.drop (multipartBufferRead boundary cut fillUnit self).1.length, ?_, ?_,
    fun i hi => ?_, fun hend => ?_⟩
  · conv_lhs => rw [← take_append_drop
      (multipartBufferRead boundary cut fillUnit self).1.length rest, htake]
  · rw [hnext, h.unread, drop_append_of_le_length hle]
  · rw [length_drop] at hi
    rw [hnext, drop_drop]
    exact h.inside _ (Nat.add_lt_of_lt_sub' hi)
  · have hwhole : rest.length + 1 + (boundaryNext boundary).length ≤ filled.content.length := by
      rw [hread] at hend
      rcases (Bool.or_eq_true _ _).mp hend with hself | hfound
      · exact ((h.atEnd hself).trans_eq (length_content self).symm).trans hpre.length_le
      · exact (h.found_iff hunread).mp hfound
    rw [length_drop, hone]
    rw [hone] at hle
    rw [hread]
    dsimp only
    rw [← length_content]
    omega

theorem Rest.read_nil (h : Rest boundary tail rest self) (hstuck : ¬Stuck boundary self)
    (hnil : (multipartBufferRead boundary cut fillUnit self).1 = []) :
    rest = [] ∧ (multipartBufferRead boundary cut fillUnit self).2.atEnd = true := by
  obtain ⟨filled, hread, hunread, hpre, hfill⟩ := filled_eq cut boundary self
  have hneedle := boundaryNext_ne_nil boundary
  have hfirst := h.first
  rw [← hunread] at hfirst
  have hzero : readLen (boundaryNext boundary) filled.content fillUnit = 0 := by
    have hlen := readLen_le_length hneedle filled.content fillUnit
    rw [hread] at hnil
    rw [← length_take_of_le hlen]
    exact congrArg List.length hnil
  have hlen := hfirst.lt_length hneedle
  rw [length_append] at hlen
  have hsize := bufsize_le boundary
  have hc : filled.content ≠ [] := by
    rw [← length_pos_iff]
    rcases hfill with ⟨hfull, heq⟩ | hfull | hpost
    · rw [heq, length_content]
      exact Nat.lt_of_lt_of_le (by decide) hfull
    · exact Nat.lt_of_lt_of_le (by omega) hfull
    · rw [hpost] at hlen
      exact Nat.lt_of_le_of_lt (Nat.zero_le _) hlen
  obtain ⟨k, hbound, hk⟩ := readLen_eq_zero hzero (by decide) hc
  by_cases hwhole : rest.length + 1 + (boundaryNext boundary).length ≤ filled.content.length
  · constructor
    · have hq := hfirst.bound_eq hneedle hwhole
      rw [hbound] at hq
      have hq := some.inj hq
      rw [← length_eq_zero_iff]
      omega
    · rw [hread, (h.found_iff hunread).mpr hwhole]
      exact Bool.or_true _
  · -- a match that is cut off is not taken for the boundary unless the buffer was not filled
    exfalso
    obtain ⟨hne, ht, hself⟩ := hfirst.cut_off hneedle hwhole hbound
    have hshort : filled.content.length ≤ (boundaryNext boundary).length := by
      have hlt := lt_of_le_of_ne ht.length_le fun heq => hself (ht.eq_of_length heq)
      rw [length_drop] at hlt
      omega
    rcases hfill with ⟨hfull, heq⟩ | hfull | hpost
    · refine hstuck ⟨hfull, filled.content.drop k, ?_, hne, ht, hself⟩
      rw [← heq]
      rcases hk with rfl | ⟨rfl, hcr⟩
      · exact .inl rfl
      · right
        obtain ⟨d, c, hcons⟩ := exists_cons_of_ne_nil hc
        rw [hcons] at hcr ⊢
        exact congrArg (· :: c) hcr
    · rw [length_boundaryNext] at hshort
      omega
    · have hall := congrArg List.length h.unread
      rw [← hunread, hpost, append_nil, length_append, length_cons,
        length_append] at hall
      omega

theorem Rest.read_stuck (h : Rest boundary tail rest self) (hstuck : Stuck boundary self) :
    (multipartBufferRead boundary cut fillUnit self).1 = [] ∧
      (multipartBufferRead boundary cut fillUnit self).2.atEnd = false := by
  obtain ⟨hfull, t, hcontent, hne, ht, hself⟩ := hstuck
  have hneedle := boundaryNext_ne_nil boundary
  obtain ⟨c, t, rfl⟩ := exists_cons_of_ne_nil hne
  have hzero : readLen (boundaryNext boundary) self.content fillUnit = 0 := by
    rcases hcontent with heq | heq
    · rw [readLen, heq, (phpApMemstr_cons hneedle c t).1 (.inr ⟨rfl, ht⟩)]
      rfl
    · have hcr : ¬Occurs (boundaryNext boundary) true (13 :: c :: t) := by
        rintro (⟨r, hr⟩ | ⟨-, r, hr⟩)
        · exact absurd (List.cons.inj hr).1 (by decide)
        · exact absurd (List.cons.inj hr).1 (by decide)
      rw [readLen, heq, (phpApMemstr_cons hneedle 13 _).2 hcr,
        (phpApMemstr_cons hneedle c t).1 (.inr ⟨rfl, ht⟩)]
      rfl
  have hshort : self.content.length ≤ (boundaryNext boundary).length := by
    have hlt := lt_of_le_of_ne ht.length_le fun heq => hself (ht.eq_of_length heq)
    rcases hcontent with heq | heq
    · rw [heq]
      exact hlt.le
    · rw [heq]
      exact hlt
  rw [multipartBufferRead, if_neg (Nat.not_lt.mpr hfull)]
  dsimp only
  rw [hzero]
  refine ⟨rfl, Bool.or_eq_false_iff.mpr ⟨?_, ?_⟩⟩
  · rw [← Bool.not_eq_true]
    intro hend
    have hle := h.atEnd hend
    rw [length_content] at hshort
    omega
  · rw [← Bool.not_eq_true, h.found_iff rfl]
    omega

end

/-! ## Runs -/

section

variable (boundary : Bytes) (cut : Nat → Nat)

/-- The blocks of successive calls up to the one that returns nothing, and the state after it. -/
def readBlocks (self : MultipartBuffer) : Bytes × MultipartBuffer :=
  let block := multipartBufferRead boundary cut fillUnit self
  if _hnil : block.1 = [] then block
  else
    let rest := readBlocks block.2
    (block.1 ++ rest.1, rest.2)
termination_by self.unread.length
decreasing_by exact unread_lt cut _hnil

def Continues (self next : MultipartBuffer) : Prop :=
  (multipartBufferRead boundary cut fillUnit self).1 ≠ [] ∧
    next = (multipartBufferRead boundary cut fillUnit self).2

/-- The states in which a run from `self` makes its calls. -/
def Reaches : MultipartBuffer → MultipartBuffer → Prop :=
  Relation.ReflTransGen (Continues boundary cut)

/-- The blocks are the body, `end` is set, and no call returns nothing before that. -/
def Delivers (body : Bytes) (self : MultipartBuffer) : Prop :=
  (readBlocks boundary cut self).1 = body ∧ (readBlocks boundary cut self).2.atEnd = true ∧
    ∀ mb, Reaches boundary cut self mb → (multipartBufferRead boundary cut fillUnit mb).1 = [] →
      mb.unread = self.unread.drop body.length

variable {boundary} {cut} {tail rest : Bytes} {self mb : MultipartBuffer}

theorem readBlocks_nil (hnil : (multipartBufferRead boundary cut fillUnit self).1 = []) :
    readBlocks boundary cut self = multipartBufferRead boundary cut fillUnit self := by
  rw [readBlocks, dif_pos hnil]

theorem readBlocks_cons (hcons : (multipartBufferRead boundary cut fillUnit self).1 ≠ []) :
    readBlocks boundary cut self =
      ((multipartBufferRead boundary cut fillUnit self).1 ++
          (readBlocks boundary cut (multipartBufferRead boundary cut fillUnit self).2).1,
        (readBlocks boundary cut (multipartBufferRead boundary cut fillUnit self).2).2) := by
  rw [readBlocks, dif_neg hcons]

theorem readBlocks_reaches (h : Reaches boundary cut self mb) :
    (readBlocks boundary cut self).2 = (readBlocks boundary cut mb).2 := by
  induction h with
  | refl => rfl
  | tail _ hstep ih =>
    obtain ⟨hcons, rfl⟩ := hstep
    rw [ih, readBlocks_cons hcons]

theorem Rest.reaches (h : Rest boundary tail rest self) (hmb : Reaches boundary cut self mb) :
    ∃ t rest', rest = t ++ rest' ∧ Rest boundary tail rest' mb ∧
      mb.unread = self.unread.drop t.length := by
  induction hmb with
  | refl => exact ⟨[], rest, rfl, h, rfl⟩
  | tail _ hstep ih =>
    obtain ⟨-, rfl⟩ := hstep
    obtain ⟨t, _, rfl, hmid, hunread⟩ := ih
    obtain ⟨rest', rfl, hrest⟩ := hmid.read cut
    refine ⟨_, rest', (append_assoc _ _ _).symm, hrest, ?_⟩
    rw [(unread_read cut boundary _).2, hunread, drop_drop, length_append]

theorem Rest.readBlocks_eq (h : Rest boundary tail rest self)
    (hstuck : ∀ mb, Reaches boundary cut self mb → ¬Stuck boundary mb) :
    (readBlocks boundary cut self).1 = rest ∧ (readBlocks boundary cut self).2.atEnd = true := by
  fun_induction readBlocks boundary cut self generalizing rest with
  | case1 self block =>
    rename_i hnil
    obtain ⟨rfl, hend⟩ := h.read_nil cut (hstuck self .refl) hnil
    exact ⟨hnil, hend⟩
  | case2 self block hcons blocks =>
    rename_i ih
    obtain ⟨rest', rfl, hrest⟩ := h.read cut
    obtain ⟨hblocks, hend⟩ := ih hrest fun mb hmb =>
      hstuck mb (Relation.ReflTransGen.head ⟨hcons, rfl⟩ hmb)
    exact ⟨congrArg _ hblocks, hend⟩

theorem First.length_readBlocks_le {q : Nat} (h : First (boundaryNext boundary) self.unread q) :
    (readBlocks boundary cut self).1.length ≤ q := by
  have hle : ∀ {self : MultipartBuffer} {q : Nat},
      First (boundaryNext boundary) self.unread q →
        (multipartBufferRead boundary cut fillUnit self).1.length ≤ q := by
    intro self q h
    obtain ⟨filled, hread, hunread, -, -⟩ := filled_eq cut boundary self
    rw [← hunread] at h
    rw [hread]
    exact (length_take_le _ _).trans (readLen_le h (boundaryNext_ne_nil boundary) fillUnit)
  fun_induction readBlocks boundary cut self generalizing q with
  | case1 self block => exact hle h
  | case2 self block hcons blocks =>
    rename_i ih
    have hnext := h.drop (hle h)
    rw [← (unread_read cut boundary self).2] at hnext
    have hrest := ih hnext
    have hblock := hle h
    rw [length_append]
    exact (Nat.add_le_add_left hrest _).trans_eq (Nat.add_sub_cancel' hblock)

theorem inside_of_notMem {body : Bytes} (hcr : 13 ∉ boundary)
    (hbody : ¬boundaryNext boundary <:+: body)
    (hunread : self.unread = body ++ 13 :: (boundaryNext boundary ++ tail)) :
    ∀ i < body.length, ¬boundaryNext boundary <+: self.unread.drop i := by
  intro i hi hat
  rw [hunread, drop_append_of_le_length hi.le] at hat
  have hdrop : body.drop i <:+: body := (drop_suffix i body).isInfix
  rcases prefix_or_prefix_of_prefix hat (prefix_append _ _) with hin | hover
  · exact hbody (hin.isInfix.trans hdrop)
  · obtain ⟨r, hr⟩ := hover
    rw [← hr] at hat
    cases r with
    | nil =>
      rw [append_nil] at hr
      exact hbody (hr ▸ hdrop)
    | cons c r =>
      obtain ⟨s, hs⟩ := (prefix_append_right_inj _).mp hat
      have hmem : (13 : UInt8) ∈ boundaryNext boundary := by
        rw [← hr, (List.cons.inj hs).1]
        exact mem_append_right _ mem_cons_self
      rcases hmem with _ | ⟨_, _ | ⟨_, _ | ⟨_, hmem⟩⟩⟩
      exact hcr hmem

theorem not_stuck_of_length (hlen : boundary.length + 3 < fillUnit) : ¬Stuck boundary self := by
  rintro ⟨hfull, t, hcontent, -, ht, hself⟩
  have hlt := lt_of_le_of_ne ht.length_le fun heq => hself (ht.eq_of_length heq)
  rw [length_boundaryNext] at hlt
  rw [← length_content] at hfull
  rcases hcontent with heq | heq
  · rw [heq] at hfull
    omega
  · rw [heq, length_cons] at hfull
    omega

/-- **When a body arrives unchanged**: when the boundary does not start in the body and run over
its end, which a boundary without a CR cannot, and when no call is stuck. -/
theorem delivers_iff {body : Bytes} (hend : self.atEnd = false)
    (hunread : self.unread = body ++ 13 :: (boundaryNext boundary ++ tail)) :
    Delivers boundary cut body self ↔
      (∀ i < body.length, ¬boundaryNext boundary <+: self.unread.drop i) ∧
        ∀ mb, Reaches boundary cut self mb → ¬Stuck boundary mb := by
  have hrest : (∀ i < body.length, ¬boundaryNext boundary <+: self.unread.drop i) →
      Rest boundary tail body self := fun hinside =>
    ⟨hunread, hinside, fun h => absurd (hend.symm.trans h) Bool.false_ne_true⟩
  constructor
  · rintro ⟨hblocks, hatEnd, -⟩
    have hinside : ∀ i < body.length, ¬boundaryNext boundary <+: self.unread.drop i := by
      intro i
      induction i using Nat.strongRecOn with
      | _ i ih =>
        intro hi hat
        have hfirst : First (boundaryNext boundary) self.unread i :=
          ⟨hat, fun j hj => ih j hj (hj.trans hi)⟩
        have hle : (readBlocks boundary cut self).1.length ≤ i := hfirst.length_readBlocks_le
        rw [hblocks] at hle
        omega
    refine ⟨hinside, fun mb hmb hstuck => ?_⟩
    obtain ⟨t, rest', -, hmid, -⟩ := (hrest hinside).reaches hmb
    obtain ⟨hnil, hfalse⟩ := hmid.read_stuck cut hstuck
    rw [readBlocks_reaches hmb, readBlocks_nil hnil, hfalse] at hatEnd
    exact absurd hatEnd Bool.false_ne_true
  · rintro ⟨hinside, hstuck⟩
    have h := hrest hinside
    obtain ⟨hblocks, hatEnd⟩ := h.readBlocks_eq hstuck
    refine ⟨hblocks, hatEnd, fun mb hmb hnil => ?_⟩
    obtain ⟨t, rest', rfl, hmid, hdrop⟩ := h.reaches hmb
    obtain ⟨rfl, -⟩ := hmid.read_nil cut (hstuck mb hmb) hnil
    rw [hdrop, append_nil]

/-- A stream that comes byte by byte. -/
theorem delivers_byteByByte :
    Delivers (ascii "AaB03x") (fun _ => 1) (ascii "Joe owes\n--AaB03")
      ⟨fun _ => 0, 0, 0,
        ascii "Joe owes\n--AaB03" ++ 13 :: (boundaryNext (ascii "AaB03x") ++ ascii "--"),
        0, false⟩ :=
  (delivers_iff rfl (unread_eq_post rfl)).mpr
    ⟨inside_of_notMem (by decide) (by decide +kernel) (unread_eq_post rfl),
      fun _ _ => not_stuck_of_length (by decide)⟩
def longBoundary : Bytes := List.replicate 6000 97

def behindHeaders : MultipartBuffer where
  buffer := store (fun _ => 0) 58 (13 :: (boundaryNext longBoundary).take 5947)
  bufBegin := 58
  bytesInBuffer := 5948
  post := (boundaryNext longBoundary).drop 5947 ++ ascii "--"
  calls := 0
  atEnd := false

theorem content_behindHeaders :
    behindHeaders.content = 13 :: (boundaryNext longBoundary).take 5947 := by
  have hlen : (13 :: (boundaryNext longBoundary).take 5947).length = 5948 := by
    rw [length_cons, length_take, length_boundaryNext, longBoundary,
      length_replicate]
    rfl
  have hself := slice_store_self (fun _ => 0) 58 (13 :: (boundaryNext longBoundary).take 5947)
  rwa [hlen] at hself

/-- The end of an empty body is not seen if the buffer ends in the boundary. -/
theorem not_delivers_longBoundary :
    ¬boundaryNext longBoundary <:+: [] ∧
      behindHeaders.unread = [] ++ 13 :: (boundaryNext longBoundary ++ ascii "--") ∧
      ¬Delivers longBoundary (fun _ => 1) [] behindHeaders := by
  have hunread : behindHeaders.unread =
      [] ++ 13 :: (boundaryNext longBoundary ++ ascii "--") := by
    rw [MultipartBuffer.unread, content_behindHeaders, behindHeaders, cons_append,
      ← append_assoc, take_append_drop, nil_append]
  have hrest : Rest longBoundary (ascii "--") [] behindHeaders :=
    ⟨hunread, fun i hi => absurd hi (Nat.not_lt_zero i), fun hend => absurd hend (by decide)⟩
  have hstuck : Stuck longBoundary behindHeaders := by
    refine ⟨by decide, _, .inr content_behindHeaders, cons_ne_nil _ _, take_prefix _ _,
      fun heq => ?_⟩
    have hlen := congrArg List.length heq
    rw [length_take, length_boundaryNext, longBoundary, length_replicate] at hlen
    exact absurd hlen (by decide)
  refine ⟨fun h => boundaryNext_ne_nil _ (infix_nil.mp h), hunread, fun h => ?_⟩
  obtain ⟨hnil, hend⟩ := hrest.read_stuck (fun _ => 1) hstuck
  have hset := h.2.1
  rw [readBlocks_nil hnil, hend] at hset
  exact absurd hset Bool.false_ne_true

end

end Input

end Phpce
