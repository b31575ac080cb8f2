import Phpce.Fcgi.Output

/-!
# The output cursor

`fcgi_write`, `fcgi_flush` and `fcgi_end` with writes to the descriptor that may fail: a flush that
fails throws the buffer away. `peak` is the largest value that `out_pos - out_buf` has had, also
within a call.

* **`apply_within`** — no call moves the cursor, or stores a byte, behind `reserved`.
-/

namespace Phpce

namespace Fcgi

open Bytes Buffer List Option

/-- A request that is written to, with what the next calls of `safe_write` do: how many bytes each
writes before it fails. When the answers are used up all writes succeed. -/
structure Writer where
  out : Output
  keep : Bool
  peak : Nat
  answers : List Nat

namespace Writer

def move (w : Writer) (f : Output → Output) : Writer :=
  { w with out := f w.out, peak := max w.peak (f w.out).outPos }

/-- `safe_write(req, data) == len`, and `req->keep = 0` where it is not. -/
def safeWrite (w : Writer) (data : Bytes) : Bool × Writer :=
  let sent := w.answers.headD data.length
  (data.length ≤ sent,
    { w with
      out := w.out.safeWrite (data.take sent)
      keep := w.keep && data.length ≤ sent
      answers := w.answers.tail })

/-- The record `FCGI_END_REQUEST` behind the cursor, which does not move. -/
def endRecord (req : Output) : Output :=
  (req.fcgiMakeHeader req.outPos FcgiRequestType.endRequest.code 8).put (req.outPos + 8)
    [0, 0, 0, 0, 0]

/-- `fcgi_flush` -/
def fcgiFlush (w : Writer) (fin : Bool) : Bool × Writer :=
  let w := w.move Output.closePacket
  let len := w.out.outPos
  let w := if fin then w.move endRecord else w
  let r := w.safeWrite (slice w.out.outBuf 0 (if fin then len + endRequestSize else len))
  (r.1, r.2.move fun req => { req with outPos := 0 })

/-- A header goes out with what is in the buffer, and its content right behind it. -/
def writeDirect (w : Writer) (type : FcgiRequestType) (data : Bytes) : Bool × Writer :=
  let hdr := w.out.outPos
  let w := (w.move fun req => req.openPacket type).move fun req =>
    { req.fcgiMakeHeader hdr type.code data.length with outHdr := none }
  let r := w.fcgiFlush false
  if r.1 then r.2.safeWrite data else r

def writeLarge (type : FcgiRequestType) : Nat → Writer → Bytes → (Bool × Writer) × Bytes
  | 0, w, str => ((true, w), str)
  | fuel + 1, w, str =>
    if 0xffff < str.length then
      let r := w.writeDirect type (str.take 0xfff8)
      if r.1 then writeLarge type fuel r.2 (str.drop 0xfff8) else (r, str)
    else ((true, w), str)

/-- The end of `fcgi_write` over a long string: the last bytes stay in the buffer. -/
def writeRest (w : Writer) (type : FcgiRequestType) (str : Bytes) : Bool × Writer :=
  let pad := padding str.length
  let rest := if pad ≠ 0 then 8 - pad else 0
  let r := w.writeDirect type (str.take (str.length - rest))
  if r.1 then
    if pad ≠ 0 then
      (true, (r.2.move fun req => req.openPacket type).move fun req =>
        req.append (str.drop (str.length - rest)))
    else r
  else r

/-- `fcgi_write`; `false` is its result -1. -/
def fcgiWrite (w : Writer) (type : FcgiRequestType) (str : Bytes) : Bool × Writer :=
  if str.length = 0 then (true, w)
  else
    let w := w.move fun req => req.switchType type
    let limit := w.out.limit
    if str.length < limit then
      (true, (w.move fun req => req.openIfClosed type).move fun req => req.append str)
    else if str.length - limit < outBufSize - 8 then
      let w := w.move fun req => req.openIfClosed type
      let w := if 0 < limit then w.move fun req => req.append (str.take limit.toNat) else w
      let r := w.fcgiFlush false
      if r.1 then
        if limit < str.length then
          (true, (r.2.move fun req => req.openPacket type).move fun req =>
            req.append (str.drop limit.toNat))
        else r
      else r
    else
      let r := writeLarge type str.length (w.move Output.closePacket) str
      if r.1.1 then r.1.2.writeRest type r.2 else r.1

/-- `fcgi_end` -/
def fcgiEnd (w : Writer) : Bool × Writer :=
  if w.out.ended then (true, w)
  else
    let r := w.fcgiFlush true
    (r.1, r.2.move fun req => { req with ended := true })

/-- `fcgi_init_request`, with the id of the request read since. -/
def init (id : Nat) (keep : Bool) (outBuf : Nat → UInt8) (answers : List Nat) : Writer :=
  ⟨Output.init id outBuf, keep, 0, answers⟩

end Writer

inductive WriterOp where
  | write (type : FcgiRequestType) (str : Bytes)
  | flush (fin : Bool)
  | fcgiEnd
  deriving DecidableEq, Repr

def WriterOp.apply (w : Writer) : WriterOp → Writer
  | .write type str => (w.fcgiWrite type str).2
  | .flush fin => (w.fcgiFlush fin).2
  | .fcgiEnd => w.fcgiEnd.2

/-! ## The buffer -/

/-- The cursor is at most at `b`, and a packet is opened and closed at multiples of 8. -/
structure CursorLe (b : Nat) (req : Output) : Prop where
  inside : req.overrun = false
  le : req.outPos ≤ b
  closed : req.outHdr = none → req.outPos % 8 = 0
  opened : ∀ hdr, req.outHdr = some hdr → hdr % 8 = 0 ∧ hdr + 8 ≤ req.outPos

namespace CursorLe

open Output

variable {b b' : Nat} {req : Output} {type : FcgiRequestType} {data : Bytes}

theorem mono (h : CursorLe b req) (hle : b ≤ b') : CursorLe b' req :=
  { h with le := Nat.le_trans h.le hle }

theorem closePacket (h : CursorLe b req) (hb : b % 8 = 0) (hle : b ≤ outBufSize + endRequestSize) :
    CursorLe b req.closePacket ∧ req.closePacket.outHdr = none := by
  cases hhdr : req.outHdr with
  | none =>
    have hsame : req.closePacket = req := by simp only [Output.closePacket, hhdr]
    rw [hsame]
    exact ⟨h, hhdr⟩
  | some hdr =>
    obtain ⟨haligned, hroom⟩ := h.opened hdr hhdr
    have hpos := h.le
    have hpad := padding_aligned (req.outPos - (hdr + 8))
    have hlt := padding_lt (req.outPos - (hdr + 8))
    rw [closePacket_some hhdr]
    refine ⟨⟨?_, ?_, fun _ => ?_, fun _ hsome => by cases hsome⟩, rfl⟩
    · exact (fcgiMakeHeader_inside (by omega) (fun _ => by omega)).trans h.inside
    · dsimp only
      omega
    · dsimp only
      omega

theorem openPacket (h : CursorLe b req) (hhdr : req.outHdr = none)
    (hle : b + 8 ≤ outBufSize + endRequestSize) (type : FcgiRequestType) :
    CursorLe (b + 8) (req.openPacket type) ∧ (req.openPacket type).outHdr = some req.outPos := by
  have hpos := h.le
  refine ⟨⟨?_, ?_, fun hnone => absurd hnone (some_ne_none _),
    fun hdr hsome => ?_⟩, rfl⟩
  · rw [openPacket_overrun, put_inside (by simp only [length_singleton]; omega), h.inside]
  · exact Nat.add_le_add_right hpos 8
  · cases hsome
    exact ⟨h.closed hhdr, Nat.le_refl _⟩

theorem append (h : CursorLe b req) (hhdr : req.outHdr ≠ none)
    (hpos : req.outPos + data.length ≤ b') (hle : b' ≤ outBufSize + endRequestSize) :
    CursorLe b' (req.append data) := by
  refine ⟨?_, hpos, fun hnone => absurd hnone hhdr, fun hdr hsome => ?_⟩
  · rw [append_overrun, put_inside (by omega), h.inside]
  · obtain ⟨haligned, hroom⟩ := h.opened hdr hsome
    exact ⟨haligned, by rw [append_outPos]; omega⟩

theorem endRecord (h : CursorLe outBufSize req) : CursorLe outBufSize (Writer.endRecord req) := by
  have hpos := h.le
  have hfields : (Writer.endRecord req).outPos = req.outPos ∧
      (Writer.endRecord req).outHdr = req.outHdr := by
    rw [Writer.endRecord, put_outPos, put_outHdr, fcgiMakeHeader_eq]
    exact ⟨rfl, rfl⟩
  refine ⟨?_, by rw [hfields.1]; exact hpos, ?_, ?_⟩
  · rw [Writer.endRecord, put_inside (by simp only [length_cons, length_nil]; simp only
      [outBufSize, endRequestSize] at *; omega)]
    refine (fcgiMakeHeader_inside ?_ fun hpad => absurd (padding_eq_zero rfl) hpad).trans h.inside
    exact Nat.add_le_add hpos (by decide)
  · rw [hfields.1, hfields.2]
    exact h.closed
  · rw [hfields.1, hfields.2]
    exact h.opened

end CursorLe

namespace Writer

open Output

/-- The state of the buffer is `CursorLe b`, and the cursor has never been behind `reserved`. -/
structure Within (b : Nat) (w : Writer) : Prop where
  cursor : CursorLe b w.out
  peak_le : w.peak ≤ outBufSize + endRequestSize

variable {b b' : Nat} {w : Writer} {type : FcgiRequestType} {str data : Bytes}

theorem Within.mono (h : Within b w) (hle : b ≤ b') : Within b' w := ⟨h.cursor.mono hle, h.peak_le⟩

theorem Within.move (h : Within b w) {f : Output → Output} (hf : CursorLe b' (f w.out))
    (hle : b' ≤ outBufSize + endRequestSize) : Within b' (w.move f) :=
  ⟨hf, Nat.max_le.mpr ⟨h.peak_le, Nat.le_trans hf.le hle⟩⟩

theorem Within.safeWrite (h : Within b w) (data : Bytes) : Within b (w.safeWrite data).2 :=
  ⟨{ h.cursor with }, h.peak_le⟩

theorem Within.closePacket (h : Within b w) (hb : b % 8 = 0)
    (hle : b ≤ outBufSize + endRequestSize) :
    Within b (w.move Output.closePacket) ∧ (w.move Output.closePacket).out.outHdr = none := by
  obtain ⟨hclosed, hhdr⟩ := h.cursor.closePacket hb hle
  exact ⟨h.move hclosed hle, hhdr⟩

theorem Within.openPacket (h : Within b w) (hhdr : w.out.outHdr = none)
    (hle : b + 8 ≤ outBufSize + endRequestSize) (type : FcgiRequestType) :
    Within (b + 8) (w.move fun req => req.openPacket type) :=
  h.move (h.cursor.openPacket hhdr hle type).1 hle

/-- A flush leaves an empty buffer, also where it fails. -/
structure Empty (w : Writer) : Prop where
  within : Within outBufSize w
  pos : w.out.outPos = 0
  hdr : w.out.outHdr = none

theorem Empty.ofReset (h : Within b w) (hhdr : w.out.outHdr = none) :
    Empty (w.move fun req => { req with outPos := 0 }) where
  within := h.move
    ⟨h.cursor.inside, Nat.zero_le _, fun _ => rfl, fun _ hsome => by
      rw [show w.out.outHdr = some _ from hsome] at hhdr
      cases hhdr⟩ (Nat.le_add_right ..)
  pos := rfl
  hdr := hhdr

/-- A header that is just opened has room before the buffer is flushed. -/
abbrev openSize : Nat := outBufSize + 8

theorem openSize_le : openSize ≤ outBufSize + endRequestSize := by decide

theorem fcgiFlush_empty (h : Within openSize w) : Empty (w.fcgiFlush false).2 := by
  obtain ⟨hclosed, hhdr⟩ := h.closePacket (by decide) openSize_le
  exact Empty.ofReset (hclosed.safeWrite _) hhdr

theorem fcgiFlush_end_empty (h : Within outBufSize w) : Empty (w.fcgiFlush true).2 := by
  obtain ⟨hclosed, hhdr⟩ := h.closePacket (by decide) (Nat.le_add_right ..)
  have hend := hclosed.move (f := endRecord) hclosed.cursor.endRecord (Nat.le_add_right ..)
  refine Empty.ofReset (hend.safeWrite _) ?_
  exact hhdr

/-! ## The calls -/

theorem Empty.openPacket (h : Empty w) (type : FcgiRequestType) :
    Within outBufSize (w.move fun req => req.openPacket type) ∧
      (w.move fun req => req.openPacket type).out.outPos = 8 ∧
        (w.move fun req => req.openPacket type).out.outHdr ≠ none := by
  have hpos := h.pos
  have hzero : CursorLe 0 w.out := { h.within.cursor with le := Nat.le_of_eq hpos }
  have hopen := (hzero.openPacket h.hdr (by decide) type).1
  refine ⟨h.within.move (hopen.mono (by decide)) (Nat.le_add_right ..), ?_, some_ne_none _⟩
  exact congrArg (· + 8) hpos

theorem Empty.openAppend (h : Empty w) (type : FcgiRequestType)
    (hdata : 8 + data.length ≤ outBufSize) :
    Within outBufSize
      ((w.move fun req => req.openPacket type).move fun req => req.append data) := by
  obtain ⟨hopen, hpos, hhdr⟩ := h.openPacket type
  exact hopen.move (hopen.cursor.append hhdr (by rw [hpos]; exact hdata) (Nat.le_add_right ..))
    (Nat.le_add_right ..)

theorem writeDirect_empty (h : Within outBufSize w) (hhdr : w.out.outHdr = none)
    (type : FcgiRequestType) (hdata : data.length % 8 = 0) : Empty (w.writeDirect type data).2 := by
  have hopen := h.openPacket hhdr openSize_le type
  -- the header tells a length that needs no padding
  have hmade : CursorLe openSize
      { (w.out.openPacket type).fcgiMakeHeader w.out.outPos type.code data.length with
        outHdr := none } := by
    have hinside : ((w.out.openPacket type).fcgiMakeHeader w.out.outPos type.code
        data.length).overrun = (w.out.openPacket type).overrun :=
      fcgiMakeHeader_inside (Nat.le_trans hopen.cursor.le openSize_le)
        (fun hpad => absurd (padding_eq_zero hdata) hpad)
    rw [fcgiMakeHeader_eq]
    refine ⟨hinside.trans hopen.cursor.inside, hopen.cursor.le, fun _ => ?_, fun _ hsome => by
      cases hsome⟩
    have haligned := h.cursor.closed hhdr
    rw [openPacket_outPos]
    omega
  have hflush := fcgiFlush_empty (hopen.move (f := fun req =>
    { req.fcgiMakeHeader w.out.outPos type.code data.length with outHdr := none })
    hmade openSize_le)
  rw [writeDirect]
  dsimp only
  split
  · exact ⟨hflush.within.safeWrite data, hflush.pos, hflush.hdr⟩
  · exact hflush

theorem writeLarge_within (type : FcgiRequestType) (fuel : Nat) (h : Within outBufSize w)
    (hhdr : w.out.outHdr = none) (hfuel : str.length ≤ fuel) :
    Within outBufSize (writeLarge type fuel w str).1.2 ∧
      (writeLarge type fuel w str).1.2.out.outHdr = none := by
  -- induction on the rounds
  induction fuel generalizing w str with
  | zero => exact ⟨h, hhdr⟩
  | succ fuel ih =>
    rw [writeLarge]
    split
    · have hdirect : Empty (w.writeDirect type (str.take 0xfff8)).2 :=
        writeDirect_empty h hhdr type (by rw [length_take_of_le (by omega)])
      dsimp only
      split
      · exact ih hdirect.within hdirect.hdr (by rw [length_drop]; omega)
      · exact ⟨hdirect.within, hdirect.hdr⟩
    · exact ⟨h, hhdr⟩

theorem writeRest_within (h : Within outBufSize w) (hhdr : w.out.outHdr = none)
    (type : FcgiRequestType) : Within outBufSize (w.writeRest type str).2 := by
  have hpad := padding_aligned str.length
  have hlt := padding_lt str.length
  rw [writeRest]
  set rest := if padding str.length ≠ 0 then 8 - padding str.length else 0 with hrest
  have hrest_le : rest ≤ str.length ∧ (str.length - rest) % 8 = 0 ∧ rest < 8 := by
    rw [hrest]
    split <;> omega
  have hdirect : Empty (w.writeDirect type (str.take (str.length - rest))).2 :=
    writeDirect_empty h hhdr type (by
      rw [length_take_of_le (Nat.sub_le ..)]
      exact hrest_le.2.1)
  split
  · split
    · refine hdirect.openAppend type ?_
      rw [length_drop]
      simp only [outBufSize]
      omega
    · exact hdirect.within
  · exact hdirect.within

theorem Within.switchType (h : Within outBufSize w) (type : FcgiRequestType) :
    Within outBufSize (w.move fun req => req.switchType type) := by
  refine h.move ?_ (Nat.le_add_right ..)
  rw [Output.switchType]
  split
  · split
    · exact (h.cursor.closePacket (by decide) (Nat.le_add_right ..)).1
    · exact h.cursor
  · exact h.cursor

theorem Within.openIfClosed (h : Within outBufSize w) (type : FcgiRequestType) :
    Within openSize (w.move fun req => req.openIfClosed type) ∧
      (w.move fun req => req.openIfClosed type).out.outHdr ≠ none ∧
        ∀ n : Nat, 0 < n → (n : Int) ≤ w.out.limit →
          (w.move fun req => req.openIfClosed type).out.outPos + n ≤ outBufSize := by
  have hpos := h.cursor.le
  cases hhdr : w.out.outHdr with
  | none =>
    have hopen : w.out.openIfClosed type = w.out.openPacket type := by
      simp only [Output.openIfClosed, hhdr, if_true]
    have hmove : w.move (fun req => req.openIfClosed type) =
        w.move fun req => req.openPacket type := by
      rw [Writer.move, hopen, Writer.move]
    rw [hmove]
    refine ⟨h.openPacket hhdr openSize_le type, some_ne_none _, fun n hn hle => ?_⟩
    simp only [Output.limit, hhdr, if_true, outBufSize] at hle
    change w.out.outPos + 8 + n ≤ outBufSize
    simp only [outBufSize]
    omega
  | some hdr =>
    have hopen : w.out.openIfClosed type = w.out := by
      simp only [Output.openIfClosed, hhdr, reduceCtorEq, if_false]
    refine ⟨h.move ?_ openSize_le, ?_, fun n hn hle => ?_⟩
    · rw [hopen]
      exact h.cursor.mono (Nat.le_add_right ..)
    · change (w.out.openIfClosed type).outHdr ≠ none
      rw [hopen, hhdr]
      exact some_ne_none _
    · change (w.out.openIfClosed type).outPos + n ≤ outBufSize
      rw [hopen]
      simp only [Output.limit, hhdr, reduceCtorEq, if_false] at hle
      omega

theorem fcgiWrite_within (h : Within outBufSize w) (type : FcgiRequestType) (str : Bytes) :
    Within outBufSize (w.fcgiWrite type str).2 := by
  rw [fcgiWrite]
  split
  · exact h
  · rename_i hne
    have hswitch := h.switchType type
    obtain ⟨hopen, hhdr, hroom⟩ := hswitch.openIfClosed type
    dsimp only
    set w₁ := w.move fun req => req.switchType type
    split
    · -- the string fits
      rename_i hfits
      have hle := hroom str.length (Nat.pos_of_ne_zero hne) (Int.le_of_lt hfits)
      exact hopen.move (f := fun req => req.append str)
        (hopen.cursor.append hhdr hle (Nat.le_add_right ..)) (Nat.le_add_right ..)
    · split
      · -- the buffer is filled and flushed, and what is left stays in it
        rename_i hfull hsecond
        have hfilled : Within openSize
            (if 0 < w₁.out.limit then
              (w₁.move fun req => req.openIfClosed type).move fun req =>
                req.append (str.take w₁.out.limit.toNat)
            else w₁.move fun req => req.openIfClosed type) := by
          split
          · rename_i hpos
            have hle := hroom w₁.out.limit.toNat (by omega) (by omega)
            refine hopen.move (f := fun req => req.append (str.take w₁.out.limit.toNat))
              (hopen.cursor.append hhdr ?_ openSize_le) openSize_le
            rw [length_take]
            exact Nat.le_trans (Nat.add_le_add_left (Nat.min_le_left ..) _)
              (Nat.le_trans hle (Nat.le_add_right ..))
          · exact hopen
        generalize (if 0 < w₁.out.limit then
            (w₁.move fun req => req.openIfClosed type).move fun req =>
              req.append (str.take w₁.out.limit.toNat)
          else w₁.move fun req => req.openIfClosed type) = w₂ at hfilled ⊢
        have hflush := fcgiFlush_empty hfilled
        split
        · split
          · refine hflush.openAppend type ?_
            rw [length_drop]
            simp only [outBufSize] at hsecond ⊢
            omega
          · exact hflush.within
        · exact hflush.within
      · -- a long string goes out past the buffer
        obtain ⟨hclosed, hnone⟩ := hswitch.closePacket (by decide) (Nat.le_add_right ..)
        obtain ⟨hlarge, hlargeHdr⟩ :=
          writeLarge_within type str.length hclosed hnone (Nat.le_refl str.length)
        split
        · exact writeRest_within hlarge hlargeHdr type
        · exact hlarge

theorem fcgiFlush_within (h : Within outBufSize w) (fin : Bool) :
    Within outBufSize (w.fcgiFlush fin).2 := by
  cases fin with
  | false => exact (fcgiFlush_empty (h.mono (Nat.le_add_right ..))).within
  | true => exact (fcgiFlush_end_empty h).within

theorem apply_within (h : Within outBufSize w) (op : WriterOp) :
    Within outBufSize (op.apply w) := by
  cases op with
  | write type str => exact fcgiWrite_within h type str
  | flush fin => exact fcgiFlush_within h fin
  | fcgiEnd =>
    rw [WriterOp.apply, Writer.fcgiEnd]
    split
    · exact h
    · have hflush := fcgiFlush_within h true
      exact hflush.move (f := fun req => { req with ended := true }) { hflush.cursor with }
        (Nat.le_add_right ..)

theorem foldl_apply_within (h : Within outBufSize w) (ops : List WriterOp) :
    Within outBufSize (ops.foldl WriterOp.apply w) := by
  -- induction on the calls
  induction ops generalizing w with
  | nil => exact h
  | cons op ops ih => exact ih (apply_within h op)

theorem init_within (id : Nat) (keep : Bool) (outBuf : Nat → UInt8) (answers : List Nat) :
    Within outBufSize (init id keep outBuf answers) :=
  ⟨⟨rfl, Nat.zero_le _, fun _ => rfl, fun _ hsome => by cases hsome⟩, Nat.zero_le _⟩

/-- **The cursor stays in the buffer**: whatever is called, and whichever writes fail, it is never
behind `reserved`, and no byte is stored there. -/
theorem cursor_inside (id : Nat) (keep : Bool) (outBuf : Nat → UInt8) (answers : List Nat)
    (ops : List WriterOp) :
    (ops.foldl WriterOp.apply (init id keep outBuf answers)).peak ≤ outBufSize + endRequestSize ∧
      (ops.foldl WriterOp.apply (init id keep outBuf answers)).out.overrun = false := by
  have hwithin := foldl_apply_within (init_within id keep outBuf answers) ops
  exact ⟨hwithin.peak_le, hwithin.cursor.inside⟩

end Writer

end Fcgi

end Phpce
