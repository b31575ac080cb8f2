import Phpce.Streams.Records

/-!
# Deliveries

What the underlying reads return of the data: each a byte or more while any is left, and the last
says end of file. `php_stream_get_record` returns the same records for all deliveries. With
`PHP_STREAM_FLAG_DETECT_EOL` the lines end as the first buffer with an end of line does, and a
delivery may come between the two bytes of the first `\r\n`.

* **`sameStrings_iff`** — the strings are the same, unless that can happen.
-/

namespace Phpce

namespace Streams

open Bytes Buffer List Option

/-! ## What the reads return -/

section

variable (c : Opened)

def room (s : Stream) : Nat :=
  (grow c (compact c s)).readbuflen - (grow c (compact c s)).writepos

/-- The read that a filling makes returns a byte or more if any is left, and says end of file if
none is; it may say so where it returns the last. -/
def brings (s : Stream) : Bool :=
  let (n, eof) := c.ops s.reads (room c s)
  if s.rest = [] then eof else n ≠ 0 && (!eof || s.rest.length ≤ min n (room c s))

/-- So do all that a call of `_php_stream_get_line` makes. -/
def lineBrings : Nat → Stream → Nat → Bool
  | 0, _, _ => true
  | fuel + 1, s, maxlen =>
    if 0 < s.amount then
      (locateEol s none).1.isSome ||
        lineBrings fuel (copyLine s maxlen s.amount).2 (subSize maxlen s.amount)
    else s.eof || brings c s && lineBrings fuel (fillReadBuffer c s c.chunkSize) maxlen

/-- So do all that a call of `php_stream_get_record` makes. -/
def recordBrings (maxlen : Nat) (delim : Bytes) : Nat → Stream → Bool
  | 0, _ => true
  | fuel + 1, s =>
    recordReady s maxlen delim || brings c s &&
      (let s' := fillReadBuffer c s (s.amount + min (maxlen - s.amount) c.chunkSize)
       s'.amount = s.amount || recordBrings maxlen delim fuel s')

def Delivers (r : Reader) : Call → Prop
  | .getLine false maxlen => lineBrings c (2 * r.stream.rest.length + 3) r.stream maxlen = true
  | .getRecord maxlen delim => r.stream.pending.length + c.chunkSize < 0x8000000000000000 ∧
      recordBrings c maxlen delim (2 * r.stream.rest.length + 3) r.stream = true
  | _ => True

def returns (s : Stream) : Call → Option Bytes
  | .read size => some (streamRead c s size).1
  | .getc => (streamGetc c s).1.map ([·])
  | .getLine buf maxlen => (streamGetLine c s buf maxlen).1
  | .getRecord maxlen delim => (streamGetRecord c s maxlen delim).1

/-- What `n` calls return. -/
def strings (call : Call) : Nat → Stream → List (Option Bytes)
  | 0, _ => []
  | n + 1, s => returns c s call :: strings call n (serve c s call).2

end

/-- All deliveries of the data to a stream without filters yield the same strings. -/
def SameStrings (data : Bytes) (detectEol : Bool) (call : Call) : Prop :=
  ∀ (c c' : Opened) (n : Nat), c.readfilters = [] → c'.readfilters = [] →
    (reading c).Along (Delivers c) (opened data detectEol) (List.replicate n call) →
    (reading c').Along (Delivers c') (opened data detectEol) (List.replicate n call) →
    strings c call n (opened data detectEol).stream =
      strings c' call n (opened data detectEol).stream

/-- The first end of line is `\r\n`. -/
def StartsDos (data : Bytes) : Prop :=
  ∃ i, data.idxOf? 13 = some i ∧ data.idxOf? 10 = some (i + 1)

variable {c c' : Opened} {s s' s'' t t' : Stream} {data delim out : Bytes}
  {size maxlen fuel i : Nat}

/-! ## One filling -/

/-- A stream without filters between two calls. -/
structure Stream.Ready (s : Stream) : Prop extends s.Ordered where
  eof : s.eof = true → s.rest = []

theorem room_wrapped (c : Opened) (s : Stream) (wrapped : Bool) :
    room c { s with wrapped := wrapped } = room c s := by
  unfold room compact
  dsimp only
  split <;> (unfold grow; dsimp only; split <;> rfl)

theorem le_room (c : Opened) (h : s.Ordered) : c.chunkSize ≤ room c s := by
  have hle := (compact_fills (c := c) h).ordered.writepos_le
  unfold room grow
  split
  · dsimp only
    omega
  · omega

theorem grow_compact (c : Opened) (s : Stream) :
    (grow c (compact c s)).rest = s.rest ∧ (grow c (compact c s)).reads = s.reads := by
  unfold grow compact
  constructor <;> (split <;> split <;> rfl)

theorem fillReadBuffer_read (hfs : c.readfilters = []) (hlacks : lacks s size = true) :
    (fillReadBuffer c s size).rest =
        s.rest.drop (min (c.ops s.reads (room c s)).1 (room c s)) ∧
      (fillReadBuffer c s size).eof = (c.ops s.reads (room c s)).2 ∧
      (fillReadBuffer c s size).reads = s.reads + 1 := by
  have hfill : ∀ s : Stream, lacks s size = true →
      (fillPlain c s size).rest = s.rest.drop (min (c.ops s.reads (room c s)).1 (room c s)) ∧
        (fillPlain c s size).eof = (c.ops s.reads (room c s)).2 ∧
        (fillPlain c s size).reads = s.reads + 1 := by
    intro s hlacks
    obtain ⟨hrest, hreads⟩ := grow_compact c s
    unfold fillPlain opsRead room
    rw [if_pos hlacks]
    dsimp only
    rw [hrest, hreads]
    exact ⟨rfl, rfl, rfl⟩
  have hread := hfill { s with wrapped := s.wrapped || decide (0x8000000000000000 ≤ size) } hlacks
  rw [room_wrapped] at hread
  rw [fillReadBuffer, if_pos hfs]
  exact hread

theorem Stream.Ready.fill (hfs : c.readfilters = []) (h : s.Ready) (hbrings : brings c s = true)
    (hsize : size < 0x8000000000000000) (hless : s.amount < size) :
    Fills s (fillReadBuffer c s size) ∧ (fillReadBuffer c s size).Ready ∧
      ((fillReadBuffer c s size).rest.length < s.rest.length ∨
        s.rest = [] ∧ (fillReadBuffer c s size).eof = true) := by
  have hfill := fillReadBuffer_fills_of_lt (c := c) hsize h.toOrdered (Or.inl hfs)
  have hlacks : lacks s size = true := by
    unfold lacks
    rw [decide_eq_true hsize, decide_eq_true hless]
    rfl
  obtain ⟨hrest, heof, _⟩ := fillReadBuffer_read hfs hlacks
  have hroom := le_room c h.toOrdered
  have hchunk := c.chunkSize_pos
  unfold brings at hbrings
  generalize c.ops s.reads (room c s) = answer at hbrings hrest heof
  obtain ⟨n, eof⟩ := answer
  dsimp only at hbrings hrest heof
  have hlen := congrArg List.length hrest
  rw [length_drop] at hlen
  split at hbrings
  next hnil =>
    refine ⟨hfill, ⟨hfill.ordered, fun _ => ?_⟩, Or.inr ⟨hnil, heof.trans hbrings⟩⟩
    rw [hrest, hnil, drop_nil]
  next hsome =>
    simp only [Bool.and_eq_true, Bool.or_eq_true, Bool.not_eq_true', decide_eq_true_eq] at hbrings
    have hpos := length_pos_iff.mpr hsome
    refine ⟨hfill, ⟨hfill.ordered, fun htrue => ?_⟩, Or.inl (by omega)⟩
    rw [heof] at htrue
    rw [hrest]
    exact drop_eq_nil_of_le (hbrings.2.resolve_left (by simp [htrue]))

/-! ## Lines -/

theorem idxOf?_append_of_lt {xs ys : Bytes} {b : UInt8} (h : i < xs.length) :
    (xs ++ ys).idxOf? b = some i ↔ xs.idxOf? b = some i := by
  rw [idxOf?_append]
  cases xs.idxOf? b with
  | none =>
    refine iff_of_false (fun heq => ?_) nofun
    obtain ⟨j, _, rfl⟩ := map_eq_some_iff.mp heq
    omega
  | some j => exact Iff.rfl

theorem chooseEol_append_of_not_startsDos {detectEol eolMac : Bool} {xs ys : Bytes}
    (h : chooseEol detectEol eolMac (xs.idxOf? 13) (xs.idxOf? 10) = some i)
    (hdos : detectEol = true → ¬StartsDos (xs ++ ys)) :
    chooseEol detectEol eolMac ((xs ++ ys).idxOf? 13) ((xs ++ ys).idxOf? 10) = some i := by
  obtain ⟨j, rfl | ⟨hdetect, hcr, hlf, _⟩, hj⟩ := chooseEol_append ys h
  · exact hj
  · exact absurd ⟨i, hcr, hlf⟩ (hdos hdetect)

def endingAfter (detectEol eolMac : Bool) (data : Bytes) : Bool × Bool :=
  let eol := chooseEol detectEol eolMac (data.idxOf? 13) (data.idxOf? 10)
  (detectEol && eol.isNone, eolMac || detectEol && eol.isSome && eol == data.idxOf? 13)

theorem locateEol_ending (s : Stream) (data : Option Bytes) :
    ((locateEol s data).2.detectEol, (locateEol s data).2.eolMac) =
      endingAfter s.detectEol s.eolMac (data.getD s.buffered) := by
  unfold locateEol endingAfter chooseEol
  generalize (data.getD s.buffered).idxOf? 13 = cr
  generalize (data.getD s.buffered).idxOf? 10 = lf
  cases hdetect : s.detectEol with
  | false => cases hmac : s.eolMac <;> simp [hdetect, hmac]
  | true =>
    cases cr with
    | none => cases lf <;> simp [hdetect]
    | some cr =>
      cases lf with
      | none => simp
      | some lf =>
        dsimp only
        by_cases hmac : lf ≠ cr + 1 ∧ ¬lf < cr
        · rw [if_pos rfl, if_pos hmac, if_pos rfl, if_pos hmac]
          simp
        · have hne : lf ≠ cr := by omega
          rw [if_pos rfl, if_neg hmac, if_pos rfl, if_neg hmac]
          simp [hne]

theorem endingAfter_append {detectEol eolMac : Bool} {xs ys : Bytes} (hlt : i < xs.length)
    (h : chooseEol detectEol eolMac (xs.idxOf? 13) (xs.idxOf? 10) = some i)
    (hdos : detectEol = true → ¬StartsDos (xs ++ ys)) :
    endingAfter detectEol eolMac (xs ++ ys) = endingAfter detectEol eolMac xs := by
  have hcr : (some i == (xs ++ ys).idxOf? 13) = (some i == xs.idxOf? 13) := by
    rw [Bool.eq_iff_iff, beq_iff_eq, beq_iff_eq, eq_comm, idxOf?_append_of_lt hlt, eq_comm]
  unfold endingAfter
  rw [h, chooseEol_append_of_not_startsDos h hdos]
  dsimp only
  rw [hcr]

theorem endingAfter_append_none {detectEol eolMac : Bool} {xs : Bytes} (ys : Bytes)
    (h : chooseEol detectEol eolMac (xs.idxOf? 13) (xs.idxOf? 10) = none) :
    endingAfter detectEol eolMac (xs ++ ys) = endingAfter detectEol eolMac ys := by
  unfold endingAfter
  rw [chooseEol_append_none ys h]
  cases detectEol with
  | false => simp
  | true =>
    have hsame : ∀ a b : Nat, (a + xs.length == b + xs.length) = (a == b) := fun a b => by
      rw [Bool.eq_iff_iff, beq_iff_eq, beq_iff_eq, Nat.add_right_cancel_iff]
    rw [idxOf?_append, (eq_none_of_chooseEol h).1]
    cases chooseEol true eolMac (ys.idxOf? 13) (ys.idxOf? 10) <;>
      cases ys.idxOf? 13 <;> simp [hsame]

theorem StartsDos.append {eolMac : Bool} {xs ys : Bytes} (h : StartsDos ys)
    (hnone : chooseEol true eolMac (xs.idxOf? 13) (xs.idxOf? 10) = none) :
    StartsDos (xs ++ ys) := by
  obtain ⟨i, hcr, hlf⟩ := h
  obtain ⟨hcr', hlf'⟩ := eq_none_of_chooseEol hnone
  refine ⟨i + xs.length, ?_, ?_⟩
  · rw [idxOf?_append, hcr', hcr]
    rfl
  · rw [idxOf?_append, hlf', hlf, Nat.add_right_comm]
    rfl

theorem lineLength_eq (s : Stream) : lineLength s =
    (chooseEol s.detectEol s.eolMac (s.pending.idxOf? 13) (s.pending.idxOf? 10)).elim
      s.pending.length (· + 1) := by
  rw [lineLength, locateEol_eq, getD_some]
  cases chooseEol s.detectEol s.eolMac (s.pending.idxOf? 13) (s.pending.idxOf? 10) <;> rfl

structure Line (s s' : Stream) (out : Bytes) : Prop where
  ready : s'.Ready
  length : out.length = lineLength s
  ending : (s'.detectEol, s'.eolMac) = endingAfter s.detectEol s.eolMac s.pending

theorem Line.of_fills (h : Line s s' out) (hfill : Fills t s) : Line t s' out := by
  refine ⟨h.ready, h.length.trans hfill.lineLength, ?_⟩
  rw [h.ending, hfill.detectEol, hfill.eolMac, hfill.pending]

theorem Stream.Ready.line_nil (h : s.Ready) (hpending : s.pending = []) : Line s s [] := by
  have hnone : chooseEol s.detectEol s.eolMac none none = none := by
    cases s.detectEol <;> cases s.eolMac <;> rfl
  refine ⟨h, ?_, ?_⟩
  · simp [lineLength_eq, hpending, hnone]
  · simp [endingAfter, hpending, hnone]

/-- What is left for the loop to do: twice the bytes to read, and one more with a full buffer. -/
def work (s : Stream) : Nat := 2 * s.rest.length + min s.amount 1

theorem getLineLoop_line (hfs : c.readfilters = []) (h : s.Ready)
    (hdos : s.detectEol = true → ¬StartsDos s.pending)
    (hbrings : lineBrings c fuel s maxlen = true) (hfuel : work s < fuel) :
    Line s (getLineLoop c false fuel s maxlen).2 (getLineLoop c false fuel s maxlen).1 := by
  -- induction on the rounds
  induction fuel generalizing s maxlen with
  | zero => omega
  | succ fuel ih =>
    rw [lineBrings] at hbrings
    rw [getLineLoop]
    by_cases hamount : 0 < s.amount
    · rw [if_pos hamount] at hbrings ⊢
      have hending := locateEol_ending s none
      obtain ⟨detectEol, eolMac, heq⟩ := locateEol_snd s none
      cases heol : (locateEol s none).1 with
      | some i =>
        have hlt := locateEol_lt heol
        have hpair : locateEol s none = (some i, { s with detectEol, eolMac }) := Prod.ext heol heq
        rw [locateEol_eq, getD_none] at heol
        have hserves := copyLine_serves (s := { s with detectEol, eolMac }) 
          ⟨h.readpos_le, h.writepos_le⟩ hlt maxlen
        rw [hpair] at hending ⊢
        refine ⟨⟨hserves.ordered, h.eof⟩, ?_, ?_⟩
        · refine length_slice.trans ?_
          rw [lineLength_eq, Stream.pending, chooseEol_append_of_not_startsDos heol hdos, elim_some]
        · refine hending.trans (endingAfter_append ?_ heol hdos).symm
          rw [length_buffered]
          exact hlt
      | none =>
        have hserves := copyLine_serves h.toOrdered (Nat.le_refl s.amount) maxlen
        have hlen := lineLength_copyLine h.toOrdered heol maxlen
        have hpair : locateEol s none = (none, s) := Prod.ext heol (locateEol_snd_none heol)
        have hpending : s.pending = s.buffered ++ (copyLine s maxlen s.amount).2.pending :=
          hserves.pending.symm
        rw [heol, isSome_none, Bool.false_or] at hbrings
        rw [locateEol_eq, getD_none] at heol
        have hline := ih (s := (copyLine s maxlen s.amount).2) ⟨hserves.ordered, h.eof⟩
          (fun hdetect hrest => hdos hdetect
            (hpending ▸ hrest.append (by rw [← show s.detectEol = true from hdetect]; exact heol)))
          hbrings (by
            unfold work copyLine Stream.amount
            unfold work Stream.amount at hfuel
            unfold Stream.amount at hamount
            dsimp only
            omega)
        rw [hpair]
        refine ⟨hline.ready, ?_, ?_⟩
        · rw [hlen, ← hline.length]
          exact length_append.trans (congrArg (· + _) length_slice)
        · rw [hpending, endingAfter_append_none _ heol]
          exact hline.ending
    · rw [if_neg hamount] at hbrings ⊢
      have hempty : s.amount = 0 := by omega
      have hpending : s.pending = s.rest := by
        rw [Stream.pending, buffered_eq_nil_iff.mpr hempty, nil_append]
      cases heof : s.eof with
      | true => exact h.line_nil (hpending.trans (h.eof heof))
      | false =>
        rw [heof, Bool.false_or, Bool.and_eq_true] at hbrings
        have hchunk := c.chunkSize_pos
        obtain ⟨hfill, hready, hmore⟩ := h.fill hfs hbrings.1 c.chunkSize_lt (hempty ▸ hchunk)
        have hlen := hfill.length_rest
        simp only [Bool.false_eq_true, if_false]
        split
        next hnone =>
          have hnil : s.rest = [] := hmore.elim (fun hless => by omega) And.left
          exact (hready.line_nil (hfill.pending.trans (hpending.trans hnil))).of_fills hfill
        next hsome =>
          have hless := hmore.resolve_right fun hdone => hsome (by
            rw [hdone.1] at hlen
            simp only [length_nil] at hlen
            omega)
          refine (ih hready (fun hdetect => ?_) hbrings.2 ?_).of_fills hfill
          · rw [hfill.pending]
            exact hdos (hfill.detectEol ▸ hdetect)
          · unfold work at hfuel ⊢
            omega

/-! ## Records -/

theorem not_isPrefix_of_memnstr {needle hay : Bytes} (h : memnstr needle hay = none) (j : Nat) :
    ¬needle <+: hay.drop j := by
  intro hbegins
  rw [memnstr_eq_findIdx?, findIdx?_eq_none_iff] at h
  have hnot := h _ ((mem_tails _ _).mpr (drop_suffix j hay))
  rw [List.isPrefixOf_iff_prefix.mpr hbegins] at hnot
  cases hnot

theorem memnstr_drop {needle hay : Bytes} (k : Nat) (h : ∀ j < k, ¬needle <+: hay.drop j) :
    memnstr needle hay = (memnstr needle (hay.drop k)).map (· + k) := by
  induction k generalizing hay with
  | zero => exact (congrFun Option.map_id _).symm
  | succ k ih =>
    have hfirst : ¬needle <+: hay := h 0 (Nat.succ_pos k)
    cases hay with
    | nil =>
      have hne : needle ≠ [] := fun heq => hfirst (heq ▸ nil_prefix)
      rw [drop_nil, memnstr, if_neg hne]
      rfl
    | cons b hay =>
      rw [memnstr, if_neg (mt isPrefixOf_iff_prefix.mp hfirst), drop_succ_cons,
        ih fun j hj => h (j + 1) (Nat.succ_lt_succ hj), Option.map_map]
      rfl

theorem isPrefix_drop_of_append {needle xs ys : Bytes} {j : Nat}
    (h : needle <+: (xs ++ ys).drop j) (hle : j + needle.length ≤ xs.length) :
    needle <+: xs.drop j := by
  rw [drop_append_of_le_length (by omega)] at h
  refine prefix_of_prefix_length_le h (prefix_append _ _) ?_
  rw [length_drop]
  omega

theorem memnstr_append {needle xs : Bytes} (ys : Bytes) (h : memnstr needle xs = some i) :
    memnstr needle (xs ++ ys) = some i := by
  obtain ⟨hle, hbegins, hfirst⟩ := memnstr_eq_some_iff.mp h
  refine memnstr_eq_some_iff.mpr ⟨?_, ?_, fun j hj hearlier =>
    hfirst j hj (isPrefix_drop_of_append hearlier (by omega))⟩
  · rw [length_append]
    omega
  · rw [drop_append_of_le_length (by omega)]
    exact hbegins.trans (prefix_append _ _)

/-- **The search is resumed** where the needle may have begun in the first part. -/
theorem memnstr_resume {needle xs : Bytes} (ys : Bytes) (h : memnstr needle xs = none) :
    memnstr needle (xs ++ ys) =
      (memnstr needle ((xs ++ ys).drop (xs.length - (needle.length - 1)))).map
        (· + (xs.length - (needle.length - 1))) :=
  memnstr_drop _ fun j _ hbegins =>
    not_isPrefix_of_memnstr h j (isPrefix_drop_of_append hbegins (by omega))

theorem take_buffered (s : Stream) (n : Nat) :
    s.buffered.take n = slice s.readbuf s.readpos (min s.amount n) := by
  have hprefix : slice s.readbuf s.readpos (min s.amount n) <+:
      slice s.readbuf s.readpos s.amount := slice_isPrefix (Nat.min_le_left s.amount n)
  rw [prefix_iff_eq_take.mp hprefix, length_slice, take_eq_take_min, ← Stream.buffered,
    length_buffered, Nat.min_comm]

theorem findDelim_eq (hdelim : delim ≠ []) (s : Stream) (maxlen skiplen : Nat) :
    findDelim s maxlen skiplen delim =
      (memnstr delim ((s.buffered.take maxlen).drop skiplen)).map (· + skiplen) := by
  rw [findDelim, if_neg hdelim, searchDelim, take_buffered, drop_slice]
  split
  next hle => rw [Nat.sub_eq_zero_of_le hle, slice_zero, memnstr, if_neg hdelim, map_none]
  next => rfl

def recordEnd (data : Bytes) (maxlen : Nat) (delim : Bytes) : Option Nat :=
  if delim = [] then none else memnstr delim (data.take maxlen)

theorem findDelim_zero (s : Stream) (maxlen : Nat) (delim : Bytes) :
    findDelim s maxlen 0 delim = recordEnd s.buffered maxlen delim := by
  unfold recordEnd
  split
  next hnil => exact if_pos hnil
  next hne =>
    rw [findDelim_eq hne, drop_zero]
    exact congrFun Option.map_id _

theorem findDelim_resume (hcarries : s.buffered <+: s'.buffered) (hless : s.amount < maxlen)
    (hnone : findDelim s maxlen 0 delim = none) :
    findDelim s' maxlen
        (if delim.length - 1 ≤ s.amount then s.amount - (delim.length - 1) else 0) delim =
      recordEnd s'.buffered maxlen delim := by
  have hskip : (if delim.length - 1 ≤ s.amount then s.amount - (delim.length - 1) else 0) =
      s.buffered.length - (delim.length - 1) := by
    rw [length_buffered]
    split <;> omega
  obtain ⟨more, hmore⟩ := hcarries
  have htake : s'.buffered.take maxlen = s.buffered ++ more.take (maxlen - s.amount) := by
    rw [← hmore, take_append, length_buffered, take_of_length_le (by simp; omega)]
  by_cases hdelim : delim = []
  · rw [findDelim, if_pos hdelim, recordEnd, if_pos hdelim]
  · rw [findDelim_zero, recordEnd, if_neg hdelim, take_of_length_le (by simp; omega)] at hnone
    rw [hskip, findDelim_eq hdelim, recordEnd, if_neg hdelim, htake, ← memnstr_resume _ hnone]

/-- The search is over: the delimiter has been found, or all is in the buffer that the record may
hold. -/
structure Searched (s s' : Stream) (maxlen : Nat) (delim : Bytes) (pos : Option Nat) : Prop where
  ready : s'.Ready
  pending : s'.pending = s.pending
  found : pos = recordEnd s.pending maxlen delim
  full : pos = none → maxlen ≤ s'.amount ∨ s'.rest = [] ∧ s'.eof = true

theorem recordEnd_append {xs : Bytes} (ys : Bytes) (h : recordEnd xs maxlen delim = some i) :
    recordEnd (xs ++ ys) maxlen delim = some i := by
  unfold recordEnd at h ⊢
  split
  next hnil =>
    rw [if_pos hnil] at h
    cases h
  next hne =>
    rw [if_neg hne] at h
    rw [take_append]
    exact memnstr_append _ h

theorem Stream.Ready.searched_of_some (h : s.Ready)
    (hfound : recordEnd s.buffered maxlen delim = some i) :
    Searched s s maxlen delim (some i) :=
  ⟨h, rfl, (recordEnd_append s.rest hfound).symm, nofun⟩

theorem take_pending (hfull : maxlen ≤ s.amount ∨ s.rest = [] ∧ s.eof = true) :
    s.pending.take maxlen = s.buffered.take maxlen := by
  rcases hfull with hle | ⟨hnil, _⟩
  · exact take_append_of_le_length (by rwa [length_buffered])
  · rw [Stream.pending, hnil, append_nil]

theorem Stream.Ready.searched_of_none (h : s.Ready)
    (hnone : recordEnd s.buffered maxlen delim = none)
    (hfull : maxlen ≤ s.amount ∨ s.rest = [] ∧ s.eof = true) :
    Searched s s maxlen delim none := by
  refine ⟨h, rfl, ?_, fun _ => hfull⟩
  rw [recordEnd, take_pending hfull]
  exact hnone.symm

theorem Searched.of_fills {pos : Option Nat} (h : Searched s s' maxlen delim pos)
    (hfill : Fills t s) : Searched t s' maxlen delim pos :=
  ⟨h.ready, h.pending.trans hfill.pending, hfill.pending ▸ h.found, h.full⟩

theorem recordLoop_searched (hfs : c.readfilters = []) (h : s.Ready)
    (hfits : s.pending.length + c.chunkSize < 0x8000000000000000)
    (hnone : findDelim s maxlen 0 delim = none)
    (hbrings : recordBrings c maxlen delim fuel s = true) (hfuel : s.rest.length < fuel) :
    Searched s (recordLoop c maxlen delim fuel s s.amount).2 maxlen delim
      (recordLoop c maxlen delim fuel s s.amount).1 := by
  -- induction on the rounds
  induction fuel generalizing s with
  | zero => omega
  | succ fuel ih =>
    by_cases hless : s.amount < maxlen
    · have hlen : s.pending.length = s.amount + s.rest.length := by
        rw [Stream.pending, length_append, length_buffered]
      have hchunk := c.chunkSize_pos
      have hready : recordReady s maxlen delim = false := by
        rw [recordReady, hnone, decide_eq_false (Nat.not_le.mpr hless)]
        rfl
      rw [recordBrings, hready, Bool.false_or, Bool.and_eq_true, Bool.or_eq_true,
        decide_eq_true_eq] at hbrings
      obtain ⟨hbring, hrest⟩ := hbrings
      have hsize : s.amount + min (maxlen - s.amount) c.chunkSize < 0x8000000000000000 := by omega
      obtain ⟨hfill, hready', hmore⟩ := h.fill hfs hbring hsize (by omega)
      simp only [recordLoop, if_pos hless]
      rw [wrapped_of_le hfill.amount_le]
      generalize fillReadBuffer c s _ = s₁ at hrest hfill hready' hmore ⊢
      have hread := hfill.length_rest
      have hgrows := hfill.amount_le
      have hsub := subSize_eq (a := s₁.amount) (b := s.amount) (by unfold sizeMod; omega) hgrows
      rw [hsub, Nat.add_sub_cancel' hgrows, Nat.mod_eq_of_lt (by unfold sizeMod; omega),
        findDelim_resume hfill.carries hless hnone]
      split
      next hzero =>
        have hsame : s.buffered = s₁.buffered :=
          hfill.carries.eq_of_length (by rw [length_buffered, length_buffered]; omega)
        have hdone : s₁.rest = [] ∧ s₁.eof = true :=
          hmore.elim (fun hless => by omega) fun hdone =>
            ⟨length_eq_zero_iff.mp (by rw [hdone.1, length_nil] at hread; omega), hdone.2⟩
        refine (hready'.searched_of_none ?_ (Or.inr hdone)).of_fills hfill
        rw [← hsame, ← findDelim_zero]
        exact hnone
      next hsome =>
        cases hfound : recordEnd s₁.buffered maxlen delim with
        | some i => exact (hready'.searched_of_some hfound).of_fills hfill
        | none =>
          refine (ih hready' (hfill.pending ▸ hfits) (findDelim_zero s₁ maxlen delim ▸ hfound)
            (hrest.resolve_left ?_) ?_).of_fills hfill
          · omega
          · have := hmore.resolve_right fun hdone => hsome (by
              rw [hdone.1, length_nil] at hread
              omega)
            omega
    · rw [recordLoop_done (Nat.not_lt.mp hless)]
      have hfull := Nat.not_lt.mp hless
      exact h.searched_of_none (findDelim_zero s maxlen delim ▸ hnone) (Or.inl hfull)

theorem findRecord_searched (hfs : c.readfilters = []) (h : s.Ready)
    (hfits : s.pending.length + c.chunkSize < 0x8000000000000000)
    (hbrings : recordBrings c maxlen delim (2 * s.rest.length + 3) s = true) :
    Searched s (findRecord c s maxlen delim).2 maxlen delim (findRecord c s maxlen delim).1 := by
  unfold findRecord
  cases hfound : findDelim s maxlen 0 delim with
  | some i => exact h.searched_of_some (findDelim_zero s maxlen delim ▸ hfound)
  | none => exact recordLoop_searched hfs h hfits hfound hbrings (by omega)

def recordOf (data : Bytes) (maxlen : Nat) (delim : Bytes) : Option Bytes × Bytes :=
  match recordEnd data maxlen delim with
  | some i => (some (data.take i), delim)
  | none => if data = [] then (none, []) else (some (data.take maxlen), [])

theorem streamGetRecord_delivered (hfs : c.readfilters = []) (h : s.Ready) (hmax : 0 < maxlen)
    (hfits : s.pending.length + c.chunkSize < 0x8000000000000000)
    (hbrings : recordBrings c maxlen delim (2 * s.rest.length + 3) s = true) :
    ((streamGetRecord c s maxlen delim).1, (streamGetRecord c s maxlen delim).2.1) =
        recordOf s.pending maxlen delim ∧
      (streamGetRecord c s maxlen delim).2.2.Ready := by
  have hserves := (@streamGetRecord_serves c s delim maxlen h.toOrdered (Or.inl hfs)).1.ordered
  have hfinds := @findRecord_finds c s delim maxlen h.toOrdered hmax (Or.inl hfs)
  have hsearched := findRecord_searched hfs h hfits hbrings
  unfold streamGetRecord at hserves ⊢
  rw [if_neg (Nat.ne_of_gt hmax)] at hserves ⊢
  generalize findRecord c s maxlen delim = r at hserves hfinds hsearched ⊢
  obtain ⟨found, s₁⟩ := r
  obtain ⟨hready, hpending, hfound, hfull⟩ := hsearched
  dsimp only at hserves hready hpending hfound hfull hfinds ⊢
  unfold recordOf
  rw [← hfound]
  cases found with
  | some i =>
    have hle := (hfinds.delim i rfl).le
    have hi : i ≤ s₁.amount := by omega
    dsimp only at hserves ⊢
    rw [streamRead_buffered hi] at hserves ⊢
    refine ⟨?_, ⟨hserves, hready.eof⟩⟩
    rw [← hpending, Stream.pending, take_append_of_le_length (by rwa [length_buffered]),
      take_buffered, Nat.min_eq_right hi]
  | none =>
    have hall := hfull rfl
    have hrecord : s.pending.take maxlen = slice s₁.readbuf s₁.readpos (min s₁.amount maxlen) := by
      rw [← hpending, take_pending hall, take_buffered]
    have hnil : s₁.amount ≠ 0 → s.pending ≠ [] := fun hne heq => by
      rw [heq, take_nil, eq_comm, ← length_eq_zero_iff, length_slice] at hrecord
      omega
    dsimp only at hserves ⊢
    split
    next hbuffered =>
      rw [if_pos hbuffered, streamRead_buffered hbuffered.2] at hserves
      rw [streamRead_buffered hbuffered.2, if_neg (hnil (by omega)), hrecord,
        Nat.min_eq_right hbuffered.2]
      exact ⟨rfl, hserves, hready.eof⟩
    next hmore =>
      rw [if_neg hmore] at hserves
      have hnot : ¬(s₁.amount < maxlen ∧ s₁.eof = false) := by
        rintro ⟨hless, heof⟩
        rcases hall with hle | ⟨_, heof'⟩
        · omega
        · rw [heof] at heof'
          cases heof'
      rw [if_neg hnot] at hserves ⊢
      split
      next hend =>
        have hnone : s.pending = [] := by
          rw [← hpending, Stream.pending, buffered_eq_nil_iff.mpr hend.1]
          exact hready.eof hend.2
        rw [if_pos hnone]
        exact ⟨rfl, hready⟩
      next hsome =>
        have hne : s₁.amount ≠ 0 := fun hzero => by
          cases heof : s₁.eof with
          | true => exact hsome ⟨hzero, heof⟩
          | false => exact hnot ⟨by omega, heof⟩
        rw [if_neg hsome, streamRead_buffered (Nat.min_le_left _ _)] at hserves
        rw [streamRead_buffered (Nat.min_le_left _ _), if_neg (hnil hne), hrecord]
        exact ⟨rfl, hserves, hready.eof⟩

/-! ## Two deliveries -/

theorem strings_eq {call : Call} {R : Stream → Stream → Prop}
    (hstep : ∀ r r' : Reader, R r.stream r'.stream → Delivers c r call → Delivers c' r' call →
      returns c r.stream call = returns c' r'.stream call ∧
        R (serve c r.stream call).2 (serve c' r'.stream call).2)
    (n : Nat) {r r' : Reader} (hR : R r.stream r'.stream)
    (h : (reading c).Along (Delivers c) r (List.replicate n call))
    (h' : (reading c').Along (Delivers c') r' (List.replicate n call)) :
    strings c call n r.stream = strings c' call n r'.stream := by
  -- induction on the calls
  induction n generalizing r r' with
  | zero => rfl
  | succ n ih =>
    obtain ⟨hreturns, hR'⟩ := hstep r r' hR h.1 h'.1
    rw [strings, strings, hreturns]
    exact congrArg _ (ih hR' (h.2 _ rfl) (h'.2 _ rfl))

/-- Both streams have the same bytes to offer. -/
structure Agree (s t : Stream) : Prop where
  left : s.Ready
  right : t.Ready
  pending : s.pending = t.pending

/-- And the line endings are known, or will be from any part of the data. -/
structure AgreeOnLines (s t : Stream) : Prop extends Agree s t where
  ending : (s.detectEol, s.eolMac) = (t.detectEol, t.eolMac)
  dos : s.detectEol = true → ¬StartsDos s.pending

theorem AgreeOnLines.line {out' : Bytes} (h : AgreeOnLines s t) (hline : Line s s' out)
    (hline' : Line t t' out') (hserves : Serves s s' out) (hserves' : Serves t t' out') :
    out = out' ∧ AgreeOnLines s' t' := by
  obtain ⟨hdetect, hmac⟩ := Prod.mk.inj h.ending
  have hlen : out.length = out'.length := by
    rw [hline.length, hline'.length, lineLength_eq, lineLength_eq, hdetect, hmac, h.pending]
  obtain ⟨rfl, hpending⟩ := append_inj
    (hserves.pending.trans (h.pending.trans hserves'.pending.symm)) hlen
  refine ⟨rfl, ⟨hline.ready, hline'.ready, hpending⟩, ?_, fun hset => ?_⟩
  · rw [hline.ending, hline'.ending, hdetect, hmac, h.pending]
  · -- there is no end of line in the data, and all of it has been taken
    have hending := (congrArg Prod.fst hline.ending).symm.trans hset
    have hnone := isNone_iff_eq_none.mp (Bool.and_eq_true_iff.mp hending).2
    have hall := hline.length
    have htaken := congrArg List.length hserves.pending
    rw [lineLength_eq, hnone, elim_none] at hall
    rw [length_append] at htaken
    have hnil : s'.pending = [] := length_eq_zero_iff.mp (by omega)
    rw [hnil]
    rintro ⟨i, hcr, _⟩
    cases hcr

theorem streamGetLine_getD (c : Opened) (s : Stream) (maxlen : Nat) :
    (streamGetLine c s false maxlen).1.getD [] =
      (getLineLoop c false (2 * s.rest.length + 3) s maxlen).1 := by
  unfold streamGetLine
  rw [if_neg fun hbuf => Bool.false_ne_true hbuf.1]
  dsimp only
  split
  next hnil => exact hnil.symm
  next => rfl

theorem getLine_step (hfs : c.readfilters = []) (hfs' : c'.readfilters = []) {r r' : Reader}
    (h : AgreeOnLines r.stream r'.stream) (hdelivers : Delivers c r (.getLine false maxlen))
    (hdelivers' : Delivers c' r' (.getLine false maxlen)) :
    returns c r.stream (.getLine false maxlen) = returns c' r'.stream (.getLine false maxlen) ∧
      AgreeOnLines (serve c r.stream (.getLine false maxlen)).2
        (serve c' r'.stream (.getLine false maxlen)).2 := by
  have hdos' : r'.stream.detectEol = true → ¬StartsDos r'.stream.pending := fun hset =>
    h.pending ▸ h.dos ((Prod.mk.inj h.ending).1.trans hset)
  have hwork : ∀ s : Stream, work s < 2 * s.rest.length + 3 := fun s => by
    unfold work
    omega
  obtain ⟨hout, hagree⟩ := h.line
    (getLineLoop_line hfs h.left h.dos hdelivers (hwork _))
    (getLineLoop_line hfs' h.right hdos' hdelivers' (hwork _))
    (getLineLoop_serves false maxlen _ h.left.toOrdered)
    (getLineLoop_serves false maxlen _ h.right.toOrdered)
  have hgrow : ¬(false = true ∧ maxlen = 0) := fun hbuf => Bool.false_ne_true hbuf.1
  simp only [returns, serve, streamGetLine, if_neg hgrow]
  rw [hout]
  exact ⟨rfl, hagree⟩

theorem getRecord_step (hfs : c.readfilters = []) (hfs' : c'.readfilters = []) (hmax : 0 < maxlen)
    {r r' : Reader} (h : Agree r.stream r'.stream)
    (hdelivers : Delivers c r (.getRecord maxlen delim))
    (hdelivers' : Delivers c' r' (.getRecord maxlen delim)) :
    returns c r.stream (.getRecord maxlen delim) = returns c' r'.stream (.getRecord maxlen delim) ∧
      Agree (serve c r.stream (.getRecord maxlen delim)).2
        (serve c' r'.stream (.getRecord maxlen delim)).2 := by
  obtain ⟨hrecord, hready⟩ :=
    streamGetRecord_delivered hfs h.left hmax hdelivers.1 hdelivers.2
  obtain ⟨hrecord', hready'⟩ :=
    streamGetRecord_delivered hfs' h.right hmax hdelivers'.1 hdelivers'.2
  have hserves :=
    (@streamGetRecord_serves c _ delim maxlen h.left.toOrdered (Or.inl hfs)).1.pending
  have hserves' :=
    (@streamGetRecord_serves c' _ delim maxlen h.right.toOrdered (Or.inl hfs')).1.pending
  obtain ⟨hsame, hconsumed⟩ := Prod.mk.inj (hrecord.trans (h.pending ▸ hrecord'.symm))
  rw [hsame, hconsumed, h.pending, ← hserves'] at hserves
  exact ⟨hsame, hready, hready', append_cancel_left hserves⟩

theorem opened_ready (data : Bytes) (detectEol : Bool) : (opened data detectEol).stream.Ready :=
  ⟨⟨Nat.le_refl _, Nat.le_refl _⟩, nofun⟩

/-! ## A delivery that comes between `\r` and `\n` -/

/-- A byte at a time, but `n` bytes in the read `i`. -/
def inPieces (data : Bytes) (i n : Nat) : Opened where
  ops reads _ := (if reads = i then n else 1, data.length < reads + n)
  readfilters := []
  chunkSize := 2
  chunkSize_pos := filtered.chunkSize_pos
  chunkSize_lt := filtered.chunkSize_lt
  noBuffer := false
  plainFiles := true

/-- `m` bytes of the data, from `k` on, are in the buffer, and the next read is `reads`. -/
structure HasRead (data : Bytes) (k m reads : Nat) (s : Stream) : Prop extends s.Ready where
  buffered : s.buffered = (data.drop k).take m
  rest : s.rest = data.drop (k + m)
  reads : s.reads = reads
  more : s.eof = false
  detectEol : s.detectEol = true

theorem HasRead.amount {k m reads : Nat} (h : HasRead data k m reads s)
    (hle : k + m ≤ data.length) : s.amount = m := by
  rw [← length_buffered, h.buffered, length_take, length_drop]
  omega

theorem HasRead.fill {k n m : Nat} (h : HasRead data k 0 k s) (hm : (if k = i then n else 1) = m)
    (hpos : 0 < m) (hle : m ≤ 2) (hlen : k + n ≤ data.length) (hall : k + m ≤ data.length) :
    ∃ s', HasRead data k m (k + 1) s' ∧ s'.amount = m ∧ ∀ fuel maxlen,
      getLineLoop (inPieces data i n) false (fuel + 1) s maxlen =
          getLineLoop (inPieces data i n) false fuel s' maxlen ∧
        lineBrings (inPieces data i n) (fuel + 1) s maxlen =
          lineBrings (inPieces data i n) fuel s' maxlen := by
  have hempty : s.amount = 0 := h.amount (by omega)
  have hrest : s.rest = data.drop k := h.rest
  have hsome : s.rest ≠ [] := fun hnil => by
    have hlen := congrArg List.length (hrest.symm.trans hnil)
    rw [length_drop, length_nil] at hlen
    omega
  have hops : ∀ size, (inPieces data i n).ops s.reads size = (m, false) := fun _ => by
    rw [h.reads, ← hm, ← show decide (data.length < k + n) = false from decide_eq_false (by omega)]
    rfl
  have hroom := le_room (inPieces data i n) h.toOrdered
  have hbrings : brings (inPieces data i n) s = true := by
    unfold brings
    rw [hops]
    simp [hsome, Nat.ne_of_gt hpos]
  have hlacks : lacks s 2 = true := by
    unfold lacks
    rw [hempty]
    rfl
  have hless : s.amount < 2 := by omega
  obtain ⟨hfill, hready, _⟩ := h.toReady.fill rfl hbrings (by decide) hless
  obtain ⟨hleft, heof, hreads⟩ := fillReadBuffer_read (c := inPieces data i n) rfl hlacks
  rw [hops] at hleft heof
  rw [hrest, drop_drop, Nat.min_eq_left (hle.trans hroom)] at hleft
  have hpending := hfill.pending
  rw [Stream.pending, Stream.pending, buffered_eq_nil_iff.mpr hempty, nil_append, hleft,
    hrest, ← take_append_drop m (data.drop k), drop_drop] at hpending
  have hread : HasRead data k m (k + 1) (fillReadBuffer (inPieces data i n) s 2) :=
    ⟨hready, append_cancel_right hpending, hleft, hreads.trans (congrArg (· + 1) h.reads), heof,
      hfill.detectEol.trans h.detectEol⟩
  have hamount := hread.amount hall
  have hfills : fillReadBuffer (inPieces data i n) s (inPieces data i n).chunkSize =
    fillReadBuffer (inPieces data i n) s 2 := rfl
  refine ⟨_, hread, hamount, fun fuel maxlen => ?_⟩
  simp [getLineLoop, lineBrings, hempty, h.more, hbrings, hfills, hamount, Nat.ne_of_gt hpos]

theorem getElem_of_idxOf? {b : UInt8} (h : data.idxOf? b = some i) :
    (∃ hlt : i < data.length, data[i] = b) ∧
      ∀ j, (hj : j < data.length) → j < i → data[j] ≠ b := by
  obtain ⟨hlt, hfound, hfirst⟩ := List.findIdx?_eq_some_iff_getElem.mp h
  exact ⟨⟨hlt, eq_of_beq hfound⟩, fun j hj hji heq => hfirst j hji (beq_iff_eq.mpr heq)⟩

/-- **The line ends with the first `\r`**, or with the `\n` behind it if both come together. -/
theorem length_getLineLoop_inPieces {k n : Nat} (hcr : data.idxOf? 13 = some i)
    (hlf : data.idxOf? 10 = some (i + 1)) (hn : n = 1 ∨ n = 2) (h : HasRead data k 0 k s)
    (hk : k ≤ i) (hfuel : 2 * (i - k) + 2 ≤ fuel) :
    (getLineLoop (inPieces data i n) false fuel s maxlen).1.length = i - k + n ∧
      lineBrings (inPieces data i n) fuel s maxlen = true := by
  obtain ⟨⟨_, hcr⟩, hnotcr⟩ := getElem_of_idxOf? hcr
  obtain ⟨⟨hlt, hlf⟩, hnotlf⟩ := getElem_of_idxOf? hlf
  -- induction on the bytes before the end of the line
  induction hd : i - k generalizing k s fuel maxlen with
  | zero =>
    obtain rfl : k = i := by omega
    obtain ⟨s', hread, hamount, hloop⟩ :=
      h.fill (i := k) (n := n) (if_pos rfl) (by omega) (by omega) (by omega) (by omega)
    obtain ⟨fuel, rfl⟩ : ∃ fuel', fuel = fuel' + 2 := ⟨fuel - 2, by omega⟩
    have hbuf := hread.buffered
    rw [drop_eq_getElem_cons (Nat.lt_of_succ_lt hlt), drop_eq_getElem_cons hlt, hcr, hlf] at hbuf
    have heol : (locateEol s' none).1 = some (n - 1) := by
      rw [locateEol_eq, getD_none, hbuf, hread.detectEol]
      rcases hn with rfl | rfl <;> rfl
    obtain ⟨detectEol, eolMac, heq⟩ := locateEol_snd s' none
    have hpair : locateEol s' none = (some (n - 1), { s' with detectEol, eolMac }) :=
      Prod.ext heol heq
    have hsome : 0 < s'.amount := by omega
    rw [(hloop _ _).1, (hloop _ _).2]
    simp [getLineLoop, lineBrings, hsome, hpair, copySize, copyLine]
    omega
  | succ d ih =>
    obtain ⟨s', hread, hamount, hloop⟩ :=
      h.fill (i := i) (n := n) (if_neg (by omega)) Nat.one_pos (by omega) (by omega) (by omega)
    obtain ⟨fuel, rfl⟩ : ∃ fuel', fuel = fuel' + 2 := ⟨fuel - 2, by omega⟩
    have hklt : k < data.length := by omega
    have hbuf := hread.buffered.trans (congrArg _ (drop_eq_getElem_cons hklt))
    rw [take_succ_cons, take_zero] at hbuf
    have heol : (locateEol s' none).1 = none := by
      have hne := hnotcr k hklt (by omega)
      have hne' := hnotlf k hklt (by omega)
      rw [locateEol_eq, getD_none, hbuf, hread.detectEol]
      simp [idxOf?_cons, hne, hne', chooseEol]
    have hpair : locateEol s' none = (none, s') := Prod.ext heol (locateEol_snd_none heol)
    have hserves := copyLine_serves hread.toOrdered (Nat.le_refl s'.amount) maxlen
    have hcopied : (copyLine s' maxlen s'.amount).2.buffered = [] := buffered_eq_nil_iff.mpr (by
      unfold copyLine Stream.amount
      dsimp only
      omega)
    have hcopy : HasRead data (k + 1) 0 (k + 1) (copyLine s' maxlen s'.amount).2 :=
      ⟨⟨hserves.ordered, hread.eof⟩, hcopied, hread.rest, hread.reads, hread.more, hread.detectEol⟩
    have hless : 2 * (i - (k + 1)) + 2 ≤ fuel := by omega
    obtain ⟨hlen, hnext⟩ := @ih _ (subSize maxlen s'.amount) _ _ hcopy (by omega) hless (by omega)
    rw [hamount] at hlen hnext
    have hone : (copyLine s' maxlen 1).1.length = 1 := length_slice
    rw [(hloop _ _).1, (hloop _ _).2]
    simp [getLineLoop, lineBrings, hpair, hamount, copySize, hlen, hnext, hone]
    omega

theorem sameStrings_iff (data : Bytes) (detectEol : Bool) :
    ((∀ maxlen, SameStrings data detectEol (.getLine false maxlen)) ∧
        ∀ maxlen delim, 0 < maxlen → SameStrings data detectEol (.getRecord maxlen delim)) ↔
      ¬(detectEol = true ∧ StartsDos data) := by
  constructor
  · rintro ⟨hlines, _⟩ ⟨rfl, i, hcr, hlf⟩
    have hdrained : HasRead data 0 0 0 (opened data true).stream :=
      ⟨opened_ready data true, rfl, rfl, rfl, rfl, rfl⟩
    have hlt := lt_of_idxOf? hlf
    have hfuel : 2 * (i - 0) + 2 ≤ 2 * data.length + 3 := by omega
    have hi := Nat.zero_le i
    obtain ⟨hlen, hbrings⟩ :=
      @length_getLineLoop_inPieces _ data 0 _ i 0 1 hcr hlf (Or.inl rfl) hdrained hi hfuel
    obtain ⟨hlen', hbrings'⟩ :=
      @length_getLineLoop_inPieces _ data 0 _ i 0 2 hcr hlf (Or.inr rfl) hdrained hi hfuel
    have hsame := hlines 0 (inPieces data i 1) (inPieces data i 2) 1 rfl rfl
      ⟨hbrings, fun _ _ => trivial⟩ ⟨hbrings', fun _ _ => trivial⟩
    have hline := congrArg (fun line => (line.getD []).length) (List.cons.inj hsame).1
    simp only [returns, streamGetLine_getD] at hline
    have hboth := hlen.symm.trans (hline.trans hlen')
    omega
  · intro hdos
    have hready := opened_ready data detectEol
    have hdos' : (opened data detectEol).stream.detectEol = true →
        ¬StartsDos (opened data detectEol).stream.pending :=
      fun hset hstarts => hdos ⟨hset, hstarts⟩
    constructor
    · intro maxlen c c' n hfs hfs' h h'
      have hagree : AgreeOnLines _ _ := ⟨⟨hready, hready, rfl⟩, rfl, hdos'⟩
      exact strings_eq (fun r r' => getLine_step hfs hfs') n hagree h h'
    · intro maxlen delim hmax c c' n hfs hfs' h h'
      exact strings_eq (fun r r' => getRecord_step hfs hfs' hmax) n ⟨hready, hready, rfl⟩ h h'

/-- `a\r\nb` in single bytes, and with the two bytes of the end of line in one read. -/
theorem not_sameStrings : ¬∀ (data : Bytes) (detectEol : Bool),
    (∀ maxlen, SameStrings data detectEol (.getLine false maxlen)) ∧
      ∀ maxlen delim, 0 < maxlen → SameStrings data detectEol (.getRecord maxlen delim) := by
  intro h
  have hdelivers : ∀ n, n = 1 ∨ n = 2 →
      (reading (inPieces [97, 13, 10, 98] 1 n)).Along (Delivers (inPieces [97, 13, 10, 98] 1 n))
        (opened [97, 13, 10, 98] true) (List.replicate 3 (.getLine false 0)) := by
    rintro n (rfl | rfl) <;> refine ⟨rfl, ?_⟩ <;> rintro _ ⟨⟩ <;> refine ⟨rfl, ?_⟩ <;>
      rintro _ ⟨⟩ <;> exact ⟨rfl, fun _ _ => trivial⟩
  have hsame := (h [97, 13, 10, 98] true).1 0 _ _ 3 rfl rfl (hdelivers 1 (Or.inl rfl))
    (hdelivers 2 (Or.inr rfl))
  revert hsame
  decide

end Streams

end Phpce
