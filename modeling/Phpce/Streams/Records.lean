import Mathlib.Data.List.Infix
import Phpce.Streams.Lines

/-!
# Records

With read filters, `_php_stream_fill_read_buffer` starts by dropping what is in the buffer, and
`php_stream_get_record` calls it to get more behind what is in the buffer.

* **`streamGetRecord_serves`** — a record, with its delimiter, is what comes next, unless there are
  filters and a second filling.
* **`got_isPrefix`** — what the caller has got is the beginning of the data, and is counted.
-/

namespace Phpce

namespace Streams

open Bytes Buffer Option List

variable {c : Opened} {s s' : Stream} {delim : Bytes} {i maxlen skiplen bufferedLen : Nat}

/-! ## The delimiter -/

theorem memnstr_eq_findIdx? (needle hay : Bytes) :
    memnstr needle hay = hay.tails.findIdx? needle.isPrefixOf := by
  induction hay with
  | nil => cases needle <;> rfl
  | cons b hay ih => rw [memnstr, ih, tails_cons, findIdx?_cons]

theorem memnstr_eq_some_iff {needle hay : Bytes} : memnstr needle hay = some i ↔
    i + needle.length ≤ hay.length ∧ needle <+: hay.drop i ∧
      ∀ j < i, ¬needle <+: hay.drop j := by
  rw [memnstr_eq_findIdx?, findIdx?_eq_some_iff_getElem]
  simp only [length_tails, getElem_tails, isPrefixOf_iff_prefix]
  constructor
  · rintro ⟨hlt, hbegins, hfirst⟩
    have hle := hbegins.length_le
    rw [length_drop] at hle
    exact ⟨by omega, hbegins, hfirst⟩
  · rintro ⟨hle, hbegins, hfirst⟩
    exact ⟨by omega, hbegins, hfirst⟩

/-- The delimiter stands at the offset `i` in the buffered bytes. -/
structure DelimAt (s : Stream) (delim : Bytes) (i : Nat) : Prop where
  le : i + delim.length ≤ s.amount
  eq : slice s.readbuf (s.readpos + i) delim.length = delim

theorem findDelim_eq_some (h : findDelim s maxlen skiplen delim = some i) : DelimAt s delim i := by
  unfold findDelim at h
  split at h
  · cases h
  · unfold searchDelim at h
    dsimp only at h
    split at h
    · cases h
    · obtain ⟨j, hj, rfl⟩ := map_eq_some_iff.mp h
      obtain ⟨hle, hbegins, _⟩ := memnstr_eq_some_iff.mp hj
      rw [length_slice] at hle
      rw [drop_slice] at hbegins
      have hlen := hbegins.length_le
      rw [length_slice] at hlen
      refine ⟨by omega, ?_⟩
      rw [Nat.add_comm j, ← Nat.add_assoc]
      exact slice_of_isPrefix hbegins

/-! ## The search -/

/-- The sizes of the fillings are not cast to negative ones. -/
def RecordFits (c : Opened) (s : Stream) (maxlen : Nat) : Prop :=
  min maxlen (s.pending.length + c.chunkSize) < 0x8000000000000000

/-- The search has moved bytes into the buffer, and `found` is where the delimiter stands. -/
structure Finds (c : Opened) (s s' : Stream) (maxlen : Nat) (delim : Bytes) (found : Option Nat) :
    Prop extends Takes s s' [] where
  wrapped : RecordFits c s maxlen → s'.wrapped = s.wrapped
  delim : ∀ i, found = some i → DelimAt s' delim i

theorem Finds.trans {found found' : Option Nat} (h : Finds c s s' maxlen delim found)
    {s'' : Stream} (h' : Finds c s' s'' maxlen delim found') :
    Finds c s s'' maxlen delim found' := by
  refine { h.toTakes.trans h'.toTakes with wrapped := ?_, delim := h'.delim }
  intro hfits
  have hpending : s'.pending = s.pending := h.pending
  have hfits' : RecordFits c s' maxlen := by
    unfold RecordFits at hfits ⊢
    rw [hpending]
    exact hfits
  rw [h'.wrapped hfits', h.wrapped hfits]

theorem Finds.none (h : s.Ordered) : Finds c s s maxlen delim none :=
  { Takes.nil h with wrapped := fun _ => rfl, delim := by rintro _ ⟨⟩ }

theorem fillReadBuffer_finds (h : s.Ordered) (hkeep : c.readfilters = [] ∨ s.amount = 0)
    (hlen : bufferedLen ≤ s.amount) (hmore : bufferedLen < maxlen) {found : Option Nat}
    (hfound : ∀ i, found = some i → DelimAt
      (fillReadBuffer c s (bufferedLen + min (maxlen - bufferedLen) c.chunkSize)) delim i) :
    Finds c s (fillReadBuffer c s (bufferedLen + min (maxlen - bufferedLen) c.chunkSize)) maxlen
      delim found := by
  have hfill := fillReadBuffer_fills (c := c)
    (bufferedLen + min (maxlen - bufferedLen) c.chunkSize) h hkeep
  refine { ordered := hfill.ordered, pending := hfill.pending, position := hfill.position,
           wrapped := ?_, delim := hfound }
  intro hfits
  have hpending : s.pending.length = s.amount + s.rest.length := by
    rw [Stream.pending, length_append, length_buffered]
  have hsize : bufferedLen + min (maxlen - bufferedLen) c.chunkSize < 0x8000000000000000 := by
    unfold RecordFits at hfits
    omega
  exact (fillReadBuffer_fills_of_lt hsize h hkeep).wrapped

theorem wrapped_of_le (hlen : bufferedLen ≤ s.amount) :
    ({ s with wrapped := s.wrapped || decide (s.amount < bufferedLen) } : Stream) = s := by
  have hmark : (s.wrapped || decide (s.amount < bufferedLen)) = s.wrapped := by
    rw [decide_eq_false (Nat.not_lt.mpr hlen), Bool.or_false]
  exact congrArg (fun w => ({ s with wrapped := w } : Stream)) hmark

theorem recordLoop_unfiltered (hfs : c.readfilters = []) (fuel : Nat) (h : s.Ordered)
    (hlen : bufferedLen ≤ s.amount) :
    Finds c s (recordLoop c maxlen delim fuel s bufferedLen).2 maxlen delim
      (recordLoop c maxlen delim fuel s bufferedLen).1 := by
  -- induction on the rounds
  induction fuel generalizing s bufferedLen with
  | zero => exact Finds.none h
  | succ fuel ih =>
    by_cases hmore : bufferedLen < maxlen
    · have hgrows : s.amount ≤ (fillReadBuffer c s
          (bufferedLen + min (maxlen - bufferedLen) c.chunkSize)).amount :=
        (fillReadBuffer_fills _ h (Or.inl hfs)).amount_le
      have hfinds := @fillReadBuffer_finds c s delim maxlen bufferedLen h (Or.inl hfs) hlen hmore
      generalize hround : recordLoop c maxlen delim (fuel + 1) s bufferedLen = r
      rw [recordLoop, if_pos hmore] at hround
      dsimp only at hround
      rw [wrapped_of_le (hlen.trans hgrows)] at hround
      generalize fillReadBuffer c s _ = s₁ at hgrows hfinds hround
      have hnone := @hfinds none (by rintro _ ⟨⟩)
      split at hround
      · subst hround
        exact hnone
      · split at hround
        · rename_i i hfound
          subst hround
          refine hfinds ?_
          intro j hj
          exact findDelim_eq_some (hfound.trans hj)
        · subst hround
          refine hnone.trans (ih hnone.ordered ?_)
          unfold subSize sizeMod
          omega
    · rw [recordLoop, if_neg hmore]
      exact Finds.none h

theorem recordLoop_done (h : maxlen ≤ bufferedLen) (fuel : Nat) :
    recordLoop c maxlen delim fuel s bufferedLen = (none, s) := by
  cases fuel with
  | zero => rfl
  | succ fuel => rw [recordLoop, if_neg (Nat.not_lt.mpr h)]

/-- The buffer holds a record: it has the delimiter, or as many bytes as are asked for. -/
def recordReady (s : Stream) (maxlen : Nat) (delim : Bytes) : Bool :=
  (findDelim s maxlen 0 delim).isSome || maxlen ≤ s.amount

theorem le_amount_of_recordReady (h : recordReady s maxlen delim = true)
    (hnone : findDelim s maxlen 0 delim = none) : maxlen ≤ s.amount := by
  rw [recordReady, hnone, isSome_none, Bool.false_or, decide_eq_true_eq] at h
  exact h

theorem amount_fillReadBuffer_lt (hfs : c.readfilters ≠ []) {size : Nat}
    (hsize : size ≤ c.chunkSize) : (fillReadBuffer c s size).amount < sizeMod := by
  have hlt := c.chunkSize_lt
  unfold fillReadBuffer
  dsimp only
  rw [if_neg hfs]
  refine Nat.lt_of_le_of_lt
    (amount_fillFiltered_le hfs size _ ⟨Nat.le_refl 0, Nat.zero_le _⟩ (Nat.zero_le _)) ?_
  unfold sizeMod
  omega

theorem recordLoop_filtered (hfs : c.readfilters ≠ []) (fuel : Nat) (h : s.Ordered)
    (hempty : s.amount = 0) (hmax : 0 < maxlen)
    (hready : (fillReadBuffer c s (min maxlen c.chunkSize)).amount = 0 ∨
      recordReady (fillReadBuffer c s (min maxlen c.chunkSize)) maxlen delim = true) :
    Finds c s (recordLoop c maxlen delim (fuel + 1) s 0).2 maxlen delim
      (recordLoop c maxlen delim (fuel + 1) s 0).1 := by
  have hfinds := @fillReadBuffer_finds c s delim maxlen 0 h (Or.inr hempty) (Nat.zero_le _) hmax
  have hsmall : (fillReadBuffer c s (min maxlen c.chunkSize)).amount < sizeMod :=
    amount_fillReadBuffer_lt hfs (Nat.min_le_right _ _)
  generalize hround : recordLoop c maxlen delim (fuel + 1) s 0 = r
  rw [recordLoop, if_pos hmax] at hround
  dsimp only at hround
  rw [Nat.zero_add, Nat.sub_zero] at hfinds hround
  rw [wrapped_of_le (Nat.zero_le (fillReadBuffer c s (min maxlen c.chunkSize)).amount)] at hround
  generalize fillReadBuffer c s _ = s₁ at hfinds hready hsmall hround
  have hnone := @hfinds none (by rintro _ ⟨⟩)
  have hskip : (if delim.length - 1 ≤ 0 then 0 - (delim.length - 1) else 0) = 0 := by
    split <;> omega
  have hread : subSize s₁.amount 0 = s₁.amount := subSize_eq hsmall (Nat.zero_le _)
  rw [hskip, hread, Nat.zero_add, Nat.mod_eq_of_lt hsmall] at hround
  split at hround
  · subst hround
    exact hnone
  · rename_i hsome
    split at hround
    · rename_i i hfound
      subst hround
      refine hfinds ?_
      intro j hj
      exact findDelim_eq_some (hfound.trans hj)
    · rename_i hfound
      rw [recordLoop_done (le_amount_of_recordReady (hready.resolve_left hsome) hfound)] at hround
      subst hround
      exact hnone

/-- On a stream with filters, `php_stream_get_record` finds its record in the buffer, or fills an
empty buffer once. -/
def FillsOnce (c : Opened) (s : Stream) (maxlen : Nat) (delim : Bytes) : Prop :=
  recordReady s maxlen delim = true ∨
    s.amount = 0 ∧
      ((fillReadBuffer c s (min maxlen c.chunkSize)).amount = 0 ∨
        recordReady (fillReadBuffer c s (min maxlen c.chunkSize)) maxlen delim = true)

theorem findRecord_finds (h : s.Ordered) (hmax : 0 < maxlen)
    (honce : c.readfilters = [] ∨ FillsOnce c s maxlen delim) :
    Finds c s (findRecord c s maxlen delim).2 maxlen delim (findRecord c s maxlen delim).1 := by
  unfold findRecord
  cases hfound : findDelim s maxlen 0 delim with
  | some i =>
    refine { Takes.nil h with wrapped := fun _ => rfl, delim := ?_ }
    intro j hj
    exact findDelim_eq_some (hfound.trans hj)
  | none =>
    dsimp only
    by_cases hfs : c.readfilters = []
    · exact recordLoop_unfiltered hfs _ h (Nat.le_refl _)
    · obtain hready | ⟨hempty, hready⟩ := honce.resolve_left hfs
      · rw [recordLoop_done (le_amount_of_recordReady hready hfound)]
        exact Finds.none h
      · rw [hempty]
        exact recordLoop_filtered hfs _ h hempty hmax hready

/-! ## The record -/

theorem streamRead_delim (h : s.Ordered) (hdelim : DelimAt s delim i) :
    Serves s { (streamRead c s i).2 with
        readpos := (streamRead c s i).2.readpos + delim.length
        position := (streamRead c s i).2.position + delim.length }
      ((streamRead c s i).1 ++ delim) ∧ (streamRead c s i).2.wrapped = s.wrapped := by
  obtain ⟨hle, heq⟩ := hdelim
  rw [streamRead_buffered (Nat.le_of_add_right_le hle)]
  refine ⟨?_, rfl⟩
  dsimp only
  have hmove := @serves_move s { s with
      readpos := s.readpos + i + delim.length
      position := s.position + i + delim.length } (i + delim.length) h hle rfl rfl
    (Nat.add_assoc _ _ _) rfl rfl (Nat.add_assoc _ _ _)
  rw [slice_add, heq] at hmove
  exact hmove

theorem streamRead_rest (h : s.Ordered) {size : Nat} (hle : size ≤ s.amount) :
    Serves s (streamRead c s size).2 (streamRead c s size).1 ∧
      (streamRead c s size).2.wrapped = s.wrapped :=
  ⟨streamRead_serves size h, by rw [streamRead_buffered hle]⟩

theorem streamGetRecord_serves (h : s.Ordered)
    (honce : c.readfilters = [] ∨ maxlen = 0 ∨ FillsOnce c s maxlen delim) :
    Serves s (streamGetRecord c s maxlen delim).2.2
        ((streamGetRecord c s maxlen delim).1.getD [] ++ (streamGetRecord c s maxlen delim).2.1) ∧
      (RecordFits c s maxlen → (streamGetRecord c s maxlen delim).2.2.wrapped = s.wrapped) := by
  unfold streamGetRecord
  split
  · exact ⟨(Fills.refl h).serves, fun _ => rfl⟩
  · rename_i hmax
    have hfinds := findRecord_finds h (Nat.pos_of_ne_zero hmax)
      (honce.imp_right fun h => h.resolve_left hmax)
    generalize findRecord c s maxlen delim = r at hfinds ⊢
    obtain ⟨found, s₁⟩ := r
    dsimp only at hfinds ⊢
    have hsearch : Serves s s₁ [] := ⟨hfinds.ordered, hfinds.pending, hfinds.position⟩
    cases found with
    | some i =>
      obtain ⟨hserves, hwrapped⟩ :=
        streamRead_delim (c := c) hfinds.ordered (hfinds.delim i rfl)
      exact ⟨hsearch.trans hserves, fun hfits => hwrapped.trans (hfinds.wrapped hfits)⟩
    | none =>
      dsimp only
      split
      · rename_i hfull
        obtain ⟨hserves, hwrapped⟩ := streamRead_rest (c := c) hfinds.ordered hfull.2
        rw [getD_some, append_nil]
        exact ⟨hsearch.trans hserves, fun hfits => hwrapped.trans (hfinds.wrapped hfits)⟩
      · split
        · exact ⟨hsearch, hfinds.wrapped⟩
        · split
          · exact ⟨hsearch, hfinds.wrapped⟩
          · obtain ⟨hserves, hwrapped⟩ := @streamRead_rest c s₁ hfinds.ordered
              (min s₁.amount maxlen) (Nat.min_le_left _ _)
            rw [getD_some, append_nil]
            exact ⟨hsearch.trans hserves, fun hfits => hwrapped.trans (hfinds.wrapped hfits)⟩

/-! ## The calls -/

structure Sound (data : Bytes) (r : Reader) : Prop where
  ordered : r.stream.Ordered
  data : r.got ++ r.stream.pending = data
  position : r.stream.position = r.got.length

/-- Nothing is dropped: a call of `php_stream_get_record` fills the buffer of a stream with filters
only where it is empty. -/
def Keeps (c : Opened) (r : Reader) : Call → Prop
  | .getRecord maxlen delim =>
    c.readfilters = [] ∨ maxlen = 0 ∨ FillsOnce c r.stream maxlen delim
  | _ => True

/-- No size is cast to a negative one, and `maxlen`, which is counted down also where the caller has
given no buffer, is not passed. -/
def Roomy (c : Opened) (r : Reader) : Call → Prop
  | .read size => Readable c r.stream size
  | .getc => True
  | .getLine buf maxlen => maxlen < sizeMod ∧ (buf = true ∨ lineLength r.stream ≤ maxlen)
  | .getRecord maxlen _ => RecordFits c r.stream maxlen

theorem toList_head? {data : Bytes} (h : data.length ≤ 1) : data.head?.toList = data := by
  cases data with
  | nil => rfl
  | cons b data =>
    rw [length_cons] at h
    obtain rfl : data = [] := length_eq_zero_iff.mp (by omega)
    rfl

theorem serve_serves {data : Bytes} {r : Reader} {call : Call} (h : Sound data r)
    (hkeeps : Keeps c r call) :
    Serves r.stream (serve c r.stream call).2 (serve c r.stream call).1 ∧
      (Roomy c r call → (serve c r.stream call).2.wrapped = r.stream.wrapped) := by
  have ho := h.ordered
  cases call with
  | read size => exact ⟨streamRead_serves size ho, streamRead_wrapped ho⟩
  | getc =>
    have hserves := streamRead_serves (c := c) 1 ho
    have hall := toList_head? (length_streamRead_le (c := c) 1 ho)
    rw [← hall] at hserves
    have hsmall : Readable c r.stream 1 := Or.inr (by omega)
    have hwrapped := streamRead_wrapped ho hsmall
    exact ⟨hserves, fun _ => hwrapped⟩
  | getLine buf maxlen =>
    refine ⟨streamGetLine_serves buf maxlen ho, ?_⟩
    rintro ⟨hmax, hfits⟩
    exact streamGetLine_wrapped ho hmax hfits
  | getRecord maxlen delim => exact streamGetRecord_serves ho hkeeps

theorem Sound.serve {data : Bytes} {r : Reader} {call : Call} (h : Sound data r)
    (hkeeps : Keeps c r call) :
    Sound data ⟨(serve c r.stream call).2, r.got ++ (serve c r.stream call).1⟩ := by
  obtain ⟨hserves, _⟩ := serve_serves h hkeeps
  refine ⟨hserves.ordered, ?_, ?_⟩
  · rw [append_assoc, hserves.pending, h.data]
  · rw [hserves.position, h.position, length_append]

theorem opened_sound (data : Bytes) (detectEol : Bool) : Sound data (opened data detectEol) :=
  ⟨⟨Nat.le_refl _, Nat.le_refl _⟩, rfl, rfl⟩

theorem step_eq_some {r r' : Reader} {call : Call} (h : (reading c).step r call = some r') :
    r' = ⟨(serve c r.stream call).2, r.got ++ (serve c r.stream call).1⟩ :=
  (some.inj h).symm

/-- **What the caller has got is the beginning of the data**, whatever the underlying reads return
and whatever the chain of filters, in every run in which no call has bytes dropped. -/
theorem got_isPrefix (c : Opened) (data : Bytes) (detectEol : Bool) {calls : List Call} {r : Reader}
    (h : (reading c).Run (Keeps c) (opened data detectEol) calls r) :
    r.got <+: data ∧ r.stream.position = r.got.length ∧
      r.stream.readpos ≤ r.stream.writepos ∧ r.stream.writepos ≤ r.stream.readbuflen ∧
      ((reading c).Along (Roomy c) (opened data detectEol) calls → r.stream.wrapped = false) := by
  have hstep : ∀ s call s', Sound data s → Keeps c s call → (reading c).step s call = some s' →
      Sound data s' := by
    intro s call s' hs hkeeps hstep
    rw [step_eq_some hstep]
    exact hs.serve hkeeps
  have hsound := h.invariant hstep (opened_sound data detectEol)
  refine ⟨⟨_, hsound.data⟩, hsound.position, hsound.ordered.readpos_le, hsound.ordered.writepos_le,
    ?_⟩
  intro hroomy
  have hboth : Sound data r ∧ r.stream.wrapped = false := by
    refine @EventSystem.Run.invariant_along _ _ _ _
      (fun r => Sound data r ∧ r.stream.wrapped = false) (Roomy c) ?_ _ _ _ h hroomy
      ⟨opened_sound data detectEol, rfl⟩
    rintro s call s' ⟨hs, hwrapped⟩ hkeeps hroom hnext
    refine ⟨hstep s call s' hs hkeeps hnext, ?_⟩
    rw [step_eq_some hnext]
    exact ((serve_serves hs hkeeps).2 hroom).trans hwrapped
  exact hboth.2

instance (c : Opened) (s : Stream) (maxlen : Nat) (delim : Bytes) :
    Decidable (FillsOnce c s maxlen delim) :=
  inferInstanceAs (Decidable (_ ∨ _))

instance (c : Opened) (r : Reader) : (call : Call) → Decidable (Keeps c r call)
  | .read _ => isTrue trivial
  | .getc => isTrue trivial
  | .getLine _ _ => isTrue trivial
  | .getRecord _ _ => inferInstanceAs (Decidable (_ ∨ _))

/-- A stream with a filter, in chunks of two bytes; the reads return what they are asked for. -/
def filtered : Opened where
  ops reads size := (size, 3 ≤ reads)
  readfilters := [⟨fun _ brig => (.passOn, brig), fun _ _ _ => ⟨rfl, rfl⟩, fun _ _ h => h⟩]
  chunkSize := 2
  chunkSize_pos := by decide
  chunkSize_lt := by decide
  noBuffer := false
  plainFiles := true

theorem got_isPrefix_filtered : ∃ r, (reading filtered).Run (Keeps filtered)
    (opened [97, 98, 10, 99, 100, 101] false) [.getRecord 2 [98], .getc, .getLine true 9] r ∧
    r.got = [97, 98, 10, 99, 100, 101] ∧ r.got <+: [97, 98, 10, 99, 100, 101] := by
  have hexec : ((reading filtered).execWhile (Keeps filtered)
      (opened [97, 98, 10, 99, 100, 101] false) [.getRecord 2 [98], .getc, .getLine true 9]).map
      (fun r => r.got) = some [97, 98, 10, 99, 100, 101] := by decide
  obtain ⟨r, hexec, hgot⟩ := map_eq_some_iff.mp hexec
  have hrun := EventSystem.run_of_execWhile hexec
  exact ⟨r, hrun, hgot, (got_isPrefix filtered _ false hrun).1⟩

/-- **A record behind the first chunk of a stream with a filter** is not found: the chunk is dropped
to read the next. -/
theorem not_got_isPrefix : ¬∀ (c : Opened) (data : Bytes) (detectEol : Bool) (calls : List Call)
    (r : Reader), (reading c).FreeRun (opened data detectEol) calls r → r.got <+: data := by
  intro h
  have hexec : ((reading filtered).exec (opened [1, 2, 3, 4, 5, 6] false) [.getRecord 4 []]).map
      (fun r => r.got) = some [3, 4, 5, 6] := by decide
  obtain ⟨r, hexec, hgot⟩ := map_eq_some_iff.mp hexec
  have hbegins := h filtered _ false _ r (EventSystem.run_of_exec hexec)
  rw [hgot] at hbegins
  revert hbegins
  decide

end Streams

end Phpce
