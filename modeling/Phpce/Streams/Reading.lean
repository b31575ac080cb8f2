import Phpce.Streams.Basic

/-!
# What is read is what comes next

A stream holds its data in two parts: what is buffered, and what is left to read. To fill the buffer
moves bytes from the second to the first, and to take bytes takes them from the front.

* **`fillReadBuffer_fills`** — a stream without filters, or with nothing buffered, is filled.
* **`serve_served`** — what one call returns.
-/

namespace Phpce

namespace Streams

open Bytes Buffer List

/-! ## The buffer -/

structure Stream.Ordered (s : Stream) : Prop where
  readpos_le : s.readpos ≤ s.writepos
  writepos_le : s.writepos ≤ s.readbuflen

def Stream.pending (s : Stream) : Bytes := s.buffered ++ s.rest

@[simp] theorem length_buffered (s : Stream) : s.buffered.length = s.amount := length_slice

theorem buffered_eq_nil_iff {s : Stream} : s.buffered = [] ↔ s.amount = 0 := by
  rw [← length_buffered, length_eq_zero_iff]

/-- The buffer is filled: it holds what it held and, behind that, bytes that were left to read. -/
structure Fills (s s' : Stream) : Prop where
  ordered : s'.Ordered
  carries : s.buffered <+: s'.buffered
  pending : s'.pending = s.pending
  position : s'.position = s.position
  detectEol : s'.detectEol = s.detectEol
  eolMac : s'.eolMac = s.eolMac
  wrapped : s'.wrapped = s.wrapped

section Fills

variable {s s' s'' : Stream}

theorem Fills.refl (h : s.Ordered) : Fills s s :=
  ⟨h, prefix_rfl, rfl, rfl, rfl, rfl, rfl⟩

theorem Fills.trans (h : Fills s s') (h' : Fills s' s'') : Fills s s'' :=
  ⟨h'.ordered, h.carries.trans h'.carries, h'.pending.trans h.pending,
    h'.position.trans h.position, h'.detectEol.trans h.detectEol, h'.eolMac.trans h.eolMac,
    h'.wrapped.trans h.wrapped⟩

theorem Fills.amount_le (h : Fills s s') : s.amount ≤ s'.amount := by
  rw [← length_buffered, ← length_buffered]
  exact h.carries.length_le

theorem Fills.length_rest (h : Fills s s') :
    s'.amount + s'.rest.length = s.amount + s.rest.length := by
  have hlen := congrArg List.length h.pending
  simpa [Stream.pending] using hlen

theorem buffered_store (h : s.Ordered) (data : Bytes) (len : Nat) :
    Stream.buffered { s with
      readbuf := store s.readbuf s.writepos data
      writepos := s.writepos + data.length
      readbuflen := len } = s.buffered ++ data := by
  have hw : s.writepos = s.readpos + s.amount := by
    have := h.readpos_le
    unfold Stream.amount
    omega
  have hamount : Stream.amount { s with
      readbuf := store s.readbuf s.writepos data
      writepos := s.writepos + data.length
      readbuflen := len } = s.amount + data.length := by
    have := h.readpos_le
    unfold Stream.amount
    dsimp only
    omega
  unfold Stream.buffered
  rw [hamount]
  dsimp only
  rw [hw, slice_store_append]

variable {c : Opened} {data : Bytes} {size : Nat}

theorem Fills.of_read (ho : s'.Ordered) (hbuf : s'.buffered = s.buffered ++ data)
    (hrest : data ++ s'.rest = s.rest) (hposition : s'.position = s.position)
    (hdetect : s'.detectEol = s.detectEol) (hmac : s'.eolMac = s.eolMac)
    (hwrapped : s'.wrapped = s.wrapped) : Fills s s' := by
  refine ⟨ho, ⟨data, hbuf.symm⟩, ?_, hposition, hdetect, hmac, hwrapped⟩
  rw [Stream.pending, Stream.pending, hbuf, append_assoc, hrest]

theorem opsRead_append (c : Opened) (s : Stream) (size : Nat) :
    (opsRead c s size).1 ++ (opsRead c s size).2.rest = s.rest :=
  take_append_drop _ _

theorem length_opsRead_le (c : Opened) (s : Stream) (size : Nat) :
    (opsRead c s size).1.length ≤ size :=
  (length_take_le _ _).trans (Nat.min_le_right _ _)

/-! ## A stream without filters -/

theorem compact_fills (h : s.Ordered) : Fills s (compact c s) := by
  have hr := h.readpos_le
  have hw := h.writepos_le
  unfold compact
  split
  · refine @Fills.of_read s _ [] ⟨Nat.zero_le _, ?_⟩ ?_ rfl rfl rfl rfl rfl
    · dsimp only
      omega
    · rw [append_nil, Stream.buffered, Stream.buffered, Stream.amount, Stream.amount]
      dsimp only
      have hsplit : s.readbuflen - s.readpos = (s.writepos - s.readpos) +
          (s.readbuflen - s.writepos) := by omega
      have hself := slice_store_self s.readbuf 0
        (slice s.readbuf s.readpos (s.readbuflen - s.readpos))
      rw [length_slice, hsplit, slice_add, slice_add] at hself
      rw [hsplit, slice_add, Nat.sub_zero]
      exact (List.append_inj hself (by rw [length_slice, length_slice])).1
  · exact Fills.refl h

theorem grow_fills (h : s.Ordered) : Fills s (grow c s) := by
  unfold grow
  split
  · exact ⟨⟨h.readpos_le, h.writepos_le.trans (Nat.le_add_right _ _)⟩, prefix_rfl, rfl, rfl,
      rfl, rfl, rfl⟩
  · exact Fills.refl h

theorem storeRead_fills (h : s.Ordered) :
    Fills s { (opsRead c s (s.readbuflen - s.writepos)).2 with
      readbuf := store s.readbuf s.writepos (opsRead c s (s.readbuflen - s.writepos)).1
      writepos := s.writepos + (opsRead c s (s.readbuflen - s.writepos)).1.length } := by
  have hlen := length_opsRead_le c s (s.readbuflen - s.writepos)
  have hr := h.readpos_le
  have hw := h.writepos_le
  refine Fills.of_read ⟨?_, ?_⟩ (buffered_store h _ s.readbuflen)
    (opsRead_append c s (s.readbuflen - s.writepos)) rfl rfl rfl rfl
  · exact hr.trans (Nat.le_add_right _ _)
  · dsimp only [opsRead] at hlen ⊢
    omega

theorem fillPlain_fills (h : s.Ordered) : Fills s (fillPlain c s size) := by
  unfold fillPlain
  split
  · have hcompact := compact_fills (c := c) h
    have hgrow := grow_fills (c := c) hcompact.ordered
    exact (hcompact.trans hgrow).trans (storeRead_fills hgrow.ordered)
  · exact Fills.refl h

/-! ## A stream with filters -/

theorem windHandle_passes (flags : FilterFlags) (status : FilterStatus) {fs : List Filter}
    {brig : List Bytes} (hbrig : brig.flatten ≠ []) (hfs : fs ≠ []) :
    (windHandle flags status fs brig).1 = .passOn ∧
      (windHandle flags status fs brig).2.flatten = brig.flatten := by
  -- induction on the chain
  induction fs generalizing status brig with
  | nil => exact absurd rfl hfs
  | cons f fs ih =>
    obtain ⟨hstatus, hout⟩ := f.passes flags brig hbrig
    rw [windHandle, if_pos hstatus]
    by_cases hrest : fs = []
    · subst hrest
      exact ⟨hstatus, hout⟩
    · obtain ⟨hstatus', hout'⟩ :=
        ih (f.filter flags brig).1 (hout.symm ▸ hbrig) hrest
      exact ⟨hstatus', hout'.trans hout⟩

theorem windHandle_empty (flags : FilterFlags) (status : FilterStatus) (fs : List Filter)
    {brig : List Bytes} (hbrig : brig.flatten = []) :
    (windHandle flags status fs brig).2.flatten = [] := by
  -- induction on the chain
  induction fs generalizing status brig with
  | nil => exact hbrig
  | cons f fs ih =>
    have hout := f.empty flags brig hbrig
    rw [windHandle]
    split
    · exact ih _ hout
    · exact hout

/-- `data` has been put behind what is buffered. -/
structure Stored (s s' : Stream) (data : Bytes) : Prop where
  ordered : s'.Ordered
  buffered : s'.buffered = s.buffered ++ data
  rest : s'.rest = s.rest
  position : s'.position = s.position
  detectEol : s'.detectEol = s.detectEol
  eolMac : s'.eolMac = s.eolMac
  wrapped : s'.wrapped = s.wrapped

theorem putBucket_stored (h : s.Ordered) (bucket : Bytes) :
    Stored s (putBucket s bucket) bucket := by
  have hr := h.readpos_le
  have hw := h.writepos_le
  refine ⟨⟨?_, ?_⟩, buffered_store h bucket _, rfl, rfl, rfl, rfl, rfl⟩
  · exact hr.trans (Nat.le_add_right _ _)
  · unfold putBucket
    dsimp only
    split <;> omega

theorem foldl_putBucket_stored (h : s.Ordered) (brig : List Bytes) :
    Stored s (brig.foldl putBucket s) brig.flatten := by
  -- induction on the brigade
  induction brig generalizing s with
  | nil => exact ⟨h, (append_nil _).symm, rfl, rfl, rfl, rfl, rfl⟩
  | cons bucket brig ih =>
    have hput := putBucket_stored h bucket
    have hrest := ih hput.ordered
    exact ⟨hrest.ordered, by rw [foldl_cons, hrest.buffered, hput.buffered, flatten_cons,
        append_assoc], hrest.rest.trans hput.rest, hrest.position.trans hput.position,
      hrest.detectEol.trans hput.detectEol, hrest.eolMac.trans hput.eolMac,
      hrest.wrapped.trans hput.wrapped⟩

theorem Stored.fills (h : Stored (opsRead c s size).2 s' (opsRead c s size).1) : Fills s s' :=
  Fills.of_read h.ordered h.buffered (h.rest ▸ opsRead_append c s size) h.position h.detectEol
    h.eolMac h.wrapped

theorem opsRead_ordered (c : Opened) (size : Nat) (h : s.Ordered) : (opsRead c s size).2.Ordered :=
  ⟨h.readpos_le, h.writepos_le⟩

theorem opsRead_fills (c : Opened) (size : Nat) (h : s.Ordered)
    (hempty : (opsRead c s size).1 = []) : Fills s (opsRead c s size).2 := by
  have hstored : Stored (opsRead c s size).2 (opsRead c s size).2 (opsRead c s size).1 := by
    rw [hempty]
    exact foldl_putBucket_stored (opsRead_ordered c size h) []
  exact hstored.fills

theorem fillFiltered_round (hfs : c.readfilters ≠ []) (h : s.Ordered)
    (hmore : (s.eof || !lacks s size) = false) :
    ∃ s', Fills s s' ∧ s'.amount ≤ s.amount + c.chunkSize ∧
      ((∀ fuel, fillFiltered c size (fuel + 1) s = s') ∨
        ∀ fuel, fillFiltered c size (fuel + 1) s = fillFiltered c size fuel s') := by
  simp only [fillFiltered, hmore, Bool.false_eq_true, if_false]
  have ho := opsRead_ordered c c.chunkSize h
  have hnone := opsRead_fills c c.chunkSize h
  have hlen := length_opsRead_le c s c.chunkSize
  have hstored : ∀ s', Stored (opsRead c s c.chunkSize).2 s' (opsRead c s c.chunkSize).1 →
      Fills s s' := fun s' h => h.fills
  have hamount : (opsRead c s c.chunkSize).2.amount = s.amount := rfl
  generalize opsRead c s c.chunkSize = r at ho hnone hstored hlen hamount
  obtain ⟨chunk, s₁⟩ := r
  dsimp only at ho hnone hstored hlen hamount ⊢
  by_cases hempty : chunk = []
  · subst hempty
    have hflat := @windHandle_empty (filterFlags [] s₁.eof) .errFatal c.readfilters [] rfl
    simp only [if_true]
    generalize windHandle _ _ _ _ = w at hflat ⊢
    obtain ⟨status, brig⟩ := w
    dsimp only at hflat
    have hkept : s₁.amount ≤ s.amount + c.chunkSize := by omega
    cases status with
    | passOn =>
      have hput := foldl_putBucket_stored ho brig
      rw [hflat] at hput
      refine ⟨_, hstored _ hput, ?_, Or.inl fun _ => rfl⟩
      rw [← length_buffered, hput.buffered, append_nil, length_buffered]
      exact hkept
    | feedMe => exact ⟨s₁, hnone rfl, hkept, Or.inl fun _ => rfl⟩
    | errFatal => exact ⟨s₁, hnone rfl, hkept, Or.inl fun _ => rfl⟩
  · have hbrig : [chunk].flatten ≠ [] := by simpa using hempty
    obtain ⟨hstatus, hflat⟩ :=
      windHandle_passes (filterFlags chunk s₁.eof) .errFatal hbrig hfs
    simp only [if_neg hempty]
    generalize windHandle _ _ _ _ = w at hstatus hflat ⊢
    obtain ⟨status, brig⟩ := w
    dsimp only at hstatus hflat
    subst hstatus
    rw [flatten_singleton] at hflat
    have hput := foldl_putBucket_stored ho brig
    rw [hflat] at hput
    refine ⟨_, hstored _ hput, ?_, Or.inr fun _ => rfl⟩
    rw [← length_buffered, hput.buffered, length_append, length_buffered, hamount]
    exact Nat.add_le_add_left hlen _

theorem fillFiltered_fills (hfs : c.readfilters ≠ []) (size fuel : Nat) (h : s.Ordered) :
    Fills s (fillFiltered c size fuel s) := by
  -- induction on the rounds
  induction fuel generalizing s with
  | zero => exact Fills.refl h
  | succ fuel ih =>
    cases hmore : s.eof || !lacks s size with
    | true =>
      rw [fillFiltered, if_pos hmore]
      exact Fills.refl h
    | false =>
      obtain ⟨s', hfill, _, hlast | hnext⟩ := fillFiltered_round hfs h hmore
      · rw [hlast]
        exact hfill
      · rw [hnext]
        exact hfill.trans (ih hfill.ordered)

theorem amount_fillFiltered_le (hfs : c.readfilters ≠ []) (size fuel : Nat) (h : s.Ordered)
    (hamount : s.amount ≤ size + c.chunkSize) :
    (fillFiltered c size fuel s).amount ≤ size + c.chunkSize := by
  -- induction on the rounds
  induction fuel generalizing s with
  | zero => exact hamount
  | succ fuel ih =>
    cases hmore : s.eof || !lacks s size with
    | true =>
      rw [fillFiltered, if_pos hmore]
      exact hamount
    | false =>
      have hlacks : s.amount < size := by
        simp only [lacks, Bool.or_eq_false_iff, Bool.not_eq_false', Bool.and_eq_true,
          decide_eq_true_eq] at hmore
        exact hmore.2.2
      obtain ⟨s', hfill, hgrows, hlast | hnext⟩ := fillFiltered_round hfs h hmore
      · rw [hlast]
        omega
      · rw [hnext]
        exact ih hfill.ordered (by omega)

theorem drop_fills (hempty : s.amount = 0) :
    Fills s { s with writepos := 0, readpos := 0 } := by
  have hbuf : s.buffered = [] := buffered_eq_nil_iff.mpr hempty
  have hbuf' : Stream.buffered { s with writepos := 0, readpos := 0 } = [] := rfl
  refine ⟨⟨Nat.le_refl _, Nat.zero_le _⟩, ?_, ?_, rfl, rfl, rfl, rfl⟩
  · rw [hbuf]
    exact nil_prefix
  · rw [Stream.pending, Stream.pending, hbuf, hbuf']

/-- **The buffer is filled**, unless there is something in it and a filter behind it. -/
theorem fillReadBuffer_fills (size : Nat) (h : s.Ordered)
    (hkeep : c.readfilters = [] ∨ s.amount = 0) :
    Fills { s with wrapped := s.wrapped || decide (0x8000000000000000 ≤ size) }
      (fillReadBuffer c s size) := by
  have ho : Stream.Ordered { s with wrapped := s.wrapped || decide (0x8000000000000000 ≤ size) } :=
    ⟨h.readpos_le, h.writepos_le⟩
  unfold fillReadBuffer
  dsimp only
  split
  · exact fillPlain_fills ho
  · rename_i hfs
    have hdrop := drop_fills
      (s := { s with wrapped := s.wrapped || decide (0x8000000000000000 ≤ size) })
      (hkeep.resolve_left hfs)
    exact hdrop.trans (fillFiltered_fills hfs size _ hdrop.ordered)

theorem fillReadBuffer_fills_of_lt (hsize : size < 0x8000000000000000) (h : s.Ordered)
    (hkeep : c.readfilters = [] ∨ s.amount = 0) : Fills s (fillReadBuffer c s size) := by
  have hfill := fillReadBuffer_fills size h hkeep
  rw [decide_eq_false (Nat.not_le.mpr hsize), Bool.or_false] at hfill
  exact hfill

end Fills

/-! ## Bytes are taken -/

/-- `out` has been taken from the front of what is to be had. -/
structure Takes (s s' : Stream) (out : Bytes) : Prop where
  ordered : s'.Ordered
  pending : out ++ s'.pending = s.pending
  position : s'.position = s.position

section Takes

variable {s s' s'' : Stream} {c : Opened} {out out' : Bytes} {size : Nat}

theorem Takes.nil (h : s.Ordered) : Takes s s [] := ⟨h, rfl, rfl⟩

theorem Takes.trans (h : Takes s s' out) (h' : Takes s' s'' out') : Takes s s'' (out ++ out') :=
  ⟨h'.ordered, by rw [append_assoc, h'.pending, h.pending], h'.position.trans h.position⟩

theorem buffered_take (n : Nat) (h : n ≤ s.amount) :
    slice s.readbuf s.readpos n ++ slice s.readbuf (s.readpos + n) (s.amount - n) = s.buffered := by
  rw [← slice_add, Nat.add_sub_cancel' h]
  rfl

theorem buffered_move (n : Nat) (h : n ≤ s.amount) (h' : s'.readbuf = s.readbuf)
    (hr : s'.readpos = s.readpos + n) (hw : s'.writepos = s.writepos) :
    slice s.readbuf s.readpos n ++ s'.buffered = s.buffered := by
  have hamount : s'.amount = s.amount - n := by
    rw [Stream.amount, Stream.amount, hr, hw, Nat.sub_sub]
  rw [Stream.buffered, h', hr, hamount, buffered_take n h]

theorem takeBuffered_takes (size : Nat) (h : s.Ordered) :
    Takes s (takeBuffered s size).2 (takeBuffered s size).1 := by
  have hle := h.readpos_le
  refine ⟨⟨?_, h.writepos_le⟩, ?_, rfl⟩
  · simp only [takeBuffered, Stream.amount]
    omega
  · rw [Stream.pending, Stream.pending, ← append_assoc]
    congr 1
    exact buffered_move _ (Nat.min_le_left _ _) rfl rfl rfl

theorem length_takeBuffered (s : Stream) (size : Nat) :
    (takeBuffered s size).1.length = min s.amount size := length_slice

theorem takeBuffered_amount (h : (takeBuffered s size).1.length < size) :
    (takeBuffered s size).2.amount = 0 := by
  rw [length_takeBuffered] at h
  have hmin : min s.amount size = s.amount := by omega
  rw [takeBuffered, hmin, Stream.amount]
  dsimp only
  rw [Stream.amount]
  omega

theorem opsRead_takes (size : Nat) (h : s.Ordered) (hempty : s.amount = 0) :
    Takes s (opsRead c s size).2 (opsRead c s size).1 := by
  have hbuf : s.buffered = [] := buffered_eq_nil_iff.mpr hempty
  have hbuf' : (opsRead c s size).2.buffered = [] := hbuf
  refine ⟨opsRead_ordered c size h, ?_, rfl⟩
  rw [Stream.pending, Stream.pending, hbuf, hbuf']
  exact opsRead_append c s size

end Takes

/-- The size that `_php_stream_fill_read_buffer` gets is not cast to a negative one. -/
def Readable (c : Opened) (s : Stream) (size : Nat) : Prop :=
  c.raw = true ∨ size < 0x8000000000000000 + s.amount

/-- `out` has been read: at most `size` bytes are taken, and only a size that is cast to a negative
one leaves a mark. -/
structure Reads (c : Opened) (s s' : Stream) (size : Nat) (out : Bytes) : Prop
    extends Takes s s' out where
  amount_le : s.amount ≤ s'.amount + out.length
  length_le : out.length ≤ size
  wrapped : Readable c s size → s'.wrapped = s.wrapped

section Reads

variable {s s' s'' : Stream} {c : Opened} {out out' : Bytes} {size size' : Nat}

theorem Reads.nil (h : s.Ordered) : Reads c s s size [] :=
  { Takes.nil h with
    amount_le := Nat.le_refl _, length_le := Nat.zero_le _, wrapped := fun _ => rfl }

theorem Reads.trans (h : Reads c s s' size out) (h' : Reads c s' s'' (size - out.length) out') :
    Reads c s s'' size (out ++ out') := by
  have hamount := h.amount_le
  have hamount' := h'.amount_le
  have hle := h.length_le
  have hle' := h'.length_le
  refine { h.toTakes.trans h'.toTakes with amount_le := ?_, length_le := ?_, wrapped := ?_ }
  · rw [length_append]
    omega
  · rw [length_append]
    omega
  · intro hsize
    have hsize' : Readable c s' (size - out.length) := hsize.imp_right fun _ => by omega
    rw [h'.wrapped hsize', h.wrapped hsize]

theorem takeBuffered_reads (size : Nat) (h : s.Ordered) :
    Reads c s (takeBuffered s size).2 size (takeBuffered s size).1 := by
  have hlen := length_takeBuffered s size
  refine { takeBuffered_takes size h with
           amount_le := ?_, length_le := ?_, wrapped := fun _ => rfl }
  · rw [hlen]
    unfold takeBuffered Stream.amount
    dsimp only
    omega
  · rw [hlen]
    exact Nat.min_le_right _ _

theorem fillReadBuffer_reads (hraw : c.raw = false) (h : s.Ordered)
    (hkeep : c.readfilters = [] ∨ s.amount = 0)
    (hsize : size' < 0x8000000000000000 ∨ size' + s.amount ≤ size) :
    Reads c s (fillReadBuffer c s size') size [] := by
  have hfill := fillReadBuffer_fills size' h hkeep
  refine { ordered := hfill.ordered, pending := hfill.pending, position := hfill.position,
           amount_le := hfill.amount_le, length_le := Nat.zero_le _, wrapped := ?_ }
  intro hreadable
  have hsmall : size' < 0x8000000000000000 := by
    rw [Readable, hraw] at hreadable
    have := hreadable.resolve_left Bool.false_ne_true
    omega
  exact (fillReadBuffer_fills_of_lt hsmall h hkeep).wrapped

theorem readMore_reads (h : s.Ordered) (hempty : s.amount = 0) :
    Reads c s
      (if c.raw then opsRead c s size else takeBuffered (fillReadBuffer c s size) size).2 size
      (if c.raw then opsRead c s size else takeBuffered (fillReadBuffer c s size) size).1 := by
  split
  · refine { opsRead_takes size h hempty with
             amount_le := ?_, length_le := length_opsRead_le c s size, wrapped := fun _ => rfl }
    omega
  · rename_i hraw
    have hfill : Reads c s (fillReadBuffer c s size) size [] :=
      fillReadBuffer_reads (eq_false_of_ne_true hraw) h (Or.inr hempty) (Or.inr (by omega))
    exact hfill.trans (takeBuffered_reads size hfill.ordered)

theorem readLoop_reads (fuel : Nat) (h : s.Ordered) :
    Reads c s (readLoop c fuel s size).2 size (readLoop c fuel s size).1 := by
  -- induction on the rounds
  induction fuel generalizing s size with
  | zero => exact Reads.nil h
  | succ fuel ih =>
    rw [readLoop]
    split
    · exact Reads.nil h
    · have hfirst := takeBuffered_reads (c := c) size h
      have hdrained := @takeBuffered_amount s size
      generalize takeBuffered s size = r at hfirst hdrained
      obtain ⟨first, s₁⟩ := r
      dsimp only at hfirst hdrained ⊢
      split
      · exact hfirst
      · have hmore := @readMore_reads s₁ c (size - first.length) hfirst.ordered
          (hdrained (by omega))
        generalize (if c.raw then _ else _) = r at hmore ⊢
        obtain ⟨more, s₂⟩ := r
        dsimp only at hmore ⊢
        have hboth := hfirst.trans hmore
        split
        · rename_i hnone
          rw [hnone, append_nil] at hboth
          exact hboth
        · split
          · exact hboth
          · have hothers := @ih s₂ (size - first.length - more.length) hmore.ordered
            rw [Nat.sub_sub, ← length_append] at hothers
            rw [Nat.sub_sub, ← length_append]
            exact hboth.trans hothers

end Reads

/-! ## Bytes are returned -/

/-- A call has returned or consumed `out`, and counted it. -/
structure Serves (s s' : Stream) (out : Bytes) : Prop where
  ordered : s'.Ordered
  pending : out ++ s'.pending = s.pending
  position : s'.position = s.position + out.length

section Serves

variable {s s' s'' : Stream} {c : Opened} {out out' : Bytes} {size : Nat}

theorem Serves.trans (h : Serves s s' out) (h' : Serves s' s'' out') :
    Serves s s'' (out ++ out') :=
  ⟨h'.ordered, by rw [append_assoc, h'.pending, h.pending],
    by rw [h'.position, h.position, length_append, Nat.add_assoc]⟩

theorem Fills.serves (h : Fills s s') : Serves s s' [] := ⟨h.ordered, h.pending, h.position⟩

theorem serves_move (n : Nat) (h : s.Ordered) (hn : n ≤ s.amount) (hbuf : s'.readbuf = s.readbuf)
    (hlen : s'.readbuflen = s.readbuflen) (hr : s'.readpos = s.readpos + n)
    (hw : s'.writepos = s.writepos) (hrest : s'.rest = s.rest)
    (hposition : s'.position = s.position + n) :
    Serves s s' (slice s.readbuf s.readpos n) := by
  have hle := h.readpos_le
  refine ⟨⟨?_, ?_⟩, ?_, ?_⟩
  · rw [hr, hw]
    unfold Stream.amount at hn
    omega
  · rw [hw, hlen]
    exact h.writepos_le
  · rw [Stream.pending, Stream.pending, ← append_assoc, buffered_move n hn hbuf hr hw, hrest]
  · rw [hposition, length_slice]

theorem streamRead_serves (size : Nat) (h : s.Ordered) :
    Serves s (streamRead c s size).2 (streamRead c s size).1 := by
  have hreads : Reads c s _ size _ := readLoop_reads size h
  exact ⟨⟨hreads.ordered.readpos_le, hreads.ordered.writepos_le⟩, hreads.pending,
    congrArg (· + _) hreads.position⟩

theorem length_streamRead_le (size : Nat) (h : s.Ordered) : (streamRead c s size).1.length ≤ size :=
  (readLoop_reads (c := c) (s := s) size h).length_le

theorem streamRead_wrapped (h : s.Ordered) (hsize : Readable c s size) :
    (streamRead c s size).2.wrapped = s.wrapped :=
  (readLoop_reads (c := c) size h).wrapped hsize

theorem streamRead_buffered (h : size ≤ s.amount) :
    streamRead c s size = (slice s.readbuf s.readpos size,
      { s with readpos := s.readpos + size, position := s.position + size }) := by
  have hmin : min s.amount size = size := Nat.min_eq_right h
  cases size with
  | zero => rfl
  | succ n =>
    unfold streamRead readLoop
    rw [if_neg (Nat.succ_ne_zero n)]
    simp only [takeBuffered, hmin, length_slice, Nat.sub_self, if_true]

end Serves

end Streams

end Phpce
