import Phpce.Streams.Reading

/-!
# Lines

* **`getLineLoop_serves`** — a line is what comes next.
* `getLineLoop_wrapped` — with a buffer of the caller's, or with a `maxlen` that the line does not
  pass, no length wraps.
-/

namespace Phpce

namespace Streams

open Bytes Buffer Option

variable {c : Opened} {s s' : Stream} {buf : Bool} {i maxlen : Nat}

/-! ## The end of the line -/

theorem idxOf?_append {xs ys : Bytes} {b : UInt8} :
    (xs ++ ys).idxOf? b = (xs.idxOf? b).or ((ys.idxOf? b).map (· + xs.length)) :=
  List.findIdx?_append

theorem lt_of_idxOf? {xs : Bytes} {b : UInt8} (h : xs.idxOf? b = some i) : i < xs.length := by
  obtain ⟨hlt, _⟩ := List.findIdx?_eq_some_iff_getElem.mp h
  exact hlt

/-- Where an end of line is found, given the first `\r` and the first `\n`. -/
def chooseEol (detectEol eolMac : Bool) (cr lf : Option Nat) : Option Nat :=
  if detectEol then
    match cr, lf with
    | some cr, some lf => if lf ≠ cr + 1 ∧ ¬lf < cr then some cr else some lf
    | some cr, none => some cr
    | none, lf => lf
  else if eolMac then cr
  else lf

theorem locateEol_eq (s : Stream) (data : Option Bytes) :
    (locateEol s data).1 = chooseEol s.detectEol s.eolMac
      ((data.getD s.buffered).idxOf? 13) ((data.getD s.buffered).idxOf? 10) := by
  unfold locateEol chooseEol
  generalize (data.getD s.buffered).idxOf? 13 = cr
  generalize (data.getD s.buffered).idxOf? 10 = lf
  dsimp only
  split
  · cases cr with
    | none => cases lf <;> rfl
    | some cr =>
      cases lf with
      | none => rfl
      | some lf =>
        dsimp only
        split <;> rfl
  · split <;> rfl

theorem eq_some_or_of_chooseEol {detectEol eolMac : Bool} {cr lf : Option Nat}
    (h : chooseEol detectEol eolMac cr lf = some i) : cr = some i ∨ lf = some i := by
  unfold chooseEol at h
  split at h
  · cases cr with
    | none => exact .inr h
    | some cr =>
      cases lf with
      | none => exact .inl h
      | some lf =>
        dsimp only at h
        split at h
        · exact .inl h
        · exact .inr h
  · split at h
    · exact .inl h
    · exact .inr h

theorem chooseEol_append {detectEol eolMac : Bool} {xs : Bytes} (ys : Bytes)
    (h : chooseEol detectEol eolMac (xs.idxOf? 13) (xs.idxOf? 10) = some i) :
    ∃ j, (j = i ∨ detectEol = true ∧ (xs ++ ys).idxOf? 13 = some i ∧
        (xs ++ ys).idxOf? 10 = some (i + 1) ∧ j = i + 1) ∧
      chooseEol detectEol eolMac ((xs ++ ys).idxOf? 13) ((xs ++ ys).idxOf? 10) = some j := by
  have hlt := (eq_some_or_of_chooseEol h).elim lt_of_idxOf? lt_of_idxOf?
  rw [idxOf?_append, idxOf?_append]
  unfold chooseEol at h ⊢
  generalize xs.idxOf? 13 = cr at h ⊢
  generalize xs.idxOf? 10 = lf at h ⊢
  generalize ys.idxOf? 13 = cr'
  generalize ys.idxOf? 10 = lf'
  cases detectEol with
  | false =>
    refine ⟨i, .inl rfl, ?_⟩
    cases eolMac with
    | false =>
      obtain rfl : lf = some i := h
      rfl
    | true =>
      obtain rfl : cr = some i := h
      rfl
  | true =>
    cases cr with
    | none =>
      obtain rfl : lf = some i := h
      refine ⟨i, .inl rfl, ?_⟩
      cases cr' with
      | none => rfl
      | some cr' =>
        -- the `\n` comes before any `\r`
        rw [if_pos rfl]
        refine if_neg ?_
        rintro ⟨_, hbehind⟩
        exact hbehind (Nat.lt_of_lt_of_le hlt (Nat.le_add_left _ _))
    | some cr =>
      cases lf with
      | none =>
        obtain rfl : cr = i := some.inj h
        cases lf' with
        | none => exact ⟨cr, .inl rfl, rfl⟩
        | some lf' =>
          by_cases hnext : lf' + xs.length = cr + 1
          · refine ⟨cr + 1, .inr ⟨rfl, rfl, congrArg some hnext, rfl⟩, ?_⟩
            simp [hnext]
          · have hbehind : ¬lf' + xs.length < cr := by omega
            exact ⟨cr, .inl rfl, by simp [hnext, hbehind]⟩
      | some lf => exact ⟨i, .inl rfl, h⟩

theorem chooseEol_shift {detectEol eolMac : Bool} {cr lf : Option Nat} (n : Nat) :
    chooseEol detectEol eolMac (cr.map (· + n)) (lf.map (· + n)) =
      (chooseEol detectEol eolMac cr lf).map (· + n) := by
  unfold chooseEol
  split
  · cases cr with
    | none => rfl
    | some cr =>
      cases lf with
      | none => rfl
      | some lf =>
        dsimp only [map_some]
        split <;> split
        · rfl
        · omega
        · omega
        · rfl
  · split <;> rfl

theorem eq_none_of_chooseEol {eolMac : Bool} {cr lf : Option Nat}
    (h : chooseEol true eolMac cr lf = none) : cr = none ∧ lf = none := by
  cases cr with
  | none => exact ⟨rfl, h⟩
  | some cr =>
    cases lf with
    | none => cases h
    | some lf =>
      unfold chooseEol at h
      rw [if_pos rfl] at h
      dsimp only at h
      split at h <;> cases h

theorem chooseEol_append_none {detectEol eolMac : Bool} {xs : Bytes} (ys : Bytes)
    (h : chooseEol detectEol eolMac (xs.idxOf? 13) (xs.idxOf? 10) = none) :
    chooseEol detectEol eolMac ((xs ++ ys).idxOf? 13) ((xs ++ ys).idxOf? 10) =
      (chooseEol detectEol eolMac (ys.idxOf? 13) (ys.idxOf? 10)).map (· + xs.length) := by
  rw [← chooseEol_shift, idxOf?_append, idxOf?_append]
  generalize xs.idxOf? 13 = cr at h ⊢
  generalize xs.idxOf? 10 = lf at h ⊢
  cases detectEol with
  | false =>
    cases eolMac with
    | false =>
      obtain rfl : lf = none := h
      rfl
    | true =>
      obtain rfl : cr = none := h
      rfl
  | true =>
    obtain ⟨rfl, rfl⟩ := eq_none_of_chooseEol h
    rfl

theorem locateEol_snd (s : Stream) (data : Option Bytes) :
    ∃ detectEol eolMac, (locateEol s data).2 = { s with detectEol, eolMac } := by
  unfold locateEol
  dsimp only
  split
  · split
    · exact ⟨_, _, rfl⟩
    · split <;> exact ⟨_, _, rfl⟩
    · exact ⟨_, _, rfl⟩
    · exact ⟨_, _, rfl⟩
  · split <;> exact ⟨_, _, rfl⟩

theorem locateEol_lt (h : (locateEol s none).1 = some i) : i < s.amount := by
  rw [locateEol_eq] at h
  rw [← length_buffered]
  exact (eq_some_or_of_chooseEol h).elim lt_of_idxOf? lt_of_idxOf?

/-- The length of the line that comes next, with its end, if all that is to be had is one line where
there is no end. -/
def lineLength (s : Stream) : Nat :=
  match (locateEol s (some s.pending)).1 with
  | some i => i + 1
  | none => s.pending.length

theorem Fills.lineLength (h : Fills s s') : lineLength s' = lineLength s := by
  unfold Streams.lineLength
  rw [locateEol_eq, locateEol_eq, h.detectEol, h.eolMac, h.pending]
  rfl

theorem lineLength_of_some (h : (locateEol s none).1 = some i) : i + 1 ≤ lineLength s := by
  rw [locateEol_eq] at h
  obtain ⟨j, hmoved, hj⟩ := chooseEol_append s.rest h
  unfold lineLength
  rw [locateEol_eq]
  dsimp only [getD_some, getD_none, Stream.pending] at hj ⊢
  rw [hj]
  dsimp only
  omega

theorem lineLength_of_none (h : (locateEol s none).1 = none) (hdetect : s'.detectEol = s.detectEol)
    (hmac : s'.eolMac = s.eolMac) (hpending : s.buffered ++ s'.pending = s.pending) :
    lineLength s = s.amount + lineLength s' := by
  rw [locateEol_eq] at h
  have hshift := chooseEol_append_none s'.pending h
  unfold lineLength
  rw [locateEol_eq, locateEol_eq, hdetect, hmac, ← length_buffered]
  dsimp only [getD_some, getD_none] at hshift ⊢
  rw [← hpending, hshift, List.length_append]
  cases chooseEol s.detectEol s.eolMac (s'.pending.idxOf? 13) (s'.pending.idxOf? 10) with
  | none => rfl
  | some i =>
    dsimp only [map_some]
    omega

/-! ## The copy -/

theorem copySize_le {avail : Nat} {eol : Option Nat} (h : ∀ i, eol = some i → i < avail) :
    (copySize buf maxlen avail eol).1 ≤ avail := by
  unfold copySize
  cases eol with
  | none =>
    dsimp only
    split
    · rename_i hfull
      simp only [Bool.and_eq_true, decide_eq_true_eq] at hfull
      exact hfull.2
    · exact Nat.le_refl avail
  | some i =>
    have hlt := h i rfl
    dsimp only
    split
    · rename_i hfull
      simp only [Bool.and_eq_true, decide_eq_true_eq] at hfull
      exact hfull.2.trans hlt
    · exact hlt

theorem copySize_more {avail : Nat} {eol : Option Nat}
    (h : (copySize buf maxlen avail eol).2 = false) :
    eol = none ∧ (copySize buf maxlen avail eol).1 = avail ∧
      (buf = true → avail + 1 < maxlen) := by
  unfold copySize at h ⊢
  cases eol with
  | none =>
    dsimp only at h ⊢
    split at h
    · cases h
    · rename_i hfits
      rw [if_neg hfits]
      refine ⟨rfl, rfl, ?_⟩
      intro hbuf
      simp only [hbuf, Bool.true_and, decide_eq_true_eq, Nat.not_le] at hfits
      omega
  | some i =>
    dsimp only at h
    split at h <;> cases h

/-- What keeps `maxlen` from wrapping: a buffer of the caller's, or a line that is no longer. -/
def LineFits (buf : Bool) (s : Stream) (maxlen : Nat) : Prop :=
  maxlen < sizeMod ∧ if buf then 0 < maxlen else lineLength s ≤ maxlen

theorem copyLine_serves (h : s.Ordered) {n : Nat} (hn : n ≤ s.amount) (maxlen : Nat) :
    Serves s (copyLine s maxlen n).2 (copyLine s maxlen n).1 :=
  serves_move n h hn rfl rfl rfl rfl rfl rfl

theorem copyLine_wrapped {n : Nat} (h : n ≤ maxlen) :
    (copyLine s maxlen n).2.wrapped = s.wrapped := by
  unfold copyLine
  dsimp only
  rw [decide_eq_false (Nat.not_lt.mpr h), Bool.or_false]

theorem lineLength_copyLine (h : s.Ordered) (heol : (locateEol s none).1 = none) (maxlen : Nat) :
    lineLength s = s.amount + lineLength (copyLine s maxlen s.amount).2 :=
  lineLength_of_none heol rfl rfl (copyLine_serves h (Nat.le_refl _) maxlen).pending

theorem copySize_fits (h : s.Ordered) (hfits : LineFits buf s maxlen) :
    (copySize buf maxlen s.amount (locateEol s none).1).1 ≤ maxlen := by
  obtain ⟨_, hfits⟩ := hfits
  unfold copySize
  cases buf with
  | true =>
    rw [if_pos rfl] at hfits
    extract_lets copy
    split
    · exact Nat.sub_le _ _
    · rename_i hless
      rw [Bool.true_and, decide_eq_true_eq] at hless
      omega
  | false =>
    rw [if_neg Bool.false_ne_true] at hfits
    cases heol : (locateEol s none).1 with
    | none =>
      have hlen := lineLength_copyLine h heol maxlen
      exact (Nat.le_add_right _ _).trans (hlen ▸ hfits)
    | some i => exact (lineLength_of_some heol).trans hfits

/-! ## The loop -/

theorem locateEol_snd_none (h : (locateEol s none).1 = none) : (locateEol s none).2 = s := by
  rw [locateEol_eq] at h
  unfold locateEol
  dsimp only
  split
  · rename_i hdetect
    rw [hdetect] at h
    obtain ⟨hcr, hlf⟩ := eq_none_of_chooseEol h
    rw [hcr, hlf]
  · split <;> rfl

theorem subSize_eq {a b : Nat} (ha : a < sizeMod) (hb : b ≤ a) : subSize a b = a - b := by
  unfold subSize
  unfold sizeMod at ha ⊢
  omega

theorem getLineLoop_round (buf : Bool) (maxlen : Nat) (h : s.Ordered) :
    ∃ out s', Serves s s' out ∧
      ((∀ fuel, getLineLoop c buf (fuel + 1) s maxlen = (out, s')) ∧
          (LineFits buf s maxlen → s'.wrapped = s.wrapped) ∨
        ∃ maxlen',
          (∀ fuel, getLineLoop c buf (fuel + 1) s maxlen =
            (out ++ (getLineLoop c buf fuel s' maxlen').1, (getLineLoop c buf fuel s' maxlen').2)) ∧
          (LineFits buf s maxlen → s'.wrapped = s.wrapped ∧ LineFits buf s' maxlen')) := by
  simp only [getLineLoop]
  by_cases hamount : 0 < s.amount
  · simp only [if_pos hamount]
    have hfits := @copySize_fits s buf maxlen h
    have hle := @copySize_le buf maxlen s.amount (locateEol s none).1 fun i => locateEol_lt
    have hmore := @copySize_more buf maxlen s.amount (locateEol s none).1
    generalize hcopy : copySize buf maxlen s.amount (locateEol s none).1 = copy at hfits hle hmore ⊢
    obtain ⟨cpysz, done⟩ := copy
    dsimp only at hfits hle hmore ⊢
    cases done with
    | true =>
      obtain ⟨detectEol, eolMac, heq⟩ := locateEol_snd s none
      rw [heq]
      have hserves := @copyLine_serves { s with detectEol, eolMac } ⟨h.1, h.2⟩ cpysz hle maxlen
      refine ⟨_, _, ⟨hserves.ordered, hserves.pending, hserves.position⟩, Or.inl ⟨fun _ => rfl, ?_⟩⟩
      intro hfit
      exact copyLine_wrapped (hfits hfit)
    | false =>
      obtain ⟨heol, rfl, hroom⟩ := hmore rfl
      rw [locateEol_snd_none heol]
      have hserves := copyLine_serves h hle maxlen
      refine ⟨_, _, hserves, Or.inr ⟨_, fun _ => rfl, fun hfit => ?_⟩⟩
      have hcount := hfits hfit
      refine ⟨copyLine_wrapped hcount, ?_, ?_⟩
      · exact (subSize_eq hfit.1 hcount).trans_lt (Nat.lt_of_le_of_lt (Nat.sub_le _ _) hfit.1)
      · have hlen := hfit.2
        rw [subSize_eq hfit.1 hcount]
        cases buf with
        | true =>
          have := hroom rfl
          rw [if_pos rfl]
          omega
        | false =>
          have := lineLength_copyLine h heol maxlen
          rw [if_neg Bool.false_ne_true] at hlen ⊢
          omega
  · simp only [if_neg hamount]
    have hempty : s.amount = 0 := by omega
    by_cases heof : s.eof = true
    · simp only [if_pos heof]
      exact ⟨[], s, (Fills.refl h).serves, Or.inl ⟨fun _ => rfl, fun _ => rfl⟩⟩
    · simp only [if_neg heof]
      have hsize :
          (if buf then min (maxlen - 1) c.chunkSize else c.chunkSize) < 0x8000000000000000 := by
        have := c.chunkSize_lt
        split <;> omega
      have hfill := fillReadBuffer_fills_of_lt (c := c) hsize h (Or.inr hempty)
      generalize fillReadBuffer c s _ = s₁ at hfill ⊢
      by_cases hnone : s₁.amount = 0
      · simp only [if_pos hnone]
        exact ⟨[], s₁, hfill.serves, Or.inl ⟨fun _ => rfl, fun _ => hfill.wrapped⟩⟩
      · simp only [if_neg hnone]
        refine ⟨[], s₁, hfill.serves, Or.inr ⟨maxlen, fun _ => rfl, fun hfit => ?_⟩⟩
        refine ⟨hfill.wrapped, hfit.1, ?_⟩
        rw [hfill.lineLength]
        exact hfit.2

theorem getLineLoop_serves (buf : Bool) (maxlen fuel : Nat) (h : s.Ordered) :
    Serves s (getLineLoop c buf fuel s maxlen).2 (getLineLoop c buf fuel s maxlen).1 := by
  -- induction on the rounds
  induction fuel generalizing s maxlen with
  | zero => exact (Fills.refl h).serves
  | succ fuel ih =>
    obtain ⟨out, s', hserves, ⟨hlast, _⟩ | ⟨maxlen', hnext, _⟩⟩ :=
      getLineLoop_round (c := c) buf maxlen h
    · rw [hlast]
      exact hserves
    · rw [hnext]
      exact hserves.trans (ih maxlen' hserves.ordered)

theorem getLineLoop_wrapped (fuel : Nat) (h : s.Ordered) (hfits : LineFits buf s maxlen) :
    (getLineLoop c buf fuel s maxlen).2.wrapped = s.wrapped := by
  -- induction on the rounds
  induction fuel generalizing s maxlen with
  | zero => rfl
  | succ fuel ih =>
    obtain ⟨out, s', hserves, ⟨hlast, hkept⟩ | ⟨maxlen', hnext, hkept⟩⟩ :=
      getLineLoop_round (c := c) buf maxlen h
    · rw [hlast]
      exact hkept hfits
    · rw [hnext]
      obtain ⟨hsame, hfits'⟩ := hkept hfits
      exact (ih hserves.ordered hfits').trans hsame

theorem streamGetLine_serves (buf : Bool) (maxlen : Nat) (h : s.Ordered) :
    Serves s (streamGetLine c s buf maxlen).2 ((streamGetLine c s buf maxlen).1.getD []) := by
  unfold streamGetLine
  split
  · exact (Fills.refl h).serves
  · have hserves := getLineLoop_serves (c := c) buf maxlen (2 * s.rest.length + 3) h
    dsimp only
    split
    · rename_i hnone
      rw [hnone] at hserves
      exact hserves
    · exact hserves

theorem streamGetLine_wrapped (h : s.Ordered) (hmax : maxlen < sizeMod)
    (hfits : buf = true ∨ lineLength s ≤ maxlen) :
    (streamGetLine c s buf maxlen).2.wrapped = s.wrapped := by
  unfold streamGetLine
  split
  · rfl
  · rename_i hroom
    refine getLineLoop_wrapped _ h ⟨hmax, ?_⟩
    cases buf with
    | true =>
      rw [if_pos rfl]
      simp only [true_and] at hroom
      omega
    | false =>
      rw [if_neg Bool.false_ne_true]
      exact hfits.resolve_left Bool.false_ne_true

end Streams

end Phpce
