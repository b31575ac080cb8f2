import Phpce.Lib.Bytes

/-!
# What a worker says

`fpm_stdio_child_said`: the master reads a worker's standard output or error through a buffer of
1024 bytes, and logs it line by line.

* **`fpmStdioChildSaid_logsAll`** — the run ends, it has read everything up to the `EAGAIN` or the
  end of the pipe, and its messages are that input cut at its newlines, at 1023 bytes without one,
  and at its end.
-/

namespace Phpce

namespace Stdio

open Bytes List

def maxBufSize : Nat := 1024

/-- What `read` gives when the pipe is empty. -/
inductive Ending where
  | again
  | eof
  | error
  deriving DecidableEq, Repr

/-- The fields of `struct fpm_child_s`; `evStdout` and `evStderr` are whether the events are in the
loop. -/
structure Child where
  poolName : Bytes
  pid : Nat
  fdStdout : Int
  fdStderr : Int
  evStdout : Bool
  evStderr : Bool

/-- The calls of `zlog`. -/
inductive Entry where
  | unableToRead
  | said (poolName : Bytes) (pid : Nat) (isStdout : Bool) (buf : Bytes) (pipeIsClosed : Bool)

/-- The variables of the loop; `buf` are the `in_buf` bytes of the buffer, `input` what `read` will
give, in the pieces that it is cut into. -/
structure Loop where
  child : Child
  isStdout : Bool
  fifoIn : Bool
  fifoOut : Bool
  isLastMessage : Bool
  buf : Bytes
  input : List Bytes
  log : List Entry

/-- `read(fd, buf, n)` where there is something to read: at most `n` bytes of the next piece, and
what is left. -/
def readPiece (piece : Bytes) (input : List Bytes) (n : Nat) : Bytes × List Bytes :=
  (piece.take n, if piece.drop n = [] then input else piece.drop n :: input)

def closePipe (l : Loop) : Loop :=
  { l with
    isLastMessage := true
    child :=
      if l.isStdout then { l.child with fdStdout := -1, evStdout := false }
      else { l.child with fdStderr := -1, evStderr := false } }

/-- The branch of `fifo_in`. A `read` into no space gives 0. -/
def readIn (ending : Ending) (l : Loop) : Loop :=
  let space := maxBufSize - 1 - l.buf.length
  match l.input with
  | [] =>
    let l := { l with fifoIn := false }
    if space = 0 then closePipe l
    else
      match ending with
      | .again => l
      | .eof => closePipe l
      | .error => closePipe { l with log := l.log ++ [.unableToRead] }
  | piece :: input =>
    let r := readPiece piece input space
    if r.1 = [] then closePipe { l with fifoIn := false }
    else { l with buf := l.buf ++ r.1, input := r.2 }

/-- The branch of `fifo_out`. `strchr` and `%s` see the C string that the buffer starts with. -/
def printOut (l : Loop) : Loop :=
  if l.buf = [] then { l with fifoOut := false }
  else
    let shouldPrint := l.buf.length = maxBufSize - 1 ∨ l.fifoIn = false
    let said (buf : Bytes) :=
      [Entry.said l.child.poolName l.child.pid l.isStdout buf l.isLastMessage]
    if 10 ∈ cstr l.buf then
      let line := (cstr l.buf).takeWhile (· ≠ 10)
      { l with log := l.log ++ said line, buf := l.buf.drop (line.length + 1) }
    else if shouldPrint then { l with log := l.log ++ said (cstr l.buf), buf := [] }
    else l

def round (ending : Ending) (l : Loop) : Loop :=
  let l := if l.fifoIn then readIn ending l else l
  if l.fifoOut then printOut l else l

def Loop.work (l : Loop) : Nat :=
  2 * l.input.flatten.length + 2 * l.fifoIn.toNat + l.buf.length + l.fifoOut.toNat

theorem length_readPiece (piece : Bytes) (input : List Bytes) (n : Nat) :
    (readPiece piece input n).1.length + (readPiece piece input n).2.flatten.length =
      (piece :: input).flatten.length := by
  have hsplit := congrArg List.length (take_append_drop n piece)
  rw [length_append] at hsplit
  rw [flatten_cons, length_append, readPiece]
  dsimp only
  split
  next hnil =>
    rw [hnil, length_nil] at hsplit
    omega
  next =>
    rw [flatten_cons, length_append]
    omega

theorem work_readIn_lt (ending : Ending) (l : Loop) (hin : l.fifoIn = true) :
    (readIn ending l).work < l.work := by
  unfold readIn
  dsimp only
  split
  next hnil =>
    split
    · simp [Loop.work, closePipe, hin]
    · split <;> simp [Loop.work, closePipe, hin]
  next piece input hinput =>
    have hlen := length_readPiece piece input (maxBufSize - 1 - l.buf.length)
    split
    · simp [Loop.work, closePipe, hin]
    next hsome =>
      have hpos := length_pos_iff.mpr hsome
      simp only [Loop.work, length_append, hinput]
      omega

theorem work_printOut_le (l : Loop) : (printOut l).work ≤ l.work := by
  unfold printOut
  dsimp only
  split
  · simp [Loop.work]
  · split
    · simp only [Loop.work, length_drop]
      omega
    · split
      · simp only [Loop.work, length_nil]
        omega
      · exact Nat.le_refl _

theorem work_printOut_lt (l : Loop) (hin : l.fifoIn = false) (hout : l.fifoOut = true) :
    (printOut l).work < l.work := by
  unfold printOut
  dsimp only
  split
  · simp [Loop.work, hout]
  next hsome =>
    have hpos := length_pos_iff.mpr hsome
    split
    · simp only [Loop.work, length_drop]
      omega
    · rw [if_pos (.inr hin)]
      simp only [Loop.work, length_nil]
      omega

theorem work_round_lt (ending : Ending) (l : Loop) (h : (l.fifoIn || l.fifoOut) = true) :
    (round ending l).work < l.work := by
  unfold round
  dsimp only
  cases hin : l.fifoIn with
  | true =>
    have hread := work_readIn_lt ending l hin
    rw [if_pos rfl]
    split
    · exact Nat.lt_of_le_of_lt (work_printOut_le _) hread
    · exact hread
  | false =>
    rw [hin, Bool.false_or] at h
    rw [if_neg Bool.false_ne_true, if_pos h]
    exact work_printOut_lt l hin h

/-- The loop of `fpm_stdio_child_said`. -/
def loop (ending : Ending) (l : Loop) : Loop :=
  if l.fifoIn || l.fifoOut then loop ending (round ending l) else l
  termination_by l.work
  decreasing_by exact work_round_lt ending l ‹_›

/-- `fpm_stdio_child_said`, where the event's descriptor is `fd`. -/
def fpmStdioChildSaid (fd : Int) (arg : Option Child) (input : List Bytes) (ending : Ending) :
    Option Loop :=
  arg.map fun child =>
    loop ending
      { child
        isStdout := fd == child.fdStdout
        fifoIn := true
        fifoOut := true
        isLastMessage := false
        buf := []
        input
        log := [] }

/-! ## Messages -/

def Entry.text : Entry → Option Bytes
  | .unableToRead => none
  | .said _ _ _ buf _ => some buf

def messages (log : List Entry) : List Bytes := log.filterMap Entry.text

/-- A text is cut into messages: at a newline, at 1023 bytes that have none, or at its end. -/
inductive CutInto : Bytes → List Bytes → Prop where
  | nil : CutInto [] []
  | line (t s : Bytes) (ms : List Bytes) (ht : 10 ∉ t) (hs : CutInto s ms) :
      CutInto (t ++ 10 :: s) (t :: ms)
  | full (t s : Bytes) (ms : List Bytes) (ht : 10 ∉ t) (hlen : t.length = 1023)
      (hs : CutInto s ms) : CutInto (t ++ s) (t :: ms)
  | last (t : Bytes) (ht : 10 ∉ t) (hne : t ≠ []) : CutInto t [t]

theorem CutInto.flatten {s : Bytes} {ms : List Bytes} (h : CutInto s ms) :
    ms.flatten = s.filter (· ≠ 10) := by
  have hself : ∀ t : Bytes, 10 ∉ t → t.filter (· ≠ 10) = t := by
    intro t ht
    refine filter_eq_self.mpr fun c hc => decide_eq_true ?_
    rintro rfl
    exact ht hc
  -- induction on the cuts
  induction h with
  | nil => rfl
  | line t s ms ht _ ih =>
    rw [flatten_cons, ih, filter_append, hself t ht, filter_cons_of_neg (by decide)]
  | full t s ms ht _ _ ih => rw [flatten_cons, ih, filter_append, hself t ht]
  | last t ht _ => rw [hself t ht, flatten_cons, flatten_nil, append_nil]

theorem cutInto_nil {ms : List Bytes} (h : CutInto [] ms) : ms = [] := by
  generalize hs : ([] : Bytes) = s at h
  cases h with
  | nil => rfl
  | line t s ms => exact absurd hs.symm (by simp)
  | full t s ms _ hlen =>
    rw [(append_eq_nil_iff.mp hs.symm).1] at hlen
    cases hlen
  | last t _ hne => exact absurd hs.symm hne

structure Inv (l : Loop) : Prop where
  room : l.buf.length ≤ 1022 ∨ l.fifoIn = false ∧ l.buf.length ≤ 1023
  noNul : ∀ c ∈ l.buf ++ l.input.flatten, c ≠ 0
  pieces : ∀ piece ∈ l.input, piece ≠ []
  ended : l.fifoIn = false → l.input = []
  out : l.fifoOut = false → l.fifoIn = false ∧ l.buf = []

structure Mid (l : Loop) : Prop where
  room : l.buf.length ≤ 1023
  noNul : ∀ c ∈ l.buf ++ l.input.flatten, c ≠ 0
  pieces : ∀ piece ∈ l.input, piece ≠ []
  ended : l.fifoIn = false → l.input = []
  some : l.fifoIn = true → l.buf ≠ []

theorem mid_closePipe {l : Loop} (h : Mid l) : Mid (closePipe l) :=
  ⟨h.room, h.noNul, h.pieces, h.ended, h.some⟩

theorem flatten_readPiece (piece : Bytes) (input : List Bytes) (n : Nat) :
    (readPiece piece input n).1 ++ (readPiece piece input n).2.flatten =
      (piece :: input).flatten := by
  rw [flatten_cons, readPiece]
  dsimp only
  split
  next hnil =>
    rw [← take_append_drop n piece, hnil, append_nil, take_take, Nat.min_self]
  next => rw [flatten_cons, ← append_assoc, take_append_drop]

/-- **Reading.** What is buffered and what is still in the pipe are together what they were; there
is space to read into, so that the pipe is not taken to be closed while something is in it. -/
theorem readIn_spec {ending : Ending} {l : Loop} (h : Inv l) (hin : l.fifoIn = true) :
    Mid (readIn ending l) ∧
      (readIn ending l).buf ++ (readIn ending l).input.flatten = l.buf ++ l.input.flatten ∧
      messages (readIn ending l).log = messages l.log ∧
      (readIn ending l).fifoOut = l.fifoOut := by
  have hroom : l.buf.length ≤ 1022 := by
    rcases h.room with hroom | ⟨hend, -⟩
    · exact hroom
    · rw [hin] at hend
      cases hend
  have hspace : maxBufSize - 1 - l.buf.length ≠ 0 := by
    rw [show maxBufSize = 1024 from rfl]
    omega
  unfold readIn
  dsimp only
  split
  next hnil =>
    have hmid : ∀ log, Mid { l with fifoIn := false, log := log } := fun log =>
      ⟨Nat.le_succ_of_le hroom, h.noNul, h.pieces, fun _ => hnil, fun hset => by cases hset⟩
    rw [if_neg hspace]
    cases ending with
    | again => exact ⟨hmid l.log, rfl, rfl, rfl⟩
    | eof => exact ⟨mid_closePipe (hmid l.log), rfl, rfl, rfl⟩
    | error =>
      refine ⟨mid_closePipe (hmid _), rfl, ?_, rfl⟩
      show messages (l.log ++ [Entry.unableToRead]) = messages l.log
      rw [messages, filterMap_append]
      exact append_nil _
  next piece input hinput =>
    have hpiece : piece ≠ [] := h.pieces piece (hinput ▸ mem_cons_self)
    have hflatten := flatten_readPiece piece input (maxBufSize - 1 - l.buf.length)
    have htake : (readPiece piece input (maxBufSize - 1 - l.buf.length)).1 ≠ [] := by
      rw [readPiece, Ne, take_eq_nil_iff, not_or]
      exact ⟨hspace, hpiece⟩
    rw [if_neg htake]
    have hall : l.buf ++ (readPiece piece input (maxBufSize - 1 - l.buf.length)).1 ++
        (readPiece piece input (maxBufSize - 1 - l.buf.length)).2.flatten =
        l.buf ++ l.input.flatten := by
      rw [append_assoc, hflatten, hinput]
    refine ⟨⟨?_, ?_, ?_, ?_, ?_⟩, hall, rfl, rfl⟩
    · show (l.buf ++ piece.take (maxBufSize - 1 - l.buf.length)).length ≤ 1023
      have hlen := length_take_le (maxBufSize - 1 - l.buf.length) piece
      rw [length_append]
      rw [show maxBufSize = 1024 from rfl] at hlen ⊢
      omega
    · dsimp only
      rw [hall]
      exact h.noNul
    · intro rest hrest
      have hmem : rest ∈ (if piece.drop (maxBufSize - 1 - l.buf.length) = [] then input
        else piece.drop (maxBufSize - 1 - l.buf.length) :: input) := hrest
      split at hmem
      · exact h.pieces rest (hinput ▸ mem_cons_of_mem piece hmem)
      next hleft =>
        rcases mem_cons.mp hmem with rfl | hmem
        · exact hleft
        · exact h.pieces rest (hinput ▸ mem_cons_of_mem piece hmem)
    · intro hend
      rw [hin] at hend
      cases hend
    · intro _ hnil
      exact htake (append_eq_nil_iff.mp hnil).2

theorem printOut_spec {l : Loop} (h : Mid l) (hout : l.fifoOut = true) :
    Inv (printOut l) ∧ ∃ texts, messages (printOut l).log = messages l.log ++ texts ∧
      ∀ ms, CutInto ((printOut l).buf ++ (printOut l).input.flatten) ms →
        CutInto (l.buf ++ l.input.flatten) (texts ++ ms) := by
  have hcstr : cstr l.buf = l.buf := by
    refine takeWhile_eq_self_iff.mpr fun c hc => decide_eq_true ?_
    exact h.noNul c (mem_append_left _ hc)
  have hmessages : ∀ text, messages (l.log ++ [Entry.said l.child.poolName l.child.pid l.isStdout
      text l.isLastMessage]) = messages l.log ++ [text] := by
    intro text
    rw [messages, filterMap_append]
    rfl
  unfold printOut
  dsimp only
  rw [hcstr]
  split
  next hnil =>
    have hend : l.fifoIn = false := by
      cases hin : l.fifoIn with
      | false => rfl
      | true => exact absurd hnil (h.some hin)
    refine ⟨⟨.inr ⟨hend, h.room⟩, h.noNul, h.pieces, h.ended, fun _ => ⟨hend, hnil⟩⟩, [], ?_⟩
    exact ⟨(append_nil _).symm, fun ms hms => hms⟩
  next hsome =>
    split
    next hnl =>
      -- a line
      have hline := takeWhile_append_cons_drop hnl
      have hno : 10 ∉ l.buf.takeWhile (· ≠ 10) := fun hmem => by
        simpa using mem_takeWhile_imp hmem
      refine ⟨⟨?_, ?_, h.pieces, h.ended, ?_⟩, [_], hmessages _, fun ms hms => ?_⟩
      · have hlen := congrArg List.length hline
        rw [length_append, length_cons] at hlen
        have hroom := h.room
        refine .inl (?_ : (l.buf.drop _).length ≤ 1022)
        omega
      · intro c hc
        rcases mem_append.mp hc with hc | hc
        · exact h.noNul c (mem_append_left _ (mem_of_mem_drop hc))
        · exact h.noNul c (mem_append_right _ hc)
      · exact fun hend => absurd (hout.symm.trans hend) (by decide)
      · have htext : l.buf ++ l.input.flatten = l.buf.takeWhile (· ≠ 10) ++
            10 :: (l.buf.drop ((l.buf.takeWhile (· ≠ 10)).length + 1) ++ l.input.flatten) := by
          rw [← cons_append, ← append_assoc, hline]
        rw [htext]
        exact .line _ _ ms hno hms
    next hnl =>
      split
      next hprint =>
        -- the whole buffer
        refine ⟨⟨.inl (Nat.zero_le _), fun c hc => h.noNul c (mem_append_right _ hc),
          h.pieces, h.ended, ?_⟩, [_], hmessages _, fun ms hms => ?_⟩
        · exact fun hend => absurd (hout.symm.trans hend) (by decide)
        · rcases hprint with hfull | hend
          · exact .full _ _ ms hnl hfull hms
          · rw [h.ended hend] at hms ⊢
            rw [cutInto_nil hms, flatten_nil, append_nil]
            exact .last _ hnl hsome
      next hwait =>
        have hin : l.buf.length ≠ 1023 := fun hfull => hwait (.inl hfull)
        have hroom := h.room
        refine ⟨⟨.inl (by omega), h.noNul, h.pieces, h.ended, ?_⟩, [], ?_⟩
        · exact fun hend => absurd (hout.symm.trans hend) (by decide)
        · exact ⟨(append_nil _).symm, fun ms hms => hms⟩

theorem round_spec {ending : Ending} {l : Loop} (h : Inv l)
    (hgoes : (l.fifoIn || l.fifoOut) = true) :
    Inv (round ending l) ∧ ∃ texts, messages (round ending l).log = messages l.log ++ texts ∧
      ∀ ms, CutInto ((round ending l).buf ++ (round ending l).input.flatten) ms →
        CutInto (l.buf ++ l.input.flatten) (texts ++ ms) := by
  have hout : l.fifoOut = true := by
    cases hout : l.fifoOut with
    | true => rfl
    | false =>
      rw [hout, (h.out hout).1] at hgoes
      cases hgoes
  unfold round
  dsimp only
  cases hin : l.fifoIn with
  | true =>
    obtain ⟨hmid, hall, hlog, hopen⟩ := @readIn_spec ending _ h hin
    rw [if_pos rfl, hopen, if_pos hout, ← hall, ← hlog]
    exact printOut_spec hmid (hopen.trans hout)
  | false =>
    have hmid : Mid l := by
      refine ⟨?_, h.noNul, h.pieces, h.ended, fun hset => ?_⟩
      · rcases h.room with hroom | ⟨-, hroom⟩
        · exact Nat.le_succ_of_le hroom
        · exact hroom
      · rw [hin] at hset
        cases hset
    rw [if_neg Bool.false_ne_true, if_pos hout]
    exact printOut_spec hmid hout

theorem loop_spec {ending : Ending} {l : Loop} (h : Inv l) :
    (loop ending l).input = [] ∧ ∃ texts,
      messages (loop ending l).log = messages l.log ++ texts ∧
        CutInto (l.buf ++ l.input.flatten) texts := by
  -- induction on the rounds
  fun_induction loop ending l with
  | case1 l hgoes ih =>
    obtain ⟨hround, texts, hlog, hcut⟩ := @round_spec ending _ h hgoes
    obtain ⟨hinput, rest, hrest, hrestCut⟩ := ih hround
    refine ⟨hinput, texts ++ rest, ?_, hcut rest hrestCut⟩
    rw [hrest, hlog, append_assoc]
  | case2 l hends =>
    rw [Bool.not_eq_true, Bool.or_eq_false_iff] at hends
    obtain ⟨hin, hout⟩ := hends
    obtain ⟨-, hbuf⟩ := h.out hout
    have hinput := h.ended hin
    refine ⟨hinput, [], (append_nil _).symm, ?_⟩
    rw [hbuf, hinput]
    exact .nil

/-- **No output is lost.** Whatever pieces `read` gives before the pipe is empty or closed, the run
ends with all of them read, its messages are the input cut at its newlines, at 1023 bytes and at its
end, and together they are the input without its newlines. -/
theorem fpmStdioChildSaid_logsAll (fd : Int) (child : Child) (input : List Bytes) (ending : Ending)
    (hpieces : ∀ piece ∈ input, piece ≠ []) (hnoNul : ∀ c ∈ input.flatten, c ≠ 0) :
    ∃ l, fpmStdioChildSaid fd (some child) input ending = some l ∧ l.input = [] ∧
      CutInto input.flatten (messages l.log) ∧
      (messages l.log).flatten = input.flatten.filter (· ≠ 10) := by
  let l₀ : Loop :=
    { child
      isStdout := fd == child.fdStdout
      fifoIn := true
      fifoOut := true
      isLastMessage := false
      buf := []
      input
      log := [] }
  have hinv : Inv l₀ := by
    refine ⟨.inl (Nat.zero_le _), hnoNul, hpieces, fun hend => ?_, fun hend => ?_⟩ <;> cases hend
  obtain ⟨hread, texts, hlog, hcut⟩ := @loop_spec ending _ hinv
  have htexts : messages (loop ending l₀).log = texts := hlog
  refine ⟨loop ending l₀, rfl, hread, ?_, ?_⟩
  · rw [htexts]
    exact hcut
  · rw [htexts]
    exact hcut.flatten

theorem fpmStdioChildSaid_logsAll_line :
    ∃ l, fpmStdioChildSaid 5 (some ⟨ascii "www", 7, 5, 6, true, true⟩) [ascii "a\nb", ascii "c"]
        .eof = some l ∧ l.input = [] ∧
      CutInto (ascii "a\nbc") (messages l.log) ∧ (messages l.log).flatten = ascii "abc" :=
  fpmStdioChildSaid_logsAll 5 ⟨ascii "www", 7, 5, 6, true, true⟩ [ascii "a\nb", ascii "c"] .eof
    (by decide) (by decide)

end Stdio

end Phpce
