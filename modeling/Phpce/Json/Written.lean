import Phpce.Json.Escape

/-!
# What the encoder writes

* `written` is the text of a value at a depth, with nothing of the state of the encoder.
  `phpJsonEncodeZval_appends` says that the encoder appends it, where it succeeds or goes on with
  `PHP_JSON_PARTIAL_OUTPUT_ON_ERROR`.
* `phpJsonEncodeZval_success_iff`: when it succeeds without that option.
-/

namespace Phpce

namespace Json

open Bytes JsonText Utf8 List

section

variable (options : EncoderOptions) {δ : Type*} (D : Doubles δ) (maxDepth : Int)

/-! ## The text of a value -/

def newline (depth : Nat) : Bytes :=
  if options.prettyPrint then 10 :: (List.replicate depth (ascii "    ")).flatten else []

/-- What is written in the place of what cannot be encoded. -/
def failText : Bytes := if options.partialOutputOnError then ascii "null" else []

/-- A key that is refused is written like a value that is. -/
def keyText : Key → Bytes
  | .index index => quoted (decimal index)
  | .name key => (stringText (keyOptions options) D key).getD (failText options)

def memberText (r : OutputType) (key : Key) : Bytes :=
  match r with
  | .array => []
  | .object => keyText options D key ++ 58 :: (if options.prettyPrint then [32] else [])

section

variable {β γ : Type*}

def visited (isObject : Bool) (r : OutputType) (entries : List (Key × β)) : List (Key × β) :=
  entries.filter fun entry => !(decide (r = .object) && isSkipped isObject entry.1)

def reached (isObject : Bool) (entries : List (Key × β)) : List (Key × β) :=
  if numElements entries > 0 then visited isObject (outputType options isObject entries) entries
  else []

theorem isSequence_map (f : β → γ) (entries : List (Key × β)) (idx : Nat) :
    isSequence (entries.map (Prod.map id f)) idx = isSequence entries idx := by
  induction entries generalizing idx with
  | nil => rfl
  | cons entry entries ih =>
    obtain ⟨h | key, data⟩ := entry
    · show (h == (idx : Int) && isSequence (entries.map (Prod.map id f)) (idx + 1)) =
        (h == (idx : Int) && isSequence entries (idx + 1))
      rw [ih]
    · rfl

theorem numElements_map (f : β → γ) (entries : List (Key × β)) :
    numElements (entries.map (Prod.map id f)) = numElements entries := by
  rw [numElements, length_map, numElements]

theorem outputType_map (f : β → γ) (isObject : Bool) (entries : List (Key × β)) :
    outputType options isObject (entries.map (Prod.map id f)) =
      outputType options isObject entries := by
  rw [outputType, outputType, phpJsonDetermineArrayType, phpJsonDetermineArrayType, isSequence_map,
    numElements_map]

theorem visited_map (f : β → γ) (isObject : Bool) (r : OutputType) (entries : List (Key × β)) :
    visited isObject r (entries.map (Prod.map id f)) =
      (visited isObject r entries).map (Prod.map id f) := filter_map

theorem mem_of_reached {isObject : Bool} {entries : List (Key × β)} {entry : Key × β}
    (h : entry ∈ reached options isObject entries) : entry ∈ entries := by
  rw [reached] at h
  split at h
  · exact mem_of_mem_filter h
  · exact absurd h not_mem_nil

theorem visited_of_skipped {isObject : Bool} {r : OutputType} {key : Key}
    (h : r = .object ∧ isSkipped isObject key = true) (data : β) (entries : List (Key × β)) :
    visited isObject r ((key, data) :: entries) = visited isObject r entries :=
  filter_cons_of_neg (by simp [h])

theorem visited_of_not_skipped {isObject : Bool} {r : OutputType} {key : Key}
    (h : ¬(r = .object ∧ isSkipped isObject key = true)) (data : β) (entries : List (Key × β)) :
    visited isObject r ((key, data) :: entries) = (key, data) :: visited isObject r entries :=
  filter_cons_of_pos (by simpa [imp_iff_not_or] using h)

theorem reached_map (f : β → γ) (isObject : Bool) (entries : List (Key × β)) :
    reached options isObject (entries.map (Prod.map id f)) =
      (reached options isObject entries).map (Prod.map id f) := by
  rw [reached, reached, numElements_map, outputType_map, visited_map]
  split <;> rfl

end

/-- Items with commas between them, and in front of the first one with `needComma`. -/
def joined : Bool → List Bytes → Bytes
  | _, [] => []
  | needComma, x :: xs => (if needComma then [44] else []) ++ x ++ joined true xs

def itemText (r : OutputType) (depth : Nat) (entry : Key × (Nat → Bytes)) : Bytes :=
  newline options depth ++ memberText options D r entry.1 ++ entry.2 depth

def arrayText (isObject : Bool) (entries : List (Key × (Nat → Bytes))) (depth : Nat) : Bytes :=
  let r := outputType options isObject entries
  let shown := reached options isObject entries
  r.opening ++ joined false (shown.map (itemText options D r (depth + 1))) ++
    (if shown.isEmpty then [] else newline options depth) ++ r.closing

def written : Zval δ → Nat → Bytes :=
  Zval.fold {
    null := fun _ => ascii "null"
    bool := fun b _ => if b then ascii "true" else ascii "false"
    long := fun n _ => decimal n
    double := fun d _ =>
      if D.isValidDouble d then encodeDouble D options.preserveZeroFraction d else ascii "0"
    string := fun s _ => (stringText options D s).getD (failText options)
    array := arrayText options D false
    object := arrayText options D true
    serializable := fun result depth =>
      match result with
      | none => failText options
      | some text => text depth
    recursive := fun isSerializable _ =>
      if isSerializable then failText options else ascii "null"
    unsupported := fun _ => failText options }

theorem written_array (entries : List (Key × Zval δ)) :
    written options D (.array entries) =
      arrayText options D false (entries.map (Prod.map id (written options D))) :=
  Zval.fold_array _ entries

theorem written_object (properties : List (Key × Zval δ)) :
    written options D (.object properties) =
      arrayText options D true (properties.map (Prod.map id (written options D))) :=
  Zval.fold_object _ properties

/-! ## The encoder -/

structure Appends (before after : Encoder) (text : Bytes) : Prop where
  buf : after.buf = before.buf ++ text
  depth : after.depth = before.depth

theorem Appends.rfl (encoder : Encoder) : Appends encoder encoder [] :=
  ⟨(append_nil _).symm, Eq.refl _⟩

theorem Appends.trans {e₁ e₂ e₃ : Encoder} {t t' : Bytes} (h : Appends e₁ e₂ t)
    (h' : Appends e₂ e₃ t') : Appends e₁ e₃ (t ++ t') :=
  ⟨by rw [h'.buf, h.buf, append_assoc], h'.depth.trans h.depth⟩

theorem appends_appendl (encoder : Encoder) (text : Bytes) :
    Appends encoder (encoder.appendl text) text := ⟨Eq.refl _, Eq.refl _⟩

def InScope (status : Status) : Prop := status = .success ∨ options.partialOutputOnError = true

theorem inScope_iff {status : Status} :
    InScope options status ↔ ¬(status = .failure ∧ !options.partialOutputOnError) := by
  rw [InScope]
  cases status <;> cases options.partialOutputOnError <;> decide

theorem failWith_appends (encoder : Encoder) :
    Appends encoder (failWith options encoder).2 (failText options) := by
  rw [failWith, failText]
  split
  · exact appends_appendl _ _
  · exact .rfl _

theorem phpJsonEscapeString_appends (s : Bytes) (encoder : Encoder) :
    Appends encoder (phpJsonEscapeString options D s encoder).2
      ((stringText options D s).getD (failText options)) := by
  rw [phpJsonEscapeString_eq]
  cases stringText options D s with
  | some text => exact appends_appendl _ _
  | none =>
    have hfail := failWith_appends options (encoder.setError .utf8)
    exact ⟨hfail.buf, hfail.depth⟩

theorem prettyPrintChar_appends (c : UInt8) (encoder : Encoder) :
    Appends encoder (prettyPrintChar options c encoder)
      (if options.prettyPrint then [c] else []) := by
  rw [prettyPrintChar]
  split
  · exact appends_appendl _ _
  · exact .rfl _

theorem prettyPrint_appends (encoder : Encoder) :
    Appends encoder (prettyPrintIndent options (prettyPrintChar options 10 encoder))
      (newline options encoder.depth) := by
  rw [prettyPrintIndent, prettyPrintChar, newline]
  cases options.prettyPrint with
  | false => exact .rfl _
  | true => exact (appends_appendl encoder [10]).trans (appends_appendl _ _)

theorem startLine_appends (needComma : Bool) (encoder : Encoder) :
    Appends encoder (startLine options needComma encoder)
      ((if needComma then [44] else []) ++ newline options encoder.depth) := by
  rw [startLine]
  cases needComma with
  | false => exact prettyPrint_appends options encoder
  | true =>
    exact (appends_appendl encoder (ascii ",")).trans (prettyPrint_appends options _)

theorem encodeKey_appends (key : Key) (encoder : Encoder) :
    Appends encoder (encodeKey options D key encoder) (keyText options D key) := by
  cases key with
  | name key => exact phpJsonEscapeString_appends (keyOptions options) D key encoder
  | index index => exact appends_appendl encoder _

theorem startEntry_appends (r : OutputType) (key : Key) (needComma : Bool) (encoder : Encoder) :
    Appends encoder (startEntry options D r key needComma encoder)
      ((if needComma then [44] else []) ++ newline options encoder.depth ++
        memberText options D r key) := by
  have hline := startLine_appends options needComma encoder
  cases r with
  | array =>
    rw [memberText, append_nil]
    exact hline
  | object =>
    exact hline.trans ((encodeKey_appends options D key _).trans
      ((appends_appendl _ (ascii ":")).trans (prettyPrintChar_appends options 32 _)))

theorem closeArray_cases (r : OutputType) (needComma : Bool) (encoder : Encoder) :
    (closeArray options maxDepth r needComma encoder).1 = .failure ∧
        options.partialOutputOnError = false ∧ (encoder.depth : Int) > maxDepth ∨
      (closeArray options maxDepth r needComma encoder).1 = .success ∧
        (options.partialOutputOnError = false → (encoder.depth : Int) ≤ maxDepth) ∧
        Appends { encoder with depth := encoder.depth - 1 }
          (closeArray options maxDepth r needComma encoder).2
          ((if needComma then newline options (encoder.depth - 1) else []) ++ r.closing) := by
  have hclose : ∀ e : Encoder, e.buf = encoder.buf → e.depth = encoder.depth →
      Appends { encoder with depth := encoder.depth - 1 }
        ((if needComma then prettyPrintIndent options (prettyPrintChar options 10
          { e with depth := e.depth - 1 }) else { e with depth := e.depth - 1 }).appendl r.closing)
        ((if needComma then newline options (encoder.depth - 1) else []) ++ r.closing) := by
    intro e hbuf hdepth
    rw [← hbuf, ← hdepth]
    cases needComma with
    | false => exact ⟨rfl, rfl⟩
    | true =>
      have hline := prettyPrint_appends options { e with depth := e.depth - 1 }
      exact Appends.trans ⟨hline.buf, hline.depth⟩ (appends_appendl _ _)
  rw [closeArray]
  by_cases hdeep : (encoder.depth : Int) > maxDepth
  · rw [decide_eq_true hdeep]
    cases options.partialOutputOnError with
    | false => exact .inl ⟨rfl, rfl, hdeep⟩
    | true => exact .inr ⟨rfl, fun h => absurd h (by decide), hclose _ rfl rfl⟩
  · rw [decide_eq_false hdeep]
    exact .inr ⟨rfl, fun _ => Int.not_lt.mp hdeep, hclose _ rfl rfl⟩

theorem encodeEntries_skipped {isObject : Bool} {r : OutputType} {key : Key}
    (h : r = .object ∧ isSkipped isObject key = true) (data : Zval δ)
    (entries : List (Key × Zval δ)) (needComma : Bool) (encoder : Encoder) :
    encodeEntries options D maxDepth isObject r ((key, data) :: entries) needComma encoder =
      encodeEntries options D maxDepth isObject r entries needComma encoder := by
  rw [encodeEntries, if_pos h]

theorem encodeEntries_not_skipped {isObject : Bool} {r : OutputType} {key : Key}
    (h : ¬(r = .object ∧ isSkipped isObject key = true)) (data : Zval δ)
    (entries : List (Key × Zval δ)) (needComma : Bool) (encoder : Encoder) :
    encodeEntries options D maxDepth isObject r ((key, data) :: entries) needComma encoder =
      if (phpJsonEncodeZval options D maxDepth data
          (startEntry options D r key needComma encoder)).1 = .failure ∧
        !options.partialOutputOnError then
        (.failure, true, (phpJsonEncodeZval options D maxDepth data
          (startEntry options D r key needComma encoder)).2)
      else encodeEntries options D maxDepth isObject r entries true
        (phpJsonEncodeZval options D maxDepth data
          (startEntry options D r key needComma encoder)).2 := by
  rw [encodeEntries, if_neg h]
  rfl

theorem encodeEntries_success (hout : options.partialOutputOnError = true) (isObject : Bool)
    (r : OutputType) (entries : List (Key × Zval δ)) (needComma : Bool) (encoder : Encoder) :
    (encodeEntries options D maxDepth isObject r entries needComma encoder).1 = .success := by
  induction entries generalizing needComma encoder with
  | nil => rfl
  | cons entry entries ih =>
    obtain ⟨key, data⟩ := entry
    by_cases hskip : r = .object ∧ isSkipped isObject key = true
    · rw [encodeEntries_skipped options D maxDepth hskip, ih]
    · rw [encodeEntries_not_skipped options D maxDepth hskip,
        if_neg fun h => absurd h.2 (by rw [hout]; decide), ih]

theorem encodeEntries_appends (isObject : Bool) (r : OutputType) (entries : List (Key × Zval δ))
    (hentries : ∀ entry ∈ entries, ∀ encoder,
      InScope options (phpJsonEncodeZval options D maxDepth entry.2 encoder).1 →
        Appends encoder (phpJsonEncodeZval options D maxDepth entry.2 encoder).2
          (written options D entry.2 encoder.depth))
    (needComma : Bool) (encoder : Encoder)
    (h : InScope options
      (encodeEntries options D maxDepth isObject r entries needComma encoder).1) :
    Appends encoder (encodeEntries options D maxDepth isObject r entries needComma encoder).2.2
      (joined needComma ((visited isObject r (entries.map (Prod.map id (written options D)))).map
        (itemText options D r encoder.depth))) ∧
      (encodeEntries options D maxDepth isObject r entries needComma encoder).2.1 =
        (needComma || !(visited isObject r entries).isEmpty) := by
  induction entries generalizing needComma encoder with
  | nil => exact ⟨.rfl encoder, (Bool.or_false needComma).symm⟩
  | cons entry entries ih =>
    have ih := ih fun entry hentry => hentries entry (mem_cons_of_mem _ hentry)
    have hentry := hentries entry mem_cons_self
    obtain ⟨key, data⟩ := entry
    rw [map_cons]
    show Appends _ _ (joined _ ((visited _ _ ((key, written options D data) :: _)).map _)) ∧ _
    by_cases hskip : r = .object ∧ isSkipped isObject key = true
    · rw [encodeEntries_skipped options D maxDepth hskip] at h ⊢
      rw [visited_of_skipped hskip, visited_of_skipped hskip]
      exact ih needComma encoder h
    · rw [encodeEntries_not_skipped options D maxDepth hskip] at h ⊢
      rw [visited_of_not_skipped hskip, visited_of_not_skipped hskip, map_cons, joined]
      have hstart := startEntry_appends options D r key needComma encoder
      generalize startEntry options D r key needComma encoder = e at hstart h ⊢
      have hvalue := hentry e
      by_cases hfail : (phpJsonEncodeZval options D maxDepth data e).1 = .failure ∧
        !options.partialOutputOnError
      · rw [if_pos hfail] at h
        exact absurd ⟨rfl, hfail.2⟩ ((inScope_iff options).mp h)
      rw [if_neg hfail] at h ⊢
      have happend := hstart.trans (hvalue ((inScope_iff options).mpr hfail))
      obtain ⟨hrest, hcomma⟩ := ih true _ h
      rw [happend.depth] at hrest
      refine ⟨?_, ?_⟩
      · have hall := happend.trans hrest
        rw [hstart.depth] at hall
        simp only [append_assoc] at hall
        simp only [itemText, append_assoc]
        exact hall
      · rw [hcomma, Bool.true_or]
        exact (Bool.or_true needComma).symm

theorem encodeArrayBy_appends {isObject : Bool} {entries : List (Key × Zval δ)}
    (hentries : ∀ entry ∈ entries, ∀ encoder,
      InScope options (phpJsonEncodeZval options D maxDepth entry.2 encoder).1 →
        Appends encoder (phpJsonEncodeZval options D maxDepth entry.2 encoder).2
          (written options D entry.2 encoder.depth))
    (encoder : Encoder)
    (h : InScope options (encodeArrayBy options maxDepth isObject entries
      (fun r => encodeEntries options D maxDepth isObject r entries false) encoder).1) :
    Appends encoder (encodeArrayBy options maxDepth isObject entries
      (fun r => encodeEntries options D maxDepth isObject r entries false) encoder).2
      (arrayText options D isObject (entries.map (Prod.map id (written options D)))
        encoder.depth) := by
  rw [encodeArrayBy] at h ⊢
  rw [arrayText, outputType_map, reached_map, reached]
  generalize outputType options isObject entries = r at h ⊢
  have hclose : ∀ needComma e, InScope options (closeArray options maxDepth r needComma e).1 →
      Appends { e with depth := e.depth - 1 } (closeArray options maxDepth r needComma e).2
        ((if needComma then newline options (e.depth - 1) else []) ++ r.closing) := by
    intro needComma e h
    rcases closeArray_cases options maxDepth r needComma e with ⟨hstatus, hout, -⟩ | ⟨-, -, h⟩
    · rw [hstatus] at h
      exact absurd ⟨rfl, by rw [hout]; rfl⟩ ((inScope_iff options).mp h)
    · exact h
  by_cases hcount : numElements entries > 0
  · rw [if_pos hcount] at h ⊢
    rw [if_pos hcount]
    have hloop := encodeEntries_appends options D maxDepth isObject r entries hentries false
      (openArray r encoder)
    have hsuccess := fun hout =>
      encodeEntries_success options D maxDepth hout isObject r entries false
        (openArray r encoder)
    generalize encodeEntries options D maxDepth isObject r entries false (openArray r encoder) =
      res at hloop hsuccess h ⊢
    obtain ⟨status, needComma, e⟩ := res
    cases status with
    | failure =>
      rcases h with h | h
      · exact absurd h (by simp)
      · exact absurd (hsuccess h) (by simp)
    | success =>
      obtain ⟨hloop, rfl⟩ := hloop (.inl rfl)
      have hend := hclose _ e h
      have hdepth : e.depth - 1 = encoder.depth := congrArg (· - 1) hloop.depth
      rw [hdepth] at hend
      refine ⟨?_, hend.depth⟩
      rw [hend.buf]
      show e.buf ++ _ = _
      rw [hloop.buf, visited_map, isEmpty_map, Bool.false_or]
      show encoder.buf ++ r.opening ++ _ ++ _ = _
      simp only [append_assoc]
      cases (visited isObject r entries).isEmpty <;> rfl
  · rw [if_neg hcount] at h ⊢
    rw [if_neg hcount]
    have h := hclose false _ h
    have hopen : Appends encoder { openArray r encoder with depth := encoder.depth } r.opening :=
      ⟨rfl, rfl⟩
    show Appends encoder _ (r.opening ++ [] ++ [] ++ r.closing)
    rw [append_nil, append_nil]
    exact hopen.trans h

/-- **The encoder** appends the text of the value, where it succeeds or goes on. -/
theorem phpJsonEncodeZval_appends (z : Zval δ) (encoder : Encoder)
    (h : InScope options (phpJsonEncodeZval options D maxDepth z encoder).1) :
    Appends encoder (phpJsonEncodeZval options D maxDepth z encoder).2
      (written options D z encoder.depth) := by
  induction z using Zval.induction generalizing encoder with
  | null => exact appends_appendl _ _
  | bool b => cases b <;> exact appends_appendl _ _
  | long n => exact appends_appendl _ _
  | double d =>
    show Appends encoder _ (if D.isValidDouble d then _ else _)
    rw [phpJsonEncodeZval]
    split
    · exact appends_appendl _ _
    · exact ⟨rfl, rfl⟩
  | string s => exact phpJsonEscapeString_appends options D s encoder
  | array entries ih =>
    rw [phpJsonEncodeZval] at h ⊢
    rw [written_array]
    exact encodeArrayBy_appends options D maxDepth ih encoder h
  | object properties ih =>
    rw [phpJsonEncodeZval] at h ⊢
    rw [written_object]
    exact encodeArrayBy_appends options D maxDepth ih encoder h
  | serializable result ih =>
    cases result with
    | none => exact failWith_appends options encoder
    | some retval => exact ih retval rfl encoder h
  | recursive b =>
    cases b with
    | false => exact ⟨rfl, rfl⟩
    | true =>
      have hfail := failWith_appends options (encoder.setError .recursion)
      exact ⟨hfail.buf, hfail.depth⟩
  | unsupported =>
    have hfail := failWith_appends options (encoder.setError .unsupportedType)
    exact ⟨hfail.buf, hfail.depth⟩

/-! ## Success -/

def complete : Zval δ → Prop :=
  Zval.fold {
    null := True
    bool := fun _ => True
    long := fun _ => True
    double := fun _ => True
    string := fun s => stringText options D s ≠ none
    array := fun entries => ∀ entry ∈ reached options false entries, entry.2
    object := fun properties => ∀ entry ∈ reached options true properties, entry.2
    serializable := fun result => result.getD False
    recursive := fun _ => False
    unsupported := False }

/-- How many arrays and objects stand in each other. -/
def nesting : Zval δ → Nat :=
  Zval.fold {
    null := 0
    bool := fun _ => 0
    long := fun _ => 0
    double := fun _ => 0
    string := fun _ => 0
    array := fun entries => Document.highest ((reached options false entries).map Prod.snd) + 1
    object := fun properties =>
      Document.highest ((reached options true properties).map Prod.snd) + 1
    serializable := fun result => result.getD 0
    recursive := fun _ => 0
    unsupported := 0 }

theorem forall_reached_map {β γ : Type*} (f : β → γ) {isObject : Bool} {entries : List (Key × β)}
    {p : Key × γ → Prop} :
    (∀ entry ∈ reached options isObject (entries.map (Prod.map id f)), p entry) ↔
      ∀ entry ∈ reached options isObject entries, p (entry.1, f entry.2) := by
  rw [reached_map, forall_mem_map]
  rfl

theorem complete_array (entries : List (Key × Zval δ)) :
    complete options D (.array entries) ↔
      ∀ entry ∈ reached options false entries, complete options D entry.2 := by
  rw [complete, Zval.fold_array, ← complete]
  exact forall_reached_map options _

theorem complete_object (properties : List (Key × Zval δ)) :
    complete options D (.object properties) ↔
      ∀ entry ∈ reached options true properties, complete options D entry.2 := by
  rw [complete, Zval.fold_object, ← complete]
  exact forall_reached_map options _

theorem nesting_array (entries : List (Key × Zval δ)) :
    nesting options (.array entries) =
      Document.highest ((reached options false entries).map fun entry => nesting options entry.2) +
        1 := by
  rw [nesting, Zval.fold_array, ← nesting]
  show Document.highest ((reached options false (entries.map (Prod.map id (nesting options)))).map
    Prod.snd) + 1 = _
  rw [reached_map, List.map_map]
  rfl

theorem nesting_object (properties : List (Key × Zval δ)) :
    nesting options (.object properties) =
      Document.highest ((reached options true properties).map fun entry =>
        nesting options entry.2) + 1 := by
  rw [nesting, Zval.fold_object, ← nesting]
  show Document.highest ((reached options true (properties.map
    (Prod.map id (nesting options)))).map Prod.snd) + 1 = _
  rw [reached_map, List.map_map]
  rfl

def Fitting (depth : Nat) (z : Zval δ) : Prop :=
  complete options D z ∧
    (nesting options z = 0 ∨ (depth + nesting options z : Int) ≤ maxDepth)

theorem closeArray_success_iff (hout : options.partialOutputOnError = false) (r : OutputType)
    (needComma : Bool) (encoder : Encoder) :
    (closeArray options maxDepth r needComma encoder).1 = .success ↔
      (encoder.depth : Int) ≤ maxDepth := by
  rcases closeArray_cases options maxDepth r needComma encoder with
    ⟨hstatus, -, hdeep⟩ | ⟨hstatus, hdepth, -⟩
  · rw [hstatus]
    exact iff_of_false (by decide) (Int.not_le.mpr hdeep)
  · exact iff_of_true hstatus (hdepth hout)

theorem encodeEntries_success_iff (hout : options.partialOutputOnError = false)
    (isObject : Bool) (r : OutputType) {entries : List (Key × Zval δ)}
    (hentries : ∀ entry ∈ entries, ∀ encoder,
      (phpJsonEncodeZval options D maxDepth entry.2 encoder).1 = .success ↔
        Fitting options D maxDepth encoder.depth entry.2)
    (needComma : Bool) (encoder : Encoder) :
    (encodeEntries options D maxDepth isObject r entries needComma encoder).1 = .success ↔
      ∀ entry ∈ visited isObject r entries, Fitting options D maxDepth encoder.depth entry.2 := by
  induction entries generalizing needComma encoder with
  | nil => exact iff_of_true rfl fun _ h => absurd h not_mem_nil
  | cons entry entries ih =>
    have ih := ih fun entry hentry => hentries entry (mem_cons_of_mem _ hentry)
    have hentry := hentries entry mem_cons_self
    obtain ⟨key, data⟩ := entry
    by_cases hskip : r = .object ∧ isSkipped isObject key = true
    · rw [encodeEntries_skipped options D maxDepth hskip, visited_of_skipped hskip]
      exact ih needComma encoder
    · rw [encodeEntries_not_skipped options D maxDepth hskip, visited_of_not_skipped hskip,
        forall_mem_cons]
      have hstart := startEntry_appends options D r key needComma encoder
      generalize startEntry options D r key needComma encoder = e at hstart ⊢
      have hvalue := hentry e
      have happend := phpJsonEncodeZval_appends options D maxDepth data e
      rw [hstart.depth] at hvalue
      generalize phpJsonEncodeZval options D maxDepth data e = res at hvalue happend ⊢
      obtain ⟨status, e'⟩ := res
      rw [← hvalue, hout]
      cases status with
      | failure =>
        exact iff_of_false (fun h => absurd h (by simp)) fun h => absurd h.1 (by simp)
      | success =>
        have hdepth : e'.depth = encoder.depth := (happend (.inl rfl)).depth.trans hstart.depth
        show (encodeEntries options D maxDepth isObject r entries true e').1 = _ ↔ _
        rw [ih true e', hdepth]
        exact (and_iff_right rfl).symm

theorem le_highest_iff {ns : List Nat} {k : Nat} :
    Document.highest ns ≤ k ↔ ∀ n ∈ ns, n ≤ k := by
  induction ns with
  | nil => exact iff_of_true (Nat.zero_le k) fun _ h => absurd h not_mem_nil
  | cons n ns ih =>
    rw [forall_mem_cons, ← ih]
    exact Nat.max_le

theorem forall_fitting_iff (entries : List (Key × Zval δ)) (depth : Nat) :
    (∀ entry ∈ entries, Fitting options D maxDepth (depth + 1) entry.2) ∧
        ((depth + 1 : Nat) : Int) ≤ maxDepth ↔
      (∀ entry ∈ entries, complete options D entry.2) ∧
        (depth : Int) + (Document.highest (entries.map fun entry => nesting options entry.2) + 1 :
          Nat) ≤ maxDepth := by
  have hbound : (depth : Int) + (Document.highest (entries.map fun entry =>
      nesting options entry.2) + 1 : Nat) ≤ maxDepth ↔ ((depth + 1 : Nat) : Int) ≤ maxDepth ∧
        ∀ entry ∈ entries, ((depth + 1 : Nat) + nesting options entry.2 : Int) ≤ maxDepth := by
    constructor
    · intro h
      refine ⟨by omega, fun entry hentry => ?_⟩
      have hle := le_highest_iff.mp (Nat.le_refl _) _
        (mem_map_of_mem (f := fun entry => nesting options entry.2) hentry)
      omega
    · rintro ⟨hself, h⟩
      have hle : Document.highest (entries.map fun entry => nesting options entry.2) ≤
          (maxDepth - (depth + 1)).toNat := by
        refine le_highest_iff.mpr (forall_mem_map.mpr fun entry hentry => ?_)
        have := h entry hentry
        omega
      omega
  rw [hbound]
  constructor
  · rintro ⟨h, hself⟩
    exact ⟨fun entry hentry => (h entry hentry).1, hself, fun entry hentry => by
      rcases (h entry hentry).2 with hzero | hle
      · rw [hzero]
        omega
      · exact hle⟩
  · rintro ⟨hcomplete, hself, h⟩
    exact ⟨fun entry hentry => ⟨hcomplete entry hentry, .inr (h entry hentry)⟩, hself⟩

theorem encodeArrayBy_success_iff (hout : options.partialOutputOnError = false)
    {isObject : Bool} {entries : List (Key × Zval δ)}
    (hentries : ∀ entry ∈ entries, ∀ encoder,
      (phpJsonEncodeZval options D maxDepth entry.2 encoder).1 = .success ↔
        Fitting options D maxDepth encoder.depth entry.2)
    (encoder : Encoder) :
    (encodeArrayBy options maxDepth isObject entries
      (fun r => encodeEntries options D maxDepth isObject r entries false) encoder).1 = .success ↔
      (∀ entry ∈ reached options isObject entries, complete options D entry.2) ∧
        (encoder.depth : Int) + (Document.highest ((reached options isObject entries).map
          fun entry => nesting options entry.2) + 1 : Nat) ≤ maxDepth := by
  rw [← forall_fitting_iff, encodeArrayBy, reached]
  generalize outputType options isObject entries = r
  by_cases hcount : numElements entries > 0
  · rw [if_pos hcount, if_pos hcount]
    have hloop := encodeEntries_success_iff options D maxDepth hout isObject r hentries false
      (openArray r encoder)
    have happend := encodeEntries_appends options D maxDepth isObject r entries
      (fun entry _ e => phpJsonEncodeZval_appends options D maxDepth entry.2 e) false
      (openArray r encoder)
    generalize encodeEntries options D maxDepth isObject r entries false (openArray r encoder) =
      res at hloop happend ⊢
    obtain ⟨status, needComma, e⟩ := res
    cases status with
    | failure =>
      exact iff_of_false (fun h => absurd h (by simp)) fun h => absurd (hloop.mpr h.1) (by simp)
    | success =>
      show (closeArray options maxDepth r needComma e).1 = _ ↔ _
      have hdepth : e.depth = encoder.depth + 1 := (happend (.inl rfl)).1.depth
      rw [closeArray_success_iff options maxDepth hout, hdepth]
      exact (and_iff_right (hloop.mp rfl)).symm
  · rw [if_neg hcount, if_neg hcount]
    show (closeArray options maxDepth r false (openArray r encoder)).1 = _ ↔ _
    rw [closeArray_success_iff options maxDepth hout]
    exact (and_iff_right fun _ h => absurd h not_mem_nil).symm

/-- **Success**: without `PHP_JSON_PARTIAL_OUTPUT_ON_ERROR` each value must be encoded, and none be
nested too deep. -/
theorem phpJsonEncodeZval_success_iff (hout : options.partialOutputOnError = false)
    (z : Zval δ) (encoder : Encoder) :
    (phpJsonEncodeZval options D maxDepth z encoder).1 = .success ↔
      Fitting options D maxDepth encoder.depth z := by
  induction z using Zval.induction generalizing encoder with
  | null => exact iff_of_true rfl ⟨trivial, .inl rfl⟩
  | bool b => cases b <;> exact iff_of_true rfl ⟨trivial, .inl rfl⟩
  | long n => exact iff_of_true rfl ⟨trivial, .inl rfl⟩
  | double d =>
    refine iff_of_true ?_ ⟨trivial, .inl rfl⟩
    rw [phpJsonEncodeZval]
    split <;> rfl
  | string s =>
    show (phpJsonEscapeString options D s encoder).1 = _ ↔ stringText options D s ≠ none ∧ _
    rw [phpJsonEscapeString_eq]
    cases stringText options D s with
    | some text => exact iff_of_true rfl ⟨by simp, .inl rfl⟩
    | none => exact iff_of_false (by simp [utf8Error]) fun h => h.1 rfl
  | array entries ih =>
    rw [phpJsonEncodeZval, encodeArrayBy_success_iff options D maxDepth hout ih, Fitting,
      complete_array, nesting_array]
    exact and_congr_right' ⟨.inr, fun h => h.resolve_left (Nat.succ_ne_zero _)⟩
  | object properties ih =>
    rw [phpJsonEncodeZval, encodeArrayBy_success_iff options D maxDepth hout ih, Fitting,
      complete_object, nesting_object]
    exact and_congr_right' ⟨.inr, fun h => h.resolve_left (Nat.succ_ne_zero _)⟩
  | serializable result ih =>
    cases result with
    | none => exact iff_of_false (by simp [phpJsonEncodeZval, encodeResult, failWith]) fun h => h.1
    | some retval => exact ih retval rfl encoder
  | recursive b =>
    cases b <;> exact iff_of_false (by simp [phpJsonEncodeZval, failWith]) fun h => h.1
  | unsupported => exact iff_of_false (by simp [phpJsonEncodeZval, failWith]) fun h => h.1

end

end Json

end Phpce
