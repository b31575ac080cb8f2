import Phpce.Json.Written

/-!
# When the encoder writes JSON

A refused key leaves nothing, or a `null`, in front of its colon.

* `documentOf` is the document that a value is written as: `derives_written`.
* `run_refused`: behind a refused key the text has a colon that no string stands before.
* **`phpJsonEncodeArray_emits_iff`**: when what is appended is a text of JSON.
-/

namespace Phpce

namespace Json

open Bytes JsonText Utf8 List

section

variable (options : EncoderOptions) {δ : Type*} (D : Doubles δ) (maxDepth : Int)

/-! ## Documents -/

def keyLiteral : Key → Bytes
  | .index index => decimal index
  | .name key => (escapeText (keyOptions options) key).getD []

def stringDocument (s : Bytes) : Document :=
  if s.length = 0 then .string []
  else
    match if options.numericCheck then numericText options D s else none with
    | some num => .number num
    | none =>
      match escapeText options s with
      | some body => .string body
      | none => .null

def arrayDocument (isObject : Bool) (entries : List (Key × Document)) : Document :=
  match outputType options isObject entries with
  | .array => .array ((reached options isObject entries).map Prod.snd)
  | .object =>
    .object ((reached options isObject entries).map fun entry =>
      (keyLiteral options entry.1, entry.2))

def documentOf : Zval δ → Document :=
  Zval.fold {
    null := .null
    bool := .bool
    long := fun n => .number (decimal n)
    double := fun d => .number (if D.isValidDouble d then
      encodeDouble D options.preserveZeroFraction d else ascii "0")
    string := stringDocument options D
    array := arrayDocument options false
    object := arrayDocument options true
    serializable := fun result => result.getD .null
    recursive := fun _ => .null
    unsupported := .null }

def KeyAccepted : Key → Prop
  | .index _ => True
  | .name key => Accepts options key

def keysAccepted : Zval δ → Prop :=
  Zval.fold {
    null := True
    bool := fun _ => True
    long := fun _ => True
    double := fun _ => True
    string := fun _ => True
    array := fun entries => ∀ entry ∈ reached options false entries,
      (outputType options false entries = .object → KeyAccepted options entry.1) ∧ entry.2
    object := fun properties => ∀ entry ∈ reached options true properties,
      KeyAccepted options entry.1 ∧ entry.2
    serializable := fun result => result.getD True
    recursive := fun _ => True
    unsupported := True }

theorem keysAccepted_array (entries : List (Key × Zval δ)) :
    keysAccepted options (.array entries) ↔ ∀ entry ∈ reached options false entries,
      (outputType options false entries = .object → KeyAccepted options entry.1) ∧
        keysAccepted options entry.2 := by
  rw [keysAccepted, Zval.fold_array, ← keysAccepted]
  show (∀ entry ∈ reached options false (entries.map (Prod.map id _)),
    (outputType options false (entries.map (Prod.map id _)) = .object → _) ∧ entry.2) ↔ _
  rw [outputType_map]
  exact forall_reached_map options (keysAccepted options)

theorem keysAccepted_object (properties : List (Key × Zval δ)) :
    keysAccepted options (.object properties) ↔ ∀ entry ∈ reached options true properties,
      (outputType options true properties = .object → KeyAccepted options entry.1) ∧
        keysAccepted options entry.2 := by
  rw [keysAccepted, Zval.fold_object, ← keysAccepted]
  refine (forall_reached_map options (keysAccepted options)).trans ?_
  exact forall₂_congr fun entry _ => and_congr_left' ⟨fun h _ => h, fun h => h rfl⟩

theorem documentOf_array (entries : List (Key × Zval δ)) :
    documentOf options D (.array entries) =
      arrayDocument options false (entries.map (Prod.map id (documentOf options D))) :=
  Zval.fold_array _ entries

theorem documentOf_object (properties : List (Key × Zval δ)) :
    documentOf options D (.object properties) =
      arrayDocument options true (properties.map (Prod.map id (documentOf options D))) :=
  Zval.fold_object _ properties

theorem arrayDocument_map (isObject : Bool) (entries : List (Key × Zval δ)) :
    arrayDocument options isObject (entries.map (Prod.map id (documentOf options D))) =
      match outputType options isObject entries with
      | .array => .array ((reached options isObject entries).map fun entry =>
          documentOf options D entry.2)
      | .object => .object ((reached options isObject entries).map fun entry =>
          (keyLiteral options entry.1, documentOf options D entry.2)) := by
  rw [arrayDocument, outputType_map, reached_map]
  split
  · rw [List.map_map]
    rfl
  · rw [List.map_map]
    rfl

/-! ## What is derived -/

theorem space_newline (depth : Nat) : Space (newline options depth) := by
  rw [newline]
  split
  · refine forall_mem_cons.mpr ⟨by decide, fun c hc => ?_⟩
    obtain ⟨l, hl, hc⟩ := mem_flatten.mp hc
    have hindent : ∀ c ∈ ascii "    ", IsSpace c := by decide
    exact hindent c (eq_of_mem_replicate hl ▸ hc)
  · exact space_nil

theorem structural_colon : Structural 58 (58 :: (if options.prettyPrint then [32] else [])) := by
  refine .intro space_nil ?_
  split
  · exact forall_mem_singleton.mpr (.inl rfl)
  · exact space_nil

theorem numeral_bytes (z : Int) : ∀ c ∈ decimal z, IsDigit c ∨ c = 45 := by
  obtain ⟨n, rfl | rfl⟩ := z.eq_nat_or_neg
  · exact fun c hc => .inl (digits_decimalNat n c hc)
  · cases n with
    | zero => exact fun c hc => .inl (digits_decimalNat 0 c hc)
    | succ n =>
      rw [decimal_neg n.succ_pos]
      exact forall_mem_cons.mpr ⟨.inr rfl, fun c hc => .inl (digits_decimalNat _ c hc)⟩

theorem literal_of_printable {s : Bytes}
    (hs : ∀ c ∈ s, c.toNat < 0x80 ∧ 32 ≤ c.toNat ∧ c ≠ 34 ∧ c ≠ 92) :
    ∃ cs, Literal cs s ∧ s = encode cs := by
  induction s with
  | nil => exact ⟨[], .nil, rfl⟩
  | cons b s ih =>
    obtain ⟨hb, hs⟩ := forall_mem_cons.mp hs
    obtain ⟨cs, hcs, heq⟩ := ih hs
    obtain ⟨c, -, hc⟩ := (Sequence.one (UInt8.lt_iff_toNat_lt.mpr hb.1)).exists_char
    refine ⟨c :: cs, .cons (written_self hb.1 hc hb.2.1 hb.2.2.1 hb.2.2.2) hcs, ?_⟩
    rw [encode_cons, utf8EncodeChar_of_lt hb.1 hc, ← heq]
    rfl

theorem literal_decimal (z : Int) : ∃ cs, Literal cs (decimal z) ∧ decimal z = encode cs := by
  refine literal_of_printable fun c hc => ?_
  rcases numeral_bytes z c hc with h | rfl
  · have hbounds := h.bounds
    refine ⟨by omega, by omega, ?_, ?_⟩
    · rintro rfl
      exact absurd h (by decide)
    · rintro rfl
      exact absurd h (by decide)
  · decide

theorem keyText_of_accepted {key : Key} (h : KeyAccepted options key) :
    ∃ cs, Literal cs (keyLiteral options key) ∧
      keyText options D key = quoted (keyLiteral options key) := by
  cases key with
  | index index =>
    obtain ⟨cs, hcs, -⟩ := literal_decimal index
    exact ⟨cs, hcs, rfl⟩
  | name key =>
    obtain ⟨cs, rfl, hunits⟩ := h
    obtain ⟨body, hbody, htext⟩ := escapeText_eq_some (keyOptions options) hunits
    refine ⟨cs, ?_, ?_⟩
    · rw [keyLiteral, htext]
      exact hbody
    · rw [keyText, keyLiteral, htext,
        stringText_of_escapeText (keyOptions options) D rfl htext]
      rfl

theorem derives_joined {α : Type*} (φ : List α → Phrase) (ψ : α → Bytes → Prop)
    (hone : ∀ x t, ψ x t → Derives (φ [x]) t)
    (hmore : ∀ xs x s c t, Derives (φ xs) s → Structural 0x2C c → ψ x t →
      Derives (φ (xs ++ [x])) (s ++ c ++ t))
    (r : OutputType) (depth : Nat) (f : Key × Zval δ → α) {entry : Key × Zval δ}
    {entries : List (Key × Zval δ)}
    (h : ∀ e ∈ entry :: entries,
      ψ (f e) (memberText options D r e.1 ++ written options D e.2 depth)) :
    ∃ s, joined false ((entry :: entries).map fun entry =>
        itemText options D r depth (entry.1, written options D entry.2)) =
          newline options depth ++ s ∧
      Derives (φ ((entry :: entries).map f)) s := by
  have hcomma : Structural 0x2C (44 :: newline options depth) :=
    .intro space_nil (space_newline options depth)
  -- from what has been derived of the items before
  have hrun : ∀ entries : List (Key × Zval δ), (∀ entry ∈ entries,
      ψ (f entry) (memberText options D r entry.1 ++ written options D entry.2 depth)) →
      ∀ xs s, Derives (φ xs) s → Derives (φ (xs ++ entries.map f))
        (s ++ joined true (entries.map fun entry =>
          itemText options D r depth (entry.1, written options D entry.2))) := by
    intro entries
    induction entries with
    | nil =>
      intro _ xs s hs
      rw [map_nil, map_nil, joined, append_nil, append_nil]
      exact hs
    | cons entry entries ih =>
      intro hentries xs s hs
      obtain ⟨hentry, hentries⟩ := forall_mem_cons.mp hentries
      have hnext := ih hentries _ _ (hmore xs (f entry) s _ _ hs hcomma hentry)
      rw [append_assoc xs] at hnext
      rw [map_cons, map_cons, joined, itemText]
      simp only [if_true, append_assoc, cons_append, nil_append] at hnext ⊢
      exact hnext
  obtain ⟨hentry, hentries⟩ := forall_mem_cons.mp h
  refine ⟨_, ?_, hrun entries hentries [f entry] _ (hone _ _ hentry)⟩
  rw [map_cons, joined, itemText]
  simp only [append_assoc]
  rfl

theorem derives_arrayText {isObject : Bool} {entries : List (Key × Zval δ)}
    (hentries : ∀ entry ∈ reached options isObject entries,
      (outputType options isObject entries = .object → KeyAccepted options entry.1) ∧
        ∀ depth, Derives (.value (documentOf options D entry.2)) (written options D entry.2 depth))
    (depth : Nat) :
    Derives (.value (arrayDocument options isObject
      (entries.map (Prod.map id (documentOf options D)))))
      (arrayText options D isObject (entries.map (Prod.map id (written options D))) depth) := by
  have hopen : ∀ c : UInt8, Structural c (c :: newline options (depth + 1)) := fun c =>
    .intro space_nil (space_newline options (depth + 1))
  have hclose : ∀ c : UInt8, Structural c (newline options depth ++ [c]) := fun c =>
    .intro (space_newline options depth) space_nil
  have happend : ∀ (c d : UInt8) (s : Bytes), [c] ++ (newline options (depth + 1) ++ s) ++
      newline options depth ++ [d] =
        (c :: newline options (depth + 1)) ++ s ++ (newline options depth ++ [d]) :=
    fun c d s => by simp only [append_assoc, cons_append, nil_append]
  rw [arrayDocument_map, arrayText, outputType_map, reached_map, isEmpty_map, List.map_map]
  generalize reached options isObject entries = shown at hentries ⊢
  generalize outputType options isObject entries = r at hentries ⊢
  cases r with
  | array =>
    cases shown with
    | nil => exact .emptyArray (structural_singleton 91) (structural_singleton 93)
    | cons entry shown =>
      obtain ⟨s, hs, hderives⟩ := derives_joined options D .elements
        (fun j t => Derives (.value j) t) (fun _ _ h => .element h)
        (fun _ _ _ _ _ hs hc ht => .moreElements hs hc ht) .array (depth + 1)
        (fun entry => documentOf options D entry.2) fun entry hmem =>
          (hentries entry hmem).2 (depth + 1)
      show Derives _ ([91] ++ joined false ((entry :: shown).map fun e => itemText options D .array
        (depth + 1) (e.1, written options D e.2)) ++ newline options depth ++ [93])
      rw [hs, happend]
      exact .array (hopen 91) hderives (hclose 93)
  | object =>
    cases shown with
    | nil => exact .emptyObject (structural_singleton 123) (structural_singleton 125)
    | cons entry shown =>
      obtain ⟨s, hs, hderives⟩ := derives_joined options D .members
        (fun m t => Derives (.member m.1 m.2) t) (fun _ _ h => .member h)
        (fun _ _ _ _ _ hs hc ht => .moreMembers hs hc ht) .object (depth + 1)
        (fun entry => (keyLiteral options entry.1, documentOf options D entry.2))
        fun entry hmem => by
          obtain ⟨cs, hliteral, hkey⟩ :=
            keyText_of_accepted options D ((hentries entry hmem).1 rfl)
          rw [memberText, hkey]
          exact .pair hliteral (structural_colon options) ((hentries entry hmem).2 (depth + 1))
      show Derives _ ([123] ++ joined false ((entry :: shown).map fun e =>
        itemText options D .object (depth + 1) (e.1, written options D e.2)) ++
          newline options depth ++ [125])
      rw [hs, happend]
      exact .object (hopen 123) hderives (hclose 125)

theorem derives_stringText {s : Bytes} (hnumber : options.numericCheck = true → ∀ num,
      numericText options D s = some num → Number num)
    (h : stringText options D s ≠ none ∨ options.partialOutputOnError = true) :
    Derives (.value (stringDocument options D s))
      ((stringText options D s).getD (failText options)) := by
  rw [stringText] at h ⊢
  rw [stringDocument]
  by_cases hlen : s.length = 0
  · rw [if_pos hlen, if_pos hlen]
    exact .string .nil
  rw [if_neg hlen] at h ⊢
  rw [if_neg hlen]
  cases hnum : (if options.numericCheck then numericText options D s else none) with
  | some num =>
    refine .number ?_
    split at hnum
    next hcheck => exact hnumber hcheck num hnum
    next => exact absurd hnum (by simp)
  | none =>
    rw [hnum] at h
    cases hbody : escapeText options s with
    | some body =>
      obtain ⟨cs, -, hliteral⟩ := literal_of_escapeText options hbody
      exact .string hliteral
    | none =>
      rw [hbody] at h
      have hout := h.resolve_left fun h => h rfl
      show Derives (.value .null) (failText options)
      rw [failText, hout]
      exact .null

theorem derives_written (hD : D.Lawful) (z : Zval δ)
    (hcomplete : complete options D z ∨ options.partialOutputOnError = true)
    (hkeys : keysAccepted options z) (depth : Nat) :
    Derives (.value (documentOf options D z)) (written options D z depth) := by
  have hfail : options.partialOutputOnError = true →
      Derives (.value .null) (failText options) := by
    intro hout
    rw [failText, hout]
    exact .null
  induction z using Zval.induction generalizing depth with
  | null => exact .null
  | bool b =>
    cases b with
    | false => exact .fls
    | true => exact .tru
  | long n => exact .number (integer_decimal n).number
  | double d =>
    show Derives (.value (.number (if _ then _ else _))) (if _ then _ else _)
    refine .number ?_
    split
    next hvalid => exact number_encodeDouble hD _ hvalid
    next => exact (integer_decimal 0).number
  | string s =>
    exact derives_stringText options D (fun _ _ h => number_of_numericText options D hD h) hcomplete
  | array entries ih =>
    rw [complete_array] at hcomplete
    rw [keysAccepted_array] at hkeys
    rw [written_array, documentOf_array]
    exact derives_arrayText options D (fun entry hentry => ⟨(hkeys entry hentry).1, ih entry
      (mem_of_reached options hentry) (hcomplete.imp_left fun h => h entry hentry)
      (hkeys entry hentry).2⟩) depth
  | object properties ih =>
    rw [complete_object] at hcomplete
    rw [keysAccepted_object] at hkeys
    rw [written_object, documentOf_object]
    exact derives_arrayText options D (fun entry hentry => ⟨(hkeys entry hentry).1, ih entry
      (mem_of_reached options hentry) (hcomplete.imp_left fun h => h entry hentry)
      (hkeys entry hentry).2⟩) depth
  | serializable result ih =>
    cases result with
    | none => exact hfail (hcomplete.resolve_left fun h => h)
    | some retval => exact ih retval rfl hcomplete hkeys depth
  | recursive b =>
    cases b with
    | false => exact .null
    | true => exact hfail (hcomplete.resolve_left fun h => h)
  | unsupported => exact hfail (hcomplete.resolve_left fun h => h)

/-! ## Refused keys -/

open Place in
theorem run_memberText {r : OutputType} {key : Key}
    (h : r = .object → KeyAccepted options key) (last : UInt8) :
    ∃ last', run (outside last) (memberText options D r key) = some (outside last') := by
  cases r with
  | array => exact ⟨last, rfl⟩
  | object =>
    obtain ⟨cs, hliteral, hkey⟩ := keyText_of_accepted options D (h rfl)
    refine ⟨58, ?_⟩
    rw [memberText, hkey, run_of_run (run_quoted hliteral)]
    exact run_structural (structural_colon options) (by decide) (fun _ => rfl) (by decide)

open Place in
theorem run_memberText_refused {key : Key} (h : ¬KeyAccepted options key) {last : UInt8}
    (hlast : last ≠ 0x22) : run (outside last) (memberText options D .object key) = none := by
  cases key with
  | index index => exact absurd trivial h
  | name key =>
    have hnone : stringText (keyOptions options) D key = none :=
      (stringText_eq_none_iff (keyOptions options) D rfl).mpr h
    rw [memberText, keyText, hnone]
    show run (outside last) (failText options ++ _) = none
    rw [failText]
    cases options.partialOutputOnError with
    | true => rfl
    | false =>
      show run (outside last) (58 :: _) = none
      rw [run_cons, Place.step, if_neg (by decide), if_pos ⟨rfl, hlast⟩]
      rfl

open Place in
theorem run_joined_refused {r : OutputType} {depth : Nat} {entries : List (Key × Zval δ)}
    (hgood : ∀ entry ∈ entries, keysAccepted options entry.2 → ∀ last,
      ∃ last', run (outside last) (written options D entry.2 depth) = some (outside last'))
    (hbad : ∀ entry ∈ entries, ¬keysAccepted options entry.2 → ∀ last,
      run (outside last) (written options D entry.2 depth) = none)
    (h : ¬∀ entry ∈ entries, (r = .object → KeyAccepted options entry.1) ∧
      keysAccepted options entry.2) {needComma : Bool} {last : UInt8}
    (hlast : needComma = true ∨ last ≠ 0x22) :
    run (outside last) (joined needComma (entries.map fun entry =>
      itemText options D r depth (entry.1, written options D entry.2))) = none := by
  induction entries generalizing needComma last with
  | nil => exact absurd (fun _ h => absurd h not_mem_nil) h
  | cons entry entries ih =>
    have ih := fun h => @ih (fun e he => hgood e (mem_cons_of_mem _ he))
      (fun e he => hbad e (mem_cons_of_mem _ he)) h true
    have hline : ∃ last' ≠ 0x22, run (outside last) ((if needComma then [44] else []) ++
        newline options depth) = some (outside last') := by
      cases needComma with
      | true =>
        have hrun := @run_space (newline options depth) 44 (space_newline options depth)
        exact ⟨44, by decide, hrun⟩
      | false =>
        exact ⟨last, hlast.resolve_left (by decide), run_space (space_newline options depth)⟩
    obtain ⟨last₁, hne, hline⟩ := hline
    rw [map_cons, joined, itemText]
    simp only [append_assoc]
    rw [← append_assoc, run_of_run hline]
    by_cases hkey : r = .object → KeyAccepted options entry.1
    · obtain ⟨last₂, hmember⟩ := run_memberText options D hkey last₁
      rw [run_of_run hmember]
      by_cases hvalue : keysAccepted options entry.2
      · obtain ⟨last₃, hvalue'⟩ := hgood entry mem_cons_self hvalue last₂
        rw [run_of_run hvalue']
        refine ih (fun hall => h ?_) (.inl rfl)
        exact forall_mem_cons.mpr ⟨⟨hkey, hvalue⟩, hall⟩
      · exact run_of_none (hbad entry mem_cons_self hvalue last₂)
    · rw [Classical.not_imp] at hkey
      obtain ⟨rfl, hkey⟩ := hkey
      exact run_of_none (run_memberText_refused options D hkey hne)

open Place in
theorem run_arrayText_refused {isObject : Bool} {entries : List (Key × Zval δ)}
    (hgood : ∀ entry ∈ reached options isObject entries, keysAccepted options entry.2 →
      ∀ depth last, ∃ last',
        run (outside last) (written options D entry.2 depth) = some (outside last'))
    (hbad : ∀ entry ∈ reached options isObject entries, ¬keysAccepted options entry.2 →
      ∀ depth last, run (outside last) (written options D entry.2 depth) = none)
    (h : ¬∀ entry ∈ reached options isObject entries,
      (outputType options isObject entries = .object → KeyAccepted options entry.1) ∧
        keysAccepted options entry.2) (depth : Nat) (last : UInt8) :
    run (outside last) (arrayText options D isObject
      (entries.map (Prod.map id (written options D))) depth) = none := by
  have hopen : ∀ r : OutputType, ∃ last' ≠ 0x22, run (outside last) r.opening =
      some (outside last') := by
    intro r
    cases r with
    | array => exact ⟨91, by decide, rfl⟩
    | object => exact ⟨123, by decide, rfl⟩
  rw [arrayText, outputType_map, reached_map, List.map_map]
  obtain ⟨last', hne, hrun⟩ := hopen (outputType options isObject entries)
  simp only [append_assoc]
  rw [run_of_run hrun]
  exact run_of_none (run_joined_refused options D
    (fun entry hentry hkeys => hgood entry hentry hkeys (depth + 1))
    (fun entry hentry hkeys => hbad entry hentry hkeys (depth + 1)) h (.inr hne))

open Place in
/-- **Refused keys**: a value with one is written with a colon that no string stands before. -/
theorem run_refused (hD : D.Lawful) (z : Zval δ)
    (hcomplete : complete options D z ∨ options.partialOutputOnError = true)
    (hkeys : ¬keysAccepted options z) (depth : Nat) (last : UInt8) :
    run (outside last) (written options D z depth) = none := by
  induction z using Zval.induction generalizing depth last with
  | array entries ih =>
    rw [complete_array] at hcomplete
    rw [keysAccepted_array] at hkeys
    rw [written_array]
    exact run_arrayText_refused options D
      (fun entry hentry h depth last => (derives_written options D hD entry.2
        (hcomplete.imp_left fun h => h entry hentry) h depth).run last)
      (fun entry hentry h => ih entry (mem_of_reached options hentry)
        (hcomplete.imp_left fun h => h entry hentry) h) hkeys depth last
  | object properties ih =>
    rw [complete_object] at hcomplete
    rw [keysAccepted_object] at hkeys
    rw [written_object]
    exact run_arrayText_refused options D
      (fun entry hentry h depth last => (derives_written options D hD entry.2
        (hcomplete.imp_left fun h => h entry hentry) h depth).run last)
      (fun entry hentry h => ih entry (mem_of_reached options hentry)
        (hcomplete.imp_left fun h => h entry hentry) h) hkeys depth last
  | serializable result ih =>
    cases result with
    | none => exact absurd trivial hkeys
    | some retval => exact ih retval rfl hcomplete hkeys depth last
  | _ => exact absurd trivial hkeys

/-! ## Texts of JSON -/

def EmitsJson (before after : Encoder) : Prop :=
  ∃ text, after.buf = before.buf ++ text ∧ ∃ j, Text j text

/-- **The encoder and JSON.** Where `php_json_encode_array` succeeds, or fails and goes on with
`PHP_JSON_PARTIAL_OUTPUT_ON_ERROR`, what it has appended is a text of JSON if and only if no key
that it has come to in the form of an object is refused: each is UTF-8, and with
`PHP_JSON_UNESCAPED_UNICODE` of so many UTF-16 units that an `int` counts them. -/
theorem phpJsonEncodeArray_emits_iff (hD : D.Lawful) (entries : List (Key × Zval δ))
    (encoder : Encoder)
    (h : (phpJsonEncodeArray options D maxDepth entries encoder).1 = .success ∨
      options.partialOutputOnError = true) :
    EmitsJson encoder (phpJsonEncodeArray options D maxDepth entries encoder).2 ↔
      keysAccepted options (.array entries) := by
  have hencode : phpJsonEncodeArray options D maxDepth entries encoder =
      phpJsonEncodeZval options D maxDepth (.array entries) encoder := by
    rw [phpJsonEncodeZval, phpJsonEncodeArray]
  rw [hencode] at h ⊢
  have hcomplete : complete options D (.array entries) ∨ options.partialOutputOnError = true := by
    cases hout : options.partialOutputOnError with
    | true => exact .inr rfl
    | false =>
      have hstatus := h.resolve_right (by rw [hout]; decide)
      exact .inl ((phpJsonEncodeZval_success_iff options D maxDepth hout _ _).mp hstatus).1
  have happend := phpJsonEncodeZval_appends options D maxDepth (.array entries) encoder h
  constructor
  · rintro ⟨text, hbuf, j, hj⟩
    obtain rfl := append_cancel_left (happend.buf.symm.trans hbuf)
    by_contra hkeys
    obtain ⟨last', hlast⟩ := hj.run 0
    rw [run_refused options D hD _ hcomplete hkeys] at hlast
    exact absurd hlast (by simp)
  · intro hkeys
    have hderives := derives_written options D hD _ hcomplete hkeys encoder.depth
    have htext := Text.intro space_nil hderives space_nil
    rw [nil_append, append_nil] at htext
    exact ⟨_, happend.buf, _, htext⟩

end

/-! ## A key that is not UTF-8 -/

/-- `options` 0 -/
def noOptions : EncoderOptions where
  hexTag := false
  hexAmp := false
  hexApos := false
  hexQuot := false
  forceObject := false
  numericCheck := false
  unescapedSlashes := false
  prettyPrint := false
  unescapedUnicode := false
  partialOutputOnError := false
  preserveZeroFraction := false
  unescapedLineTerminators := false

def zeroDoubles : Doubles Unit where
  dtoa _ _ _ := { digits := [48], decpt := 1, sign := false }
  isValidDouble _ := true
  strtod s := ((), s.length)
  serializePrecision := 17

theorem lawful_zeroDoubles : zeroDoubles.Lawful := fun _ _ _ _ =>
  { canonical := canonical_zero
    zero := fun _ => rfl
    not_special := show (1 : Int) ≠ 9999 by decide }

def initial : Encoder := { buf := [], depth := 0, errorCode := none }

def singleton (key : Bytes) : List (Key × Zval Unit) := [(.name key, .long 1)]

theorem phpJsonEncodeArray_emits_iff_singleton :
    (phpJsonEncodeArray noOptions zeroDoubles 512 (singleton (ascii "a")) initial).1 = .success ∧
      (EmitsJson initial
        (phpJsonEncodeArray noOptions zeroDoubles 512 (singleton (ascii "a")) initial).2 ↔
          keysAccepted noOptions (.array (singleton (ascii "a")))) :=
  have hstatus : (phpJsonEncodeArray noOptions zeroDoubles 512 (singleton (ascii "a"))
    initial).1 = .success := by decide +kernel
  ⟨hstatus, phpJsonEncodeArray_emits_iff noOptions zeroDoubles 512 lawful_zeroDoubles _ _
    (.inl hstatus)⟩

/-- The key `FF` is left out, the encoder succeeds, and the text is no JSON. -/
theorem not_emitsJson_singleton :
    (phpJsonEncodeArray noOptions zeroDoubles 512 (singleton [0xFF]) initial).1 = .success ∧
      ¬EmitsJson initial
        (phpJsonEncodeArray noOptions zeroDoubles 512 (singleton [0xFF]) initial).2 := by
  refine ⟨by decide +kernel, ?_⟩
  rintro ⟨text, hbuf, j, hj⟩
  have htext : (phpJsonEncodeArray noOptions zeroDoubles 512 (singleton [0xFF]) initial).2.buf =
      [123, 58, 49, 125] := by decide +kernel
  obtain rfl : [123, 58, 49, 125] = text := htext.symm.trans hbuf
  obtain ⟨last', hlast⟩ := hj.run 0
  exact absurd hlast (by simp [Place.run, Place.step, IsSpace])

end Json

end Phpce
