import Phpce.Json.Tokens
import Phpce.Json.Zval

/-!
# The JSON parser

`php_json_parse` with `PHP_JSON_OBJECT_AS_ARRAY`: the shifts and reductions of the generated parser
with its stack of symbols, whose height `YYMAXDEPTH` limits, and the actions of the grammar.

* `Reads` says what the parser has shifted: the stack spells the text behind it.
* **`phpJsonParse_iff`** — what the parser accepts, and what it returns.
-/

namespace Phpce

namespace Json

open Bytes JsonText List Option

/-! ## The automaton -/

/-- A symbol on the stack, with its value. `depthInc` is the empty one in front of `members` and
`elements`, `element` and `member` stand for what has been read of an array or object. -/
inductive Symbol (δ : Type*) where
  | lbrace | lbracket | depthInc | comma | colon
  | element (entries : List (Key × Zval δ))
  | member (entries : List (Key × Zval δ))
  | key (k : Bytes)
  | value (v : Zval δ)

structure Parser (δ : Type*) where
  stack : List (Symbol δ)
  depth : Nat

/-- `YYMAXDEPTH` -/
def yymaxdepth : Nat := 10000

section

variable {δ : Type*}

/-- The stack is exhausted when this many symbols are on it. -/
def exhausted (symbols : Nat) : Bool := yymaxdepth - 1 ≤ symbols

/-- A `value` can come next. -/
def expectsValue : List (Symbol δ) → Bool
  | [] => true
  | .depthInc :: .lbracket :: _ => true
  | .comma :: .element _ :: _ => true
  | .colon :: _ => true
  | _ => false

/-- A `key` can come next. -/
def expectsKey : List (Symbol δ) → Bool
  | .depthInc :: .lbrace :: _ => true
  | .comma :: .member _ :: _ => true
  | _ => false

/-- The reductions behind a `value`, with `array_create`, `array_append`, `object_create` and
`object_update`. -/
def reduceValue (v : Zval δ) : List (Symbol δ) → List (Symbol δ)
  | .depthInc :: .lbracket :: stack =>
    .element (nextIndexInsert [] v) :: .depthInc :: .lbracket :: stack
  | .comma :: .element entries :: stack => .element (nextIndexInsert entries v) :: stack
  | .colon :: .key k :: .comma :: .member entries :: stack =>
    .member (symtableUpdate entries k v) :: stack
  | .colon :: .key k :: stack => .member (symtableUpdate [] k v) :: stack
  | stack => .value v :: stack

/-- The array or object at the top: whether it is an array, its entries, how many symbols are pushed
until its bracket is on the stack, and what is below it. -/
def contents : List (Symbol δ) → Option (Bool × List (Key × Zval δ) × Nat × List (Symbol δ))
  | .depthInc :: .lbracket :: stack => some (true, [], 2, stack)
  | .element entries :: .depthInc :: .lbracket :: stack => some (true, entries, 1, stack)
  | .depthInc :: .lbrace :: stack => some (false, [], 2, stack)
  | .member entries :: .depthInc :: .lbrace :: stack => some (false, entries, 1, stack)
  | _ => none

def shift (symbol : Symbol δ) (parser : Parser δ) : Except ErrorCode (Parser δ) :=
  if exhausted (parser.stack.length + 1) then .error .syntaxError
  else .ok { parser with stack := symbol :: parser.stack }

/-- A token that is a `value`. -/
def shiftValue (v : Zval δ) (parser : Parser δ) : Except ErrorCode (Parser δ) :=
  if exhausted (parser.stack.length + 1) then .error .syntaxError
  else .ok { parser with stack := reduceValue v parser.stack }

/-- `PHP_JSON_DEPTH_INC` fails. -/
def depthError (maxDepth : Int) (parser : Parser δ) : Bool :=
  decide (maxDepth ≠ 0) && decide ((parser.depth : Int) ≥ maxDepth)

/-- The opening bracket of an array or object, and the action behind it. -/
def openBracket (maxDepth : Int) (bracket : Symbol δ) (parser : Parser δ) :
    Except ErrorCode (Parser δ) :=
  if exhausted (parser.stack.length + 1) then .error .syntaxError
  else if depthError maxDepth parser then .error .depth
  else if exhausted (parser.stack.length + 2) then .error .syntaxError
  else .ok { stack := .depthInc :: bracket :: parser.stack, depth := parser.depth + 1 }

/-- `]` or `}`. -/
def closeBracket (array : Bool) (parser : Parser δ) : Except ErrorCode (Parser δ) :=
  match contents parser.stack with
  | none => .error .syntaxError
  | some (isArray, entries, symbols, stack) =>
    if exhausted (parser.stack.length + symbols) then .error .syntaxError
    else if isArray ≠ array then .error .stateMismatch
    else .ok { stack := reduceValue (.array entries) stack, depth := parser.depth - 1 }

def tokenValue : Token δ → Option (Zval δ)
  | .nul => some .null
  | .tru => some (.bool true)
  | .fls => some (.bool false)
  | .int n => some (.long n)
  | .double d => some (.double d)
  | .string s => some (.string s)
  | .estring => some (.string [])
  | _ => none

/-- What the parser does with the next token; `none` where it accepts. -/
def step (maxDepth : Int) (token : Token δ) (parser : Parser δ) :
    Except ErrorCode (Option (Parser δ)) :=
  match token with
  | .error errcode => .error errcode
  | .eoi =>
    match parser.stack with
    | [.value _] => .ok none
    | _ => .error .syntaxError
  | .lbracket =>
    if expectsValue parser.stack then some <$> openBracket maxDepth .lbracket parser
    else .error .syntaxError
  | .lbrace =>
    if expectsValue parser.stack then some <$> openBracket maxDepth .lbrace parser
    else .error .syntaxError
  | .rbracket => some <$> closeBracket true parser
  | .rbrace => some <$> closeBracket false parser
  | .comma =>
    match parser.stack with
    | .element _ :: _ => some <$> shift .comma parser
    | .member _ :: _ => some <$> shift .comma parser
    | _ => .error .syntaxError
  | .colon =>
    match parser.stack with
    | .key _ :: _ => some <$> shift .colon parser
    | _ => .error .syntaxError
  | token =>
    match tokenValue token with
    | none => .error .syntaxError
    | some v =>
      if expectsValue parser.stack then some <$> shiftValue v parser
      else
        match v with
        | .string k =>
          if expectsKey parser.stack then some <$> shift (.key k) parser
          else .error .syntaxError
        | _ => .error .syntaxError

end

section

variable {δ : Type*} (P : Platform δ) (options : ParserOptions) (maxDepth : Int)

/-- `php_json_yyparse`, from a token on. -/
def yyparse (s : Bytes) (parser : Parser δ) : Except ErrorCode (Zval δ) :=
  match step maxDepth (scan P options s).1 parser with
  | .error errcode => .error errcode
  | .ok none =>
    match parser.stack with
    | [.value v] => .ok v
    | _ => .error .syntaxError
  | .ok (some next) =>
    -- a token with which the parser goes on has been read from at least one byte
    if (scan P options s).2.length < s.length then yyparse (scan P options s).2 next
    else .error .syntaxError
termination_by s.length

/-- `php_json_parse` of a buffer, behind `php_json_parser_init`. -/
def phpJsonParse (buffer : Bytes) : Except ErrorCode (Zval δ) :=
  yyparse P options maxDepth buffer { stack := [], depth := 1 }

end

/-! ## What is computed of a document -/

section

variable {δ : Type*} (P : Platform δ) (options : ParserOptions)

/-- The value of a document: numbers are integers where these fit, and keys are normalised. -/
def zvalOf : Algebra (Zval δ) where
  null := .null
  bool := .bool
  number l := (tokenValue (numberToken P options l)).getD .null
  string body := .string (stringValue P body)
  array vs := .array (vs.foldl nextIndexInsert [])
  object ms :=
    .array (ms.foldl (fun entries m => symtableUpdate entries (stringValue P m.1) m.2) [])

/-- How many symbols the values between two brackets need, the first of which stands behind `first`
of them and the other ones behind `more`. -/
def itemsNeed (first more : Nat) : List Nat → Nat
  | [] => 0
  | n :: ns => max (first + n) (Document.highest (ns.map (more + ·)))

/-- How many symbols the parser puts on its stack while it reads a document. -/
def stackNeed : Document → Nat :=
  Document.fold {
    null := 1
    bool := fun _ => 1
    number := fun _ => 1
    string := fun _ => 1
    array := fun ns => max 4 (itemsNeed 2 4 ns)
    object := fun ms => max 4 (itemsNeed 4 6 (ms.map Prod.snd)) }

theorem stackNeed_array (js : List Document) :
    stackNeed (.array js) = max 4 (itemsNeed 2 4 (js.map stackNeed)) := Document.fold_array _ js

theorem stackNeed_object (ms : List (Bytes × Document)) :
    stackNeed (.object ms) = max 4 (itemsNeed 4 6 (ms.map fun m => stackNeed m.2)) := by
  rw [stackNeed, Document.fold_object]
  show max 4 (itemsNeed 4 6 (List.map Prod.snd (List.map _ ms))) = _
  rw [List.map_map]
  rfl

theorem itemsNeed_append {first more : Nat} {ns : List Nat} (hns : ns ≠ []) (n : Nat) :
    itemsNeed first more (ns ++ [n]) = max (itemsNeed first more ns) (more + n) := by
  obtain ⟨m, ns, rfl⟩ := exists_cons_of_ne_nil hns
  show max (first + m) (Document.highest ((ns ++ [n]).map (more + ·))) =
    max (max (first + m) (Document.highest (ns.map (more + ·)))) (more + n)
  rw [map_append, Document.highest_append, map_singleton, Document.highest_singleton,
    Nat.max_assoc]

end

/-! ## Running the parser -/

section

variable {δ : Type*} (P : Platform δ) (options : ParserOptions) (maxDepth : Int)
variable {s r : Bytes} {parser : Parser δ} {z : Zval δ}

theorem lexeme_ne_nil {t : Token δ} {l : Bytes} (h : Lexeme P options t l) : l ≠ [] := by
  cases h with
  | number hl =>
    obtain ⟨c, t, rfl, -⟩ := head_number hl
    exact cons_ne_nil c t
  | string h => exact cons_ne_nil _ _
  | estring h => exact cons_ne_nil _ _
  | _ => exact cons_ne_nil _ _

theorem length_scan_lt {next : Parser δ}
    (h : step maxDepth (scan P options s).1 parser = .ok (some next)) :
    (scan P options s).2.length < s.length := by
  rcases lexeme_of_scan P options (s := s) (r := (scan P options s).2) (t := (scan P options s).1)
    rfl with ⟨errcode, herror⟩ | ⟨heoi, -⟩ | ⟨w, l, -, hs, hl⟩
  · rw [herror] at h
    exact absurd h (by simp [step])
  · rw [heoi, step] at h
    split at h <;> exact absurd h (by simp)
  · have hpos := length_pos_iff.mpr (lexeme_ne_nil P options hl)
    have hlen := congrArg List.length hs
    rw [length_append, length_append] at hlen
    omega

theorem yyparse_next {next : Parser δ}
    (h : step maxDepth (scan P options s).1 parser = .ok (some next)) :
    yyparse P options maxDepth s parser = yyparse P options maxDepth (scan P options s).2 next := by
  rw [yyparse, h]
  exact if_pos (length_scan_lt P options maxDepth h)

theorem yyparse_error {errcode : ErrorCode}
    (h : step maxDepth (scan P options s).1 parser = .error errcode) :
    yyparse P options maxDepth s parser = .error errcode := by
  rw [yyparse, h]

theorem yyparse_space {w : Bytes} (hw : Space w) (s : Bytes) (parser : Parser δ) :
    yyparse P options maxDepth (w ++ s) parser = yyparse P options maxDepth s parser := by
  have hscan := scan_space P options hw s
  cases hstep : step maxDepth (scan P options s).1 parser with
  | error errcode =>
    rw [yyparse_error P options maxDepth hstep,
      yyparse_error P options maxDepth (by rw [hscan]; exact hstep)]
  | ok next =>
    cases next with
    | none => rw [yyparse, yyparse, hscan, hstep]
    | some next =>
      rw [yyparse_next P options maxDepth hstep,
        yyparse_next P options maxDepth (by rw [hscan]; exact hstep), hscan]

theorem map_some_eq_ok {x : Except ErrorCode (Parser δ)} {next : Parser δ} :
    some <$> x = .ok (some next) ↔ x = .ok next := by
  cases x <;> simp [Functor.map, Except.map]

theorem map_some_ne_none {x : Except ErrorCode (Parser δ)} : some <$> x ≠ .ok none := by
  cases x <;> simp [Functor.map, Except.map]

theorem step_of_tokenValue {t : Token δ} {v : Zval δ} (h : tokenValue t = some v) :
    step maxDepth t parser =
      if expectsValue parser.stack then some <$> shiftValue v parser
      else
        match v with
        | .string k =>
          if expectsKey parser.stack then some <$> shift (.key k) parser
          else .error .syntaxError
        | _ => .error .syntaxError := by
  cases t with
  | nul | tru | fls | int | double | string | estring =>
    obtain rfl := some.inj h
    rfl
  | _ => exact absurd h (by simp [tokenValue])

theorem eoi_of_step {t : Token δ} (h : step maxDepth t parser = .ok none) :
    t = .eoi ∧ ∃ v, parser.stack = [.value v] := by
  cases hv : tokenValue t with
  | some v =>
    rw [step_of_tokenValue maxDepth hv] at h
    split at h
    · exact absurd h map_some_ne_none
    · split at h
      · split at h
        · exact absurd h map_some_ne_none
        · exact absurd h (by simp)
      · exact absurd h (by simp)
  | none =>
    cases t with
    | eoi =>
      rw [step] at h
      split at h
      next v hstack => exact ⟨rfl, v, hstack⟩
      next => exact absurd h (by simp)
    | lbrace | lbracket =>
      rw [step] at h
      split at h
      · exact absurd h map_some_ne_none
      · exact absurd h (by simp)
    | rbrace | rbracket =>
      rw [step] at h
      exact absurd h map_some_ne_none
    | colon | comma =>
      rw [step] at h
      split at h <;> first | exact absurd h map_some_ne_none | exact absurd h (by simp)
    | error errcode => exact absurd h (by simp [step])
    | nul | tru | fls | int | double | string | estring => exact absurd hv (by simp [tokenValue])

theorem yyparse_token {t : Token δ} {l : Bytes} (hscan : scan P options (l ++ r) = (t, r))
    (hne : t ≠ .eoi) :
    yyparse P options maxDepth (l ++ r) parser = .ok z ↔
      ∃ next, step maxDepth t parser = .ok (some next) ∧
        yyparse P options maxDepth r next = .ok z := by
  cases hstep : step maxDepth t parser with
  | error errcode =>
    rw [yyparse_error P options maxDepth (by rw [hscan]; exact hstep)]
    simp
  | ok next =>
    cases next with
    | none => exact absurd (eoi_of_step maxDepth hstep).1 hne
    | some next =>
      rw [yyparse_next P options maxDepth (by rw [hscan]; exact hstep), hscan]
      simp

theorem yyparse_structural {c : UInt8} {t : Token δ} {a : Bytes} (ha : Structural c a)
    (hscan : ∀ s, scan P options (c :: s) = (t, s)) (hne : t ≠ .eoi) :
    yyparse P options maxDepth (a ++ r) parser = .ok z ↔
      ∃ next, step maxDepth t parser = .ok (some next) ∧
        yyparse P options maxDepth r next = .ok z := by
  cases ha with
  | @intro w w' hw hw' =>
    rw [append_assoc, yyparse_space P options maxDepth hw]
    show yyparse P options maxDepth ([c] ++ (w' ++ r)) parser = .ok z ↔ _
    rw [yyparse_token P options maxDepth (hscan (w' ++ r)) hne]
    simp only [yyparse_space P options maxDepth hw']

/-- There is room for so many symbols, and for so many brackets in each other. -/
def Fits (parser : Parser δ) (symbols nesting : Nat) : Prop :=
  parser.stack.length + symbols ≤ 9998 ∧
    (maxDepth = 0 ∨ nesting = 0 ∨ (parser.depth : Int) + nesting ≤ maxDepth)

theorem exhausted_iff {n : Nat} : exhausted n = true ↔ ¬n ≤ 9998 := by
  rw [exhausted, decide_eq_true_iff, yymaxdepth]
  omega

theorem shift_eq_ok {symbol : Symbol δ} {next : Parser δ} :
    shift symbol parser = .ok next ↔ parser.stack.length + 1 ≤ 9998 ∧
      next = { parser with stack := symbol :: parser.stack } := by
  rw [shift]
  simp only [exhausted_iff, ite_not]
  split
  next h => simp [h, eq_comm]
  next h => simp [h]

theorem shiftValue_eq_ok {v : Zval δ} {next : Parser δ} :
    shiftValue v parser = .ok next ↔ parser.stack.length + 1 ≤ 9998 ∧
      next = { parser with stack := reduceValue v parser.stack } := by
  rw [shiftValue]
  simp only [exhausted_iff, ite_not]
  split
  next h => simp [h, eq_comm]
  next h => simp [h]

theorem openBracket_eq_ok {bracket : Symbol δ} {next : Parser δ} :
    openBracket maxDepth bracket parser = .ok next ↔
      (parser.stack.length + 2 ≤ 9998 ∧ (maxDepth = 0 ∨ (parser.depth : Int) < maxDepth)) ∧
        next = { stack := .depthInc :: bracket :: parser.stack, depth := parser.depth + 1 } := by
  have hdepth : depthError maxDepth parser = true ↔
      ¬(maxDepth = 0 ∨ (parser.depth : Int) < maxDepth) := by
    rw [depthError, Bool.and_eq_true, decide_eq_true_iff, decide_eq_true_iff]
    omega
  rw [openBracket]
  simp only [exhausted_iff, hdepth, ite_not]
  split
  next hone =>
    split
    next hroom =>
      split
      next htwo => simp [htwo, hroom, eq_comm]
      next htwo => simp [htwo]
    next hroom => simp [hroom]
  next hone =>
    have htwo : ¬parser.stack.length + 2 ≤ 9998 := by omega
    simp [htwo]

theorem closeBracket_eq_ok {array : Bool} {next : Parser δ} :
    closeBracket array parser = .ok next ↔
      ∃ entries symbols stack, contents parser.stack = some (array, entries, symbols, stack) ∧
        parser.stack.length + symbols ≤ 9998 ∧
        next = { stack := reduceValue (.array entries) stack, depth := parser.depth - 1 } := by
  rw [closeBracket]
  cases hcontents : contents parser.stack with
  | none => simp
  | some c =>
    obtain ⟨isArray, entries, symbols, stack⟩ := c
    simp only [exhausted_iff, ite_not, some.injEq, Prod.mk.injEq]
    split
    next hsymbols =>
      split
      next heq =>
        constructor
        · exact fun h => ⟨entries, symbols, stack, ⟨heq, rfl, rfl, rfl⟩, hsymbols,
            (Except.ok.inj h).symm⟩
        · rintro ⟨entries', symbols', stack', ⟨-, rfl, rfl, rfl⟩, -, rfl⟩
          rfl
      next hne =>
        refine ⟨fun h => absurd h (by simp), ?_⟩
        rintro ⟨entries', symbols', stack', ⟨heq, -⟩, -⟩
        exact absurd heq hne
    next hsymbols =>
      refine ⟨fun h => absurd h (by simp), ?_⟩
      rintro ⟨entries', symbols', stack', ⟨-, -, rfl, -⟩, hfits, -⟩
      exact absurd hfits hsymbols

/-! ## Reading a text -/

theorem yyparse_value {t : Token δ} {l : Bytes} {v : Zval δ}
    (hscan : scan P options (l ++ r) = (t, r)) (hv : tokenValue t = some v)
    (hexpects : expectsValue parser.stack = true) :
    yyparse P options maxDepth (l ++ r) parser = .ok z ↔ Fits maxDepth parser 1 0 ∧
      yyparse P options maxDepth r { parser with stack := reduceValue v parser.stack } = .ok z := by
  have hne : t ≠ .eoi := by
    rintro rfl
    exact absurd hv (by simp [tokenValue])
  rw [yyparse_token P options maxDepth hscan hne]
  simp only [step_of_tokenValue maxDepth hv, hexpects, if_true, map_some_eq_ok, shiftValue_eq_ok]
  rw [Fits]
  simp

theorem expectsValue_of_expectsKey {stack : List (Symbol δ)} (h : expectsKey stack = true) :
    expectsValue stack = false := by
  unfold expectsKey at h
  split at h
  · rfl
  · rfl
  · exact absurd h Bool.false_ne_true

theorem yyparse_key {t : Token δ} {l k : Bytes} (hscan : scan P options (l ++ r) = (t, r))
    (hv : tokenValue t = some (.string k)) (hexpects : expectsKey parser.stack = true) :
    yyparse P options maxDepth (l ++ r) parser = .ok z ↔ Fits maxDepth parser 1 0 ∧
      yyparse P options maxDepth r { parser with stack := .key k :: parser.stack } = .ok z := by
  have hne : t ≠ .eoi := by
    rintro rfl
    exact absurd hv (by simp [tokenValue])
  have hvalue := expectsValue_of_expectsKey hexpects
  rw [yyparse_token P options maxDepth hscan hne]
  simp only [step_of_tokenValue maxDepth hv, hvalue, hexpects, Bool.false_eq_true, if_false,
    if_true, map_some_eq_ok, shift_eq_ok]
  rw [Fits]
  simp

theorem scan_quoted_value {cs : List Char} {body : Bytes} (h : Literal cs body) (r : Bytes) :
    ∃ t, scan P options (quoted body ++ r) = (t, r) ∧
      tokenValue t = some (.string (stringValue P body)) := by
  rcases scan_quoted P options h r with hscan | ⟨hscan, hempty⟩
  · exact ⟨_, hscan, rfl⟩
  · exact ⟨_, hscan, by rw [hempty]; rfl⟩

theorem exists_numberToken {l : Bytes} (hl : Number l) :
    ∃ v, tokenValue (numberToken P options l) = some v := by
  cases hl with
  | intro hi hf he =>
    rw [numberToken_parts P options hi hf he, partsToken]
    split
    · rw [intToken]
      split
      · exact ⟨_, rfl⟩
      · split
        · exact ⟨_, rfl⟩
        · exact ⟨_, rfl⟩
    · exact ⟨_, rfl⟩

theorem follow_space {c : UInt8} (h : IsSpace c) (s : Bytes) : Follow (c :: s) := by
  intro b hb
  obtain rfl := some.inj hb
  revert h
  exact forall_byte (by decide +kernel) c

theorem follow_structural {c : UInt8} {a : Bytes} (h : Structural c a)
    (hc : digit c = false ∧ c ≠ 46 ∧ c ≠ 101 ∧ c ≠ 69) (r : Bytes) : Follow (a ++ r) := by
  cases h with
  | @intro w w' hw hw' =>
    cases w with
    | nil =>
      intro b hb
      obtain rfl := some.inj hb
      exact hc
    | cons b w => exact follow_space (hw b mem_cons_self) _

/-- What reading a phrase amounts to, from wherever it can come. -/
def Runs : Phrase → Bytes → Prop
  | .value j, s => ∀ (parser : Parser δ) (r : Bytes) (z : Zval δ), Follow r →
      expectsValue parser.stack = true →
      (yyparse P options maxDepth (s ++ r) parser = .ok z ↔
        Fits maxDepth parser (stackNeed j) j.nesting ∧
          yyparse P options maxDepth r
            { parser with stack := reduceValue (j.fold (zvalOf P options)) parser.stack } = .ok z)
  | .elements js, s => ∀ (stack : List (Symbol δ)) (depth : Nat) (r : Bytes) (z : Zval δ),
      Follow r →
      (yyparse P options maxDepth (s ++ r) ⟨.depthInc :: .lbracket :: stack, depth⟩ = .ok z ↔
        Fits maxDepth ⟨stack, depth⟩ (itemsNeed 2 4 (js.map stackNeed))
          (Document.highest (js.map Document.nesting)) ∧
          yyparse P options maxDepth r ⟨.element ((js.map (Document.fold (zvalOf P options))).foldl
            nextIndexInsert []) :: .depthInc :: .lbracket :: stack, depth⟩ = .ok z)
  | .member key j, s => ∀ (parser : Parser δ) (r : Bytes) (z : Zval δ), Follow r →
      expectsKey parser.stack = true →
      (yyparse P options maxDepth (s ++ r) parser = .ok z ↔
        Fits maxDepth parser (2 + stackNeed j) j.nesting ∧
          yyparse P options maxDepth r
            { parser with stack := (reduceValue (j.fold (zvalOf P options))
              (.colon :: .key (stringValue P key) :: parser.stack)) } = .ok z)
  | .members ms, s => ∀ (stack : List (Symbol δ)) (depth : Nat) (r : Bytes) (z : Zval δ),
      Follow r →
      (yyparse P options maxDepth (s ++ r) ⟨.depthInc :: .lbrace :: stack, depth⟩ = .ok z ↔
        Fits maxDepth ⟨stack, depth⟩ (itemsNeed 4 6 (ms.map fun m => stackNeed m.2))
          (Document.highest (ms.map fun m => m.2.nesting)) ∧
          yyparse P options maxDepth r ⟨.member ((ms.map (Prod.map id (Document.fold
            (zvalOf P options)))).foldl (fun entries m => symtableUpdate entries
              (stringValue P m.1) m.2) []) :: .depthInc :: .lbrace :: stack, depth⟩ = .ok z)

theorem stackNeed_pos (j : Document) : 0 < stackNeed j := by
  cases j with
  | array js =>
    rw [stackNeed_array]
    omega
  | object ms =>
    rw [stackNeed_object]
    omega
  | _ => exact Nat.one_pos

theorem yyparse_open {c : UInt8} {t : Token δ} {a : Bytes} {bracket : Symbol δ}
    (ha : Structural c a) (hscan : ∀ s, scan P options (c :: s) = (t, s)) (hne : t ≠ .eoi)
    (hstep : step maxDepth t parser = some <$> openBracket maxDepth bracket parser) :
    yyparse P options maxDepth (a ++ r) parser = .ok z ↔
      (parser.stack.length + 2 ≤ 9998 ∧ (maxDepth = 0 ∨ (parser.depth : Int) < maxDepth)) ∧
        yyparse P options maxDepth r
          ⟨.depthInc :: bracket :: parser.stack, parser.depth + 1⟩ = .ok z := by
  rw [yyparse_structural P options maxDepth ha hscan hne]
  simp only [hstep, map_some_eq_ok, openBracket_eq_ok, and_assoc, exists_and_left, exists_eq_left]

theorem yyparse_close {c : UInt8} {t : Token δ} {b : Bytes} {array : Bool}
    {entries : List (Key × Zval δ)} {symbols : Nat} {stack : List (Symbol δ)}
    (hb : Structural c b) (hscan : ∀ s, scan P options (c :: s) = (t, s)) (hne : t ≠ .eoi)
    (hstep : step maxDepth t parser = some <$> closeBracket array parser)
    (hcontents : contents parser.stack = some (array, entries, symbols, stack)) :
    yyparse P options maxDepth (b ++ r) parser = .ok z ↔
      parser.stack.length + symbols ≤ 9998 ∧
        yyparse P options maxDepth r
          ⟨reduceValue (.array entries) stack, parser.depth - 1⟩ = .ok z := by
  rw [yyparse_structural P options maxDepth hb hscan hne]
  simp only [hstep, map_some_eq_ok, closeBracket_eq_ok, hcontents]
  constructor
  · rintro ⟨next, ⟨entries', symbols', stack', heq, hfits, rfl⟩, hrun⟩
    obtain ⟨-, rfl, rfl, rfl⟩ := some.inj heq
    exact ⟨hfits, hrun⟩
  · rintro ⟨hfits, hrun⟩
    exact ⟨_, ⟨entries, symbols, stack, rfl, hfits, rfl⟩, hrun⟩

theorem yyparse_shift {c : UInt8} {t : Token δ} {a : Bytes} {symbol : Symbol δ}
    (ha : Structural c a) (hscan : ∀ s, scan P options (c :: s) = (t, s)) (hne : t ≠ .eoi)
    (hstep : step maxDepth t parser = some <$> shift symbol parser) :
    yyparse P options maxDepth (a ++ r) parser = .ok z ↔
      parser.stack.length + 1 ≤ 9998 ∧
        yyparse P options maxDepth r
          { parser with stack := symbol :: parser.stack } = .ok z := by
  rw [yyparse_structural P options maxDepth ha hscan hne]
  simp only [hstep, map_some_eq_ok, shift_eq_ok, and_assoc, exists_and_left, exists_eq_left]

theorem step_lbracket (h : expectsValue parser.stack = true) :
    step maxDepth .lbracket parser = some <$> openBracket maxDepth .lbracket parser := by
  rw [step, if_pos h]

theorem step_lbrace (h : expectsValue parser.stack = true) :
    step maxDepth .lbrace parser = some <$> openBracket maxDepth .lbrace parser := by
  rw [step, if_pos h]

/-- **Reading a phrase**: where there is room for it, the parser comes to stand behind it with its
value reduced, and else it fails. -/
theorem runs_of_derives {phrase : Phrase} (h : Derives phrase s) :
    Runs P options maxDepth phrase s := by
  have hopen := fun s => (scan_structural P options s).2.2.1
  have hclose := fun s => (scan_structural P options s).2.2.2.1
  have hopen' := fun s => (scan_structural P options s).1
  have hclose' := fun s => (scan_structural P options s).2.1
  have hcolon := fun s => (scan_structural P options s).2.2.2.2.1
  have hcomma := fun s => (scan_structural P options s).2.2.2.2.2
  -- induction on the derivation
  induction h with
  | null =>
    exact fun parser r z _ hexpects =>
      yyparse_value P options maxDepth (scan_literals P options r).1 rfl hexpects
  | tru =>
    exact fun parser r z _ hexpects =>
      yyparse_value P options maxDepth (scan_literals P options r).2.1 rfl hexpects
  | fls =>
    exact fun parser r z _ hexpects =>
      yyparse_value P options maxDepth (scan_literals P options r).2.2 rfl hexpects
  | @number l hl =>
    intro parser r z hr hexpects
    obtain ⟨v, hv⟩ := exists_numberToken P options hl
    have hvalue : Document.fold (zvalOf P options) (.number l) = v := by
      show (tokenValue (numberToken P options l)).getD .null = v
      rw [hv]
      rfl
    rw [hvalue]
    exact yyparse_value P options maxDepth (scan_number P options hl hr) hv hexpects
  | @string cs body hbody =>
    intro parser r z hr hexpects
    obtain ⟨t, hscan, hv⟩ := scan_quoted_value P options hbody r
    exact yyparse_value P options maxDepth hscan hv hexpects
  | emptyArray ha hb =>
    intro parser r z hr hexpects
    rw [append_assoc, yyparse_open P options maxDepth ha hopen nofun
      (step_lbracket maxDepth hexpects),
      yyparse_close P options maxDepth hb hclose nofun rfl rfl, ← and_assoc]
    refine and_congr_left' ?_
    rw [Fits, stackNeed_array, Document.nesting_array]
    simp only [map_nil, itemsNeed, Document.highest, foldr_nil, length_cons]
    omega
  | @array js a s b ha hs hb ih =>
    intro parser r z hr hexpects
    have hfollow := follow_structural hb (by decide) r
    rw [append_assoc, append_assoc, yyparse_open P options maxDepth ha hopen
      nofun (step_lbracket maxDepth hexpects), ih _ _ _ _ hfollow,
      yyparse_close P options maxDepth hb hclose nofun rfl rfl, ← and_assoc,
      ← and_assoc, Document.fold_array]
    refine and_congr_left' ?_
    rw [Fits, Fits, stackNeed_array, Document.nesting_array]
    simp only [length_cons]
    omega
  | @element j s hs ih =>
    intro stack depth r z hr
    rw [ih ⟨.depthInc :: .lbracket :: stack, depth⟩ r z hr rfl]
    refine and_congr_left' ?_
    rw [Fits, Fits, map_singleton, map_singleton, Document.highest_singleton]
    simp only [length_cons, itemsNeed, map_nil, Document.highest, foldr_nil]
    omega
  | @moreElements js j s c t hs hc ht ihs iht =>
    intro stack depth r z hr
    have hfollow := follow_structural hc (by decide) (t ++ r)
    rw [append_assoc, append_assoc, ihs stack depth _ z hfollow,
      yyparse_shift P options maxDepth hc hcomma nofun rfl, iht _ r z hr rfl,
      ← and_assoc, ← and_assoc, map_append, map_append, map_append,
      foldl_append]
    refine and_congr_left' ?_
    have hne : js.map stackNeed ≠ [] := mt map_eq_nil_iff.mp hs.elements_ne_nil
    have hpos := stackNeed_pos j
    rw [Fits, Fits, Fits, map_singleton, map_singleton, itemsNeed_append hne,
      Document.highest_append, Document.highest_singleton]
    simp only [length_cons]
    omega
  | emptyObject ha hb =>
    intro parser r z hr hexpects
    rw [append_assoc, yyparse_open P options maxDepth ha hopen' nofun
      (step_lbrace maxDepth hexpects),
      yyparse_close P options maxDepth hb hclose' nofun rfl rfl, ← and_assoc]
    refine and_congr_left' ?_
    rw [Fits, stackNeed_object, Document.nesting_object]
    simp only [map_nil, itemsNeed, Document.highest, foldr_nil, length_cons]
    omega
  | @object ms a s b ha hs hb ih =>
    intro parser r z hr hexpects
    have hfollow := follow_structural hb (by decide) r
    rw [append_assoc, append_assoc, yyparse_open P options maxDepth ha hopen'
      nofun (step_lbrace maxDepth hexpects), ih _ _ _ _ hfollow,
      yyparse_close P options maxDepth hb hclose' nofun rfl rfl, ← and_assoc,
      ← and_assoc, Document.fold_object]
    refine and_congr_left' ?_
    rw [Fits, Fits, stackNeed_object, Document.nesting_object]
    simp only [length_cons]
    omega
  | @pair cs key j c t hkey hc ht ih =>
    intro parser r z hr hexpects
    obtain ⟨token, hscan, hv⟩ := scan_quoted_value P options hkey (c ++ (t ++ r))
    rw [append_assoc, append_assoc, yyparse_key P options maxDepth hscan hv hexpects,
      yyparse_shift P options maxDepth hc hcolon nofun rfl, ih _ r z hr rfl,
      ← and_assoc, ← and_assoc]
    refine and_congr_left' ?_
    have hpos := stackNeed_pos j
    rw [Fits, Fits, Fits]
    simp only [length_cons, true_or, or_true, and_true]
    omega
  | @member key j s hs ih =>
    intro stack depth r z hr
    rw [ih ⟨.depthInc :: .lbrace :: stack, depth⟩ r z hr rfl]
    refine and_congr_left' ?_
    rw [Fits, Fits, map_singleton, map_singleton, Document.highest_singleton]
    simp only [length_cons, itemsNeed, map_nil, Document.highest, foldr_nil]
    omega
  | @moreMembers ms key j s c t hs hc ht ihs iht =>
    intro stack depth r z hr
    have hfollow := follow_structural hc (by decide) (t ++ r)
    rw [append_assoc, append_assoc, ihs stack depth _ z hfollow,
      yyparse_shift P options maxDepth hc hcomma nofun rfl, iht _ r z hr rfl,
      ← and_assoc, ← and_assoc, map_append, map_append, map_append,
      foldl_append]
    refine and_congr_left' ?_
    have hne : (ms.map fun m => stackNeed m.2) ≠ [] :=
      mt map_eq_nil_iff.mp hs.members_ne_nil
    have hpos := stackNeed_pos j
    rw [Fits, Fits, Fits, map_singleton, map_singleton, itemsNeed_append hne,
      Document.highest_append, Document.highest_singleton]
    simp only [length_cons]
    omega

/-! ## What has been read -/

inductive Reads : List (Symbol δ) → Bytes → Prop
  | nil : Reads [] []
  | value {w t : Bytes} {v : Zval δ} {j : Document} (hw : Space w) (ht : Derives (.value j) t) :
      Reads [.value v] (w ++ t)
  | openArray {stack : List (Symbol δ)} {y w : Bytes} (hstack : Reads stack y)
      (hexpects : expectsValue stack = true) (hw : Space w) :
      Reads (.depthInc :: .lbracket :: stack) (y ++ w ++ [91])
  | elements {stack : List (Symbol δ)} {y w t : Bytes} {entries : List (Key × Zval δ)}
      {js : List Document} (hstack : Reads (.depthInc :: .lbracket :: stack) y) (hw : Space w)
      (ht : Derives (.elements js) t) :
      Reads (.element entries :: .depthInc :: .lbracket :: stack) (y ++ w ++ t)
  | elementComma {stack : List (Symbol δ)} {y w : Bytes} {entries : List (Key × Zval δ)}
      (hstack : Reads (.element entries :: stack) y) (hw : Space w) :
      Reads (.comma :: .element entries :: stack) (y ++ w ++ [44])
  | openObject {stack : List (Symbol δ)} {y w : Bytes} (hstack : Reads stack y)
      (hexpects : expectsValue stack = true) (hw : Space w) :
      Reads (.depthInc :: .lbrace :: stack) (y ++ w ++ [123])
  | members {stack : List (Symbol δ)} {y w t : Bytes} {entries : List (Key × Zval δ)}
      {ms : List (Bytes × Document)} (hstack : Reads (.depthInc :: .lbrace :: stack) y)
      (hw : Space w) (ht : Derives (.members ms) t) :
      Reads (.member entries :: .depthInc :: .lbrace :: stack) (y ++ w ++ t)
  | memberComma {stack : List (Symbol δ)} {y w : Bytes} {entries : List (Key × Zval δ)}
      (hstack : Reads (.member entries :: stack) y) (hw : Space w) :
      Reads (.comma :: .member entries :: stack) (y ++ w ++ [44])
  | key {stack : List (Symbol δ)} {y w body k : Bytes} {cs : List Char} (hstack : Reads stack y)
      (hexpects : expectsKey stack = true) (hw : Space w) (hbody : Literal cs body) :
      Reads (.key k :: stack) (y ++ w ++ quoted body)
  | colon {stack : List (Symbol δ)} {y w k : Bytes} (hstack : Reads (.key k :: stack) y)
      (hw : Space w) : Reads (.colon :: .key k :: stack) (y ++ w ++ [58])

variable {stack : List (Symbol δ)} {y w t : Bytes}

theorem Reads.reduceValue {j : Document} (h : Reads stack y) (hexpects : expectsValue stack = true)
    (hw : Space w) (ht : Derives (.value j) t) (v : Zval δ) :
    Reads (reduceValue v stack) (y ++ w ++ t) := by
  cases h with
  | nil => exact .value hw ht
  | value => exact absurd hexpects (by simp [expectsValue])
  | openArray hstack hexpects' hw' =>
    exact .elements (.openArray hstack hexpects' hw') hw (.element ht)
  | @elementComma _ _ w' _ hstack hw' =>
    cases hstack with
    | @elements _ y₁ w₁ t₁ _ js hstack hw₁ ht₁ =>
      have happend : y₁ ++ w₁ ++ t₁ ++ w' ++ [44] ++ w ++ t =
          y₁ ++ w₁ ++ (t₁ ++ (w' ++ 44 :: w) ++ t) := by
        simp only [append_assoc, cons_append, nil_append]
      rw [happend]
      exact .elements hstack hw₁ (.moreElements ht₁ (.intro hw' hw) ht)
  | @colon _ _ w' _ hstack hw' =>
    cases hstack with
    | @key _ y₁ w₁ body _ cs hstack hexpects' hw₁ hbody =>
      cases hstack with
      | @openObject _ y₂ w₂ hstack hexpects'' hw₂ =>
        have happend : y₂ ++ w₂ ++ [123] ++ w₁ ++ quoted body ++ w' ++ [58] ++ w ++ t =
            y₂ ++ w₂ ++ [123] ++ w₁ ++ (quoted body ++ (w' ++ 58 :: w) ++ t) := by
          simp only [append_assoc, cons_append, nil_append]
        rw [happend]
        exact .members (.openObject hstack hexpects'' hw₂) hw₁
          (.member (.pair hbody (.intro hw' hw) ht))
      | @memberComma _ _ w₂ _ hstack hw₂ =>
        cases hstack with
        | @members _ y₃ w₃ t₃ _ ms hstack hw₃ ht₃ =>
          have happend : y₃ ++ w₃ ++ t₃ ++ w₂ ++ [44] ++ w₁ ++ quoted body ++ w' ++ [58] ++ w ++ t =
              y₃ ++ w₃ ++ (t₃ ++ (w₂ ++ 44 :: w₁) ++ (quoted body ++ (w' ++ 58 :: w) ++ t)) := by
            simp only [append_assoc, cons_append, nil_append]
          rw [happend]
          exact .members hstack hw₃ (.moreMembers ht₃ (.intro hw₂ hw₁)
            (.pair hbody (.intro hw' hw) ht))
      | _ => exact absurd hexpects' (by simp [expectsKey])
  | _ => exact absurd hexpects (by simp [expectsValue])

theorem Reads.reduceSpaced {j : Document} (h : Reads stack y)
    (hexpects : expectsValue stack = true) (ht : Derives (.value j) t) (v : Zval δ) :
    Reads (Json.reduceValue v stack) (y ++ t) := by
  have hreads := h.reduceValue hexpects space_nil ht v
  rwa [append_nil] at hreads

theorem Reads.contents {array : Bool} {entries : List (Key × Zval δ)} {symbols : Nat}
    {below : List (Symbol δ)} (h : Reads stack y)
    (hcontents : contents stack = some (array, entries, symbols, below)) (hw : Space w)
    (v : Zval δ) :
    Reads (Json.reduceValue v below) (y ++ w ++ [if array then 93 else 125]) := by
  cases h with
  | openArray hstack hexpects hw₁ =>
    obtain ⟨rfl, -, -, rfl⟩ := some.inj hcontents
    have hempty := Derives.emptyArray (.intro hw₁ hw) (structural_singleton 93)
    simpa using hstack.reduceSpaced hexpects hempty v
  | elements hstack hw₁ ht₁ =>
    cases hstack with
    | openArray hstack hexpects hw₂ =>
      obtain ⟨rfl, -, -, rfl⟩ := some.inj hcontents
      have harray := Derives.array (.intro hw₂ hw₁) ht₁ (.intro hw space_nil)
      simpa using hstack.reduceSpaced hexpects harray v
  | openObject hstack hexpects hw₁ =>
    obtain ⟨rfl, -, -, rfl⟩ := some.inj hcontents
    have hempty := Derives.emptyObject (.intro hw₁ hw) (structural_singleton 125)
    simpa using hstack.reduceSpaced hexpects hempty v
  | members hstack hw₁ ht₁ =>
    cases hstack with
    | openObject hstack hexpects hw₂ =>
      obtain ⟨rfl, -, -, rfl⟩ := some.inj hcontents
      have hobject := Derives.object (.intro hw₂ hw₁) ht₁ (.intro hw space_nil)
      simpa using hstack.reduceSpaced hexpects hobject v
  | _ => exact absurd hcontents (by simp [Json.contents])

theorem numberToken_ne_string (hbig : options.bigintAsString = false) {l : Bytes} (hl : Number l)
    (k : Bytes) : tokenValue (numberToken P options l) ≠ some (.string k) := by
  cases hl with
  | intro hi hf he =>
    rw [numberToken_parts P options hi hf he, partsToken]
    split
    · rw [intToken]
      split
      · simp [tokenValue]
      · rw [if_neg (by rw [hbig]; exact Bool.false_ne_true)]
        simp [tokenValue]
    · simp [tokenValue]

theorem value_of_lexeme (hbig : options.bigintAsString = false) {token : Token δ} {l : Bytes}
    {v : Zval δ} (hl : Lexeme P options token l) (hv : tokenValue token = some v) :
    (∃ j, Derives (.value j) l) ∧
      ∀ k, v = .string k → ∃ cs body, Literal cs body ∧ l = quoted body := by
  cases hl with
  | nul =>
    obtain rfl := some.inj hv
    exact ⟨⟨_, .null⟩, fun k hk => by cases hk⟩
  | tru =>
    obtain rfl := some.inj hv
    exact ⟨⟨_, .tru⟩, fun k hk => by cases hk⟩
  | fls =>
    obtain rfl := some.inj hv
    exact ⟨⟨_, .fls⟩, fun k hk => by cases hk⟩
  | number hl =>
    refine ⟨⟨_, .number hl⟩, ?_⟩
    rintro k rfl
    exact absurd hv (numberToken_ne_string P options hbig hl k)
  | string hbody => exact ⟨⟨_, .string hbody⟩, fun k _ => ⟨_, _, hbody, rfl⟩⟩
  | estring hbody => exact ⟨⟨_, .string hbody⟩, fun k _ => ⟨_, _, hbody, rfl⟩⟩
  | _ => exact absurd hv (by simp [tokenValue])

theorem reads_step (hbig : options.bigintAsString = false) {next : Parser δ}
    (hreads : Reads parser.stack y)
    (hstep : step maxDepth (scan P options s).1 parser = .ok (some next)) :
    ∃ y', Reads next.stack y' ∧ y' ++ (scan P options s).2 = y ++ s := by
  rcases lexeme_of_scan P options (s := s) (r := (scan P options s).2) (t := (scan P options s).1)
    rfl with ⟨errcode, herror⟩ | ⟨heoi, -⟩ | ⟨w, l, hw, hs, hl⟩
  · rw [herror] at hstep
    exact absurd hstep (by simp [step])
  · rw [heoi, step] at hstep
    split at hstep <;> exact absurd hstep (by simp)
  generalize (scan P options s).1 = token at *
  generalize (scan P options s).2 = rest at *
  subst hs
  suffices h : Reads next.stack (y ++ w ++ l) from ⟨_, h, by simp only [append_assoc]⟩
  cases hv : tokenValue token with
  | some v =>
    obtain ⟨⟨j, hj⟩, hkey⟩ := value_of_lexeme P options hbig hl hv
    rw [step_of_tokenValue maxDepth hv] at hstep
    split at hstep
    next hexpects =>
      obtain ⟨-, rfl⟩ := shiftValue_eq_ok.mp (map_some_eq_ok.mp hstep)
      exact hreads.reduceValue hexpects hw hj v
    next =>
      split at hstep
      next k hv' =>
        obtain ⟨cs, body, hbody, rfl⟩ := hkey k rfl
        split at hstep
        next hexpects =>
          obtain ⟨-, rfl⟩ := shift_eq_ok.mp (map_some_eq_ok.mp hstep)
          exact .key hreads hexpects hw hbody
        next => exact absurd hstep (by simp)
      next => exact absurd hstep (by simp)
  | none =>
    cases hl with
    | lbracket =>
      rw [step] at hstep
      split at hstep
      next hexpects =>
        obtain ⟨-, rfl⟩ := (openBracket_eq_ok maxDepth).mp (map_some_eq_ok.mp hstep)
        exact .openArray hreads hexpects hw
      next => exact absurd hstep (by simp)
    | lbrace =>
      rw [step] at hstep
      split at hstep
      next hexpects =>
        obtain ⟨-, rfl⟩ := (openBracket_eq_ok maxDepth).mp (map_some_eq_ok.mp hstep)
        exact .openObject hreads hexpects hw
      next => exact absurd hstep (by simp)
    | rbracket =>
      obtain ⟨entries, symbols, below, hcontents, -, rfl⟩ :=
        closeBracket_eq_ok.mp (map_some_eq_ok.mp hstep)
      exact hreads.contents hcontents hw _
    | rbrace =>
      obtain ⟨entries, symbols, below, hcontents, -, rfl⟩ :=
        closeBracket_eq_ok.mp (map_some_eq_ok.mp hstep)
      exact hreads.contents hcontents hw _
    | comma =>
      rw [step] at hstep
      split at hstep
      next entries stack hstack =>
        obtain ⟨-, rfl⟩ := shift_eq_ok.mp (map_some_eq_ok.mp hstep)
        rw [hstack] at hreads ⊢
        exact .elementComma hreads hw
      next entries stack hstack =>
        obtain ⟨-, rfl⟩ := shift_eq_ok.mp (map_some_eq_ok.mp hstep)
        rw [hstack] at hreads ⊢
        exact .memberComma hreads hw
      next => exact absurd hstep (by simp)
    | colon =>
      rw [step] at hstep
      split at hstep
      next k stack hstack =>
        obtain ⟨-, rfl⟩ := shift_eq_ok.mp (map_some_eq_ok.mp hstep)
        rw [hstack] at hreads ⊢
        exact .colon hreads hw
      next => exact absurd hstep (by simp)
    | number hl =>
      obtain ⟨v, hsome⟩ := exists_numberToken P options hl
      exact absurd (hsome.symm.trans hv) (by simp)
    | _ => exact absurd hv (by simp [tokenValue])

theorem lexeme_ne_eoi {token : Token δ} {l : Bytes} (hl : Lexeme P options token l) :
    token ≠ .eoi := by
  cases hl with
  | number hl =>
    obtain ⟨v, hv⟩ := exists_numberToken P options hl
    intro heoi
    rw [heoi] at hv
    exact absurd hv (by simp [tokenValue])
  | _ => exact fun h => by cases h

theorem text_of_yyparse (hbig : options.bigintAsString = false) {s y : Bytes} {parser : Parser δ}
    (hreads : Reads parser.stack y)
    (h : yyparse P options maxDepth s parser = .ok z) : ∃ j, Text j (y ++ s) := by
  cases hstep : step maxDepth (scan P options s).1 parser with
  | error errcode =>
    rw [yyparse_error P options maxDepth hstep] at h
    exact absurd h (by simp)
  | ok next =>
    cases next with
    | some next =>
      rw [yyparse_next P options maxDepth hstep] at h
      obtain ⟨y', hreads', heq⟩ := reads_step P options maxDepth hbig hreads hstep
      obtain ⟨j, hj⟩ := text_of_yyparse hbig hreads' h
      exact ⟨j, heq ▸ hj⟩
    | none =>
      obtain ⟨heoi, v, hstack⟩ := eoi_of_step maxDepth hstep
      rcases lexeme_of_scan P options (s := s) (r := (scan P options s).2)
        (t := (scan P options s).1) rfl with ⟨errcode, herror⟩ | ⟨-, hspace⟩ | ⟨w, l, -, -, hl⟩
      · exact absurd (heoi.symm.trans herror) (by simp)
      · rw [hstack] at hreads
        cases hreads with
        | value hw ht => exact ⟨_, .intro hw ht hspace⟩
      · exact absurd heoi (lexeme_ne_eoi P options hl)
termination_by s.length
decreasing_by exact length_scan_lt P options maxDepth hstep

def Admitted (nesting : Nat) : Prop :=
  maxDepth = 0 ∨ nesting = 0 ∨ (nesting : Int) < maxDepth

theorem text_iff (buffer : Bytes) (z : Zval δ) {j : Document} (h : Text j buffer) :
    phpJsonParse P options maxDepth buffer = .ok z ↔
      (stackNeed j ≤ 9998 ∧ Admitted maxDepth j.nesting) ∧ j.fold (zvalOf P options) = z := by
  cases h with
  | @intro w s w' hw hs hw' =>
    have hfollow : Follow w' := by
      cases w' with
      | nil => exact follow_nil
      | cons c w' => exact follow_space (hw' c mem_cons_self) w'
    rw [phpJsonParse, append_assoc, yyparse_space P options maxDepth hw,
      runs_of_derives P options maxDepth hs ⟨[], 1⟩ w' z hfollow rfl]
    have hend : yyparse P options maxDepth w' ⟨[.value (j.fold (zvalOf P options))], 1⟩ =
        .ok (j.fold (zvalOf P options)) := by
      have hnil := yyparse_space P options maxDepth hw' [] ⟨[.value (j.fold (zvalOf P options))], 1⟩
      rw [append_nil] at hnil
      rw [hnil, yyparse, scan_nil]
      rfl
    show Fits maxDepth ⟨[], 1⟩ (stackNeed j) j.nesting ∧
      yyparse P options maxDepth w' ⟨[.value (j.fold (zvalOf P options))], 1⟩ = .ok z ↔ _
    rw [hend, Except.ok.injEq, Fits, Admitted]
    refine and_congr_left' ?_
    simp only [length_nil]
    omega

theorem parse_eq_ok_iff (hbig : options.bigintAsString = false) (buffer : Bytes) (z : Zval δ) :
    phpJsonParse P options maxDepth buffer = .ok z ↔
      ∃ j, Text j buffer ∧ (stackNeed j ≤ 9998 ∧ Admitted maxDepth j.nesting) ∧
        j.fold (zvalOf P options) = z := by
  constructor
  · intro h
    obtain ⟨j, hj⟩ := text_of_yyparse P options maxDepth hbig Reads.nil h
    exact ⟨j, hj, (text_iff P options maxDepth buffer z hj).mp h⟩
  · rintro ⟨j, hj, hfits⟩
    exact (text_iff P options maxDepth buffer z hj).mpr hfits

end

/-! ## Acceptance -/

section

variable {δ : Type*} (P : Platform δ)

/-- `PHP_JSON_OBJECT_AS_ARRAY` -/
def objectAsArray : ParserOptions := { bigintAsString := false }

/-- **What the parser accepts, and what it returns**: the texts of the grammar that are not nested
too deep for `max_depth` and for the stack of the parser, with their values. What the strings of a
text denote is what is read, and the two passes over a string agree about its length, where the
literal is less than 2^31 bytes longer than what it denotes. -/
theorem phpJsonParse_iff (maxDepth : Int) (buffer : Bytes) :
    (∀ z, phpJsonParse P objectAsArray maxDepth buffer = .ok z ↔
      ∃ j, Text j buffer ∧ (stackNeed j ≤ 9998 ∧ Admitted maxDepth j.nesting) ∧
        j.fold (zvalOf P objectAsArray) = z) ∧
      ∀ cs body rest, Literal cs body → body.length < (Utf8.encode cs).length + 2 ^ 31 →
        stringValue P body = Utf8.encode cs ∧
          ∃ cursor strEsc out, strP1 (body ++ 34 :: rest) 0 0 = .ok (cursor, strEsc, rest) ∧
            strP2 (body ++ 34 :: rest) [] [] = .ok (out, rest) ∧
            firstPassLength cursor strEsc = out.length := by
  refine ⟨fun z => parse_eq_ok_iff P objectAsArray maxDepth rfl buffer z, ?_⟩
  intro cs body rest h hshort
  obtain ⟨cursor, strEsc, hfirst, hlen, -, hsecond⟩ := passes_agree h hshort rest
  exact ⟨stringValue_eq P h hshort, cursor, strEsc, _, hfirst, hsecond, hlen⟩

/-- What the parser accepts is a text, and a text that is nested less deep than `max_depth` is
accepted. -/
def AcceptsExactly (maxDepth : Int) (buffer : Bytes) : Prop :=
  ((∃ z, phpJsonParse P objectAsArray maxDepth buffer = .ok z) → ∃ j, Text j buffer) ∧
    ∀ j, Text j buffer → (j.nesting : Int) < maxDepth →
      ∃ z, phpJsonParse P objectAsArray maxDepth buffer = .ok z

/-- `n + 1` arrays in each other. -/
def nestedArrays : Nat → Document
  | 0 => .array []
  | n + 1 => .array [nestedArrays n]

def nestedText (n : Nat) : Bytes := replicate n 91 ++ replicate n 93

theorem text_nestedArrays (n : Nat) : Text (nestedArrays n) (nestedText (n + 1)) := by
  have hvalue : Derives (.value (nestedArrays n)) (nestedText (n + 1)) := by
    -- induction on the arrays inside
    induction n with
    | zero => exact .emptyArray (structural_singleton 91) (structural_singleton 93)
    | succ n ih =>
      have houter := Derives.array (structural_singleton 91) (.element ih) (structural_singleton 93)
      have happend : [91] ++ nestedText (n + 1) ++ [93] = nestedText (n + 2) := by
        have hclose : replicate (n + 2) (93 : UInt8) = replicate (n + 1) 93 ++ [93] :=
          replicate_succ'
        have hopen : replicate (n + 2) (91 : UInt8) = 91 :: replicate (n + 1) 91 := rfl
        rw [nestedText, nestedText, hclose, hopen]
        simp only [cons_append, nil_append, append_assoc]
      exact happend ▸ houter
  have htext := Text.intro space_nil hvalue space_nil
  rwa [nil_append, append_nil] at htext

theorem stackNeed_nestedArrays (n : Nat) : stackNeed (nestedArrays n) = 2 * n + 4 := by
  induction n with
  | zero => rfl
  | succ n ih =>
    rw [nestedArrays, stackNeed_array, map_singleton, ih]
    show max 4 (max (2 + (2 * n + 4)) 0) = _
    omega

theorem nesting_nestedArrays (n : Nat) : (nestedArrays n).nesting = n + 1 := by
  induction n with
  | zero => rfl
  | succ n ih =>
    rw [nestedArrays, Document.nesting_array, map_singleton, ih, Document.highest_singleton]

theorem parse_nestedText {n : Nat} (hn : 4998 ≤ n) (maxDepth : Int) (z : Zval δ) :
    phpJsonParse P objectAsArray maxDepth (nestedText (n + 1)) ≠ .ok z := by
  intro h
  have hneed := ((text_iff P objectAsArray maxDepth _ z (text_nestedArrays n)).mp h).1.1
  rw [stackNeed_nestedArrays] at hneed
  omega

/-- 5000 arrays in each other are a text, and nested less deep than a `max_depth` of 6000. -/
theorem not_acceptsExactly :
    ¬AcceptsExactly (⟨fun _ => (), fun _ => 0⟩ : Platform Unit) 6000 (nestedText 5000) := by
  intro h
  obtain ⟨z, hz⟩ := h.2 _ (text_nestedArrays 4999) (by rw [nesting_nestedArrays]; decide)
  exact parse_nestedText _ (by decide) 6000 z hz

end

end Json

end Phpce
