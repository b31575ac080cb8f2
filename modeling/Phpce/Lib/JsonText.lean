import Phpce.Lib.Decimal
import Phpce.Lib.Utf8

/-!
# JSON texts

The grammar of RFC 8259 over bytes, with the two restrictions that its section 8 describes: a text
is encoded in UTF-8, and the escapes of surrogates come in pairs.

* `Document` is what a text is a text of; numbers and strings stand in it as they are written.
* `Text j s` says that `s` is a JSON text of `j`. `Derives` has the rules of the grammar, and
  `Literal cs s` says that `s`, between two quotes, is a string of the characters `cs`.
* `Place.run` goes through a text and looks for a colon that stands outside of the strings and not
  behind one. `Derives.run` says that there is none.
* `Document.fold` computes something of a document, by an `Algebra` of what is computed for each
  kind of value. `Document.nesting` is one such thing.
-/

namespace JsonText

open Bytes Utf8 List

/-! ## Documents -/

inductive Document where
  | null
  | bool (b : Bool)
  | number (lexeme : Bytes)
  | string (literal : Bytes)
  | array (elements : List Document)
  | object (members : List (Bytes × Document))

/-- What is computed for each kind of value, from what has been computed for its parts. -/
structure Algebra (α : Type*) where
  null : α
  bool : Bool → α
  number : Bytes → α
  string : Bytes → α
  array : List α → α
  object : List (Bytes × α) → α

namespace Document

variable {α : Type*} (A : Algebra α)

mutual

def fold : Document → α
  | null => A.null
  | bool b => A.bool b
  | number lexeme => A.number lexeme
  | string literal => A.string literal
  | array elements => A.array (foldElements elements)
  | object members => A.object (foldMembers members)

def foldElements : List Document → List α
  | [] => []
  | j :: js => fold j :: foldElements js

def foldMember : Bytes × Document → Bytes × α
  | (k, j) => (k, fold j)

def foldMembers : List (Bytes × Document) → List (Bytes × α)
  | [] => []
  | m :: ms => foldMember m :: foldMembers ms

end

theorem foldElements_eq (js : List Document) : foldElements A js = js.map (fold A) := by
  induction js with
  | nil => rfl
  | cons j js ih => rw [foldElements, ih, map_cons]

theorem foldMembers_eq (ms : List (Bytes × Document)) :
    foldMembers A ms = ms.map (Prod.map id (fold A)) := by
  induction ms with
  | nil => rfl
  | cons m ms ih =>
    obtain ⟨k, j⟩ := m
    rw [foldMembers, ih, map_cons]
    rfl

theorem fold_array (js : List Document) : fold A (array js) = A.array (js.map (fold A)) := by
  rw [fold, foldElements_eq]

theorem fold_object (ms : List (Bytes × Document)) :
    fold A (object ms) = A.object (ms.map (Prod.map id (fold A))) := by
  rw [fold, foldMembers_eq]

def highest (ns : List Nat) : Nat := ns.foldr max 0

theorem highest_append (ms ns : List Nat) : highest (ms ++ ns) = max (highest ms) (highest ns) := by
  induction ms with
  | nil => exact (Nat.zero_max _).symm
  | cons m ms ih =>
    show max m (highest (ms ++ ns)) = max (max m (highest ms)) (highest ns)
    rw [ih, Nat.max_assoc]

theorem highest_singleton (n : Nat) : highest [n] = n := Nat.max_zero n

/-- How many arrays and objects stand in each other. -/
def nesting : Document → Nat :=
  fold {
    null := 0
    bool := fun _ => 0
    number := fun _ => 0
    string := fun _ => 0
    array := fun ns => highest ns + 1
    object := fun ms => highest (ms.map Prod.snd) + 1 }

theorem nesting_array (js : List Document) :
    (array js).nesting = highest (js.map nesting) + 1 := fold_array _ js

theorem nesting_object (ms : List (Bytes × Document)) :
    (object ms).nesting = highest (ms.map fun m => m.2.nesting) + 1 := by
  rw [nesting, fold_object]
  show highest (List.map Prod.snd (List.map _ ms)) + 1 = _
  rw [List.map_map]
  rfl

end Document

/-! ## Whitespace and numbers -/

def IsSpace (c : UInt8) : Prop := c = 0x20 ∨ c = 0x09 ∨ c = 0x0A ∨ c = 0x0D

instance (c : UInt8) : Decidable (IsSpace c) := inferInstanceAs (Decidable (_ ∨ _))

/-- `ws` -/
def Space (s : Bytes) : Prop := ∀ c ∈ s, IsSpace c

inductive Structural (c : UInt8) : Bytes → Prop
  | intro {w w' : Bytes} (hw : Space w) (hw' : Space w') : Structural c (w ++ c :: w')

theorem space_nil : Space [] := fun _ hc => absurd hc not_mem_nil

theorem structural_singleton (c : UInt8) : Structural c [c] := .intro space_nil space_nil

def Digits (s : Bytes) : Prop := s ≠ [] ∧ ∀ c ∈ s, IsDigit c

/-- `[ frac ]` -/
inductive Fraction : Bytes → Prop
  | none : Fraction []
  | some {ds : Bytes} (hds : Digits ds) : Fraction (0x2E :: ds)

/-- `[ exp ]` -/
inductive Exponent : Bytes → Prop
  | none : Exponent []
  | some {e : UInt8} {sign ds : Bytes} (he : e = 0x65 ∨ e = 0x45)
      (hsign : sign = [] ∨ sign = [0x2B] ∨ sign = [0x2D]) (hds : Digits ds) :
      Exponent (e :: (sign ++ ds))

/-- `[ minus ] int` -/
inductive Integer : Bytes → Prop
  | nonneg {ds : Bytes} (hds : Canonical ds) : Integer ds
  | neg {ds : Bytes} (hds : Canonical ds) : Integer (0x2D :: ds)

inductive Number : Bytes → Prop
  | intro {i f e : Bytes} (hi : Integer i) (hf : Fraction f) (he : Exponent e) :
      Number (i ++ f ++ e)

theorem integer_decimal (z : Int) : Integer (decimal z) := by
  obtain ⟨n, rfl | rfl⟩ := z.eq_nat_or_neg
  · exact .nonneg (canonical_decimalNat n)
  · cases n with
    | zero => exact .nonneg (canonical_decimalNat 0)
    | succ n =>
      rw [decimal_neg n.succ_pos]
      exact .neg (canonical_decimalNat _)

theorem Integer.number {s : Bytes} (h : Integer s) : Number s := by
  have hnumber := Number.intro h .none .none
  rwa [append_nil, append_nil] at hnumber

/-! ## Strings -/

def hexDigit (c : UInt8) : Option Nat :=
  if 48 ≤ c ∧ c ≤ 57 then some (c.toNat - 48)
  else if 65 ≤ c ∧ c ≤ 70 then some (c.toNat - 55)
  else if 97 ≤ c ∧ c ≤ 102 then some (c.toNat - 87)
  else none

/-- `4HEXDIG` -/
inductive Hex4 : Bytes → Nat → Prop
  | intro {a b c d : UInt8} {x y z w : Nat} (ha : hexDigit a = some x) (hb : hexDigit b = some y)
      (hc : hexDigit c = some z) (hd : hexDigit d = some w) :
      Hex4 [a, b, c, d] (x * 4096 + y * 256 + z * 16 + w)

/-- The two-character escapes: what stands behind the backslash, and the character meant. -/
def twoCharacter (e : UInt8) : Option Nat :=
  if e = 0x22 ∨ e = 0x5C ∨ e = 0x2F then some e.toNat
  else if e = 0x62 then some 0x08
  else if e = 0x66 then some 0x0C
  else if e = 0x6E then some 0x0A
  else if e = 0x72 then some 0x0D
  else if e = 0x74 then some 0x09
  else none

/-- `char` -/
inductive Written : Char → Bytes → Prop
  | unescaped {c : Char} (hcontrol : 0x20 ≤ c.toNat) (hquote : c.toNat ≠ 0x22)
      (hbackslash : c.toNat ≠ 0x5C) : Written c (String.utf8EncodeChar c)
  | escape {c : Char} {e : UInt8} (he : twoCharacter e = some c.toNat) : Written c [0x5C, e]
  | unicode {c : Char} {x : Bytes} (hx : Hex4 x c.toNat) : Written c (0x5C :: 0x75 :: x)
  | pair {c : Char} {x y : Bytes} {hi lo : Nat} (hx : Hex4 x hi) (hy : Hex4 y lo)
      (hhi : 0xD800 ≤ hi ∧ hi ≤ 0xDBFF) (hlo : 0xDC00 ≤ lo ∧ lo ≤ 0xDFFF)
      (hc : c.toNat = 0x10000 + (hi - 0xD800) * 0x400 + (lo - 0xDC00)) :
      Written c (0x5C :: 0x75 :: x ++ 0x5C :: 0x75 :: y)

theorem mem_unescaped {c : Char} (hquote : c.toNat ≠ 0x22) (hbackslash : c.toNat ≠ 0x5C) :
    ∀ b ∈ String.utf8EncodeChar c, b ≠ 0x5C ∧ b ≠ 0x22 := by
  have hseq := sequence_utf8EncodeChar c
  generalize String.utf8EncodeChar c = p at hseq
  generalize c.toNat = n at hseq hquote hbackslash
  by_cases hlong : p.length = 1
  · cases hseq with
    | one ha =>
      refine forall_mem_singleton.mpr ⟨?_, ?_⟩
      · rintro rfl
        exact hbackslash rfl
      · rintro rfl
        exact hquote rfl
    | _ => exact absurd hlong (by simp)
  · intro b hb
    have hhigh := hseq.high hlong b hb
    constructor
    · rintro rfl
      exact absurd hhigh (by decide)
    · rintro rfl
      exact absurd hhigh (by decide)

/-- `*char` -/
inductive Literal : List Char → Bytes → Prop
  | nil : Literal [] []
  | cons {c : Char} {cs : List Char} {p s : Bytes} (hc : Written c p) (hcs : Literal cs s) :
      Literal (c :: cs) (p ++ s)

def quoted (literal : Bytes) : Bytes := 0x22 :: (literal ++ [0x22])

/-! ## Values -/

inductive Phrase where
  | value (j : Document)
  | elements (js : List Document)
  | member (key : Bytes) (j : Document)
  | members (ms : List (Bytes × Document))

inductive Derives : Phrase → Bytes → Prop
  | null : Derives (.value .null) (ascii "null")
  | tru : Derives (.value (.bool true)) (ascii "true")
  | fls : Derives (.value (.bool false)) (ascii "false")
  | number {s : Bytes} (hs : Number s) : Derives (.value (.number s)) s
  | string {cs : List Char} {s : Bytes} (hs : Literal cs s) :
      Derives (.value (.string s)) (quoted s)
  | emptyArray {a b : Bytes} (ha : Structural 0x5B a) (hb : Structural 0x5D b) :
      Derives (.value (.array [])) (a ++ b)
  | array {js : List Document} {a s b : Bytes} (ha : Structural 0x5B a)
      (hs : Derives (.elements js) s) (hb : Structural 0x5D b) :
      Derives (.value (.array js)) (a ++ s ++ b)
  | element {j : Document} {s : Bytes} (hs : Derives (.value j) s) : Derives (.elements [j]) s
  | moreElements {js : List Document} {j : Document} {s c t : Bytes} (hs : Derives (.elements js) s)
      (hc : Structural 0x2C c) (ht : Derives (.value j) t) :
      Derives (.elements (js ++ [j])) (s ++ c ++ t)
  | emptyObject {a b : Bytes} (ha : Structural 0x7B a) (hb : Structural 0x7D b) :
      Derives (.value (.object [])) (a ++ b)
  | object {ms : List (Bytes × Document)} {a s b : Bytes} (ha : Structural 0x7B a)
      (hs : Derives (.members ms) s) (hb : Structural 0x7D b) :
      Derives (.value (.object ms)) (a ++ s ++ b)
  | pair {cs : List Char} {key : Bytes} {j : Document} {c t : Bytes} (hkey : Literal cs key)
      (hc : Structural 0x3A c) (ht : Derives (.value j) t) :
      Derives (.member key j) (quoted key ++ c ++ t)
  | member {key : Bytes} {j : Document} {s : Bytes} (hs : Derives (.member key j) s) :
      Derives (.members [(key, j)]) s
  | moreMembers {ms : List (Bytes × Document)} {key : Bytes} {j : Document} {s c t : Bytes}
      (hs : Derives (.members ms) s) (hc : Structural 0x2C c) (ht : Derives (.member key j) t) :
      Derives (.members (ms ++ [(key, j)])) (s ++ c ++ t)

theorem Derives.elements_ne_nil {js : List Document} {s : Bytes} (h : Derives (.elements js) s) :
    js ≠ [] := by
  cases h with
  | element hs => exact cons_ne_nil _ _
  | moreElements hs hc ht => exact append_ne_nil_of_right_ne_nil _ (cons_ne_nil _ _)

theorem Derives.members_ne_nil {ms : List (Bytes × Document)} {s : Bytes}
    (h : Derives (.members ms) s) : ms ≠ [] := by
  cases h with
  | member hs => exact cons_ne_nil _ _
  | moreMembers hs hc ht => exact append_ne_nil_of_right_ne_nil _ (cons_ne_nil _ _)

/-- `JSON-text` -/
inductive Text : Document → Bytes → Prop
  | intro {j : Document} {w s w' : Bytes} (hw : Space w) (hs : Derives (.value j) s)
      (hw' : Space w') : Text j (w ++ s ++ w')

/-! ## Colons

Outside of the strings of a text, a colon comes behind a string. -/

/-- Where a byte of a text stands: outside of the strings, with the byte before it that is no
whitespace, inside of one, or behind a backslash there. -/
inductive Place where
  | outside (last : UInt8)
  | inside
  | escaped

namespace Place

/-- What is behind the next byte, where that is no colon that has no string before it. -/
def step : Place → UInt8 → Option Place
  | outside last, b =>
    if b = 0x22 then some inside
    else if b = 0x3A ∧ last ≠ 0x22 then none
    else if IsSpace b then some (outside last)
    else some (outside b)
  | inside, b =>
    if b = 0x22 then some (outside 0x22) else if b = 0x5C then some escaped else some inside
  | escaped, _ => some inside

def run (place : Place) (s : Bytes) : Option Place := s.foldlM step place

variable {s t : Bytes} {b last : UInt8} {place place' : Place}

theorem run_append : run place (s ++ t) = (run place s).bind (run · t) := foldlM_append

theorem run_of_run (h : run place s = some place') : run place (s ++ t) = run place' t := by
  rw [run_append, h]
  rfl

theorem run_of_none (h : run place s = none) : run place (s ++ t) = none := by
  rw [run_append, h]
  rfl

theorem run_cons (place : Place) (b : UInt8) (s : Bytes) :
    run place (b :: s) = (step place b).bind (run · s) := foldlM_cons

theorem run_space (hs : Space s) : run (outside last) s = some (outside last) := by
  induction s with
  | nil => rfl
  | cons b s ih =>
    have hb := hs b mem_cons_self
    have hstep : step (outside last) b = some (outside last) := by
      have hquote : b ≠ 0x22 := by
        rintro rfl
        exact absurd hb (by decide)
      have hcolon : ¬(b = 0x3A ∧ last ≠ 0x22) := by
        rintro ⟨rfl, -⟩
        exact absurd hb (by decide)
      rw [step, if_neg hquote, if_neg hcolon, if_pos hb]
    rw [run_cons, hstep]
    exact ih fun c hc => hs c (mem_cons_of_mem _ hc)

theorem step_outside (hquote : b ≠ 0x22) (hcolon : b = 0x3A → last = 0x22) (hspace : ¬IsSpace b) :
    step (outside last) b = some (outside b) := by
  rw [step, if_neg hquote, if_neg fun h => h.2 (hcolon h.1), if_neg hspace]

theorem run_structural {c : UInt8} (h : Structural c s) (hquote : c ≠ 0x22)
    (hcolon : c = 0x3A → last = 0x22) (hspace : ¬IsSpace c) :
    run (outside last) s = some (outside c) := by
  cases h with
  | intro hw hw' =>
    rw [run_of_run (run_space hw), run_cons, step_outside hquote hcolon hspace]
    exact run_space hw'

theorem run_plain (hs : ∀ c ∈ s, c ≠ 0x22 ∧ c ≠ 0x3A ∧ ¬IsSpace c) (last : UInt8) :
    ∃ last', run (outside last) s = some (outside last') := by
  induction s generalizing last with
  | nil => exact ⟨last, rfl⟩
  | cons b s ih =>
    obtain ⟨hquote, hcolon, hspace⟩ := hs b mem_cons_self
    obtain ⟨last', hlast⟩ := ih (fun c hc => hs c (mem_cons_of_mem _ hc)) b
    exact ⟨last', by rw [run_cons, step_outside hquote (absurd · hcolon) hspace]; exact hlast⟩

theorem run_inside (hs : ∀ c ∈ s, c ≠ 0x5C ∧ c ≠ 0x22) : run inside s = some inside := by
  induction s with
  | nil => rfl
  | cons b s ih =>
    obtain ⟨hback, hquote⟩ := hs b mem_cons_self
    rw [run_cons, step, if_neg hquote, if_neg hback]
    exact ih fun c hc => hs c (mem_cons_of_mem _ hc)

theorem mem_hex4 {n : Nat} (h : Hex4 s n) : ∀ c ∈ s, c ≠ 0x5C ∧ c ≠ 0x22 := by
  have hdigit : ∀ {c : UInt8} {x : Nat}, hexDigit c = some x → c ≠ 0x5C ∧ c ≠ 0x22 := by
    intro c x hc
    constructor
    · rintro rfl
      exact absurd (hc.symm.trans rfl) (Option.some_ne_none x)
    · rintro rfl
      exact absurd (hc.symm.trans rfl) (Option.some_ne_none x)
  cases h with
  | intro ha hb hc hd =>
    exact forall_mem_cons.mpr ⟨hdigit ha, forall_mem_cons.mpr ⟨hdigit hb,
      forall_mem_cons.mpr ⟨hdigit hc, forall_mem_singleton.mpr (hdigit hd)⟩⟩⟩

theorem run_unicode {n : Nat} (h : Hex4 s n) : run inside (0x5C :: 0x75 :: s) = some inside := by
  show run inside s = some inside
  exact run_inside (mem_hex4 h)

theorem run_written {c : Char} (h : Written c s) : run inside s = some inside := by
  cases h with
  | unescaped hcontrol hquote hbackslash => exact run_inside (mem_unescaped hquote hbackslash)
  | escape he => rfl
  | unicode hx => exact run_unicode hx
  | pair hx hy => exact (run_of_run (run_unicode hx)).trans (run_unicode hy)

theorem run_literal {cs : List Char} (h : Literal cs s) : run inside s = some inside := by
  induction h with
  | nil => rfl
  | cons hc hcs ih => rw [run_of_run (run_written hc), ih]

theorem run_quoted {cs : List Char} (h : Literal cs s) :
    run (outside last) (quoted s) = some (outside 0x22) := by
  show run inside (s ++ [0x22]) = _
  rw [run_of_run (run_literal h)]
  rfl

theorem mem_number (h : Number s) : ∀ c ∈ s, c ≠ 0x22 ∧ c ≠ 0x3A ∧ ¬IsSpace c := by
  have hdigit : ∀ c, IsDigit c → c ≠ 0x22 ∧ c ≠ 0x3A ∧ ¬IsSpace c := by
    intro c hc
    refine ⟨?_, ?_, ?_⟩
    · rintro rfl
      exact absurd hc (by decide)
    · rintro rfl
      exact absurd hc (by decide)
    · rintro (rfl | rfl | rfl | rfl) <;> exact absurd hc (by decide)
  cases h with
  | intro hi hf he =>
    refine forall_mem_append.mpr ⟨forall_mem_append.mpr ⟨?_, ?_⟩, ?_⟩
    · cases hi with
      | nonneg hds => exact fun c hc => hdigit c (hds.digits c hc)
      | neg hds =>
        exact forall_mem_cons.mpr ⟨by decide, fun c hc => hdigit c (hds.digits c hc)⟩
    · cases hf with
      | none => exact fun c hc => absurd hc not_mem_nil
      | some hds =>
        exact forall_mem_cons.mpr ⟨by decide, fun c hc => hdigit c (hds.2 c hc)⟩
    · cases he with
      | none => exact fun c hc => absurd hc not_mem_nil
      | some he hsign hds =>
        refine forall_mem_cons.mpr ⟨?_, forall_mem_append.mpr
          ⟨?_, fun c hc => hdigit c (hds.2 c hc)⟩⟩
        · rcases he with rfl | rfl <;> decide
        · rcases hsign with rfl | rfl | rfl
          · exact fun c hc => absurd hc not_mem_nil
          · exact forall_mem_singleton.mpr (by decide)
          · exact forall_mem_singleton.mpr (by decide)

theorem run_mark {c : UInt8} (h : Structural c s) (hc : c ≠ 0x22 ∧ c ≠ 0x3A ∧ ¬IsSpace c) :
    run (outside last) s = some (outside c) :=
  run_structural h hc.1 (absurd · hc.2.1) hc.2.2

end Place

open Place in
/-- **Colons.** Where the rules derive a text, each colon outside of its strings comes behind one of
them. -/
theorem Derives.run {φ : Phrase} {s : Bytes} (h : Derives φ s) (last : UInt8) :
    ∃ last', run (outside last) s = some (outside last') := by
  induction h generalizing last with
  | null => exact run_plain (by decide) last
  | tru => exact run_plain (by decide) last
  | fls => exact run_plain (by decide) last
  | number hs => exact run_plain (mem_number hs) last
  | string hs => exact ⟨_, run_quoted hs⟩
  | emptyArray ha hb =>
    rw [run_of_run (run_mark ha (by decide))]
    exact ⟨_, run_mark hb (by decide)⟩
  | array ha hs hb ih =>
    obtain ⟨last', hlast⟩ := ih 0x5B
    rw [append_assoc, run_of_run (run_mark ha (by decide)), run_of_run hlast]
    exact ⟨_, run_mark hb (by decide)⟩
  | element hs ih => exact ih last
  | moreElements hs hc ht ih ih' =>
    obtain ⟨last', hlast⟩ := ih last
    rw [append_assoc, run_of_run hlast, run_of_run (run_mark hc (by decide))]
    exact ih' 0x2C
  | emptyObject ha hb =>
    rw [run_of_run (run_mark ha (by decide))]
    exact ⟨_, run_mark hb (by decide)⟩
  | object ha hs hb ih =>
    obtain ⟨last', hlast⟩ := ih 0x7B
    rw [append_assoc, run_of_run (run_mark ha (by decide)), run_of_run hlast]
    exact ⟨_, run_mark hb (by decide)⟩
  | pair hkey hc ht ih =>
    rw [append_assoc, run_of_run (run_quoted hkey), run_of_run (run_structural hc (by decide)
      (fun _ => rfl) (by decide))]
    exact ih 0x3A
  | member hs ih => exact ih last
  | moreMembers hs hc ht ih ih' =>
    obtain ⟨last', hlast⟩ := ih last
    rw [append_assoc, run_of_run hlast, run_of_run (run_mark hc (by decide))]
    exact ih' 0x2C

open Place in
theorem Text.run {j : Document} {s : Bytes} (h : Text j s) (last : UInt8) :
    ∃ last', run (outside last) s = some (outside last') := by
  cases h with
  | intro hw hs hw' =>
    obtain ⟨last', hlast⟩ := hs.run last
    rw [append_assoc, run_of_run (run_space hw), run_of_run hlast]
    exact ⟨_, run_space hw'⟩

end JsonText
