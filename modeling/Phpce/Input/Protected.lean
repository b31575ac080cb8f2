import Mathlib.Data.List.DropRight
import Phpce.Input.Names

/-!
# Protected upload names

`normalize_protected_variable`, which works in the memory of the name, and the table of the names
that it makes. A memory is the list of its bytes; a write outside of it gives `none`.

* `normalizeProtectedVariable_eq`: the name that it makes, without such a write.
* **`protects_iff`**: of names that are stored at one path, which ones the other one protects.
-/

namespace Phpce

namespace Input

open Bytes List Option
open Json (symtableKey)

/-! ## The functions -/

/-- `memmove`, where it stays inside the memory. -/
def memmove (mem : Bytes) (dest src n : Nat) : Option Bytes :=
  if dest + n ≤ mem.length ∧ src + n ≤ mem.length then
    some (mem.take dest ++ (mem.drop src).take n ++ mem.drop (dest + n))
  else none

def put (mem : Bytes) (p : Nat) (c : UInt8) : Option Bytes :=
  if p < mem.length then some (mem.set p c) else none

/-- The loop that replaces spaces and dots up to a bracket. -/
def mangleLoop : Bytes → Bytes
  | [] => []
  | c :: p =>
    if c = 0 ∨ c = 91 then c :: p
    else (if c = 32 ∨ c = 46 then 95 else c) :: mangleLoop p

/-- The characters that are jumped over behind a bracket. -/
def isBlank (c : UInt8) : Bool := c = 32 || c = 13 || c = 10 || c = 9

/-- How many characters of a kind stand at `p`. -/
def spanAt (kind : UInt8 → Bool) (mem : Bytes) (p : Nat) : Nat :=
  ((mem.drop p).takeWhile kind).length

def normalizeLoop : Nat → Bytes → Nat → Nat → Option Bytes
  | 0, _, _, _ => none
  | fuel + 1, mem, s, index =>
    let index := index + spanAt isBlank mem index
    let indexend :=
      match strchr mem index 93 with
      | some closing => closing + 1
      | none => index + strlen mem index
    let moved :=
      if s ≠ index then
        (memmove mem s index (strlen mem index + 1)).map fun mem => (mem, s + (indexend - index))
      else some (mem, indexend)
    moved.bind fun m =>
      if at' m.1 m.2 = 91 then normalizeLoop fuel m.1 (m.2 + 1) (m.2 + 1) else put m.1 m.2 0

def normalizeProtectedVariable (varname : Bytes) : Option Bytes :=
  let s := spanAt (· = 32) varname 0
  let moved := if s ≠ 0 then memmove varname 0 s (strlen varname s + 1) else some varname
  moved.bind fun mem =>
    let mem := mangleLoop mem
    match strchr mem 0 91 with
    | none => some mem
    | some index => normalizeLoop mem.length mem (index + 1) (index + 1)

/-- `PG(rfc1867_protected_variables)` after `add_protected_variable`. -/
def addProtectedVariable (protectedVariables : List Bytes) (varname : Bytes) :
    Option (List Bytes) :=
  (normalizeProtectedVariable (cstr varname ++ [0])).map fun mem =>
    if cstr mem ∈ protectedVariables then protectedVariables else protectedVariables ++ [cstr mem]

def isProtectedVariable (protectedVariables : List Bytes) (varname : Bytes) : Option Bool :=
  (normalizeProtectedVariable (cstr varname ++ [0])).map fun mem =>
    decide (cstr mem ∈ protectedVariables)

/-! ## The name that is made -/

def lstrip (k : Bytes) : Bytes := k.dropWhile isBlank

/-- The contents of the closed pairs of brackets of a name, and of one that is not closed. -/
def brackets (name : Bytes) : List Bytes × Option Bytes :=
  match cutAt 91 (trimmed name) with
  | none => ([], none)
  | some (_, rest) => inBracket [] rest

def openText : Option Bytes → Bytes
  | none => []
  | some r => 91 :: lstrip r

def bracketText (b : List Bytes × Option Bytes) : Bytes :=
  b.1.flatMap (fun k => 91 :: lstrip k ++ [93]) ++ openText b.2

def normalName (name : Bytes) : Bytes := topName name ++ bracketText (brackets name)

/-! ## Moves -/

theorem memmove_append (x b y g : Bytes) :
    ∃ g', memmove (x ++ (b ++ (y ++ g))) x.length (x.length + b.length) y.length =
      some (x ++ (y ++ g')) := by
  refine ⟨(x ++ (b ++ (y ++ g))).drop (x.length + y.length), ?_⟩
  rw [memmove, if_pos (by simp only [length_append]; omega), take_left, ← drop_drop,
    drop_left, drop_left, take_left, append_assoc]

theorem spanAt_append {kind : UInt8 → Bool} {s g : Bytes} (hnul : kind 0 = false) (front : Bytes) :
    spanAt kind (front ++ (s ++ 0 :: g)) front.length = (s.takeWhile kind).length := by
  rw [spanAt, drop_left, takeWhile_append]
  split
  next h => rw [takeWhile_cons_of_neg (by simp [hnul]), append_nil, h]
  next => rfl

theorem strlen_append {s : Bytes} (hs : (0 : UInt8) ∉ s) (front g : Bytes) :
    strlen (front ++ (s ++ 0 :: g)) front.length = s.length := by
  rw [strlen, drop_left, cstr_append_nul hs]

theorem strchr_append {s : Bytes} (hs : (0 : UInt8) ∉ s) (front g : Bytes) (c : UInt8) :
    strchr (front ++ (s ++ 0 :: g)) front.length c =
      (cutAt c s).map fun r => front.length + r.1.length := by
  rw [strchr, drop_left, cstr_append_nul hs]

theorem at_append (front s t : Bytes) :
    at' (front ++ (s ++ t)) (front.length + s.length) = t.headD 0 := by
  rw [← append_assoc, ← length_append, at',
    getD_append_right _ _ _ _ (Nat.le_refl _), Nat.sub_self]
  cases t <;> rfl

theorem put_append (front s t : Bytes) (c d : UInt8) :
    put (front ++ (s ++ d :: t)) (front.length + s.length) c = some (front ++ (s ++ c :: t)) := by
  rw [put, if_pos (by simp), ← append_assoc, ← length_append,
    set_append_right _ _ (Nat.le_refl _), Nat.sub_self, set_cons_zero, append_assoc]

theorem moved_eq (front b r g : Bytes) {indexend n : Nat}
    (hend : indexend = front.length + b.length + n) :
    ∃ g', (if front.length ≠ front.length + b.length then
        (memmove (front ++ (b ++ r ++ 0 :: g)) front.length (front.length + b.length)
          (r.length + 1)).map
            fun mem => (mem, front.length + (indexend - (front.length + b.length)))
      else some (front ++ (b ++ r ++ 0 :: g), indexend)) =
      some (front ++ (r ++ 0 :: g'), front.length + n) := by
  subst hend
  by_cases hb : b = []
  · subst hb
    exact ⟨g, if_neg fun h => h rfl⟩
  · have hne : front.length ≠ front.length + b.length := by
      have := length_pos_iff.mpr hb
      omega
    obtain ⟨g', hmove⟩ := memmove_append front b (r ++ [0]) g
    rw [append_assoc, append_assoc, length_append] at hmove
    refine ⟨g', ?_⟩
    rw [if_pos hne, append_assoc, Nat.add_sub_cancel_left]
    exact congrArg (Option.map _) hmove

theorem lstrip_append {b : Bytes} (hb : ∀ c ∈ b, isBlank c = true) (k : Bytes) :
    lstrip (b ++ k) = lstrip k := dropWhile_append_of_pos hb

theorem lstrip_eq_self {k r : Bytes} (h : lstrip (k ++ r) = k ++ r) : lstrip k = k := by
  cases k with
  | nil => rfl
  | cons c k =>
    by_cases hc : isBlank c = true
    · rw [cons_append, lstrip, dropWhile_cons_of_pos hc] at h
      have hlen := (dropWhile_sublist isBlank (l := k ++ r)).length_le
      rw [h, length_cons] at hlen
      omega
    · exact dropWhile_cons_of_neg hc

theorem bracketText_closed (k : Bytes) (ks : List Bytes) (opened : Option Bytes) :
    bracketText (k :: ks, opened) = 91 :: (lstrip k ++ 93 :: bracketText (ks, opened)) := by
  rw [bracketText, flatMap_cons, bracketText]
  simp

/-- **The loop** takes out the blanks in front of each index, and ends the name behind the last
bracket. -/
theorem normalizeLoop_eq {fuel : Nat} {rest front : Bytes} (hfuel : rest.length < fuel)
    (hrest : (0 : UInt8) ∉ rest) (hfront : (0 : UInt8) ∉ front) (g : Bytes) :
    ∃ mem, normalizeLoop fuel (front ++ [91] ++ (rest ++ 0 :: g)) (front ++ [91]).length
        (front ++ [91]).length = some mem ∧
      cstr mem = front ++ bracketText (inBracket [] rest) := by
  induction fuel generalizing rest front g with
  | zero => exact absurd hfuel (Nat.not_lt_zero _)
  | succ fuel ih =>
    have hsplit : rest = rest.takeWhile isBlank ++ lstrip rest :=
      takeWhile_append_dropWhile.symm
    have hspan := @spanAt_append isBlank rest g (by decide) (front ++ [91])
    have hblank : ∀ c ∈ rest.takeWhile isBlank, isBlank c = true := fun c => mem_takeWhile_imp
    have hself : lstrip (lstrip rest) = lstrip rest := dropWhile_idempotent _ _
    rw [normalizeLoop, hspan]
    generalize rest.takeWhile isBlank = b at hsplit hblank
    generalize lstrip rest = r at hsplit hself
    subst hsplit
    have hr0 : (0 : UInt8) ∉ r := fun h => hrest (mem_append_right _ h)
    have h0 : (0 : UInt8) ∉ front ++ [91] := fun h =>
      hfront ((mem_append.mp h).resolve_right (by decide))
    have hmem : front ++ [91] ++ (b ++ r ++ 0 :: g) = front ++ [91] ++ b ++ (r ++ 0 :: g) := by
      simp
    have hchr := strchr_append hr0 (front ++ [91] ++ b) g 93
    have hlen := strlen_append hr0 (front ++ [91] ++ b) g
    rw [length_append, ← hmem] at hchr hlen
    rw [hchr, hlen]
    cases hcut : cutAt 93 r with
    | none =>
      obtain ⟨g', hmoved⟩ := moved_eq (front ++ [91]) b r g rfl
      have hopen : 93 ∉ b ++ r := by
        intro h
        rcases mem_append.mp h with h | h
        · exact absurd (hblank 93 h) (by decide)
        · exact cutAt_eq_none_iff.mp hcut h
      refine ⟨front ++ [91] ++ (r ++ 0 :: g'), ?_, ?_⟩
      · dsimp only [map_none]
        rw [hmoved, bind_some, at_append, put_append]
        rfl
      · rw [inBracket_of_notMem hopen, nil_append, bracketText, flatMap_nil,
          nil_append, openText, lstrip_append hblank, hself, ← append_assoc,
          cstr_append_nul]
        · simp
        · exact fun h => (mem_append.mp h).elim h0 hr0
    | some cut =>
      obtain ⟨k, t⟩ := cut
      obtain ⟨rfl, hk⟩ := cutAt_eq_some_iff.mp hcut
      have hclosed : 93 ∉ b ++ k := by
        intro h
        rcases mem_append.mp h with h | h
        · exact absurd (hblank 93 h) (by decide)
        · exact hk h
      have hread : inBracket [] (b ++ (k ++ 93 :: t)) =
          ((b ++ k) :: (behindBracket t).1, (behindBracket t).2) := by
        rw [← append_assoc, inBracket_append hclosed, nil_append]
      have hend : (front ++ [91]).length + b.length + k.length + 1 =
          (front ++ [91]).length + b.length + (k ++ [93]).length := by
        simp [Nat.add_assoc]
      obtain ⟨g', hmoved⟩ := moved_eq (front ++ [91]) b (k ++ 93 :: t) g hend
      have hmem : front ++ [91] ++ (k ++ 93 :: t ++ 0 :: g') =
          front ++ [91] ++ (k ++ [93] ++ (t ++ 0 :: g')) := by
        simp
      rw [hread, bracketText_closed, lstrip_append hblank, lstrip_eq_self hself]
      dsimp only [map_some]
      rw [hmoved, bind_some]
      dsimp only
      rw [hmem, at_append]
      have hk0 : (0 : UInt8) ∉ front ++ [91] ++ (k ++ [93]) := by
        intro h
        rcases mem_append.mp h with h | h
        · exact h0 h
        · rcases mem_append.mp h with h | h
          · exact hr0 (mem_append_left _ h)
          · exact absurd h (by decide)
      by_cases hbracket : t.headD 0 = 91
      · obtain ⟨c, t, rfl⟩ : ∃ c t', t = c :: t' :=
          exists_cons_of_ne_nil fun hnil => absurd (hnil ▸ hbracket) (by decide)
        obtain rfl : c = 91 := hbracket
        have ht0 : (0 : UInt8) ∉ t := fun h =>
          hr0 (mem_append_right _ (mem_cons_of_mem _ (mem_cons_of_mem _ h)))
        have hlen : t.length < fuel := by
          simp only [length_append, length_cons] at hfuel
          omega
        obtain ⟨mem, hloop, hcstr⟩ := ih hlen ht0 hk0 g'
        have hmem : front ++ [91] ++ (k ++ [93] ++ (91 :: t ++ 0 :: g')) =
            front ++ [91] ++ (k ++ [93]) ++ [91] ++ (t ++ 0 :: g') := by
          simp
        have hpos : (front ++ [91]).length + (k ++ [93]).length + 1 =
            (front ++ [91] ++ (k ++ [93]) ++ [91]).length := by
          simp only [length_append, length_singleton]
        refine ⟨mem, ?_, ?_⟩
        · rw [if_pos (show (91 :: t ++ 0 :: g').headD 0 = 91 from rfl), hmem, hpos, hloop]
        · rw [hcstr]
          simp [behindBracket]
      · have hbehind : behindBracket t = ([], none) := by
          cases t with
          | nil => rfl
          | cons c t => exact if_neg hbracket
        obtain ⟨d, x, hx⟩ := exists_cons_of_ne_nil
          (show t ++ 0 :: g' ≠ [] from append_ne_nil_of_right_ne_nil _ (cons_ne_nil _ _))
        have hhead : ¬(t ++ 0 :: g').headD 0 = 91 := by
          cases t with
          | nil => exact show ¬(0 : UInt8) = 91 by decide
          | cons c t => exact hbracket
        refine ⟨front ++ [91] ++ (k ++ [93] ++ 0 :: x), ?_, ?_⟩
        · rw [if_neg hhead, hx, put_append]
        · rw [← append_assoc, cstr_append_nul hk0, hbehind, bracketText]
          simp [openText]

/-! ## The whole name -/

theorem mangleLoop_append {s : Bytes} (hs : (0 : UInt8) ∉ s) (hbracket : 91 ∉ s) {c : UInt8}
    (hc : c = 0 ∨ c = 91) (g : Bytes) : mangleLoop (s ++ c :: g) = mangle s ++ c :: g := by
  induction s with
  | nil => exact if_pos hc
  | cons d s ih =>
    have hd : ¬(d = 0 ∨ d = 91) := by
      rintro (rfl | rfl)
      · exact hs mem_cons_self
      · exact hbracket mem_cons_self
    rw [cons_append, mangleLoop, if_neg hd, ih (fun h => hs (mem_cons_of_mem _ h))
      fun h => hbracket (mem_cons_of_mem _ h)]
    rfl

theorem notMem_mangle {s : Bytes} (h : 91 ∉ s) : 91 ∉ mangle s := by
  intro hmem
  obtain ⟨c, hc, heq⟩ := List.mem_map.mp hmem
  split at heq
  next => exact absurd heq (by decide)
  next => exact h (heq ▸ hc)

theorem leading_eq (name : Bytes) :
    ∃ g, (if spanAt (· = 32) (cstr name ++ [0]) 0 ≠ 0 then
        memmove (cstr name ++ [0]) 0 (spanAt (· = 32) (cstr name ++ [0]) 0)
          (strlen (cstr name ++ [0]) (spanAt (· = 32) (cstr name ++ [0]) 0) + 1)
      else some (cstr name ++ [0])) = some (trimmed name ++ 0 :: g) := by
  have hsplit : cstr name = (cstr name).takeWhile (· = 32) ++ trimmed name :=
    takeWhile_append_dropWhile.symm
  have hspan : spanAt (· = 32) (cstr name ++ [0]) 0 = ((cstr name).takeWhile (· = 32)).length :=
    spanAt_append (g := []) (by decide) []
  have htrim := noNul_trimmed name
  rw [hspan]
  generalize (cstr name).takeWhile (· = 32) = b at hsplit
  rw [hsplit]
  by_cases hb : b = []
  · subst hb
    exact ⟨[], if_neg fun h => h rfl⟩
  · have hlen : strlen (b ++ trimmed name ++ [0]) b.length = (trimmed name).length := by
      rw [append_assoc, strlen_append htrim]
    obtain ⟨g, hmove⟩ := memmove_append [] b (trimmed name ++ [0]) []
    rw [nil_append, nil_append, append_nil, length_append, length_nil,
      Nat.zero_add, ← append_assoc, append_assoc (trimmed name)] at hmove
    exact ⟨g, by rw [if_pos fun h => hb (length_eq_zero_iff.mp h), hlen]; exact hmove⟩

theorem normalizeProtectedVariable_eq (name : Bytes) :
    ∃ mem, normalizeProtectedVariable (cstr name ++ [0]) = some mem ∧
      cstr mem = normalName name := by
  obtain ⟨g, hleading⟩ := leading_eq name
  have htrim := noNul_trimmed name
  rw [normalizeProtectedVariable, hleading, bind_some, normalName]
  cases hcut : cutAt 91 (trimmed name) with
  | none =>
    have hbracket := cutAt_eq_none_iff.mp hcut
    have htop : topName name = mangle (trimmed name) := by rw [topName, hcut]
    have hnone : brackets name = ([], none) := by rw [brackets, hcut]
    have hchr : strchr (mangle (trimmed name) ++ 0 :: g) 0 91 = none :=
      (strchr_append (noNul_mangle htrim) [] g 91).trans
        (by rw [cutAt_eq_none_iff.mpr (notMem_mangle hbracket)]; rfl)
    refine ⟨mangle (trimmed name) ++ 0 :: g, ?_, ?_⟩
    · rw [mangleLoop_append htrim hbracket (.inl rfl)]
      dsimp only
      rw [hchr]
    · rw [cstr_append_nul (noNul_mangle htrim), htop, hnone]
      exact (append_nil _).symm
  | some cut =>
    obtain ⟨t, r⟩ := cut
    obtain ⟨htr, ht⟩ := cutAt_eq_some_iff.mp hcut
    have htop : topName name = mangle t := by rw [topName, hcut]
    have hbrackets : brackets name = inBracket [] r := by rw [brackets, hcut]
    have ht0 : (0 : UInt8) ∉ t := fun h => htrim (htr ▸ mem_append_left _ h)
    have hr0 : (0 : UInt8) ∉ r := fun h =>
      htrim (htr ▸ mem_append_right _ (mem_cons_of_mem _ h))
    have hmem : mangleLoop (trimmed name ++ 0 :: g) = mangle t ++ [91] ++ (r ++ 0 :: g) := by
      rw [htr, append_assoc, cons_append, mangleLoop_append ht0 ht (.inr rfl),
        append_assoc]
      rfl
    have hchr : strchr (mangle t ++ [91] ++ (r ++ 0 :: g)) 0 91 = some (mangle t).length := by
      have hnul : (0 : UInt8) ∉ mangle t ++ 91 :: r := fun h =>
        (mem_append.mp h).elim (noNul_mangle ht0) fun h =>
          hr0 ((mem_cons.mp h).resolve_left (by decide))
      have happend : mangle t ++ [91] ++ (r ++ 0 :: g) = [] ++ (mangle t ++ 91 :: r ++ 0 :: g) := by
        simp
      rw [happend]
      refine (strchr_append hnul [] g 91).trans ?_
      rw [cutAt_append (notMem_mangle ht)]
      exact congrArg some (Nat.zero_add _)
    rw [hmem]
    dsimp only
    rw [hchr, htop, hbrackets]
    have hlt : r.length < (mangle t ++ [91] ++ (r ++ 0 :: g)).length := by
      simp only [length_append, length_cons]
      omega
    have hpos : (mangle t ++ [91]).length = (mangle t).length + 1 := length_append
    have hloop := normalizeLoop_eq hlt hr0 (noNul_mangle ht0) g
    rwa [hpos] at hloop

/-! ## Names that are stored at one path -/

/-- Two names end alike in a bracket that is not closed, or neither of them does, and the pairs of
theirs that append hold the same, up to the characters that are jumped over. -/
def SameSpelling (a b : Bytes) : Prop :=
  (brackets a).2.map lstrip = (brackets b).2.map lstrip ∧
    ((brackets a).1.filter fun k => level k = none).map lstrip =
      ((brackets b).1.filter fun k => level k = none).map lstrip

theorem eq_decimal_of_some {key : Bytes} {idx : UInt64}
    (h : NumericKey.zendHandleNumericStr key = some idx) :
    key = decimal (NumericKey.zendLong idx) := by
  rw [NumericKey.zendHandleNumericStr] at h
  split at h
  next hfirst =>
    obtain ⟨z, -, -, hkey, rfl⟩ := (NumericKey.zendHandleNumericStrEx_eq_some_iff hfirst).mp h
    exact hkey
  next => exact absurd h (some_ne_none _).symm

theorem symtableKey_injective : Function.Injective symtableKey := by
  intro a b h
  rw [symtableKey, symtableKey] at h
  cases ha : NumericKey.zendHandleNumericStr a with
  | none =>
    cases hb : NumericKey.zendHandleNumericStr b with
    | none =>
      rw [ha, hb] at h
      exact Json.Key.name.inj h
    | some idx =>
      rw [ha, hb] at h
      exact Json.Key.noConfusion h
  | some idx =>
    cases hb : NumericKey.zendHandleNumericStr b with
    | none =>
      rw [ha, hb] at h
      exact Json.Key.noConfusion h
    | some idx' =>
      rw [ha, hb] at h
      rw [eq_decimal_of_some ha, eq_decimal_of_some hb, Json.Key.index.inj h]

theorem notMem_topName (name : Bytes) : 91 ∉ topName name := by
  rw [topName]
  cases hcut : cutAt 91 (trimmed name) with
  | none => exact notMem_mangle (cutAt_eq_none_iff.mp hcut)
  | some cut => exact notMem_mangle (cutAt_eq_some_iff.mp hcut).2

theorem pathTaken_brackets (name : Bytes) :
    (pathTaken name).1 =
      if (brackets name).1 = [] then
        [some (topName name ++ ((brackets name).2.map (95 :: ·)).getD [])]
      else some (topName name) :: (brackets name).1.map level := by
  rw [pathTaken, brackets]
  cases hcut : cutAt 91 (trimmed name) with
  | none => exact congrArg (fun k => [some k]) (append_nil _).symm
  | some cut =>
    obtain ⟨t, r⟩ := cut
    dsimp only
    rw [pathOf]
    split
    next hnil =>
      rw [inBracket_of_notMem (inBracket_eq_nil_iff.mp hnil)]
      rfl
    next => rfl

theorem notMem_inBracket (s : Bytes) :
    (∀ k, 93 ∉ k → ∀ x ∈ (inBracket k s).1, 93 ∉ x) ∧ ∀ x ∈ (behindBracket s).1, 93 ∉ x := by
  induction s with
  | nil =>
    exact ⟨fun _ _ x hx => absurd hx not_mem_nil, fun x hx => absurd hx not_mem_nil⟩
  | cons c s ih =>
    constructor
    · intro k hk x hx
      rw [inBracket] at hx
      split at hx
      next =>
        rcases mem_cons.mp hx with rfl | hx
        · exact hk
        · exact ih.2 x hx
      next hc =>
        refine ih.1 (k ++ [c]) (fun h => ?_) x hx
        rcases mem_append.mp h with h | h
        · exact hk h
        · exact hc (mem_singleton.mp h).symm
    · intro x hx
      rw [behindBracket] at hx
      split at hx
      next => exact ih.1 [] not_mem_nil x hx
      next => exact absurd hx not_mem_nil

theorem notMem_brackets {name k : Bytes} (h : k ∈ (brackets name).1) : 93 ∉ k := by
  rw [brackets] at h
  cases hcut : cutAt 91 (trimmed name) with
  | none =>
    rw [hcut] at h
    exact absurd h not_mem_nil
  | some cut =>
    rw [hcut] at h
    exact (notMem_inBracket cut.2).1 [] not_mem_nil k h

theorem level_eq_some {k : Bytes} (h : level k ≠ none) : level k = some k := by
  rw [level] at h ⊢
  split at h
  next => exact absurd rfl h
  next hcond => exact if_neg hcond

theorem openText_inj {o o' : Option Bytes} :
    openText o = openText o' ↔ o.map lstrip = o'.map lstrip := by
  cases o <;> cases o' <;> simp [openText]

theorem bracketText_inj {ks ks' : List Bytes} {o o' : Option Bytes} (hks : ∀ k ∈ ks, 93 ∉ k)
    (hks' : ∀ k ∈ ks', 93 ∉ k) (hlevel : ks.map level = ks'.map level) :
    bracketText (ks, o) = bracketText (ks', o') ↔
      o.map lstrip = o'.map lstrip ∧
        (ks.filter fun k => level k = none).map lstrip =
          (ks'.filter fun k => level k = none).map lstrip := by
  induction ks generalizing ks' with
  | nil =>
    obtain rfl : ks' = [] := map_eq_nil_iff.mp hlevel.symm
    exact openText_inj.trans (and_iff_left rfl).symm
  | cons k ks ih =>
    cases ks' with
    | nil => exact absurd hlevel (cons_ne_nil _ _)
    | cons k' ks' =>
      obtain ⟨hk, hlevel⟩ := List.cons.inj hlevel
      have htail := ih (fun x hx => hks x (mem_cons_of_mem _ hx))
        (fun x hx => hks' x (mem_cons_of_mem _ hx)) hlevel
      have hstrip : ∀ x : Bytes, 93 ∉ x → 93 ∉ lstrip x := fun x hx h =>
        hx ((dropWhile_sublist _).subset h)
      rw [bracketText_closed, bracketText_closed, cons_inj_right,
        append_cons_inj (hstrip k (hks k mem_cons_self))
          (hstrip k' (hks' k' mem_cons_self)), htail]
      by_cases hnone : level k = none
      · have hnone' : level k' = none := hk.symm.trans hnone
        have hpos := decide_eq_true hnone
        have hpos' := decide_eq_true hnone'
        rw [filter_cons, filter_cons, if_pos hpos, if_pos hpos', map_cons,
          map_cons, List.cons.injEq]
        exact and_left_comm
      · -- a pair that does not append holds the level
        have hnone' : level k' ≠ none := fun h => hnone (hk.trans h)
        have hself : k = k' :=
          some.inj ((level_eq_some hnone).symm.trans (hk.trans (level_eq_some hnone')))
        have hneg := decide_eq_false hnone
        have hneg' := decide_eq_false hnone'
        rw [filter_cons, filter_cons, hneg, hneg', hself]
        exact and_iff_right rfl

theorem eq_of_joined {x y r r' : Bytes} (h : x ++ 95 :: r = y ++ 95 :: r')
    (hstrip : lstrip r = lstrip r') : x = y := by
  have hsplit : ∀ s : Bytes, s = s.takeWhile isBlank ++ lstrip s := fun s =>
    takeWhile_append_dropWhile.symm
  have hblank : ∀ s : Bytes, 95 ∉ s.takeWhile isBlank := fun s hmem =>
    absurd (mem_takeWhile_imp hmem) (by decide)
  rw [hsplit r, hsplit r', hstrip, ← cons_append, ← cons_append, ← append_assoc,
    ← append_assoc] at h
  exact ((append_cons_inj_last (hblank r) (hblank r')).mp (append_cancel_right h)).1

theorem normalName_eq_iff {a b : Bytes} (hpath : (pathTaken a).1 = (pathTaken b).1) :
    normalName a = normalName b ↔ SameSpelling a b := by
  have htopa := notMem_topName a
  have htopb := notMem_topName b
  have hka : ∀ k ∈ (brackets a).1, 93 ∉ k := fun _ => notMem_brackets
  have hkb : ∀ k ∈ (brackets b).1, 93 ∉ k := fun _ => notMem_brackets
  rw [pathTaken_brackets, pathTaken_brackets] at hpath
  rw [normalName, normalName, SameSpelling]
  generalize topName a = x at hpath htopa ⊢
  generalize topName b = y at hpath htopb ⊢
  generalize brackets a = braces at hpath hka ⊢
  generalize brackets b = braces' at hpath hkb ⊢
  obtain ⟨ks, o⟩ := braces
  obtain ⟨ks', o'⟩ := braces'
  dsimp only at hpath hka hkb ⊢
  by_cases hks : ks = []
  · by_cases hks' : ks' = []
    · subst hks hks'
      rw [if_pos rfl, if_pos rfl, singleton_inj, Option.some_inj] at hpath
      refine Iff.trans ?_ (and_iff_left rfl).symm
      have hopen : ∀ o, bracketText ([], o) = openText o := fun _ => rfl
      rw [hopen, hopen]
      cases o with
      | none =>
        cases o' with
        | none => simpa [openText] using hpath
        | some r' =>
          refine iff_of_false (fun h => htopa ?_) (some_ne_none _).symm
          rw [openText, append_nil] at h
          exact h ▸ mem_append_right _ mem_cons_self
      | some r =>
        cases o' with
        | none =>
          refine iff_of_false (fun h => htopb ?_) (some_ne_none _)
          rw [openText, openText, append_nil] at h
          exact h ▸ mem_append_right _ mem_cons_self
        | some r' =>
          rw [openText, openText, append_cons_inj htopa htopb, map_some, map_some,
            Option.some_inj]
          exact and_iff_right_of_imp (eq_of_joined hpath)
    · rw [if_pos hks, if_neg hks'] at hpath
      exact absurd (List.cons.inj hpath).2.symm (mt map_eq_nil_iff.mp hks')
  · by_cases hks' : ks' = []
    · rw [if_neg hks, if_pos hks'] at hpath
      exact absurd (List.cons.inj hpath).2 (mt map_eq_nil_iff.mp hks)
    · rw [if_neg hks, if_neg hks'] at hpath
      obtain ⟨htop, hlevel⟩ := List.cons.inj hpath
      rw [some.inj htop, append_cancel_left_eq]
      exact bracketText_inj hka hkb hlevel

theorem addProtectedVariable_eq (protectedVariables : List Bytes) (name : Bytes) :
    addProtectedVariable protectedVariables name =
      some (if normalName name ∈ protectedVariables then protectedVariables
        else protectedVariables ++ [normalName name]) := by
  obtain ⟨mem, hmem, hcstr⟩ := normalizeProtectedVariable_eq name
  rw [addProtectedVariable, hmem, map_some, hcstr]

theorem isProtectedVariable_eq (protectedVariables : List Bytes) (name : Bytes) :
    isProtectedVariable protectedVariables name =
      some (decide (normalName name ∈ protectedVariables)) := by
  obtain ⟨mem, hmem, hcstr⟩ := normalizeProtectedVariable_eq name
  rw [isProtectedVariable, hmem, map_some, hcstr]

/-- Every name is normalised inside of its memory, and once `a` is protected, so is `b`. -/
def Protects (protectedVariables : List Bytes) (a b : Bytes) : Prop :=
  (∀ name, (normalizeProtectedVariable (cstr name ++ [0])).isSome) ∧
    ∃ protectedVariables', addProtectedVariable protectedVariables a = some protectedVariables' ∧
      isProtectedVariable protectedVariables' b = some true

/-- **Protection.** Of names that are stored at one path, one protects the other if they have the
same spelling, and else only if that one has been protected before. -/
theorem protects_iff {α : Type*} {S S' : Settings} {val val' : α} {ht ht' : HashTable (Zval α)}
    {a b : Bytes} {path path' : List (Option Bytes)}
    (ha : (phpRegisterVariableEx S val a ht).stored = some path)
    (hb : (phpRegisterVariableEx S' val' b ht').stored = some path')
    (hpath : path.map (Option.map symtableKey) = path'.map (Option.map symtableKey))
    (protectedVariables : List Bytes) :
    Protects protectedVariables a b ↔
      SameSpelling a b ∨ isProtectedVariable protectedVariables b = some true := by
  have hinj : Function.Injective (List.map (Option.map symtableKey)) :=
    map_injective_iff.mpr (map_injective symtableKey_injective)
  have hsame : (pathTaken a).1 = (pathTaken b).1 := by
    rw [← (stored_register ha).2.1, ← (stored_register hb).2.1, hinj hpath]
  have hbounds : ∀ name, (normalizeProtectedVariable (cstr name ++ [0])).isSome := by
    intro name
    obtain ⟨mem, hmem, -⟩ := normalizeProtectedVariable_eq name
    rw [hmem]
    rfl
  rw [Protects, and_iff_right hbounds, ← normalName_eq_iff hsame]
  simp only [addProtectedVariable_eq, isProtectedVariable_eq, some.injEq, exists_eq_left',
    decide_eq_true_eq]
  by_cases hmem : normalName a ∈ protectedVariables
  · rw [if_pos hmem]
    exact ⟨.inr, fun h => h.elim (fun heq => heq ▸ hmem) id⟩
  · rw [if_neg hmem, mem_append, mem_singleton, or_comm]
    exact or_congr_left eq_comm

/-- Of two spellings with the same bracket, one protects the other. -/
theorem protects_trailingText :
    Protects [] (ascii "a[b]") (ascii " a[b]x") ↔
      SameSpelling (ascii "a[b]") (ascii " a[b]x") ∨
        isProtectedVariable [] (ascii " a[b]x") = some true :=
  @protects_iff Unit someSettings someSettings () () .init .init (ascii "a[b]") (ascii " a[b]x")
    [some (ascii "a"), some (ascii "b")] [some (ascii "a"), some (ascii "b")]
    (by decide) (by decide) rfl []

/-- `a[b` is stored where `a_b` is, and not protected with it. -/
theorem not_protects_openBracket :
    (phpRegisterVariableEx someSettings () (ascii "a_b") .init).stored = some [some (ascii "a_b")] ∧
      (phpRegisterVariableEx someSettings () (ascii "a[b") .init).stored =
        some [some (ascii "a_b")] ∧ ¬Protects [] (ascii "a_b") (ascii "a[b") := by
  refine ⟨by decide, by decide, ?_⟩
  rintro ⟨-, protectedVariables, hadd, hprotected⟩
  obtain rfl : protectedVariables = [ascii "a_b"] :=
    Option.some.inj (hadd.symm.trans (by decide))
  exact absurd hprotected (by decide)

end Input

end Phpce
