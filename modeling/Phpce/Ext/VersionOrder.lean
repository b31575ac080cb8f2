import Mathlib.Order.SetNotation
import Phpce.Ext.Versioning

/-!
# The order of version strings

A version string is orderly if what is compared of it holds no `#` and does not end in a dot. The
orderly ones are ordered by their keys: the pieces' orders and numbers, and behind them a key below
all numbers and above the names that stand for a stage before the release.

* **`consistent_insert_orderly_iff`** — the comparison is a total preorder of the orderly version
  strings, and any other string put among them breaks it.
-/

namespace Phpce

namespace Versioning

open Bytes ThreeWay List Option Nat

/-! ## Keys -/

def pieceKey (e : Bytes) : Int ×ₗ Int :=
  if startsWithDigit e then toLex (4, strtol e) else toLex (found e, 0)

/-- The key of the end: that of `#N#`, below all numbers. -/
def endKey : Int ×ₗ Int := toLex (4, -1)

def keys (es : List Bytes) : List (Int ×ₗ Int) := es.map pieceKey ++ [endKey]

def versionKey (s : Bytes) : List (Int ×ₗ Int) :=
  if s = [] then [] else keys (pieces (comparedForm s))

variable {e e1 e2 p s t u : Bytes} {es es1 es2 : List Bytes}

theorem found_ne_four (h : e.head? ≠ some 35) : found e ≠ 4 := mt found_eq_four_iff.mp h

theorem threeWay_rank {o1 o2 : Int} (h : o1 ≠ o2) (l1 l2 : Int) :
    threeWay (toLex (o1, l1)) (toLex (o2, l2)) = threeWay o1 o2 := by
  rw [threeWay_toLex, if_pos (mt threeWay_eq_zero_iff.mp h)]

theorem comparePieces_eq (h1 : e1.head? ≠ some 35) (h2 : e2.head? ≠ some 35) :
    comparePieces e1 e2 = threeWay (pieceKey e1) (pieceKey e2) := by
  rw [comparePieces, pieceKey, pieceKey, sign_sub, compareSpecial_eq, compareSpecial_eq,
    compareSpecial_eq, show found numberForm = 4 from rfl]
  cases startsWithDigit e1 <;> cases startsWithDigit e2
  · show threeWay (found e1) (found e2) = threeWay (toLex (found e1, 0)) (toLex (found e2, 0))
    rw [threeWay_toLex, threeWay_self]
    split
    next => rfl
    next h => exact not_not.mp h
  · exact (threeWay_rank (found_ne_four h1) _ _).symm
  · exact (threeWay_rank (found_ne_four h2).symm _ _).symm
  · show _ = threeWay (toLex (4, strtol e1)) (toLex (4, strtol e2))
    rw [threeWay_toLex, threeWay_self, if_neg (not_not_intro rfl)]
    rfl

theorem restOrder_cons (h : e.head? ≠ some 35) (es : List Bytes) :
    restOrder (e :: es) = threeWay (pieceKey e) endKey := by
  have hne := mt compareSpecial_numberForm_eq_zero_iff.mp h
  rw [restOrder, if_pos hne, pieceKey, endKey]
  cases startsWithDigit e
  · show compareSpecialVersionForms e numberForm = threeWay (toLex (found e, 0)) (toLex (4, -1))
    rw [threeWay_rank (found_ne_four h), compareSpecial_eq]
    rfl
  · show 1 = threeWay (toLex (4, strtol e)) (toLex (4, -1))
    have hpos := strtol_nonneg e
    rw [threeWay_toLex, threeWay_self, if_neg (not_not_intro rfl), threeWay_of_gt (by omega)]

theorem restOrder_ne_zero (h : e.head? ≠ some 35) (es : List Bytes) : restOrder (e :: es) ≠ 0 := by
  have hne := mt compareSpecial_numberForm_eq_zero_iff.mp h
  rw [restOrder, if_pos hne]
  split
  next => exact Int.one_ne_zero
  next => exact hne

structure OrderlyPieces (es : List Bytes) : Prop where
  noHash : ∀ e ∈ es, e.head? ≠ some 35
  noEmptyLast : es.getLast? ≠ some []

theorem OrderlyPieces.tail (h : OrderlyPieces (e :: es)) : OrderlyPieces es where
  noHash e he := h.noHash e (mem_cons_of_mem _ he)
  noEmptyLast hlast := h.noEmptyLast (by rw [List.getLast?_cons, hlast]; rfl)

theorem OrderlyPieces.ne_singleton_nil (h : OrderlyPieces es) : es ≠ [[]] := fun heq =>
  h.noEmptyLast (by rw [heq]; rfl)

theorem piecesOrder_eq (h1 : OrderlyPieces es1) (h2 : OrderlyPieces es2) :
    piecesOrder es1 es2 = threeWay (keys es1) (keys es2) := by
  -- induction on the first list
  induction es1 generalizing es2 with
  | nil =>
    cases es2 with
    | nil => exact (threeWay_self _).symm
    | cons e2 es2 =>
      have hhead := h2.noHash e2 mem_cons_self
      have hne := restOrder_ne_zero hhead es2
      show -restOrder (e2 :: es2) = threeWay (endKey :: []) (pieceKey e2 :: keys es2)
      rw [restOrder_cons hhead] at hne ⊢
      rw [threeWay_cons, threeWay_swap (pieceKey e2) endKey, if_pos (Int.neg_ne_zero.mpr hne)]
  | cons e1 es1 ih =>
    have hhead := h1.noHash e1 mem_cons_self
    cases es2 with
    | nil =>
      have hne := restOrder_ne_zero hhead es1
      show restOrder (e1 :: es1) = threeWay (pieceKey e1 :: keys es1) (endKey :: [])
      rw [restOrder_cons hhead] at hne ⊢
      rw [threeWay_cons, if_pos hne]
    | cons e2 es2 =>
      have hcompare := comparePieces_eq hhead (h2.noHash e2 mem_cons_self)
      show _ = threeWay (pieceKey e1 :: keys es1) (pieceKey e2 :: keys es2)
      rw [piecesOrder, if_neg h1.ne_singleton_nil, if_neg h2.ne_singleton_nil, hcompare,
        ih h1.tail h2.tail, threeWay_cons]

/-! ## Orderly version strings -/

/-- What is compared holds no `#` and does not end in a dot. -/
def Orderly (s : Bytes) : Prop := 35 ∉ comparedForm s ∧ (comparedForm s).getLast? ≠ some 46

instance (s : Bytes) : Decidable (Orderly s) := inferInstanceAs (Decidable (_ ∧ _))

theorem subset_of_mem_pieces (h : e ∈ pieces p) : e ⊆ p := by
  induction p using pieces_induction with
  | last t ht =>
    rw [pieces_of_notMem ht] at h
    rw [mem_singleton.mp h]
    exact List.Subset.refl t
  | cons t r ht ih =>
    rw [pieces_append_cons ht] at h
    rcases mem_cons.mp h with rfl | h
    · exact subset_append_left _ _
    · exact List.Subset.trans (ih h)
        (List.Subset.trans (subset_cons_self 46 r) (subset_append_right t _))

theorem getLast?_pieces (hp : p ≠ []) :
    (pieces p).getLast? = some [] ↔ p.getLast? = some 46 := by
  induction p using pieces_induction with
  | last t ht =>
    rw [pieces_of_notMem ht]
    refine iff_of_false (fun h => hp (some.inj h)) fun h => ?_
    exact ht (mem_of_getLast? h)
  | cons t r ht ih =>
    rw [pieces_append_cons ht, List.getLast?_append_cons, List.getLast?_cons, List.getLast?_cons]
    cases r with
    | nil => exact iff_of_true rfl rfl
    | cons c r =>
      have hrest := ih (cons_ne_nil c r)
      have hpieces := List.getLast?_isSome.mpr (pieces_ne_nil (c :: r))
      have hchars := List.getLast?_isSome.mpr (cons_ne_nil c r)
      obtain ⟨x, hx⟩ := isSome_iff_exists.mp hpieces
      obtain ⟨y, hy⟩ := isSome_iff_exists.mp hchars
      rw [hx, hy] at hrest ⊢
      exact hrest

theorem orderlyPieces (h : Orderly s) (hs : s ≠ []) : OrderlyPieces (pieces (comparedForm s)) where
  noHash _ he hhead :=
    h.1 (subset_of_mem_pieces he (mem_of_head? hhead))
  noEmptyLast hlast := h.2 ((getLast?_pieces (mt comparedForm_eq_nil_iff.mp hs)).mp hlast)

theorem versionOrder_eq (hs : Orderly s) (ht : Orderly t) :
    versionOrder s t = threeWay (versionKey s) (versionKey t) := by
  have hkeys : ∀ es, ([] : List (Int ×ₗ Int)) < keys es := by
    intro es
    rw [keys]
    cases es.map pieceKey <;> exact List.Lex.nil
  rw [versionOrder, versionKey, versionKey]
  by_cases hs0 : s = []
  · by_cases ht0 : t = []
    · rw [if_pos (.inl hs0), if_pos ⟨hs0, ht0⟩, if_pos hs0, if_pos ht0, threeWay_self]
    · rw [if_pos (.inl hs0), if_neg (fun h => ht0 h.2), if_neg (not_not_intro hs0), if_pos hs0,
        if_neg ht0, threeWay_of_lt (hkeys _)]
  · by_cases ht0 : t = []
    · rw [if_pos (.inr ht0), if_neg (fun h => hs0 h.1), if_pos hs0, if_neg hs0, if_pos ht0,
        threeWay_of_gt (hkeys _)]
    · rw [if_neg (not_or.mpr ⟨hs0, ht0⟩), if_neg hs0, if_neg ht0]
      exact piecesOrder_eq (orderlyPieces hs hs0) (orderlyPieces ht ht0)

/-! ## Strings that end in a dot -/

theorem piecesOrder_self (h : es.getLast? = some []) : piecesOrder es es = -1 := by
  induction es with
  | nil => cases h
  | cons e es ih =>
    rw [piecesOrder]
    split
    next => rfl
    next hne =>
      rw [comparePieces_self, if_neg (not_not_intro rfl), ih ?_]
      cases es with
      | nil => exact absurd (congrArg (· :: []) (some.inj h)) hne
      | cons e' es => exact h

theorem versionOrder_self (h : (comparedForm s).getLast? = some 46) : versionOrder s s = -1 := by
  have hs : comparedForm s ≠ [] := fun hnil => by
    rw [hnil] at h
    cases h
  have hnil : ¬(s = [] ∨ s = []) := fun hnil => hs (comparedForm_eq_nil_iff.mpr (hnil.elim id id))
  rw [versionOrder, if_neg hnil, piecesOrder_self ((getLast?_pieces hs).mpr h)]

/-! ## Strings that hold a `#` -/

theorem piecesOrder_append {es : List Bytes} (h1 : es1 ≠ []) (h2 : es2 ≠ []) :
    piecesOrder (es ++ es1) (es ++ es2) = piecesOrder es1 es2 := by
  induction es with
  | nil => rfl
  | cons e es ih =>
    have hne : ∀ es' : List Bytes, es' ≠ [] → e :: (es ++ es') ≠ [[]] := by
      intro es' hes' heq
      exact hes' (append_eq_nil_iff.mp (List.cons.inj heq).2).2
    rw [cons_append, cons_append, piecesOrder, if_neg (hne es1 h1), if_neg (hne es2 h2),
      comparePieces_self, if_neg (not_not_intro rfl), ih]

theorem comparePieces_p_le (e : Bytes) : comparePieces e [112] ≤ 0 := by
  have hbound := (found_bounds e).2
  rw [comparePieces, show startsWithDigit [112] = false from rfl, compareSpecial_eq,
    compareSpecial_eq, show found [112] = 5 from rfl]
  cases startsWithDigit e
  · exact threeWay_nonpos_iff.mpr hbound
  · exact threeWay_nonpos_iff.mpr (show (4 : Int) ≤ 5 by decide)

theorem comparePieces_x_le (e : Bytes) : comparePieces [120] e ≤ 0 := by
  have hbound := (found_bounds e).1
  rw [comparePieces, show startsWithDigit [120] = false from rfl, compareSpecial_eq,
    compareSpecial_eq, show found [120] = -1 from rfl]
  cases startsWithDigit e
  · exact threeWay_nonpos_iff.mpr hbound
  · exact threeWay_nonpos_iff.mpr (show (-1 : Int) ≤ 4 by decide)

theorem piecesOrder_replicate_p_le {n : Nat} (h : es.length < n) :
    piecesOrder es (replicate n [112]) ≤ 0 := by
  induction es generalizing n with
  | nil =>
    obtain ⟨n, rfl⟩ := exists_eq_add_one.mpr (zero_lt_of_lt h)
    show -1 ≤ (0 : Int)
    decide
  | cons e es ih =>
    obtain ⟨n, rfl⟩ := exists_eq_add_one.mpr (zero_lt_of_lt h)
    have hne : ([112] : Bytes) :: replicate n [112] ≠ [[]] := fun heq =>
      absurd (List.cons.inj heq).1 (by decide)
    rw [replicate_succ, piecesOrder, if_neg hne]
    split
    next => decide
    next =>
      split
      next => exact comparePieces_p_le e
      next => exact ih (lt_of_succ_lt_succ h)

theorem piecesOrder_replicate_x_le {n : Nat} (h : es.length < n) :
    piecesOrder (replicate n [120]) es ≤ 0 := by
  induction es generalizing n with
  | nil =>
    obtain ⟨n, rfl⟩ := exists_eq_add_one.mpr (zero_lt_of_lt h)
    show (-1 : Int) ≤ 0
    decide
  | cons e es ih =>
    obtain ⟨n, rfl⟩ := exists_eq_add_one.mpr (zero_lt_of_lt h)
    have hne : ([120] : Bytes) :: replicate n [120] ≠ [[]] := fun heq =>
      absurd (List.cons.inj heq).1 (by decide)
    rw [replicate_succ, piecesOrder, if_neg hne]
    split
    next => exact (show (-1 : Int) ≤ 0 by decide)
    next =>
      split
      next => exact comparePieces_x_le e
      next => exact ih (lt_of_succ_lt_succ h)

/-! ## Canonical forms, from their first part on -/

theorem canonicalizeLoop_append (lp : UInt8) (q s t : Bytes) :
    canonicalizeLoop lp q (s ++ t) =
      canonicalizeLoop (s.getLastD lp) (canonicalizeLoop lp q s) t := by
  induction s generalizing lp q with
  | nil => rfl
  | cons c s ih =>
    rw [cons_append, canonicalizeLoop, ih, canonicalizeLoop, getLastD_cons]

theorem phpCanonicalizeVersion_append (hu : u ≠ []) (t : Bytes) :
    phpCanonicalizeVersion (u ++ t) = phpCanonicalizeVersion u ++
      appended (u.getLastD 0) ((phpCanonicalizeVersion u).getLastD 0) t := by
  obtain ⟨c, s, rfl⟩ := exists_cons_of_ne_nil hu
  show canonicalizeLoop c [c] (s ++ t) = _
  rw [canonicalizeLoop_append, canonicalizeLoop_eq, getLastD_cons]
  rfl

theorem canonicalizeChar_digit {d : UInt8} (hd : isdig d = true) (lp lq : UInt8) :
    ∃ out, canonicalizeChar lp lq d = out ++ [d] := by
  obtain ⟨hspecial, halnum⟩ := forall_byte (p := fun d => isdig d = true →
    isspecialver d = false ∧ isalnum d = true) (by decide +kernel) d hd
  rw [canonicalizeChar, hspecial, halnum, if_neg Bool.false_ne_true]
  split
  next => exact ⟨_, rfl⟩
  next => exact ⟨[], rfl⟩

theorem getLastD_phpCanonicalizeVersion (hu : u ≠ []) (hd : isdig (u.getLastD 0) = true) :
    (phpCanonicalizeVersion u).getLastD 0 = u.getLastD 0 := by
  obtain ⟨s, d, rfl⟩ := (eq_nil_or_concat u).resolve_left hu
  rw [concat_eq_append, getLastD_concat] at hd ⊢
  by_cases hs : s = []
  · subst hs
    rfl
  obtain ⟨out, hout⟩ := canonicalizeChar_digit hd (s.getLastD 0)
    ((phpCanonicalizeVersion s).getLastD 0)
  rw [phpCanonicalizeVersion_append hs, appended, appended, append_nil, hout,
    ← append_assoc, getLastD_concat]

theorem isdig_of_mem_canonicalizeChar {lp lq c : UInt8} (h : 35 ∈ canonicalizeChar lp lq c) :
    c = 35 ∧ isdig lp = true := by
  have hdot : (35 : UInt8) ∉ (if lq ≠ 46 then [46] else [] : Bytes) := by
    split <;> decide
  rw [canonicalizeChar] at h
  split at h
  next => exact absurd h hdot
  split at h
  next hmix =>
    rcases mem_append.mp h with h | h
    · exact absurd h hdot
    · obtain rfl := mem_singleton.mp h
      rw [show isdig 35 = false from rfl, Bool.and_false, Bool.false_or, Bool.and_eq_true] at hmix
      exact ⟨rfl, hmix.1⟩
  split at h
  next => exact absurd h hdot
  next halnum =>
    obtain rfl := mem_singleton.mp h
    exact absurd rfl halnum

theorem exists_hash {c : UInt8} (hc : c ≠ 35) (h : 35 ∈ phpCanonicalizeVersion (c :: s)) :
    ∃ u v, c :: s = u ++ 35 :: v ∧ u ≠ [] ∧ isdig (u.getLastD 0) = true ∧
      35 ∉ phpCanonicalizeVersion u := by
  -- induction on the characters, the last one first
  induction s using reverseRecOn with
  | nil => exact absurd (mem_singleton.mp h).symm hc
  | append_singleton s x ih =>
    by_cases hmem : 35 ∈ phpCanonicalizeVersion (c :: s)
    · obtain ⟨u, v, heq, hu, hdig, hnot⟩ := ih hmem
      refine ⟨u, v ++ [x], ?_, hu, hdig, hnot⟩
      rw [← cons_append, heq, append_assoc, cons_append]
    · rw [← cons_append, phpCanonicalizeVersion_append (cons_ne_nil c s), appended,
        appended, append_nil] at h
      obtain ⟨rfl, hdig⟩ :=
        isdig_of_mem_canonicalizeChar ((mem_append.mp h).resolve_left hmem)
      exact ⟨c :: s, [], rfl, cons_ne_nil c s, hdig, hmem⟩

/-! ## Strings of one-character pieces -/

def dotted (xs : Bytes) : Bytes := xs.flatMap fun x => [46, x]

theorem canonicalizeChar_dot {lp : UInt8} (h : isalnum lp = true) :
    canonicalizeChar lp lp 46 = [46] := by
  revert h
  exact forall_byte (by decide +kernel) lp

theorem canonicalizeChar_alnum {x : UInt8} (h : isalnum x = true) :
    canonicalizeChar 46 46 x = [x] := by
  revert h
  exact forall_byte (by decide +kernel) x

theorem appended_dotted {lp : UInt8} {xs : Bytes} (hlp : isalnum lp = true)
    (hxs : ∀ x ∈ xs, isalnum x = true) : appended lp lp (dotted xs) = dotted xs := by
  induction xs generalizing lp with
  | nil => rfl
  | cons x xs ih =>
    obtain ⟨hx, hxs⟩ := forall_mem_cons.mp hxs
    show appended lp lp (46 :: x :: dotted xs) = 46 :: x :: dotted xs
    rw [appended, canonicalizeChar_dot hlp]
    show 46 :: appended 46 46 (x :: dotted xs) = _
    rw [appended, canonicalizeChar_alnum hx]
    show 46 :: x :: appended x x (dotted xs) = _
    rw [ih hx hxs]

theorem pieces_append (s t : Bytes) : pieces (s ++ 46 :: t) = pieces s ++ pieces t := by
  induction s using pieces_induction with
  | last s hs => rw [pieces_append_cons hs, pieces_of_notMem hs, singleton_append]
  | cons s r hs ih =>
    rw [append_assoc, cons_append, pieces_append_cons hs, pieces_append_cons hs, ih,
      cons_append]

theorem pieces_append_dotted {xs : Bytes} (hxs : ∀ x ∈ xs, isalnum x = true) (s : Bytes) :
    pieces (s ++ dotted xs) = pieces s ++ xs.map fun x => [x] := by
  induction xs generalizing s with
  | nil => rw [dotted, flatMap_nil, append_nil, map_nil, append_nil]
  | cons x xs ih =>
    obtain ⟨hx, hxs⟩ := forall_mem_cons.mp hxs
    have hdot : 46 ∉ [x] := fun h => by
      rw [← mem_singleton.mp h] at hx
      exact absurd hx (by decide)
    show pieces (s ++ 46 :: ([x] ++ dotted xs)) = _
    rw [pieces_append, ih hxs, pieces_of_notMem hdot]
    rfl

theorem notMem_dotted {c : UInt8} (hc : isalnum c = false) (hdot : c ≠ 46) {xs : Bytes}
    (hxs : ∀ x ∈ xs, isalnum x = true) : c ∉ dotted xs := by
  intro hmem
  obtain ⟨x, hx, hcx⟩ := mem_flatMap.mp hmem
  rcases mem_cons.mp hcx with h | h
  · exact hdot h
  · obtain rfl := mem_singleton.mp h
    rw [hxs c hx] at hc
    exact Bool.noConfusion hc

theorem getLast?_dotted {x : UInt8} {xs : Bytes} (hxs : ∀ y ∈ x :: xs, isalnum y = true) :
    (dotted (x :: xs)).getLast? ≠ some 46 := by
  induction xs generalizing x with
  | nil =>
    intro h
    have hx := hxs x mem_cons_self
    rw [show x = 46 from some.inj h] at hx
    exact absurd hx (by decide)
  | cons y xs ih => exact ih fun z hz => hxs z (mem_cons_of_mem x hz)

structure VersionString where
  text : Bytes
  noNul : 0 ∉ text

def HasOrderly (es : List Bytes) : Prop :=
  ∃ t : VersionString, t.text ≠ [] ∧ Orderly t.text ∧ pieces (comparedForm t.text) = es

/-- Behind `es` one-character pieces can follow in an orderly version string. -/
def GoesOn (es : List Bytes) : Prop :=
  ∀ x xs, (∀ y ∈ x :: xs, isalnum y = true) → HasOrderly (es ++ [x] :: xs.map fun y => [y])

theorem comparedForm_of_ne (h : s.head? ≠ some 35) : comparedForm s = phpCanonicalizeVersion s :=
  if_neg h

theorem ne_of_isalnum {x c : UInt8} (hx : isalnum x = true) (hc : isalnum c = false) : x ≠ c :=
  fun h => by
    rw [h, hc] at hx
    exact Bool.false_ne_true hx

theorem goesOn_nil : GoesOn [] := by
  intro x xs hxs
  obtain ⟨hx, hxs'⟩ := forall_mem_cons.mp hxs
  have hform : comparedForm (x :: dotted xs) = x :: dotted xs := by
    have hne : (x :: dotted xs).head? ≠ some 35 :=
      mt some.inj (ne_of_isalnum hx (by decide))
    rw [comparedForm_of_ne hne, phpCanonicalizeVersion_cons, appended_dotted hx hxs']
  have hmem : ∀ c : UInt8, isalnum c = false → c ≠ 46 → c ∉ x :: dotted xs := by
    intro c hc hdot h
    rcases mem_cons.mp h with h | h
    · exact ne_of_isalnum hx hc h.symm
    · exact notMem_dotted hc hdot hxs' h
  refine ⟨⟨x :: dotted xs, hmem 0 (by decide) (by decide)⟩, cons_ne_nil _ _, ⟨?_, ?_⟩, ?_⟩
  · rw [hform]
    exact hmem 35 (by decide) (by decide)
  · rw [hform]
    intro h
    refine getLast?_dotted hxs ?_
    show (46 :: (x :: dotted xs)).getLast? = some 46
    rw [List.getLast?_cons, h]
    rfl
  · rw [hform]
    have hdot : 46 ∉ [x] := fun h =>
      ne_of_isalnum hx (by decide) (mem_singleton.mp h).symm
    show pieces ([x] ++ dotted xs) = _
    rw [pieces_append_dotted hxs', pieces_of_notMem hdot]
    rfl

theorem goesOn_pieces (hnul : 0 ∉ u) (hu : u ≠ []) (hhead : u.head? ≠ some 35)
    (hdig : isdig (u.getLastD 0) = true) (hnot : 35 ∉ phpCanonicalizeVersion u) :
    GoesOn (pieces (phpCanonicalizeVersion u)) := by
  intro x xs hxs
  have halnum := forall_byte (p := fun d => isdig d = true → isalnum d = true)
    (by decide +kernel) (u.getLastD 0) hdig
  have hform : comparedForm (u ++ dotted (x :: xs)) =
      phpCanonicalizeVersion u ++ dotted (x :: xs) := by
    have hhead' : (u ++ dotted (x :: xs)).head? ≠ some 35 := by
      rwa [List.head?_append_of_ne_nil _ hu]
    rw [comparedForm_of_ne hhead', phpCanonicalizeVersion_append hu,
      getLastD_phpCanonicalizeVersion hu hdig, appended_dotted halnum hxs]
  have hmem : ∀ {c : UInt8} {w : Bytes}, isalnum c = false → c ≠ 46 → c ∉ w →
      c ∉ w ++ dotted (x :: xs) := by
    intro c w hc hdot hw h
    exact (mem_append.mp h).elim hw (notMem_dotted hc hdot hxs)
  refine ⟨⟨u ++ dotted (x :: xs), hmem (by decide) (by decide) hnul⟩,
    append_ne_nil_of_left_ne_nil hu _, ⟨?_, ?_⟩, ?_⟩
  · rw [hform]
    exact hmem (by decide) (by decide) hnot
  · have hne : dotted (x :: xs) ≠ [] := cons_ne_nil 46 (x :: dotted xs)
    rw [hform, List.getLast?_append_of_ne_nil _ hne]
    exact getLast?_dotted hxs
  · rw [hform, pieces_append_dotted hxs]
    rfl

theorem exists_goesOn (s : VersionString) (h : 35 ∈ comparedForm s.text) :
    ∃ es e es', pieces (comparedForm s.text) = es ++ e :: es' ∧ e.head? = some 35 ∧
      GoesOn es := by
  obtain ⟨s, hnul⟩ := s
  dsimp only at h ⊢
  have hfirst : ∀ r : Bytes, ∃ e es', pieces (35 :: r) = e :: es' ∧ e.head? = some 35 := by
    intro r
    refine ⟨_, _, pieces_eq_cons _, ?_⟩
    rw [← found_eq_four_iff, found_nextPiece, found_eq_four_iff]
    rfl
  by_cases hraw : s.head? = some 35
  · -- the string is compared as it is, from its first character on
    rw [comparedForm_of_head hraw]
    obtain ⟨r, rfl⟩ := List.head?_eq_some_iff.mp hraw
    obtain ⟨e, es', hes, he⟩ := hfirst r
    exact ⟨[], e, es', hes, he, goesOn_nil⟩
  · rw [comparedForm_of_ne hraw] at h ⊢
    obtain ⟨c, s, rfl⟩ := exists_cons_of_ne_nil
      (show s ≠ [] from fun hs => not_mem_nil (hs ▸ h))
    obtain ⟨u, v, heq, hu, hdig, hnot⟩ := exists_hash (fun hc => hraw (congrArg some hc)) h
    have hhash := forall_byte (p := fun d => isdig d = true → canonicalizeChar d d 35 = [46, 35])
      (by decide +kernel) (u.getLastD 0) hdig
    obtain ⟨e, es', hes, he⟩ := hfirst (appended 35 35 v)
    refine ⟨pieces (phpCanonicalizeVersion u), e, es', ?_, he, ?_⟩
    · rw [heq, phpCanonicalizeVersion_append hu, getLastD_phpCanonicalizeVersion hu hdig,
        appended, hhash]
      show pieces (phpCanonicalizeVersion u ++ 46 :: 35 :: appended 35 35 v) = _
      rw [pieces_append, hes]
    · rw [heq] at hnul hraw
      refine goesOn_pieces (fun h => hnul (mem_append_left _ h)) hu ?_ hdig hnot
      rwa [List.head?_append_of_ne_nil _ hu] at hraw

/-! ## The order -/

/-- The comparison returns `r`, whatever more fuel it is given. -/
def Compares (a b : VersionString) (r : Int) : Prop :=
  ∃ bound, ∀ fuel, bound < fuel → phpVersionCompare fuel a.text b.text = some r

structure Consistent (versions : Set VersionString) : Prop where
  refl : ∀ a ∈ versions, Compares a a 0
  antisymm : ∀ a ∈ versions, ∀ b ∈ versions, ∀ r, Compares b a r → Compares a b (-r)
  trans : ∀ a ∈ versions, ∀ b ∈ versions, ∀ c ∈ versions, ∀ r s t, Compares a b r →
    Compares b c s → Compares a c t → r ≤ 0 → s ≤ 0 → t ≤ 0

theorem compares_versionOrder (a b : VersionString) :
    Compares a b (versionOrder a.text b.text) :=
  ⟨_, fun _ hfuel => phpVersionCompare_eq a.text b.text hfuel⟩

theorem compares_iff {a b : VersionString} {r : Int} :
    Compares a b r ↔ r = versionOrder a.text b.text := by
  refine ⟨fun h => ?_, fun h => h ▸ compares_versionOrder a b⟩
  obtain ⟨bound, hr⟩ := h
  obtain ⟨bound', hr'⟩ := compares_versionOrder a b
  have hfuel := hr (bound + bound' + 1) (by omega)
  rw [hr' (bound + bound' + 1) (by omega)] at hfuel
  exact (some.inj hfuel).symm

theorem consistent_orderly : Consistent {v | Orderly v.text} where
  refl a ha := by
    rw [compares_iff, versionOrder_eq ha ha, threeWay_self]
  antisymm a ha b hb r hr := by
    rw [compares_iff, versionOrder_eq hb ha] at hr
    rw [compares_iff, versionOrder_eq ha hb, hr, threeWay_swap, Int.neg_neg]
  trans a ha b hb c hc r s t hr hs ht hrle hsle := by
    rw [compares_iff, versionOrder_eq ha hb] at hr
    rw [compares_iff, versionOrder_eq hb hc] at hs
    rw [compares_iff, versionOrder_eq ha hc] at ht
    rw [hr, threeWay_nonpos_iff] at hrle
    rw [hs, threeWay_nonpos_iff] at hsle
    rw [ht, threeWay_nonpos_iff]
    exact hrle.trans hsle

theorem exists_between (a : VersionString) (h : 35 ∈ comparedForm a.text) :
    ∃ b c : VersionString, Orderly b.text ∧ Orderly c.text ∧
      versionOrder c.text a.text ≤ 0 ∧ versionOrder a.text b.text ≤ 0 ∧
      0 < versionOrder c.text b.text := by
  obtain ⟨es, e, es', hes, he, hexists⟩ := exists_goesOn a h
  have halnum : ∀ x, isalnum x = true → ∀ n : Nat, ∀ y ∈ replicate n x, isalnum y = true :=
    fun x hx n y hy => eq_of_mem_replicate hy ▸ hx
  obtain ⟨b, hb, hborderly, hbes⟩ := hexists 49 (replicate (es'.length + 1) 112)
    (forall_mem_cons.mpr ⟨by decide, halnum 112 (by decide) _⟩)
  obtain ⟨c, hc, hcorderly, hces⟩ := hexists 50 (replicate (es'.length + 1) 120)
    (forall_mem_cons.mpr ⟨by decide, halnum 120 (by decide) _⟩)
  have ha : a.text ≠ [] := fun hnil => by
    rw [comparedForm_eq_nil_iff.mpr hnil] at h
    exact not_mem_nil h
  have hhash : ∀ es'' : List Bytes, e :: es'' ≠ [[]] := fun es'' heq => by
    rw [(List.cons.inj heq).1] at he
    cases he
  have hnumber : ∀ x, ∀ es'' : List Bytes, ([x] : Bytes) :: es'' ≠ [[]] := fun x es'' heq =>
    absurd (List.cons.inj heq).1 (cons_ne_nil x [])
  have hdigit := startsWithDigit_of_head he
  rw [map_replicate] at hbes hces
  refine ⟨b, c, hborderly, hcorderly, ?_, ?_, ?_⟩
  · have hcompare : comparePieces [50] e = 0 := by
      rw [comparePieces, hdigit]
      show compareSpecialVersionForms numberForm e = 0
      rw [compareSpecial_eq, found_eq_four_iff.mpr he]
      rfl
    rw [versionOrder, if_neg (not_or.mpr ⟨hc, ha⟩), hces, hes,
      piecesOrder_append (cons_ne_nil _ _) (cons_ne_nil _ _), piecesOrder,
      if_neg (hnumber 50 _), if_neg (hhash _), hcompare, if_neg (not_not_intro rfl)]
    exact piecesOrder_replicate_x_le (lt_succ_self _)
  · have hcompare : comparePieces e [49] = 0 := by
      rw [comparePieces, hdigit]
      show compareSpecialVersionForms e numberForm = 0
      exact compareSpecial_numberForm_eq_zero_iff.mpr he
    rw [versionOrder, if_neg (not_or.mpr ⟨ha, hb⟩), hbes, hes,
      piecesOrder_append (cons_ne_nil _ _) (cons_ne_nil _ _), piecesOrder,
      if_neg (hhash _), if_neg (hnumber 49 _), hcompare, if_neg (not_not_intro rfl)]
    exact piecesOrder_replicate_p_le (lt_succ_self _)
  · rw [versionOrder, if_neg (not_or.mpr ⟨hc, hb⟩), hbes, hces,
      piecesOrder_append (cons_ne_nil _ _) (cons_ne_nil _ _), piecesOrder,
      if_neg (hnumber 50 _), if_neg (hnumber 49 _),
      show comparePieces [50] [49] = 1 by decide]
    exact Int.one_pos

/-- **The order of versions.** Any version string can be compared to any other; among the orderly
ones it is put in a consistent order exactly if it is orderly itself. -/
theorem consistent_insert_orderly_iff (a : VersionString) :
    (Consistent (insert a {v | Orderly v.text}) ↔ Orderly a.text) ∧ ∀ b, ∃ r, Compares a b r := by
  refine ⟨⟨fun h => ⟨fun hhash => ?_, fun hdot => ?_⟩, fun ha => ?_⟩,
    fun b => ⟨_, compares_versionOrder a b⟩⟩
  · obtain ⟨b, c, hb, hc, hca, hab, hcb⟩ := exists_between a hhash
    have hle := h.trans c (.inr hc) a (.inl rfl) b (.inr hb) _ _ _ (compares_versionOrder c a)
      (compares_versionOrder a b) (compares_versionOrder c b) hca hab
    omega
  · have hself := compares_iff.mp (h.refl a (.inl rfl))
    rw [versionOrder_self hdot] at hself
    exact absurd hself (by decide)
  · rw [Set.insert_eq_of_mem (show a ∈ {v : VersionString | Orderly v.text} from ha)]
    exact consistent_orderly

/-- The texts `1.`, `1`, `2` and `#`. -/
def oneDot : VersionString := ⟨ascii "1.", by decide⟩

def one : VersionString := ⟨ascii "1", by decide⟩

def two : VersionString := ⟨ascii "2", by decide⟩

def hash : VersionString := ⟨ascii "#", by decide⟩

/-- `1.` is below itself, and `2` is not above `#`, which is not above `1`. -/
theorem not_consistent : ¬Consistent {oneDot} ∧ ¬Consistent {one, two, hash} := by
  constructor
  · intro h
    have hself := compares_iff.mp (h.refl oneDot rfl)
    exact absurd hself (by decide)
  · intro h
    have hle := h.trans two (.inr (.inl rfl)) hash (.inr (.inr rfl)) one (.inl rfl) 0 0 1
      (compares_iff.mpr (by decide)) (compares_iff.mpr (by decide))
      (compares_iff.mpr (by decide)) (Int.le_refl 0) (Int.le_refl 0)
    exact absurd hle (by decide)

end Versioning

end Phpce
