import Phpce.Json.Zval
import Phpce.Lib.CString
import Phpce.Lib.Cut

/-!
# Registering an input variable

`php_register_variable_ex`, which reads the name of an input variable as a path and stores a value
under it. The copy of the name is a list of bytes with NULs where it is cut; a place behind its end
is the NUL of the string. Beside the table, the result says under which path the value has gone.

* `phpRegisterVariableEx_eq`: what is done, in terms of the path alone (`walk`).
-/

namespace Phpce

namespace Input

open Bytes List
open Json (Key symtableKey hashUpdate)

/-! ## Tables -/

structure HashTable (β : Type*) where
  nNextFreeElement : Int
  entries : List (Key × β)

inductive Zval (α : Type*) where
  | value (v : α)
  | array (ht : HashTable (Zval α))

namespace HashTable

variable {β : Type*}

/-- `array_init` -/
def init : HashTable β := ⟨0, []⟩

def find (ht : HashTable β) (key : Key) : Option β :=
  (ht.entries.find? fun e => e.1 = key).map Prod.snd

/-- `zend_hash_update` or `zend_hash_index_update` -/
def update (ht : HashTable β) (key : Key) (v : β) : HashTable β where
  nNextFreeElement :=
    match key with
    | .index h =>
      if ht.nNextFreeElement ≤ h then min (h + 1) NumericKey.zendLongMax else ht.nNextFreeElement
    | .name _ => ht.nNextFreeElement
  entries := hashUpdate ht.entries key v

/-- `zend_hash_next_index_insert`, which fails where the last index is taken. -/
def nextIndexInsert (ht : HashTable β) (v : β) : Option (HashTable β) :=
  match ht.find (.index ht.nNextFreeElement) with
  | some _ => none
  | none => some (ht.update (.index ht.nNextFreeElement) v)

/-- `zend_symtable_str_del` -/
def del (ht : HashTable β) (key : Key) : HashTable β :=
  { ht with entries := ht.entries.filter fun e => e.1 ≠ key }

end HashTable

/-! ## The function -/

/-- What `php_register_variable_ex` reads beside its arguments. -/
structure Settings where
  maxInputNestingLevel : Int
  /-- `track_vars_array` is the symbol table of the user function that runs. -/
  ownsThis : Bool
  /-- `track_vars_array` is `EG(symbol_table)`. -/
  isSymbolTable : Bool
  /-- `track_vars_array` is `PG(http_globals)[TRACK_VARS_COOKIE]`. -/
  isCookie : Bool

structure Registered (α : Type*) where
  symtable : HashTable (Zval α)
  /-- The `index` of each level, where the value has been stored. -/
  stored : Option (List (Option Bytes))
  /-- `nest_level` has passed its limit. -/
  tooDeep : Bool

/-- `isspace` -/
def isspace (c : UInt8) : Bool := c = 32 || 9 ≤ c && c ≤ 13

def at' (var : Bytes) (p : Nat) : UInt8 := var.getD p 0

def strlen (var : Bytes) (p : Nat) : Nat := (cstr (var.drop p)).length

def strchr (var : Bytes) (p : Nat) (c : UInt8) : Option Nat :=
  (cutAt c (cstr (var.drop p))).map fun r => p + r.1.length

/-- The loop that replaces spaces and dots: the memory after it, and whether a bracket has stopped
it at the NUL that it has put there. -/
def scanName : Bytes → Bytes × Bool
  | [] => ([], false)
  | c :: p =>
    if c = 32 ∨ c = 46 then (95 :: (scanName p).1, (scanName p).2)
    else if c = 91 then (0 :: p, true)
    else (c :: (scanName p).1, (scanName p).2)

def skipBlank (var : Bytes) (ip : Nat) : Nat := if isspace (at' var ip) then ip + 1 else ip

section

variable {α : Type*} (S : Settings) (val : α)

/-- `index` and `index_len`, as a string. -/
def indexOf (var : Bytes) (index : Option (Nat × Nat)) : Option Bytes :=
  index.map fun i => (var.drop i.1).take i.2

/-- `plain_var`; `top` says that `symtable1` is `track_vars_array`. -/
def plainVar (top : Bool) (index : Option Bytes) (symtable1 : HashTable (Zval α)) : Registered α :=
  match index with
  | none =>
    match symtable1.nextIndexInsert (.value val) with
    | none => ⟨symtable1, none, false⟩
    | some ht => ⟨ht, some [none], false⟩
  | some key =>
    if S.isCookie ∧ top ∧ (symtable1.find (symtableKey key)).isSome then ⟨symtable1, none, false⟩
    else ⟨symtable1.update (symtableKey key) (.value val), some [some key], false⟩

/-- The table at `index`, which is put there where there is none, after what `next` makes of it. -/
def descend (index : Option Bytes) (symtable1 : HashTable (Zval α))
    (next : HashTable (Zval α) → Registered α) : Registered α :=
  match index with
  | none =>
    match symtable1.nextIndexInsert (.array .init) with
    | none => ⟨symtable1, none, false⟩
    | some ht =>
      let r := next .init
      ⟨ht.update (.index symtable1.nNextFreeElement) (.array r.symtable),
        r.stored.map (none :: ·), r.tooDeep⟩
  | some key =>
    let gpcElement :=
      match symtable1.find (symtableKey key) with
      | some (.array ht) => ht
      | _ => .init
    let r := next gpcElement
    ⟨symtable1.update (symtableKey key) (.array r.symtable), r.stored.map (some key :: ·),
      r.tooDeep⟩

/-- The loop over the brackets, of which one has been at `ip`. -/
def bracketLoop : Nat → Nat → Bool → Bytes → Nat → Option (Nat × Nat) → HashTable (Zval α) →
    Registered α
  | 0, _, _, _, _, _, symtable1 => ⟨symtable1, none, false⟩
  | fuel + 1, nestLevel, top, var, ip, index, symtable1 =>
    if S.maxInputNestingLevel < (nestLevel + 1 : Nat) then ⟨symtable1, none, true⟩
    else
      let indexS := ip + 1
      let ip := skipBlank var indexS
      match strchr var ip 93 with
      | none =>
        let var := var.set (indexS - 1) 95
        plainVar S val top (indexOf var (index.map fun i => (i.1, strlen var i.1))) symtable1
      | some closing =>
        let var' := if closing = ip then var else var.set closing 0
        descend (indexOf var' index) symtable1 fun symtable1 =>
          let index := if closing = ip then none else some (indexS, strlen var' indexS)
          if at' var' (closing + 1) = 91 then
            bracketLoop fuel (nestLevel + 1) false (var'.set (closing + 1) 0) (closing + 1) index
              symtable1
          else plainVar S val false (indexOf var' index) symtable1

/-- `php_register_variable_ex` with a `track_vars_array`. -/
def phpRegisterVariableEx (name : Bytes) (trackVarsArray : HashTable (Zval α)) : Registered α :=
  let varName := (cstr name).dropWhile (· = 32)
  let var := (scanName varName).1
  let isArray := (scanName varName).2
  let varLen := strlen var 0
  if varLen = 0 then ⟨trackVarsArray, none, false⟩
  else if varLen = 4 ∧ S.ownsThis ∧ var.take 4 = ascii "this" then ⟨trackVarsArray, none, false⟩
  else if S.isSymbolTable ∧ varLen = 7 ∧ var.take 7 = ascii "GLOBALS" then
    ⟨trackVarsArray, none, false⟩
  else if isArray then
    let r := bracketLoop S val name.length 0 true var varLen (some (0, varLen)) trackVarsArray
    if r.tooDeep then { r with symtable := r.symtable.del (symtableKey (var.take varLen)) }
    else r
  else plainVar S val true (some (var.take varLen)) trackVarsArray

/-! ## The path alone -/

mutual

/-- The contents of the brackets of which one is open, with `k` read already, and what stands in the
last one if it is not closed. -/
def inBracket (k : Bytes) : Bytes → List Bytes × Option Bytes
  | [] => ([], some k)
  | c :: s =>
    if c = 93 then (k :: (behindBracket s).1, (behindBracket s).2) else inBracket (k ++ [c]) s

def behindBracket : Bytes → List Bytes × Option Bytes
  | [] => ([], none)
  | c :: s => if c = 91 then inBracket [] s else ([], none)

end

/-- The level that a bracket pair with these contents is; `none` appends. -/
def level (k : Bytes) : Option Bytes :=
  if k = [] ∨ k.length = 1 ∧ k.all isspace then none else some k

/-- What is done for the path, whose first level is that of `symtable1`; `opens` says that the
name ends in a bracket that is not closed. -/
def walk (opens : Bool) : List (Option Bytes) → Nat → Bool → HashTable (Zval α) → Registered α
  | [], _, _, symtable1 => ⟨symtable1, none, false⟩
  | [index], nestLevel, top, symtable1 =>
    if opens ∧ S.maxInputNestingLevel < (nestLevel + 1 : Nat) then ⟨symtable1, none, true⟩
    else plainVar S val top index symtable1
  | index :: next :: path, nestLevel, _, symtable1 =>
    if S.maxInputNestingLevel < (nestLevel + 1 : Nat) then ⟨symtable1, none, true⟩
    else descend index symtable1 (walk opens (next :: path) (nestLevel + 1) false)

end

/-! ## Reading brackets -/

theorem inBracket_of_notMem {s : Bytes} (h : 93 ∉ s) (k : Bytes) :
    inBracket k s = ([], some (k ++ s)) := by
  induction s generalizing k with
  | nil => rw [inBracket, append_nil]
  | cons c s ih =>
    have hc : c ≠ 93 := fun hc => h (hc ▸ mem_cons_self)
    rw [inBracket, if_neg hc, ih fun hs => h (mem_cons_of_mem _ hs), append_assoc]
    rfl

theorem inBracket_append {t : Bytes} (h : 93 ∉ t) (k r : Bytes) :
    inBracket k (t ++ 93 :: r) = ((k ++ t) :: (behindBracket r).1, (behindBracket r).2) := by
  induction t generalizing k with
  | nil => rw [nil_append, inBracket, if_pos rfl, append_nil]
  | cons c t ih =>
    have hc : c ≠ 93 := fun hc => h (hc ▸ mem_cons_self)
    rw [cons_append, inBracket, if_neg hc, ih fun ht => h (mem_cons_of_mem _ ht),
      append_assoc]
    rfl

theorem inBracket_eq_nil_iff {s : Bytes} {k : Bytes} : (inBracket k s).1 = [] ↔ 93 ∉ s := by
  constructor
  · intro h hmem
    obtain ⟨t, r, rfl, ht⟩ := eq_append_cons_of_mem hmem
    rw [inBracket_append ht] at h
    exact cons_ne_nil _ _ h
  · intro h
    rw [inBracket_of_notMem h]

/-! ## The memory of the name -/

section

variable {pre rest k r : Bytes} {index : Option (Nat × Nat)} {key : Option Bytes} {joins : Bool}

/-- In `pre` stands the string `key` that `index` points to, and its NUL is the one behind `pre` if
it `joins` what follows. -/
def Points (pre : Bytes) (joins : Bool) : Option (Nat × Nat) → Option Bytes → Prop
  | none, none => True
  | some i, some k => i.2 = k.length ∧ (0 : UInt8) ∉ k ∧
      ∃ front, front.length = i.1 ∧ pre = front ++ k ++ if joins then [] else [0]
  | _, _ => False

theorem Points.indexOf (h : Points pre joins index key) (s : Bytes) :
    indexOf (pre ++ s) index = key := by
  match index, key, h with
  | none, none, _ => rfl
  | some (_, _), some k, ⟨rfl, _, front, rfl, hpre⟩ =>
    subst hpre
    show some ((((front ++ k ++ _) ++ s).drop front.length).take k.length) = some k
    rw [append_assoc, append_assoc, drop_left, take_left]

theorem cstr_append_nul (hk : (0 : UInt8) ∉ k) (s : Bytes) : cstr (k ++ 0 :: s) = k :=
  (CString.cstr_append_zero k s).trans (CString.cstr_eq_self_iff.mpr hk)

theorem Points.indexOf_joined (h : Points pre joins index key) (hrest : (0 : UInt8) ∉ rest) :
    Input.indexOf (pre ++ 95 :: rest)
        (index.map fun i => (i.1, strlen (pre ++ 95 :: rest) i.1)) =
      key.map fun k => if joins then k ++ 95 :: rest else k := by
  match index, key, h with
  | none, none, _ => rfl
  | some (_, _), some k, ⟨rfl, hk, front, rfl, hpre⟩ =>
    subst hpre
    show some (((_ : Bytes).drop front.length).take (strlen _ front.length)) = some _
    rw [strlen, append_assoc, append_assoc, drop_left]
    cases joins with
    | true =>
      have hself : cstr (k ++ ([] ++ 95 :: rest)) = k ++ 95 :: rest := by
        rw [nil_append, CString.cstr_eq_self_iff]
        intro h0
        rcases mem_append.mp h0 with h0 | h0
        · exact hk h0
        · exact hrest ((mem_cons.mp h0).resolve_left (by decide))
      show some ((k ++ ([] ++ 95 :: rest)).take (cstr (k ++ ([] ++ 95 :: rest))).length) = _
      rw [hself, nil_append, take_length]
      rfl
    | false =>
      have hself : cstr (k ++ ([0] ++ 95 :: rest)) = k := cstr_append_nul hk _
      show some ((k ++ ([0] ++ 95 :: rest)).take (cstr (k ++ ([0] ++ 95 :: rest))).length) = _
      rw [hself, take_left]
      rfl

theorem at_behind (pre rest : Bytes) (n : Nat) :
    at' (pre ++ 0 :: rest) (pre.length + 1 + n) = at' rest n := by
  rw [at', at', getD_eq_getElem?_getD, getD_eq_getElem?_getD,
    List.getElem?_append_right (by omega), show pre.length + 1 + n - pre.length = n + 1 by omega,
    List.getElem?_cons_succ]

theorem drop_behind (pre rest : Bytes) (n : Nat) :
    (pre ++ 0 :: rest).drop (pre.length + 1 + n) = rest.drop n := by
  rw [Nat.add_assoc, ← drop_drop, drop_left, Nat.add_comm, drop_succ_cons]

theorem skipBlank_behind (pre rest : Bytes) :
    skipBlank (pre ++ 0 :: rest) (pre.length + 1) =
      pre.length + 1 + if isspace (at' rest 0) then 1 else 0 := by
  rw [skipBlank, ← at_behind pre rest 0, Nat.add_zero]
  split <;> rfl

theorem strchr_behind (hrest : (0 : UInt8) ∉ rest) (n : Nat) (c : UInt8) :
    strchr (pre ++ 0 :: rest) (pre.length + 1 + n) c =
      (cutAt c (rest.drop n)).map fun r => pre.length + 1 + n + r.1.length := by
  have hself : cstr (rest.drop n) = rest.drop n :=
    CString.cstr_eq_self_iff.mpr fun h0 => hrest (mem_of_mem_drop h0)
  rw [strchr, drop_behind, hself]

theorem strchr_skipBlank (hrest : (0 : UInt8) ∉ rest) :
    strchr (pre ++ 0 :: rest) (skipBlank (pre ++ 0 :: rest) (pre.length + 1)) 93 =
      (cutAt 93 rest).map fun r => pre.length + 1 + r.1.length := by
  rw [skipBlank_behind, strchr_behind hrest]
  by_cases hspace : isspace (at' rest 0) = true
  · rw [if_pos hspace]
    -- the blank is not the bracket that is searched for
    cases rest with
    | nil => rfl
    | cons c rest =>
      have hc : c ≠ 93 := by
        rintro rfl
        exact absurd hspace (show ¬isspace 93 = true by decide)
      rw [cutAt_cons_of_ne hc, Option.map_map]
      show Option.map _ (cutAt 93 rest) = _
      congr 1
      funext r
      show pre.length + 1 + 1 + r.1.length = pre.length + 1 + (r.1.length + 1)
      omega
  · rw [if_neg hspace]
    rfl

theorem closing_eq_iff (pre k r : Bytes) :
    pre.length + 1 + k.length = skipBlank (pre ++ 0 :: (k ++ 93 :: r)) (pre.length + 1) ↔
      level k = none := by
  rw [skipBlank_behind, level]
  match k with
  | [] => simp [at', isspace]
  | [c] =>
    show pre.length + 1 + 1 = pre.length + 1 + (if isspace c then 1 else 0) ↔ _
    cases hc : isspace c <;> simp [hc]
  | c :: d :: k =>
    refine iff_of_false (fun h => ?_) (by simp)
    have hone : (if isspace (at' (c :: d :: k ++ 93 :: r) 0) then 1 else 0) ≤ 1 := by
      split <;> decide
    rw [length_cons, length_cons] at h
    omega

/-- What stands up to the closing bracket, or up to the NUL that is put there. -/
def closed (pre k : Bytes) : Bytes := pre ++ 0 :: k ++ if level k = none then [93] else [0]

theorem length_closed (pre k : Bytes) : (closed pre k).length = pre.length + 1 + k.length + 1 := by
  rw [closed]
  split <;> simp <;> omega

theorem closed_append (pre k r : Bytes) :
    (if level k = none then pre ++ 0 :: (k ++ 93 :: r)
      else (pre ++ 0 :: (k ++ 93 :: r)).set (pre.length + 1 + k.length) 0) = closed pre k ++ r := by
  rw [closed]
  by_cases hlevel : level k = none
  · simp [hlevel]
  · rw [if_neg hlevel, if_neg hlevel, set_append_right _ _ (by omega),
      show pre.length + 1 + k.length - pre.length = k.length + 1 by omega, set_cons_succ,
      set_append_right _ _ (Nat.le_refl _), Nat.sub_self, set_cons_zero]
    simp

theorem strlen_closed (hk : (0 : UInt8) ∉ k) (hlevel : level k ≠ none) (r : Bytes) :
    strlen (closed pre k ++ r) (pre.length + 1) = k.length := by
  have hmem : closed pre k ++ r = pre ++ 0 :: (k ++ 0 :: r) := by
    rw [closed, if_neg hlevel]
    simp
  rw [strlen, hmem, ← Nat.add_zero (pre.length + 1), drop_behind, drop_zero,
    cstr_append_nul hk]

theorem points_closed (hk : (0 : UInt8) ∉ k) (r : Bytes) :
    Points (closed pre k) false
      (if level k = none then none
        else some (pre.length + 1, strlen (closed pre k ++ r) (pre.length + 1))) (level k) := by
  by_cases hlevel : level k = none
  · rw [if_pos hlevel, hlevel]
    trivial
  · have hself : level k = some k := by
      rw [level] at hlevel ⊢
      exact if_neg fun h => hlevel (if_pos h)
    rw [if_neg hlevel, hself, strlen_closed hk hlevel]
    refine ⟨rfl, hk, pre ++ [0], by simp, ?_⟩
    rw [closed, if_neg hlevel]
    simp

/-- The path that is read, where `key` is the index in front of the bracket. -/
def pathOf (key : Option Bytes) (joins : Bool) (rest : Bytes) : List (Option Bytes) :=
  if (inBracket [] rest).1 = [] then [key.map fun k => if joins then k ++ 95 :: rest else k]
  else key :: (inBracket [] rest).1.map level

theorem pathOf_nested (key : Option Bytes) (rest : Bytes) :
    pathOf key false rest = key :: (inBracket [] rest).1.map level := by
  rw [pathOf]
  split
  next hnil => simp [hnil]
  next => rfl

variable {α : Type*} (S : Settings) (val : α)

/-- **The loop.** What is done depends on the path and on whether the last bracket is closed. -/
theorem bracketLoop_eq {fuel : Nat} (hfuel : rest.length < fuel) (hrest : (0 : UInt8) ∉ rest)
    (hpoints : Points pre joins index key) (nestLevel : Nat) (top : Bool)
    (symtable1 : HashTable (Zval α)) :
    bracketLoop S val fuel nestLevel top (pre ++ 0 :: rest) pre.length index symtable1 =
      walk S val (inBracket [] rest).2.isSome (pathOf key joins rest) nestLevel top symtable1 := by
  induction fuel generalizing rest pre joins index key nestLevel top symtable1 with
  | zero => exact absurd hfuel (Nat.not_lt_zero _)
  | succ fuel ih =>
    rw [bracketLoop]
    dsimp only
    rw [strchr_skipBlank hrest]
    cases hcut : cutAt 93 rest with
    | none =>
      have hopen := inBracket_of_notMem (cutAt_eq_none_iff.mp hcut) []
      rw [pathOf, hopen, if_pos rfl]
      show (if _ then _ else plainVar S val top _ symtable1) = _
      rw [Nat.add_sub_cancel, set_append_right _ _ (Nat.le_refl _), Nat.sub_self,
        set_cons_zero, hpoints.indexOf_joined hrest, walk]
      simp
    | some cut =>
      obtain ⟨k, r⟩ := cut
      obtain ⟨rfl, hk⟩ := cutAt_eq_some_iff.mp hcut
      have hk0 : (0 : UInt8) ∉ k := fun h => hrest (mem_append_left _ h)
      have hread : inBracket [] (k ++ 93 :: r) = (k :: (behindBracket r).1, (behindBracket r).2) :=
        inBracket_append hk [] r
      have hindex : indexOf (closed pre k ++ r) index = key := by
        rw [closed, append_assoc, append_assoc]
        exact hpoints.indexOf _
      have hnext : at' (closed pre k ++ r) (pre.length + 1 + k.length + 1) = r.headD 0 := by
        rw [← length_closed, at', getD_append_right _ _ _ _ (Nat.le_refl _), Nat.sub_self]
        cases r <;> rfl
      rw [pathOf, hread, if_neg (cons_ne_nil _ _)]
      simp only [Option.map_some, closing_eq_iff, closed_append, hindex, hnext, map_cons]
      rw [walk]
      refine if_congr Iff.rfl rfl (congrArg (descend key symtable1) ?_)
      funext symtable1
      by_cases hbracket : r.headD 0 = 91
      · obtain ⟨c, r, rfl⟩ : ∃ c r', r = c :: r' :=
          exists_cons_of_ne_nil fun hnil => absurd (hnil ▸ hbracket) (by decide)
        obtain rfl : c = 91 := hbracket
        have hset : (closed pre k ++ 91 :: r).set (pre.length + 1 + k.length + 1) 0 =
            closed pre k ++ 0 :: r := by
          rw [← length_closed, set_append_right _ _ (Nat.le_refl _), Nat.sub_self,
            set_cons_zero]
        have hr0 : (0 : UInt8) ∉ r := fun h =>
          hrest (mem_append_right _ (mem_cons_of_mem _ (mem_cons_of_mem _ h)))
        have hlen : r.length < fuel := by
          rw [length_append, length_cons, length_cons] at hfuel
          omega
        rw [if_pos (show (91 :: r).headD 0 = 91 from rfl), hset, ← length_closed,
          ih hlen hr0 (points_closed hk0 (91 :: r)), pathOf_nested]
        rfl
      · have hbehind : behindBracket r = ([], none) := by
          cases r with
          | nil => rfl
          | cons c r => exact if_neg hbracket
        rw [if_neg hbracket, hbehind]
        show plainVar S val false _ symtable1 = plainVar S val false (level k) symtable1
        rw [(points_closed hk0 r).indexOf]

/-! ## The whole name -/

def trimmed (name : Bytes) : Bytes := (cstr name).dropWhile (· = 32)

def mangle (s : Bytes) : Bytes := s.map fun c => if c = 32 ∨ c = 46 then 95 else c

/-- What stands in front of the first bracket, with spaces and dots replaced. -/
def topName (name : Bytes) : Bytes :=
  match cutAt 91 (trimmed name) with
  | none => mangle (trimmed name)
  | some (t, _) => mangle t

/-- The path that the function takes, and whether the name ends in a bracket that is not closed. -/
def pathTaken (name : Bytes) : List (Option Bytes) × Bool :=
  match cutAt 91 (trimmed name) with
  | none => ([some (topName name)], false)
  | some (_, rest) => (pathOf (some (topName name)) true rest, (inBracket [] rest).2.isSome)

def refused (S : Settings) (name : Bytes) : Bool :=
  topName name = [] || S.ownsThis && topName name = ascii "this" ||
    S.isSymbolTable && topName name = ascii "GLOBALS"

theorem noNul_trimmed (name : Bytes) : (0 : UInt8) ∉ trimmed name := fun h =>
  CString.noNul_cstr name ((dropWhile_sublist _).subset h)

theorem noNul_mangle {s : Bytes} (h : (0 : UInt8) ∉ s) : (0 : UInt8) ∉ mangle s := by
  intro h0
  obtain ⟨c, hc, heq⟩ := List.mem_map.mp h0
  split at heq
  next => exact absurd heq (by decide)
  next => exact h (heq ▸ hc)

theorem scanName_of_notMem {s : Bytes} (h : 91 ∉ s) : scanName s = (mangle s, false) := by
  induction s with
  | nil => rfl
  | cons c s ih =>
    have hc : c ≠ 91 := fun hc => h (hc ▸ mem_cons_self)
    have hs := ih fun hs => h (mem_cons_of_mem _ hs)
    rw [scanName, hs, if_neg hc, mangle, mangle, map_cons]
    split <;> rfl

theorem scanName_append {t : Bytes} (h : 91 ∉ t) (r : Bytes) :
    scanName (t ++ 91 :: r) = (mangle t ++ 0 :: r, true) := by
  induction t with
  | nil => rfl
  | cons c t ih =>
    have hc : c ≠ 91 := fun hc => h (hc ▸ mem_cons_self)
    have ht := ih fun ht => h (mem_cons_of_mem _ ht)
    rw [cons_append, scanName, ht, if_neg hc, mangle, mangle, map_cons]
    split <;> rfl

theorem tooDeep_plainVar (top : Bool) (index : Option Bytes) (symtable1 : HashTable (Zval α)) :
    (plainVar S val top index symtable1).tooDeep = false := by
  rw [plainVar.eq_def]
  cases index with
  | none =>
    dsimp only
    split <;> rfl
  | some key =>
    dsimp only
    split <;> rfl

theorem take_eq_iff {n : Nat} {s t : Bytes} (ht : t.length = n) (r : Bytes) :
    s.length = n ∧ (s ++ r).take n = t ↔ s = t := by
  constructor
  · rintro ⟨rfl, h⟩
    rwa [take_left] at h
  · rintro rfl
    exact ⟨ht, by rw [← ht, take_left]⟩

theorem guards_eq {β : Type*} {name : Bytes} (r : Bytes) (stop go : β) :
    (if (topName name).length = 0 then stop
      else if (topName name).length = 4 ∧ S.ownsThis ∧
          (topName name ++ r).take 4 = ascii "this" then stop
      else if S.isSymbolTable ∧ (topName name).length = 7 ∧
          (topName name ++ r).take 7 = ascii "GLOBALS" then stop
      else go) = if refused S name then stop else go := by
  have hthis : (topName name).length = 4 ∧ S.ownsThis ∧
      (topName name ++ r).take 4 = ascii "this" ↔ S.ownsThis ∧ topName name = ascii "this" := by
    rw [and_left_comm, take_eq_iff (by decide)]
  have hglobals : S.isSymbolTable ∧ (topName name).length = 7 ∧
      (topName name ++ r).take 7 = ascii "GLOBALS" ↔
        S.isSymbolTable ∧ topName name = ascii "GLOBALS" := by
    rw [take_eq_iff (by decide)]
  simp only [hthis, hglobals, length_eq_zero_iff]
  rw [refused]
  by_cases hnil : topName name = []
  · simp [hnil]
  · by_cases hthis : S.ownsThis = true ∧ topName name = ascii "this"
    · simp [hthis]
    · by_cases hglobals : S.isSymbolTable = true ∧ topName name = ascii "GLOBALS"
      · simp [hglobals]
      · rw [if_neg hnil, if_neg hthis, if_neg hglobals, if_neg]
        simpa [hnil, hthis] using hglobals

theorem length_rest_lt {name t r : Bytes} (h : cutAt 91 (trimmed name) = some (t, r)) :
    r.length < name.length := by
  have htrim : (trimmed name).length ≤ name.length :=
    ((dropWhile_sublist _).trans (takeWhile_sublist _)).length_le
  rw [(cutAt_eq_some_iff.mp h).1, length_append, length_cons] at htrim
  omega

theorem phpRegisterVariableEx_eq (name : Bytes) (trackVarsArray : HashTable (Zval α)) :
    phpRegisterVariableEx S val name trackVarsArray =
      if refused S name then ⟨trackVarsArray, none, false⟩
      else
        let r := walk S val (pathTaken name).2 (pathTaken name).1 0 true trackVarsArray
        if r.tooDeep then { r with symtable := r.symtable.del (symtableKey (topName name)) }
        else r := by
  have htrim := noNul_trimmed name
  rw [phpRegisterVariableEx, ← trimmed]
  cases hcut : cutAt 91 (trimmed name) with
  | none =>
    have htop : mangle (trimmed name) = topName name := by rw [topName, hcut]
    have hself : cstr (topName name) = topName name :=
      CString.cstr_eq_self_iff.mpr (htop ▸ noNul_mangle htrim)
    have hlen : strlen (topName name) 0 = (topName name).length := congrArg List.length hself
    rw [scanName_of_notMem (cutAt_eq_none_iff.mp hcut), htop, pathTaken, hcut]
    dsimp only
    rw [hlen, walk, take_length]
    refine Eq.trans ?_ (guards_eq S [] _ _)
    rw [append_nil]
    simp [tooDeep_plainVar]
  | some cut =>
    obtain ⟨t, r⟩ := cut
    obtain ⟨htr, ht⟩ := cutAt_eq_some_iff.mp hcut
    have htop : mangle t = topName name := by rw [topName, hcut]
    have ht0 : (0 : UInt8) ∉ topName name :=
      htop ▸ noNul_mangle fun h => htrim (htr ▸ mem_append_left _ h)
    have hr0 : (0 : UInt8) ∉ r := fun h =>
      htrim (htr ▸ mem_append_right _ (mem_cons_of_mem _ h))
    have hlen : strlen (topName name ++ 0 :: r) 0 = (topName name).length :=
      congrArg List.length (cstr_append_nul ht0 r)
    have hpoints : Points (topName name) true (some (0, (topName name).length))
        (some (topName name)) := ⟨rfl, ht0, [], rfl, (append_nil _).symm⟩
    rw [htr, scanName_append ht, htop, pathTaken, hcut]
    dsimp only
    rw [hlen, take_left, bracketLoop_eq S val (length_rest_lt hcut) hr0 hpoints]
    exact guards_eq S (0 :: r) _ _

end

end Input

end Phpce
