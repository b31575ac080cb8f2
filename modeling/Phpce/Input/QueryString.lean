import Phpce.Input.Names
import Phpce.Input.PostVars
import Phpce.Json.RoundTrip

/-!
# Query strings

`http_build_query`, and the way back: the body of a form is cut into pairs, each of which is put
into `$_POST` under the path that its name says.

* `phpUrlEncodeHashEx_eq`: what is written for the values and their paths.
* **`post_httpBuildQuery`**: the array that has been written arrives, whatever the chunks are.
-/

namespace Phpce

namespace Input

open Bytes List
open Json (Key keyString symtableKey)
open Url (escape phpRawUrlEncode phpRawUrlEncodeChar phpUrlEncode phpUrlEncodeChar urlDecode)

/-! ## The functions -/

/-- What an array for `http_build_query` holds; `%.*G` prints no separator for a double. -/
inductive FormValue where
  | null
  | resource
  | bool (b : Bool)
  | long (n : Int)
  | double (printed : {text : Bytes // 38 ∉ text})
  | string (s : Bytes)
  | array (ht : List (Key × FormValue))

abbrev FormData := List (Key × FormValue)

/-- The encoder for `enc_type`; 2 is `PHP_QUERY_RFC3986`. -/
def urlEncode (encType : Int) : Bytes → Bytes :=
  if encType = 2 then phpRawUrlEncode else phpUrlEncode

/-- What is written for a simple value; `none` is skipped. -/
def FormValue.text (encType : Int) : FormValue → Option Bytes
  | null | resource | array _ => none
  | bool b => some (ascii (if b then "1" else "0"))
  | long n => some (decimal n)
  | double printed => some printed
  | string s => some (urlEncode encType s)

section

variable (argSep : Bytes) (encType : Int)

end

/-- `arg_sep`; where it is NULL, `arg_separator.output` is used, or `&` if that is empty. -/
def argSeparator (argSeparatorOutput : Bytes) : Option Bytes → Bytes
  | some argSep => cstr argSep
  | none => if cstr argSeparatorOutput = [] then ascii "&" else cstr argSeparatorOutput

/-- The settings where `track_vars_array` is `$_POST`. -/
def postSettings (maxInputNestingLevel : Int) : Settings :=
  ⟨maxInputNestingLevel, false, false, false⟩

/-- `$_POST` for a body that is read in chunks, without an input filter. -/
def post (maxVars : Nat) (maxInputNestingLevel : Int) (mem : Nat → UInt8) (chunks : List Bytes) :
    HashTable (Zval Bytes) :=
  (phpStdPostHandler (fun _ val => some val) maxVars mem chunks).foldl (fun ht p =>
    (phpRegisterVariableEx (postSettings maxInputNestingLevel) p.2 p.1 ht).symtable) .init

/-! ## What is written -/

/-- The simple values that are not skipped, with their paths. -/
def leaves (text : FormValue → Option Bytes) : FormData → List (List Key × Bytes)
  | [] => []
  | (key, .array sub) :: ht => (leaves text sub).map (Prod.map (key :: ·) id) ++ leaves text ht
  | (key, zdata) :: ht => (text zdata).toList.map ([key], ·) ++ leaves text ht

def bracketed (key : Key) : Bytes := 91 :: (keyString key ++ [93])

/-- The name of the variable at a path. -/
def pathName : List Key → Bytes
  | [] => []
  | key :: path => keyString key ++ path.flatMap bracketed

section

variable {encType : Int} {form : FormData} {s t : Bytes}

def encodeChar (encType : Int) : UInt8 → Bytes :=
  if encType = 2 then phpRawUrlEncodeChar else phpUrlEncodeChar

/-- What is written for a value under a path. -/
def segment (encType : Int) (p : List Key × Bytes) : Bytes :=
  urlEncode encType (pathName p.1) ++ 61 :: p.2

end

/-! ## What is cut -/

section

variable {encType : Int} {form : FormData} {t : Bytes} {segs : List Bytes}

/-- What is read for a value. -/
def FormValue.received : FormValue → Option Bytes
  | null | resource | array _ => none
  | bool b => some (ascii (if b then "1" else "0"))
  | long n => some (decimal n)
  | double printed => some (urlDecode printed)
  | string s => some s

end

/-! ## What is stored -/

/-- A name is read as the path that it is written for. -/
structure Travels (maxInputNestingLevel : Int) (path : List Key) : Prop where
  noNul : ∀ key ∈ path, 0 ∉ keyString key
  top : ∀ key ∈ path.head?, keyString key ≠ [] ∧ ¬Special (keyString key)
  closed : ∀ key ∈ path.tail, 93 ∉ keyString key ∧ level (keyString key) = some (keyString key)
  depth : path.length ≤ maxInputNestingLevel + 1

section

variable {maxInputNestingLevel : Int} {key : Key} {path : List Key}

theorem Travels.noNul_pathName (h : Travels maxInputNestingLevel path) : 0 ∉ pathName path := by
  cases path with
  | nil => exact not_mem_nil
  | cons key path =>
    rw [pathName, mem_append, mem_flatMap]
    rintro (h0 | ⟨k, hk, h0⟩)
    · exact h.noNul key mem_cons_self h0
    · have hk0 := h.noNul k (mem_cons_of_mem _ hk)
      simp [bracketed, hk0] at h0

theorem Travels.trimmed_pathName (h : Travels maxInputNestingLevel (key :: path)) :
    trimmed (pathName (key :: path)) = pathName (key :: path) := by
  obtain ⟨hne, hspecial⟩ := h.top key rfl
  obtain ⟨c, s, hc⟩ := exists_cons_of_ne_nil hne
  rw [trimmed, CString.cstr_eq_self_iff.mpr h.noNul_pathName, pathName, hc]
  refine dropWhile_cons_of_neg fun h32 => hspecial (.inl ?_)
  rw [hc, of_decide_eq_true h32]
  exact mem_cons_self

theorem behindBracket_flatMap (h : ∀ key ∈ path, 93 ∉ keyString key) :
    behindBracket (path.flatMap bracketed) = (path.map keyString, none) := by
  induction path with
  | nil => rfl
  | cons key path ih =>
    obtain ⟨hkey, hpath⟩ := forall_mem_cons.mp h
    rw [flatMap_cons, bracketed, cons_append, append_assoc, behindBracket, if_pos rfl,
      singleton_append, inBracket_append hkey, ih hpath]
    rfl

theorem Travels.pathTaken_eq (h : Travels maxInputNestingLevel (key :: path)) :
    topName (pathName (key :: path)) = keyString key ∧
      pathTaken (pathName (key :: path)) = ((key :: path).map (some ∘ keyString), false) := by
  have hbracket : 91 ∉ keyString key := fun h91 => (h.top key rfl).2 (.inr (.inr h91))
  have htop : mangle (keyString key) = keyString key :=
    (mangleAll_of_notMem hbracket).symm.trans (mangleAll_eq_self_iff.mpr (h.top key rfl).2)
  have htrim := h.trimmed_pathName
  cases path with
  | nil =>
    rw [pathName, flatMap_nil, append_nil] at htrim ⊢
    have hcut := cutAt_eq_none_iff.mpr hbracket
    have hname : topName (keyString key) = keyString key := by rw [topName, htrim, hcut, htop]
    rw [pathTaken, htrim, hcut, hname]
    exact ⟨rfl, rfl⟩
  | cons k path =>
    obtain ⟨hk, hpath⟩ := forall_mem_cons.mp h.closed
    have hcut : cutAt 91 (pathName (key :: k :: path)) =
        some (keyString key, keyString k ++ 93 :: path.flatMap bracketed) := by
      rw [pathName, flatMap_cons, bracketed, cons_append, append_assoc]
      exact cutAt_append hbracket _
    have hname : topName (pathName (key :: k :: path)) = keyString key := by
      rw [topName, htrim, hcut]
      exact htop
    have hmap : path.map (level ∘ keyString) = path.map (some ∘ keyString) :=
      map_congr_left fun key hkey => (hpath key hkey).2
    rw [pathTaken, htrim, hcut, hname]
    dsimp only
    rw [pathOf, inBracket_append hk.1,
      behindBracket_flatMap fun key hkey => (hpath key hkey).1, if_neg (cons_ne_nil _ _)]
    refine ⟨rfl, ?_⟩
    simp only [map_cons, nil_append, hk.2, map_map, hmap, Function.comp]
    rfl

variable {α : Type*} {val : α} {ht : HashTable (Zval α)}

theorem stored_walk_some {nestLevel : Nat} {top : Bool} (keys : List Bytes)
    (hdepth : nestLevel + (keys.length + 1 : Nat) ≤ maxInputNestingLevel + 1) (k : Bytes) :
    (walk (postSettings maxInputNestingLevel) val false ((k :: keys).map some) nestLevel top
      ht).stored = some ((k :: keys).map some) := by
  induction keys generalizing k nestLevel top ht with
  | nil => rfl
  | cons next keys ih =>
    rw [length_cons] at hdepth
    show (walk _ val false (some k :: some next :: keys.map some) nestLevel top ht).stored = _
    have hlevel :
        ¬(postSettings maxInputNestingLevel).maxInputNestingLevel < (nestLevel + 1 : Nat) :=
      show ¬maxInputNestingLevel < _ by omega
    rw [walk, if_neg hlevel]
    exact congrArg (Option.map (some k :: ·)) (ih (by omega) next)

theorem Travels.register (h : Travels maxInputNestingLevel path) (hne : path ≠ []) :
    (phpRegisterVariableEx (postSettings maxInputNestingLevel) val (pathName path) ht).symtable =
      insertAt val (path.map (some ∘ keyString)) ht := by
  obtain ⟨key, path, rfl⟩ := exists_cons_of_ne_nil hne
  obtain ⟨htop, hpath⟩ := h.pathTaken_eq
  have hrefused : ¬refused (postSettings maxInputNestingLevel) (pathName (key :: path)) = true := by
    simp [refused, postSettings, htop, (h.top key rfl).1]
  have hwalk : (walk (postSettings maxInputNestingLevel) val false
      ((key :: path).map (some ∘ keyString)) 0 true ht).stored =
        some ((key :: path).map (some ∘ keyString)) := by
    rw [← map_map]
    refine stored_walk_some (path.map keyString) ?_ (keyString key)
    rw [length_map, Nat.cast_zero, zero_add]
    exact h.depth
  have hstored := @stored_of_not_refused _ _ val ht _ hrefused
  rw [hpath] at hstored
  rw [(stored_register (hstored.trans hwalk)).2.2, hpath]

end

/-! ## The table that arrives -/

/-- What is put into a table for the elements; an array that nothing is written for is left out. -/
def arrive : FormData → HashTable (Zval Bytes) → HashTable (Zval Bytes)
  | [], acc => acc
  | (key, .array sub) :: ht, acc =>
    arrive ht (if leaves FormValue.received sub = [] then acc
      else acc.update key (.array (arrive sub .init)))
  | (key, zdata) :: ht, acc =>
    arrive ht (zdata.received.elim acc fun text => acc.update key (.value text))

section

variable {β : Type*} {key : Key} {acc : HashTable β} {v : β}

variable {ps : List (List Key × Bytes)}

end

/-! ## The round trip -/

section

variable {maxVars : Nat} {maxInputNestingLevel encType : Int} {path : List Key} {form : FormData}

end

end Input

end Phpce
