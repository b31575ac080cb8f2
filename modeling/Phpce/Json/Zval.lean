import Phpce.Hash.NumericKeys
import Phpce.Lib.OrderedMap

/-!
# The values that JSON is made of and decoded to

A `Zval` is the tree of the values that the encoder visits. Of an array or object that is being
encoded already it visits nothing: `recursive` stands for one whose apply count is greater than 1.
-/

namespace Phpce

namespace Json

inductive Key where
  | index (h : Int)
  | name (s : Bytes)
  deriving DecidableEq

inductive Zval (δ : Type*) where
  | null
  | bool (b : Bool)
  | long (n : Int)
  | double (d : δ)
  | string (s : Bytes)
  | array (entries : List (Key × Zval δ))
  | object (properties : List (Key × Zval δ))
  /-- An object that implements `JsonSerializable`, with what its method returns; `none` where the
  call fails or throws. -/
  | serializable (result : Option (Zval δ))
  | recursive (serializable : Bool)
  /-- A value of a type that JSON has none for. -/
  | unsupported

/-! ## What is computed of a value -/

/-- What is computed for each kind of value, from what has been computed for its parts. -/
structure ZvalAlgebra (δ α : Type*) where
  null : α
  bool : Bool → α
  long : Int → α
  double : δ → α
  string : Bytes → α
  array : List (Key × α) → α
  object : List (Key × α) → α
  serializable : Option α → α
  recursive : Bool → α
  unsupported : α

namespace Zval

variable {δ α : Type*} (A : ZvalAlgebra δ α)

mutual

def fold : Zval δ → α
  | null => A.null
  | bool b => A.bool b
  | long n => A.long n
  | double d => A.double d
  | string s => A.string s
  | array entries => A.array (foldEntries entries)
  | object properties => A.object (foldEntries properties)
  | serializable result => A.serializable (foldResult result)
  | recursive b => A.recursive b
  | unsupported => A.unsupported

def foldEntry : Key × Zval δ → Key × α
  | (key, data) => (key, fold data)

def foldEntries : List (Key × Zval δ) → List (Key × α)
  | [] => []
  | entry :: entries => foldEntry entry :: foldEntries entries

def foldResult : Option (Zval δ) → Option α
  | none => none
  | some retval => some (fold retval)

end

theorem foldEntries_eq (entries : List (Key × Zval δ)) :
    foldEntries A entries = entries.map (Prod.map id (fold A)) := by
  induction entries with
  | nil => rfl
  | cons entry entries ih =>
    obtain ⟨key, data⟩ := entry
    rw [foldEntries, ih, List.map_cons]
    rfl

theorem fold_array (entries : List (Key × Zval δ)) :
    fold A (array entries) = A.array (entries.map (Prod.map id (fold A))) := by
  rw [fold, foldEntries_eq]

theorem fold_object (properties : List (Key × Zval δ)) :
    fold A (object properties) = A.object (properties.map (Prod.map id (fold A))) := by
  rw [fold, foldEntries_eq]

theorem induction {motive : Zval δ → Prop} (null : motive null) (bool : ∀ b, motive (bool b))
    (long : ∀ n, motive (long n)) (double : ∀ d, motive (double d))
    (string : ∀ s, motive (string s))
    (array : ∀ entries, (∀ entry ∈ entries, motive entry.2) → motive (array entries))
    (object : ∀ properties, (∀ entry ∈ properties, motive entry.2) → motive (object properties))
    (serializable : ∀ result, (∀ retval, result = some retval → motive retval) →
      motive (serializable result))
    (recursive : ∀ b, motive (recursive b)) (unsupported : motive unsupported) (z : Zval δ) :
    motive z :=
  @Zval.rec δ motive (fun entries => ∀ entry ∈ entries, motive entry.2)
    (fun result => ∀ retval, result = some retval → motive retval)
    (fun entry => motive entry.2) null bool long double string
    (fun entries => array entries) (fun properties => object properties)
    (fun result => serializable result) recursive unsupported
    (fun _ h => absurd h List.not_mem_nil)
    (fun _ _ hentry hentries => List.forall_mem_cons.mpr ⟨hentry, hentries⟩)
    (fun _ h => absurd h.symm (Option.some_ne_none _))
    (fun _ hretval _ h => Option.some.inj h ▸ hretval) (fun _ _ hdata => hdata) z

end Zval

/-! ## Entries -/

variable {β : Type*}

/-- `zend_hash_next_index_insert` into an array that has been filled in this way only. -/
def nextIndexInsert (entries : List (Key × β)) (v : β) : List (Key × β) :=
  entries ++ [(.index entries.length, v)]

/-- The key under which `ZEND_HANDLE_NUMERIC_STR` finds a string. -/
def symtableKey (key : Bytes) : Key :=
  match NumericKey.zendHandleNumericStr key with
  | some idx => .index (NumericKey.zendLong idx)
  | none => .name key

/-- `zend_hash_update` -/
def hashUpdate (entries : List (Key × β)) (key : Key) (v : β) : List (Key × β) :=
  if key ∈ entries.map Prod.fst then OrderedMap.replace key v entries else entries ++ [(key, v)]

/-- `zend_symtable_update` -/
def symtableUpdate (entries : List (Key × β)) (key : Bytes) (v : β) : List (Key × β) :=
  hashUpdate entries (symtableKey key) v

end Json

end Phpce
