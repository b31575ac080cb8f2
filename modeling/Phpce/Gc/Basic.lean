import Mathlib.Algebra.Order.Ring.Int
import Mathlib.Logic.Function.Basic
import Phpce.Lib.Traversal

/-!
# The cycle collector

The traversals of `zend_gc.c` over the heap of refcounted nodes.

The functions of the source run through the refcounted slots of a node in their order, and turn the
call for the last one into a jump; here the last one is called like the others. `GC_INFO` is the
colour and the address in the buffer, of which only matters whether there is one. The counts of a
heap neither fall below 0 nor grow beyond what they were during a collection, so `uint32_t` is `Int`
here. The number of nodes that `gc_collect_white` counts is left out.
-/

namespace Phpce.Gc

inductive GcColor where
  | black
  | white
  | grey
  | purple
  deriving DecidableEq, Repr

/-- A refcounted node with its refcounted slots in the order of their traversal. An object's slots
are those of its `get_gc` handler; `dtor` says whether it has a destructor. -/
inductive Refcounted (ν : Type*) where
  | array (slots : List ν)
  | object (slots : List ν) (dtor : Bool)
  | reference (val : Option ν)
  -- a string or a resource
  | leaf
  deriving DecidableEq, Repr

namespace Refcounted

variable {ν : Type*}

def refs : Refcounted ν → List ν
  | array slots | object slots _ => slots
  | reference val => val.toList
  | leaf => []

/-- `Z_COLLECTABLE` -/
def collectable : Refcounted ν → Bool
  | array _ | object _ _ => true
  | reference _ | leaf => false

def hasDestructor : Refcounted ν → Bool
  | object _ dtor => dtor
  | _ => false

end Refcounted

/-- The nodes and what they hold; `symbolTable` is the address of `EG(symbol_table)`. -/
structure Heap (ν : Type*) where
  node : ν → Refcounted ν
  symbolTable : Option ν

structure GcState (ν : Type*) where
  refcount : ν → Int
  color : ν → GcColor
  -- `GC_ADDRESS(GC_INFO(ref)) != 0`
  address : ν → Bool
  -- `GC_G(roots)` and `GC_G(to_free)`, from `next`
  roots : List ν
  toFree : List ν
  -- `GC_HAS_DESTRUCTORS`
  flags : Bool

variable {ν : Type*} [DecidableEq ν]

def GcState.setColor (s : GcState ν) (ref : ν) (color : GcColor) : GcState ν :=
  { s with color := Function.update s.color ref color }

/-- `GC_REFCOUNT(ref) += n` -/
def GcState.addRef (s : GcState ν) (ref : ν) (n : Int) : GcState ν :=
  { s with refcount := Function.update s.refcount ref (s.refcount ref + n) }

namespace Heap

def isSymbolTable (H : Heap ν) (ref : ν) : Bool := H.symbolTable == some ref

/-- The slots that are traversed: those of `EG(symbol_table)` are not. -/
def scanned (H : Heap ν) (ref : ν) : List ν :=
  if H.isSymbolTable ref then [] else (H.node ref).refs

/-! ## The traversals -/

def scanBlack (H : Heap ν) : Traversal (GcState ν) ν where
  enter s ref :=
    if s.color ref ≠ .black then some (s.setColor ref .black, H.scanned ref) else some (s, [])
  edge s ref := s.addRef ref 1

def gcScanBlack (H : Heap ν) (fuel : Nat) (ref : ν) (s : GcState ν) : Option (GcState ν) :=
  H.scanBlack.visit fuel ref s

def markGrey (H : Heap ν) : Traversal (GcState ν) ν where
  enter s ref :=
    if s.color ref ≠ .grey then
      let s := s.setColor ref .grey
      if H.isSymbolTable ref then some (s.setColor ref .black, [])
      else some (s, (H.node ref).refs)
    else some (s, [])
  edge s ref := s.addRef ref (-1)

def gcMarkGrey (H : Heap ν) (fuel : Nat) (ref : ν) (s : GcState ν) : Option (GcState ν) :=
  H.markGrey.visit fuel ref s

/-- `gc_scan`, with fuel for `gc_scan_black`. -/
def scan (H : Heap ν) (fuel : Nat) : Traversal (GcState ν) ν where
  enter s ref :=
    if s.color ref = .grey then
      if s.refcount ref > 0 then (H.gcScanBlack fuel ref s).map fun s => (s, [])
      else
        let s := s.setColor ref .white
        if H.isSymbolTable ref then some (s.setColor ref .black, [])
        else some (s, (H.node ref).refs)
    else some (s, [])
  edge s _ := s

def gcScan (H : Heap ν) (fuel : Nat) (ref : ν) (s : GcState ν) : Option (GcState ν) :=
  (H.scan fuel).visit fuel ref s

/-- The entry becomes the first one of the list. -/
def gcAddGarbage (ref : ν) (s : GcState ν) : GcState ν :=
  { s with address := Function.update s.address ref true, roots := ref :: s.roots }

def collectWhite (H : Heap ν) : Traversal (GcState ν) ν where
  enter s ref :=
    if s.color ref = .white then
      let s := s.setColor ref .black
      let s := if (H.node ref).collectable && !s.address ref then gcAddGarbage ref s else s
      some ({ s with flags := s.flags || (H.node ref).hasDestructor }, (H.node ref).refs)
    else some (s, [])
  edge s ref := s.addRef ref 1

def gcCollectWhite (H : Heap ν) (fuel : Nat) (ref : ν) (s : GcState ν) : Option (GcState ν) :=
  H.collectWhite.visit fuel ref s

/-! ## The loops over the buffer -/

def gcMarkRoots (H : Heap ν) (fuel : Nat) (s : GcState ν) : Option (GcState ν) :=
  s.roots.foldlM
    (fun s ref => if s.color ref = .purple then H.gcMarkGrey fuel ref s else some s) s

def gcScanRoots (H : Heap ν) (fuel : Nat) (s : GcState ν) : Option (GcState ν) :=
  s.roots.foldlM (fun s ref => H.gcScan fuel ref s) s

/-- Remove non-garbage from the list. -/
def removeBlack (s : GcState ν) : GcState ν :=
  { s with
    roots := s.roots.filter fun ref => s.color ref ≠ .black
    address := fun ref => s.address ref && !(s.color ref = .black ∧ ref ∈ s.roots) }

/-- The second loop of `gc_collect_roots`: new entries come in front of those that it has still to
meet. -/
def collectRoots (H : Heap ν) (fuel : Nat) (s : GcState ν) : Option (GcState ν) :=
  s.roots.foldlM
    (fun s ref => if s.color ref = .white then H.gcCollectWhite fuel ref s else some s) s

/-- Relink remaining roots into list to free. -/
def relinkRoots (s : GcState ν) : GcState ν :=
  { s with toFree := s.toFree ++ s.roots, roots := [] }

def gcCollectRoots (H : Heap ν) (fuel : Nat) (s : GcState ν) : Option (GcState ν) :=
  (H.collectRoots fuel (removeBlack s)).map relinkRoots

/-- What `zend_gc_collect_cycles` does to find the garbage. -/
def gcFindGarbage (H : Heap ν) (fuel : Nat) (s : GcState ν) : Option (GcState ν) :=
  ((H.gcMarkRoots fuel s).bind (H.gcScanRoots fuel)).bind (H.gcCollectRoots fuel)

/-! ## What entering a node does -/

theorem setColor_setColor (s : GcState ν) (ref : ν) (c color : GcColor) :
    (s.setColor ref c).setColor ref color = s.setColor ref color := by
  unfold GcState.setColor
  rw [Function.update_idem]

variable {H : Heap ν} {s s₁ : GcState ν} {ref : ν} {cs : List ν} {fuel : Nat}

theorem scanned_of_isSymbolTable (h : H.isSymbolTable ref = true) : H.scanned ref = [] := if_pos h

theorem scanned_of_not (h : H.isSymbolTable ref = false) :
    H.scanned ref = (H.node ref).refs := by
  rw [scanned, h]
  rfl

theorem scanBlack_enter (h : H.scanBlack.enter s ref = some (s₁, cs)) :
    (s.color ref = .black ∧ s₁ = s ∧ cs = []) ∨
      (s.color ref ≠ .black ∧ s₁ = s.setColor ref .black ∧ cs = H.scanned ref) := by
  unfold scanBlack at h
  dsimp only at h
  split at h
  · rename_i hne
    cases h
    exact .inr ⟨hne, rfl, rfl⟩
  · rename_i hblack
    cases h
    exact .inl ⟨not_not.mp hblack, rfl, rfl⟩

theorem markGrey_enter (h : H.markGrey.enter s ref = some (s₁, cs)) :
    (s.color ref = .grey ∧ s₁ = s ∧ cs = []) ∨
      (s.color ref ≠ .grey ∧ H.isSymbolTable ref = true ∧ s₁ = s.setColor ref .black ∧
        cs = H.scanned ref) ∨
      (s.color ref ≠ .grey ∧ H.isSymbolTable ref = false ∧ s₁ = s.setColor ref .grey ∧
        cs = H.scanned ref) := by
  unfold markGrey at h
  dsimp only at h
  split at h
  · rename_i hne
    split at h
    · rename_i hsym
      cases h
      rw [setColor_setColor]
      exact .inr (.inl ⟨hne, hsym, rfl, (scanned_of_isSymbolTable hsym).symm⟩)
    · rename_i hsym
      cases h
      have hsym := Bool.eq_false_iff.mpr hsym
      exact .inr (.inr ⟨hne, hsym, rfl, (scanned_of_not hsym).symm⟩)
  · rename_i hgrey
    cases h
    exact .inl ⟨not_not.mp hgrey, rfl, rfl⟩

theorem scan_enter (h : (H.scan fuel).enter s ref = some (s₁, cs)) :
    (s.color ref ≠ .grey ∧ s₁ = s ∧ cs = []) ∨
      (s.color ref = .grey ∧ 0 < s.refcount ref ∧ H.gcScanBlack fuel ref s = some s₁ ∧ cs = []) ∨
      (s.color ref = .grey ∧ s.refcount ref ≤ 0 ∧ H.isSymbolTable ref = true ∧
        s₁ = s.setColor ref .black ∧ cs = H.scanned ref) ∨
      (s.color ref = .grey ∧ s.refcount ref ≤ 0 ∧ H.isSymbolTable ref = false ∧
        s₁ = s.setColor ref .white ∧ cs = H.scanned ref) := by
  unfold scan at h
  dsimp only at h
  split at h
  · rename_i hgrey
    split at h
    · rename_i hpos
      obtain ⟨s', hblack, heq⟩ := Option.map_eq_some_iff.mp h
      cases heq
      exact .inr (.inl ⟨hgrey, hpos, hblack, rfl⟩)
    · rename_i hpos
      split at h
      · rename_i hsym
        cases h
        rw [setColor_setColor]
        exact .inr (.inr (.inl ⟨hgrey, Int.not_lt.mp hpos, hsym, rfl,
          (scanned_of_isSymbolTable hsym).symm⟩))
      · rename_i hsym
        cases h
        have hsym := Bool.eq_false_iff.mpr hsym
        exact .inr (.inr (.inr ⟨hgrey, Int.not_lt.mp hpos, hsym, rfl, (scanned_of_not hsym).symm⟩))
  · rename_i hne
    cases h
    exact .inl ⟨hne, rfl, rfl⟩

/-- A garbage node becomes black; an array or object that has no entry in the buffer gets one. -/
def collect (H : Heap ν) (s : GcState ν) (ref : ν) : GcState ν :=
  let s := s.setColor ref .black
  let s := if (H.node ref).collectable && !s.address ref then gcAddGarbage ref s else s
  { s with flags := s.flags || (H.node ref).hasDestructor }

@[simp] theorem color_collect (H : Heap ν) (s : GcState ν) (ref : ν) :
    (H.collect s ref).color = Function.update s.color ref .black := by
  unfold collect
  dsimp only
  split
  · rfl
  · rfl

theorem collectWhite_enter (h : H.collectWhite.enter s ref = some (s₁, cs)) :
    (s.color ref ≠ .white ∧ s₁ = s ∧ cs = []) ∨
      (s.color ref = .white ∧ s₁ = H.collect s ref ∧ cs = (H.node ref).refs) := by
  unfold collectWhite at h
  dsimp only at h
  split at h
  · rename_i hwhite
    cases h
    exact .inr ⟨hwhite, rfl, rfl⟩
  · rename_i hne
    cases h
    exact .inl ⟨hne, rfl, rfl⟩

end Heap

end Phpce.Gc
