import Mathlib.Data.Finset.Sort
import Mathlib.Data.List.FinRange

/-!
# Oplines and basic blocks

What the passes over the control-flow graph read of an op array and of its blocks.
-/

namespace Phpce

namespace Optimizer

/-! ## Oplines -/

/-- The opcodes that the liveness, renaming and pi passes tell apart. -/
inductive Opcode where
  | add | sub | isEqual | isNotEqual | isSmaller | isSmallerOrEqual | jmpz | jmpnz | jmpznz
  | assign | assignRef | bindGlobal | bindStatic | bindLexical
  | assignAdd | assignSub | assignMul | assignDiv | assignMod | assignSl | assignSr
  | assignConcat | assignBwOr | assignBwAnd | assignBwXor | assignPow
  | preInc | preDec | postInc | postDec
  | assignDim | assignObj | unsetVar | unsetDim | unsetObj
  | fetchDimW | fetchDimRw | fetchDimFuncArg | fetchDimUnset
  | fetchObjW | fetchObjRw | fetchObjFuncArg | fetchObjUnset
  | sendVar | sendVarEx | sendRef | sendVarNoRef | sendVarNoRefEx | sendUnpack
  | feResetR | feResetRw | feFetchR | feFetchRw
  | initArray | addArrayElement | cast | qmAssign | jmpSet | coalesce | yield | verifyReturnType
  | opData
  /-- any other -/
  | other (opcode : UInt8)
  deriving DecidableEq

/-- `IS_CONST`, `IS_TMP_VAR`, `IS_VAR`, `IS_UNUSED`, `IS_CV` -/
inductive OpType where
  | const
  | tmpVar
  | var
  | unused
  | cv
  deriving DecidableEq

/-- `type & (IS_VAR|IS_TMP_VAR)` -/
def OpType.isTemporary : OpType → Bool
  | .var | .tmpVar => true
  | _ => false

/-- `type & (IS_CV|IS_VAR|IS_TMP_VAR)` -/
def OpType.isVariable : OpType → Bool
  | .cv | .var | .tmpVar => true
  | _ => false

/-- A value, as far as the passes tell values apart. -/
inductive Value where
  | null
  | false
  | true
  | long (lval : Int)
  | other
  deriving DecidableEq

/-- An operand: `op_type`, `op.var` and what `CRT_CONSTANT` gives. -/
structure Znode where
  type : OpType
  var : UInt32
  constant : Value
  deriving DecidableEq

def Znode.ofLong (lval : Int) : Znode := ⟨.const, 0, .long lval⟩

def Znode.ofType (type : OpType) (var : UInt32) : Znode := ⟨type, var, .null⟩

structure ZendOp where
  opcode : Opcode
  op1 : Znode
  op2 : Znode
  result : Znode
  extendedValue : UInt32

/-- `ZEND_LONG_MAX` -/
def zendLongMax : Int := 0x7FFFFFFFFFFFFFFF

/-- `ZEND_LONG_MIN` -/
def zendLongMin : Int := -0x8000000000000000

def zendCallFrameSlot : UInt32 := 5

/-- `EX_VAR_TO_NUM` -/
def exVarToNum (n : UInt32) : Nat := (n / 16 - zendCallFrameSlot).toNat

def Znode.num (node : Znode) : Nat := exVarToNum node.var

/-- `ZEND_ARRAY_ELEMENT_REF` -/
def arrayElementRef : UInt32 := 1

/-- `ZEND_QUICK_SET` -/
def quickSet : UInt32 := 0x00800000

/-- `ZEND_ACC_RETURN_REFERENCE` -/
def accReturnReference : UInt32 := 0x4000000

/-- `ZEND_SSA_RC_INFERENCE` -/
def ssaRcInference : UInt32 := (1 : UInt32) <<< 27

structure OpArray where
  opcodes : Nat → ZendOp
  fnFlags : UInt32

/-! ## Blocks -/

/-- A basic block of a graph with `n` blocks; `none` is a negative successor. -/
structure BasicBlock (n : Nat) where
  reachable : Bool
  start : Nat
  len : Nat
  successor0 : Option (Fin n)
  successor1 : Option (Fin n)

def BasicBlock.successors {n : Nat} (b : BasicBlock n) : List (Fin n) :=
  match b.successor0 with
  | none => []
  | some s => s :: b.successor1.toList

/-- A graph. `zend_mark_reachable` marks the successors of a block with it. -/
structure Cfg where
  blocksCount : Nat
  blocks : Fin blocksCount → BasicBlock blocksCount
  reachable_of_mem : ∀ {i j}, (blocks i).reachable = true → j ∈ (blocks i).successors →
    (blocks j).reachable = true

/-- `predecessors`, as `zend_cfg_build_predecessors` fills it. -/
def Cfg.predecessors (cfg : Cfg) (i : Fin cfg.blocksCount) : List (Fin cfg.blocksCount) :=
  (List.finRange cfg.blocksCount).filter fun j =>
    (cfg.blocks j).reachable && decide (i ∈ (cfg.blocks j).successors)

theorem Cfg.mem_predecessors {cfg : Cfg} {i j : Fin cfg.blocksCount} :
    j ∈ cfg.predecessors i ↔ (cfg.blocks j).reachable = true ∧ i ∈ (cfg.blocks j).successors := by
  rw [predecessors, List.mem_filter, Bool.and_eq_true, decide_eq_true_iff]
  exact ⟨And.right, fun h => ⟨List.mem_finRange j, h⟩⟩

/-- The positions of a block in `opcodes`. -/
def BasicBlock.positions {n : Nat} (b : BasicBlock n) : List Nat := List.range' b.start b.len

end Optimizer

end Phpce
