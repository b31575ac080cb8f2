import Phpce.Lib.Numbering
import Phpce.Optimizer.Dfg

/-!
# Renaming

What `zend_ssa_rename` does at one opline: it reads the numbers that variables have in `var`
(`renameOp_congr`) and gives new ones (`numbers_renameOp`).
-/

namespace Phpce

namespace Optimizer

open List
open Phpce.Numbering (number numbers_define numbers_useIf)

/-! ## The function -/

/-- The fields of a `zend_ssa_op` that hold numbers. -/
inductive Field where
  | op1Use
  | op2Use
  | resultUse
  | op1Def
  | op2Def
  | resultDef
  deriving DecidableEq

/-- Where numbers are stored: in `ssa_ops[k]`, and in the phis of a block, taken in their order. -/
inductive Slot (n : Nat) where
  | op (k : Nat) (field : Field)
  | ssaVar (block : Fin n) (phi : Nat)
  | minSsaVar (block : Fin n) (phi : Nat)
  | maxSsaVar (block : Fin n) (phi : Nat)
  | source (block : Fin n) (phi j : Nat)
  deriving DecidableEq

/-- `var`, `ssa_vars_count`, `ssa_ops` and the phis. -/
abbrev Rename (n : Nat) := Numbering Nat (Slot n)

variable {n : Nat}

section

variable (opArray : OpArray) (buildFlags : UInt32)

/-- The `switch` gives `op1_def` a number. -/
def renamesOp1 (opline : ZendOp) : Bool :=
  match opline.opcode with
  | .addArrayElement | .initArray =>
    (rcInference buildFlags || opline.extendedValue &&& arrayElementRef ≠ 0) &&
      opline.op1.type = .cv
  | .sendVar | .cast | .qmAssign | .jmpSet | .coalesce | .feResetR =>
    rcInference buildFlags && opline.op1.type = .cv
  | .assign | .assignRef | .bindGlobal | .bindStatic | .assignDim | .assignObj | .sendVarNoRef
  | .sendVarNoRefEx | .sendVarEx | .sendRef | .sendUnpack | .feResetRw | .assignAdd | .assignSub
  | .assignMul | .assignDiv | .assignMod | .assignSl | .assignSr | .assignConcat | .assignBwOr
  | .assignBwAnd | .assignBwXor | .assignPow | .preInc | .preDec | .postInc | .postDec | .unsetDim
  | .unsetObj | .fetchDimW | .fetchDimRw | .fetchDimFuncArg | .fetchDimUnset | .fetchObjW
  | .fetchObjRw | .fetchObjFuncArg | .fetchObjUnset => opline.op1.type = .cv
  | .unsetVar => opline.extendedValue &&& quickSet ≠ 0
  | .yield =>
    opline.op1.type = .cv &&
      (opArray.fnFlags &&& accReturnReference ≠ 0 || rcInference buildFlags)
  | .verifyReturnType => opline.op1.type.isVariable
  | _ => false

/-- The `switch` gives `op2_def` a number. -/
def renamesOp2 (opline : ZendOp) : Bool :=
  match opline.opcode with
  | .assign => rcInference buildFlags && opline.op2.type = .cv
  | .assignRef => opline.op2.type = .cv
  | .bindLexical => opline.extendedValue ≠ 0 || rcInference buildFlags
  | _ => false

/-- The `switch` gives `op1_def` of the next opline a number. -/
def renamesData (opline next : ZendOp) : Bool :=
  match opline.opcode with
  | .assignDim | .assignObj => rcInference buildFlags && next.op1.type = .cv
  | _ => false

/-- The operands of the `OP_DATA`. -/
def renameData (stop k : Nat) (s : Rename n) : Rename n :=
  match opData opArray stop k with
  | some next =>
    let s := if next.op1.type.isVariable then s.use (.op (k + 1) .op1Use) next.op1.num else s
    if next.op2.type.isVariable then s.use (.op (k + 1) .op2Use) next.op2.num else s
  | none => s

/-- What `FE_FETCH` sets, and the second operand of any other opline. -/
def renameOp2 (opline : ZendOp) (k : Nat) (s : Rename n) : Rename n :=
  if opline.isFeFetch then
    let s := if opline.op2.type = .cv then s.use (.op k .op2Use) opline.op2.num else s
    s.define (.op k .op2Def) opline.op2.num
  else if opline.op2.type.isVariable then s.use (.op k .op2Use) opline.op2.num
  else s

/-- What the `switch` does. -/
def renameSwitch (opline next : ZendOp) (k : Nat) (s : Rename n) : Rename n :=
  let s :=
    if opline.opcode = .addArrayElement then s.use (.op k .resultUse) opline.result.num else s
  let s := if renamesOp2 buildFlags opline then s.define (.op k .op2Def) opline.op2.num else s
  let s :=
    if renamesOp1 opArray buildFlags opline then s.define (.op k .op1Def) opline.op1.num else s
  if renamesData buildFlags opline next then s.define (.op (k + 1) .op1Def) next.op1.num else s

/-- `zend_ssa_rename` at the opline at `k`, in a block that ends at `stop`. -/
def renameOp (stop : Nat) (s : Rename n) (k : Nat) : Rename n :=
  let opline := opArray.opcodes k
  if opline.opcode = .opData then s
  else
    let s := renameData opArray stop k s
    let s := if opline.op1.type.isVariable then s.use (.op k .op1Use) opline.op1.num else s
    let s := renameOp2 opline k s
    let s := renameSwitch opArray buildFlags opline (opArray.opcodes (k + 1)) k s
    if opline.result.type.isVariable then s.define (.op k .resultDef) opline.result.num else s

/-! ## What it reads and writes -/

/-- The variable that is read for `result_use`. -/
def resultReads (k : Nat) : List Nat :=
  varIf ((opArray.opcodes k).opcode = .addArrayElement) (opArray.opcodes k).result.num

/-- The variables that get new numbers. -/
def writes (k : Nat) : List Nat :=
  let opline := opArray.opcodes k
  let next := opArray.opcodes (k + 1)
  if opline.opcode = .opData then []
  else
    varIf opline.isFeFetch opline.op2.num ++ varIf (renamesOp2 buildFlags opline) opline.op2.num ++
      varIf (renamesOp1 opArray buildFlags opline) opline.op1.num ++
      varIf (renamesData buildFlags opline next) next.op1.num ++
      varIf opline.result.type.isVariable opline.result.num

end

section

variable {opArray : OpArray} {buildFlags : UInt32} {s s' : Rename n}
  {stop k v w : Nat} {vs ks : List Nat} {x : Slot n}

theorem renameOp_congr (h : s.Agree vs s')
    (hvs : operands opArray stop k ++ resultReads opArray k ⊆ vs) :
    (renameOp opArray buildFlags stop s k).Agree vs (renameOp opArray buildFlags stop s' k) := by
  rw [renameOp, renameOp]
  by_cases hdata : (opArray.opcodes k).opcode = .opData
  · rw [if_pos hdata, if_pos hdata]
    exact h
  rw [if_neg hdata, if_neg hdata]
  rw [operands, if_neg hdata, resultReads] at hvs
  obtain ⟨⟨⟨hread, hop1⟩, hop2⟩, hresult⟩ := by
    simpa only [append_subset] using hvs
  have hstart : (renameData opArray stop k s).Agree vs (renameData opArray stop k s') := by
    rw [renameData, renameData]
    rw [dataOperands] at hread
    cases hnext : opData opArray stop k with
    | none => exact h
    | some next =>
      rw [hnext] at hread
      obtain ⟨h1, h2⟩ := append_subset.mp hread
      exact (h.useIf (fun hc => h1 (mem_varIf.mpr ⟨hc, rfl⟩)) _).useIf
        (fun hc => h2 (mem_varIf.mpr ⟨hc, rfl⟩)) _
  have hfirst := hstart.useIf (c := (opArray.opcodes k).op1.type.isVariable = true)
    (fun hc => hop1 (mem_varIf.mpr ⟨hc, rfl⟩)) (.op k .op1Use)
  have hsecond : ∀ {s s' : Rename n}, s.Agree vs s' →
      (renameOp2 (opArray.opcodes k) k s).Agree vs (renameOp2 (opArray.opcodes k) k s') := by
    intro s s' h
    rw [renameOp2, renameOp2]
    rw [operand2] at hop2
    split
    next hfetch =>
      rw [if_pos hfetch] at hop2
      exact (h.useIf (fun hc => hop2 (mem_varIf.mpr ⟨decide_eq_true hc, rfl⟩)) _).define _ _
    next hfetch =>
      rw [if_neg hfetch] at hop2
      exact h.useIf (fun hc => hop2 (mem_varIf.mpr ⟨hc, rfl⟩)) _
  have hswitch := (((hsecond hfirst).useIf (c := (opArray.opcodes k).opcode = .addArrayElement)
    (fun hc => hresult (mem_varIf.mpr ⟨decide_eq_true hc, rfl⟩)) (.op k .resultUse)).defineIf
      (c := renamesOp2 buildFlags (opArray.opcodes k) = true) (.op k .op2Def)
      (opArray.opcodes k).op2.num).defineIf
      (c := renamesOp1 opArray buildFlags (opArray.opcodes k) = true) (.op k .op1Def)
      (opArray.opcodes k).op1.num
  exact (hswitch.defineIf _ _).defineIf _ _

/-! ## New numbers -/

theorem numbers_defineIf {c : Bool} :
    (if c then s.define x w else s).numbers = (varIf c w).foldl number s.numbers := by
  cases c with
  | false => rfl
  | true => exact numbers_define s

theorem numbers_renameData : (renameData opArray stop k s).numbers = s.numbers := by
  rw [renameData]
  split
  next => split <;> split <;> rfl
  next => rfl

theorem numbers_renameOp2 (opline : ZendOp) :
    (renameOp2 opline k s).numbers =
      (varIf opline.isFeFetch opline.op2.num).foldl number s.numbers := by
  rw [renameOp2]
  cases opline.isFeFetch with
  | false => exact numbers_useIf
  | true =>
    exact (numbers_define _).trans
      (congrArg (number · _) (numbers_useIf (c := opline.op2.type = .cv)))

theorem numbers_renameSwitch (opline next : ZendOp) :
    (renameSwitch opArray buildFlags opline next k s).numbers =
      (varIf (renamesOp2 buildFlags opline) opline.op2.num ++
          varIf (renamesOp1 opArray buildFlags opline) opline.op1.num ++
          varIf (renamesData buildFlags opline next) next.op1.num).foldl number s.numbers := by
  rw [renameSwitch, foldl_append, foldl_append, numbers_defineIf, numbers_defineIf,
    numbers_defineIf, numbers_useIf]

theorem numbers_renameOp :
    (renameOp opArray buildFlags stop s k).numbers =
      (writes opArray buildFlags k).foldl number s.numbers := by
  rw [renameOp, writes]
  split
  next => rfl
  next =>
    dsimp only
    rw [numbers_defineIf, numbers_renameSwitch, numbers_renameOp2, numbers_useIf,
      numbers_renameData]
    simp only [foldl_append]

end

end Optimizer

end Phpce
