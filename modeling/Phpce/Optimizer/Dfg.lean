import Phpce.Lib.Dataflow
import Phpce.Optimizer.Opline

/-!
# The data flow graph

`zend_build_dfg`: the variables that each block uses and defines, and from them the variables that
are live at its start and end.

* `collectOp_uses` and `collectOp_defs`: what one opline adds to the sets of its block.
* `zendBuildDfg_eq`: the worklist empties, and leaves the least solution of the equations.
-/

namespace Phpce

namespace Optimizer

open List Finset

/-! ## The sets of a block -/

/-- The sets `def` and `use` of a block. -/
structure DefUse where
  defs : Finset Nat
  uses : Finset Nat

/-- `DFG_SET(use)` unless `DFG_ISSET(def)` -/
def DefUse.use (s : DefUse) (varNum : Nat) : DefUse :=
  if varNum ∈ s.defs then s else { s with uses := insert varNum s.uses }

/-- `DFG_SET(def)` -/
def DefUse.define (s : DefUse) (varNum : Nat) : DefUse := { s with defs := insert varNum s.defs }

/-- `op1_def` and `op2_def` -/
def DefUse.defUse (s : DefUse) (varNum : Nat) : DefUse :=
  ⟨insert varNum s.defs, insert varNum s.uses⟩

section

variable (opArray : OpArray) (buildFlags : UInt32)

/-- `build_flags & ZEND_SSA_RC_INFERENCE` -/
def rcInference : Bool := buildFlags &&& ssaRcInference ≠ 0

/-- An opline that goes to `op1_def` if its first operand is a CV. -/
def op1Def (opline : ZendOp) : Bool :=
  match opline.opcode with
  | .addArrayElement | .initArray =>
    rcInference buildFlags || opline.extendedValue &&& arrayElementRef ≠ 0
  | .feResetR | .sendVar | .cast | .qmAssign | .jmpSet | .coalesce => rcInference buildFlags
  | .yield => rcInference buildFlags || opArray.fnFlags &&& accReturnReference ≠ 0
  | .unsetVar | .assign | .assignRef | .bindGlobal | .bindStatic | .sendVarEx | .sendRef
  | .sendVarNoRef | .sendVarNoRefEx | .feResetRw | .assignAdd | .assignSub | .assignMul
  | .assignDiv | .assignMod | .assignSl | .assignSr | .assignConcat | .assignBwOr | .assignBwAnd
  | .assignBwXor | .assignPow | .preInc | .preDec | .postInc | .postDec | .assignDim | .assignObj
  | .unsetDim | .unsetObj | .fetchDimW | .fetchDimRw | .fetchDimFuncArg | .fetchDimUnset
  | .fetchObjW | .fetchObjRw | .fetchObjFuncArg | .fetchObjUnset | .verifyReturnType => true
  | _ => false

/-- An opline that goes to `op2_def` if its second operand is a CV. -/
def op2Def (opline : ZendOp) : Bool :=
  match opline.opcode with
  | .assign => rcInference buildFlags
  | .bindLexical => rcInference buildFlags || opline.extendedValue ≠ 0
  | .assignRef | .feFetchR | .feFetchRw => true
  | _ => false

/-- `ZEND_FE_FETCH_R` and `ZEND_FE_FETCH_RW` -/
def ZendOp.isFeFetch (opline : ZendOp) : Bool :=
  opline.opcode = .feFetchR || opline.opcode = .feFetchRw

/-- The `OP_DATA` of an opline, which stands behind it in the block that ends at `stop`. -/
def opData (stop k : Nat) : Option ZendOp :=
  let next := opArray.opcodes (k + 1)
  if k + 1 < stop ∧ next.opcode = .opData then some next else none

/-- The operands of the `OP_DATA`. -/
def collectData (stop k : Nat) (s : DefUse) : DefUse :=
  match opData opArray stop k with
  | some next =>
    let s := if next.op1.type.isVariable then s.use next.op1.num else s
    if next.op2.type.isVariable then s.use next.op2.num else s
  | none => s

def collectOp1 (opline : ZendOp) (s : DefUse) : DefUse :=
  if opline.op1.type = .cv then
    if op1Def opArray buildFlags opline then s.defUse opline.op1.num else s.use opline.op1.num
  else if opline.op1.type.isTemporary then
    let s := s.use opline.op1.num
    if opline.opcode = .verifyReturnType then s.define opline.op1.num else s
  else s

def collectOp2 (opline : ZendOp) (s : DefUse) : DefUse :=
  if opline.op2.type = .cv then
    if op2Def buildFlags opline then s.defUse opline.op2.num else s.use opline.op2.num
  else if opline.op2.type.isTemporary then
    if opline.isFeFetch then s.define opline.op2.num else s.use opline.op2.num
  else s

def collectResult (opline : ZendOp) (s : DefUse) : DefUse :=
  if opline.result.type.isVariable then s.define opline.result.num else s

/-- What the opline at `k` adds to the sets of its block, which ends at `stop`. -/
def collectOp (stop : Nat) (s : DefUse) (k : Nat) : DefUse :=
  let opline := opArray.opcodes k
  if opline.opcode = .opData then s
  else
    collectResult opline (collectOp2 buildFlags opline
      (collectOp1 opArray buildFlags opline (collectData opArray stop k s)))

def collect {n : Nat} (b : BasicBlock n) : DefUse :=
  if b.reachable then
    b.positions.foldl (collectOp opArray buildFlags (b.start + b.len)) ⟨∅, ∅⟩
  else ⟨∅, ∅⟩

end

/-! ## What an opline adds -/

section

variable (opArray : OpArray) (buildFlags : UInt32)

/-- `c ? {v} : {}` -/
def varIf (c : Bool) (v : Nat) : List Nat := if c then [v] else []

/-- The variables that the `OP_DATA` of an opline has as operands. -/
def dataOperands (stop k : Nat) : List Nat :=
  match opData opArray stop k with
  | some next =>
    varIf next.op1.type.isVariable next.op1.num ++ varIf next.op2.type.isVariable next.op2.num
  | none => []

/-- The variable that an opline takes as its second operand; `FE_FETCH` only sets a temporary. -/
def operand2 (opline : ZendOp) : List Nat :=
  varIf (if opline.isFeFetch then opline.op2.type = .cv else opline.op2.type.isVariable)
    opline.op2.num

def operands (stop k : Nat) : List Nat :=
  let opline := opArray.opcodes k
  if opline.opcode = .opData then []
  else
    dataOperands opArray stop k ++ varIf opline.op1.type.isVariable opline.op1.num ++
      operand2 opline

/-- The CV that `op1_def` is about. -/
def separated1 (opline : ZendOp) : List Nat :=
  varIf (opline.op1.type = .cv && op1Def opArray buildFlags opline) opline.op1.num

/-- The CV that `op2_def` is about. -/
def separated2 (opline : ZendOp) : List Nat :=
  varIf (opline.op2.type = .cv && op2Def buildFlags opline) opline.op2.num

/-- The CVs that an opline writes where they are, which counts as a use too. -/
def separated (k : Nat) : List Nat :=
  let opline := opArray.opcodes k
  if opline.opcode = .opData then []
  else separated1 opArray buildFlags opline ++ separated2 buildFlags opline

/-- The variables that an opline adds to `def`. -/
def defined (k : Nat) : List Nat :=
  let opline := opArray.opcodes k
  if opline.opcode = .opData then []
  else
    separated opArray buildFlags k ++
      varIf (opline.op1.type.isTemporary && opline.opcode = .verifyReturnType) opline.op1.num ++
      varIf (opline.op2.type.isTemporary && opline.isFeFetch) opline.op2.num ++
      varIf opline.result.type.isVariable opline.result.num

variable {opArray buildFlags} {s : DefUse} {opline : ZendOp} {stop k v w : Nat}

@[simp]
theorem mem_varIf {c : Bool} : v ∈ varIf c w ↔ c = true ∧ v = w := by
  rw [varIf]
  split
  next h => simp [h]
  next h => simp [h]

@[simp]
theorem DefUse.defs_use : (s.use w).defs = s.defs := by
  rw [use]
  split <;> rfl

@[simp]
theorem DefUse.mem_uses_use : v ∈ (s.use w).uses ↔ v ∈ s.uses ∨ v = w ∧ v ∉ s.defs := by
  rw [use]
  split
  next h =>
    refine ⟨.inl, ?_⟩
    rintro (hmem | ⟨rfl, hnot⟩)
    · exact hmem
    · exact absurd h hnot
  next h =>
    rw [mem_insert]
    constructor
    · rintro (rfl | hmem)
      · exact .inr ⟨rfl, h⟩
      · exact .inl hmem
    · rintro (hmem | ⟨rfl, -⟩)
      · exact .inr hmem
      · exact .inl rfl

@[simp]
theorem DefUse.uses_define : (s.define w).uses = s.uses := rfl

@[simp]
theorem DefUse.mem_defs_define : v ∈ (s.define w).defs ↔ v = w ∨ v ∈ s.defs :=
  mem_insert

@[simp]
theorem DefUse.mem_uses_defUse : v ∈ (s.defUse w).uses ↔ v = w ∨ v ∈ s.uses :=
  mem_insert

@[simp]
theorem DefUse.mem_defs_defUse : v ∈ (s.defUse w).defs ↔ v = w ∨ v ∈ s.defs :=
  mem_insert

theorem isVariable_iff (t : OpType) :
    t.isVariable = true ↔ t = .cv ∨ t.isTemporary = true := by
  cases t <;> decide

theorem collectData_defs : (collectData opArray stop k s).defs = s.defs := by
  rw [collectData]
  cases opData opArray stop k with
  | none => rfl
  | some next =>
    by_cases h1 : next.op1.type.isVariable = true <;>
      by_cases h2 : next.op2.type.isVariable = true <;>
      simp [h1, h2]

theorem collectData_uses :
    v ∈ (collectData opArray stop k s).uses ↔
      v ∈ s.uses ∨ v ∈ dataOperands opArray stop k ∧ v ∉ s.defs := by
  rw [collectData, dataOperands]
  cases opData opArray stop k with
  | none => simp
  | some next =>
    by_cases h1 : next.op1.type.isVariable = true <;>
      by_cases h2 : next.op2.type.isVariable = true <;>
      simp [h1, h2, or_assoc, or_and_right]

theorem collectOp1_defs :
    v ∈ (collectOp1 opArray buildFlags opline s).defs ↔
      v ∈ s.defs ∨ v ∈ separated1 opArray buildFlags opline ∨
        v ∈ varIf (opline.op1.type.isTemporary && opline.opcode = .verifyReturnType)
          opline.op1.num := by
  rw [collectOp1, separated1]
  split
  next h =>
    by_cases hdef : op1Def opArray buildFlags opline = true <;>
      simp [h, hdef, OpType.isTemporary, or_comm]
  next h =>
    by_cases htemp : opline.op1.type.isTemporary = true <;>
      by_cases hverify : opline.opcode = .verifyReturnType <;>
      simp [h, htemp, hverify, or_comm]

theorem collectOp1_uses :
    v ∈ (collectOp1 opArray buildFlags opline s).uses ↔
      v ∈ s.uses ∨ v ∈ varIf opline.op1.type.isVariable opline.op1.num ∧ v ∉ s.defs ∨
        v ∈ separated1 opArray buildFlags opline := by
  rw [collectOp1, separated1]
  split
  next h =>
    by_cases hdef : op1Def opArray buildFlags opline = true
    · simp [h, hdef, OpType.isVariable]
      tauto
    · simp [h, hdef, OpType.isVariable]
  next h =>
    by_cases htemp : opline.op1.type.isTemporary = true
    · by_cases hverify : opline.opcode = .verifyReturnType <;>
        simp [h, htemp, hverify, isVariable_iff]
    · simp [h, htemp, isVariable_iff]

theorem op2Def_of_isFeFetch (h : opline.isFeFetch = true) : op2Def buildFlags opline = true := by
  rw [ZendOp.isFeFetch, Bool.or_eq_true, decide_eq_true_iff, decide_eq_true_iff] at h
  rcases h with h | h <;> rw [op2Def, h]

theorem collectOp2_defs :
    v ∈ (collectOp2 buildFlags opline s).defs ↔
      v ∈ s.defs ∨ v ∈ separated2 buildFlags opline ∨
        v ∈ varIf (opline.op2.type.isTemporary && opline.isFeFetch) opline.op2.num := by
  rw [collectOp2, separated2]
  split
  next h =>
    by_cases hdef : op2Def buildFlags opline = true <;>
      simp [h, hdef, OpType.isTemporary, or_comm]
  next h =>
    by_cases htemp : opline.op2.type.isTemporary = true <;>
      by_cases hfetch : opline.isFeFetch = true <;>
      simp [h, htemp, hfetch, or_comm]

theorem collectOp2_uses :
    v ∈ (collectOp2 buildFlags opline s).uses ↔
      v ∈ s.uses ∨ v ∈ operand2 opline ∧ v ∉ s.defs ∨ v ∈ separated2 buildFlags opline := by
  rw [collectOp2, separated2, operand2]
  split
  next h =>
    by_cases hdef : op2Def buildFlags opline = true
    · simp [h, hdef, OpType.isVariable]
      tauto
    · have hfetch : opline.isFeFetch = false :=
        Bool.eq_false_iff.mpr (mt op2Def_of_isFeFetch hdef)
      simp [h, hdef, hfetch, OpType.isVariable]
  next h =>
    by_cases htemp : opline.op2.type.isTemporary = true <;>
      by_cases hfetch : opline.isFeFetch = true <;>
      simp [h, htemp, hfetch, isVariable_iff]

theorem collectOp_defs :
    v ∈ (collectOp opArray buildFlags stop s k).defs ↔
      v ∈ s.defs ∨ v ∈ defined opArray buildFlags k := by
  rw [collectOp, defined]
  split
  next => simp
  next h =>
    have hresult : ∀ {s : DefUse}, v ∈ (collectResult (opArray.opcodes k) s).defs ↔
        v ∈ s.defs ∨ v ∈ varIf (opArray.opcodes k).result.type.isVariable
          (opArray.opcodes k).result.num := by
      intro s
      rw [collectResult]
      by_cases hvar : (opArray.opcodes k).result.type.isVariable = true <;> simp [hvar, or_comm]
    rw [hresult, collectOp2_defs, collectOp1_defs, collectData_defs, separated, if_neg h]
    simp only [mem_append]
    tauto

theorem collectOp_uses :
    v ∈ (collectOp opArray buildFlags stop s k).uses ↔
      v ∈ s.uses ∨ v ∈ operands opArray stop k ∧ v ∉ s.defs ∨
        v ∈ separated opArray buildFlags k := by
  rw [collectOp, operands, separated]
  split
  next => simp
  next h =>
    have hresult : ∀ {s : DefUse}, (collectResult (opArray.opcodes k) s).uses = s.uses := by
      intro s
      rw [collectResult]
      split <;> rfl
    rw [hresult, collectOp2_uses, collectOp1_uses, collectOp1_defs, collectData_defs,
      collectData_uses]
    simp only [mem_append]
    -- a temporary that `VERIFY_RETURN_TYPE` writes is an operand of it
    have hverify : v ∈ varIf ((opArray.opcodes k).op1.type.isTemporary &&
          (opArray.opcodes k).opcode = .verifyReturnType) (opArray.opcodes k).op1.num →
        v ∈ varIf (opArray.opcodes k).op1.type.isVariable (opArray.opcodes k).op1.num := by
      simp +contextual [isVariable_iff]
    tauto

/-! ## What a block adds -/

variable {n : Nat} {b : BasicBlock n}

theorem foldl_collectOp_defs (ks : List Nat) :
    v ∈ (ks.foldl (collectOp opArray buildFlags stop) s).defs ↔
      v ∈ s.defs ∨ ∃ k ∈ ks, v ∈ defined opArray buildFlags k := by
  induction ks generalizing s with
  | nil => simp
  | cons k ks ih =>
    rw [foldl_cons, ih, collectOp_defs]
    simp only [exists_mem_cons_iff]
    tauto

theorem foldl_collectOp_uses (ks : List Nat) :
    v ∈ (ks.foldl (collectOp opArray buildFlags stop) s).uses ↔
      v ∈ s.uses ∨
        v ∉ s.defs ∧ ReadFirst (operands opArray stop) (defined opArray buildFlags) ks v ∨
        ∃ k ∈ ks, v ∈ separated opArray buildFlags k := by
  induction ks generalizing s with
  | nil => simp [readFirst_nil]
  | cons k ks ih =>
    rw [foldl_cons, ih, collectOp_defs, collectOp_uses, readFirst_cons]
    simp only [exists_mem_cons_iff]
    tauto

theorem collect_defs (h : b.reachable = true) :
    v ∈ (collect opArray buildFlags b).defs ↔
      ∃ k ∈ b.positions, v ∈ defined opArray buildFlags k := by
  rw [collect, if_pos h, foldl_collectOp_defs]
  simp

theorem collect_uses (h : b.reachable = true) :
    v ∈ (collect opArray buildFlags b).uses ↔
      ReadFirst (operands opArray (b.start + b.len)) (defined opArray buildFlags) b.positions v ∨
        ∃ k ∈ b.positions, v ∈ separated opArray buildFlags k := by
  rw [collect, if_pos h, foldl_collectOp_uses]
  simp

end

/-! ## The worklist -/

section

variable (opArray : OpArray) (cfg : Cfg) (buildFlags : UInt32)

/-- A turn of the worklist, for the block `j`. -/
def dfgStep (j : Fin cfg.blocksCount) (s : Dataflow.State (Fin cfg.blocksCount) Nat) :
    Dataflow.State (Fin cfg.blocksCount) Nat :=
  let block := cfg.blocks j
  if block.reachable then
    let out :=
      match block.successor0 with
      | some s0 =>
        match block.successor1 with
        | some s1 => s.inn s0 ∪ s.inn s1
        | none => s.inn s0
      | none => ∅
    let sets := collect opArray buildFlags block
    let tmp := sets.uses ∪ (out \ sets.defs)
    if s.inn j = tmp then ⟨s.worklist.erase j, s.inn, Function.update s.out j out⟩
    else
      ⟨s.worklist.erase j ∪ (cfg.predecessors j).toFinset, Function.update s.inn j tmp,
        Function.update s.out j out⟩
  else ⟨s.worklist.erase j, s.inn, s.out⟩

/-- The loop over the worklist, which takes the last block first. -/
def dfgLoop : Nat → Dataflow.State (Fin cfg.blocksCount) Nat →
    Option (Dataflow.State (Fin cfg.blocksCount) Nat)
  | 0, _ => none
  | turns + 1, s =>
    if h : s.worklist.Nonempty then
      dfgLoop turns (dfgStep opArray cfg buildFlags (s.worklist.max' h) s)
    else some s

/-- `zend_build_dfg`, given enough turns: the sets `in` and `out`. -/
def zendBuildDfg (turns : Nat) : Option (Dataflow.State (Fin cfg.blocksCount) Nat) :=
  dfgLoop opArray cfg buildFlags turns ⟨Finset.univ, fun _ => ∅, fun _ => ∅⟩

def dfgFlow : Dataflow (Fin cfg.blocksCount) Nat where
  active i := (cfg.blocks i).reachable
  succ i := (cfg.blocks i).successors
  pred := cfg.predecessors
  gen i := (collect opArray buildFlags (cfg.blocks i)).uses
  kill i := (collect opArray buildFlags (cfg.blocks i)).defs
  mem_pred hactive hsucc := Cfg.mem_predecessors.mpr ⟨hactive, hsucc⟩

theorem dfgStep_eq (j : Fin cfg.blocksCount)
    (s : Dataflow.State (Fin cfg.blocksCount) Nat) :
    dfgStep opArray cfg buildFlags j s = (dfgFlow opArray cfg buildFlags).step j s := by
  have hjoin : (dfgFlow opArray cfg buildFlags).join s.inn j =
      match (cfg.blocks j).successor0 with
      | some s0 =>
        match (cfg.blocks j).successor1 with
        | some s1 => s.inn s0 ∪ s.inn s1
        | none => s.inn s0
      | none => ∅ := by
    ext v
    rw [Dataflow.mem_join]
    show (∃ i ∈ (cfg.blocks j).successors, v ∈ s.inn i) ↔ _
    rw [BasicBlock.successors]
    cases (cfg.blocks j).successor0 with
    | none => simp
    | some s0 => cases (cfg.blocks j).successor1 <;> simp
  rw [dfgStep, Dataflow.step, Dataflow.transfer, hjoin]
  rfl

theorem dfgLoop_eq (turns : Nat) (s : Dataflow.State (Fin cfg.blocksCount) Nat) :
    dfgLoop opArray cfg buildFlags turns s =
      (dfgFlow opArray cfg buildFlags).loop Finset.max' turns s := by
  induction turns generalizing s with
  | zero => rfl
  | succ turns ih =>
    rw [dfgLoop, Dataflow.loop]
    split
    next h => rw [ih, dfgStep_eq]
    next => rfl

theorem zendBuildDfg_eq :
    ∃ dfg, (∃ bound, ∀ turns, bound < turns →
        zendBuildDfg opArray cfg buildFlags turns = some dfg) ∧
      (dfgFlow opArray cfg buildFlags).Least (fun i => ↑(dfg.inn i)) (fun i => ↑(dfg.out i)) ∧
      ∀ i v, v ∈ dfg.inn i ↔ (dfgFlow opArray cfg buildFlags).Live i v := by
  have hinit : (dfgFlow opArray cfg buildFlags).Inv ⟨Finset.univ, fun _ => ∅, fun _ => ∅⟩ :=
    ⟨fun hmem => absurd hmem (notMem_empty _), fun _ => empty_subset _,
      fun _ hmem => absurd (mem_univ _) hmem⟩
  obtain ⟨dfg, hloop, hinv, hempty⟩ := Dataflow.loop_eq Finset.max'_mem hinit
  exact ⟨dfg, ⟨_, fun turns hturns => (dfgLoop_eq ..).trans (hloop turns hturns)⟩,
    hinv.least hempty, fun i v => hinv.mem_iff hempty⟩

end

end Optimizer

end Phpce
