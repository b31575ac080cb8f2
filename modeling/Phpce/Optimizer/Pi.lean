import Phpce.Optimizer.Opline

/-!
# Pi placement

The range constraints that `place_essa_pis` attaches to the edges of a conditional jump, and what
they say of the values that variables have when the edge is taken.
-/

namespace Phpce

namespace Optimizer

/-! ## Dominators -/

/-- `idom` and `level` of the blocks of a graph, as `zend_cfg_compute_dominators_tree` sets them. -/
structure Dominators (cfg : Cfg) where
  idom : Fin cfg.blocksCount → Option (Fin cfg.blocksCount)
  level : Fin cfg.blocksCount → Nat
  level_lt : ∀ {b d}, idom b = some d → level d < level b

def dominates {cfg : Cfg} (blocks : Dominators cfg) (a b : Fin cfg.blocksCount) : Bool :=
  if blocks.level b > blocks.level a then
    match _h : blocks.idom b with
    | some b => dominates blocks a b
    | none => false
  else a = b
termination_by blocks.level b
decreasing_by exact blocks.level_lt _h

/-! ## Constraints -/

/-- `zend_ssa_range_constraint`; `none` is a variable of -1. -/
structure RangeConstraint where
  minVar : Option Nat
  maxVar : Option Nat
  min : Int
  max : Int
  underflow : Bool
  overflow : Bool
  negative : Bool
  deriving DecidableEq

def piRangeEquals (var : Option Nat) (val : Int) : RangeConstraint :=
  ⟨var, var, val, val, false, false, false⟩

def piRangeNotEquals (var : Option Nat) (val : Int) : RangeConstraint :=
  ⟨var, var, val, val, false, false, true⟩

def piRangeMin (var : Option Nat) (val : Int) : RangeConstraint :=
  ⟨var, none, val, zendLongMax, false, true, false⟩

def piRangeMax (var : Option Nat) (val : Int) : RangeConstraint :=
  ⟨none, var, zendLongMin, val, true, false, false⟩

/-- A pi: the constraint on `var` on the edge between two blocks. -/
structure Pi (n : Nat) where
  pi : Fin n
  block : Fin n
  var : Nat
  constraint : RangeConstraint
  deriving DecidableEq

section

variable (opArray : OpArray) (cfg : Cfg)

def needsPi (blocks : Dominators cfg) (dfgIn : Fin cfg.blocksCount → Finset Nat)
    (source target : Fin cfg.blocksCount) (var : Nat) : Bool :=
  if var ∉ dfgIn target then false
  else if (cfg.predecessors target).length = 1 then true
  else
    let otherSuccessor :=
      if (cfg.blocks source).successor0 = some target then (cfg.blocks source).successor1
      else (cfg.blocks source).successor0
    match otherSuccessor with
    | some check =>
      !(cfg.predecessors target).all fun predecessor =>
        predecessor = source || dominates blocks check predecessor
    | none => false

/-- `add_pi` and the constraint that is set in what it returns. -/
def addPi (blocks : Dominators cfg) (dfgIn : Fin cfg.blocksCount → Finset Nat)
    (source : Fin cfg.blocksCount) (target : Option (Fin cfg.blocksCount)) (var : Nat)
    (constraint : RangeConstraint) : List (Pi cfg.blocksCount) :=
  match target with
  | some target =>
    if needsPi cfg blocks dfgIn source target var then [⟨source, target, var, constraint⟩] else []
  | none => []

/-! ## Adjusted temporaries -/

/-- The variable and the adjustment that `find_adjusted_tmp_var` takes from an opline. -/
def adjustedBy (op : ZendOp) : Option (Nat × Int) :=
  match op.opcode with
  | .postDec => if op.op1.type = .cv then some (op.op1.num, -1) else none
  | .postInc => if op.op1.type = .cv then some (op.op1.num, 1) else none
  | .add =>
    if op.op1.type = .cv ∧ op.op2.type = .const then
      match op.op2.constant with
      | .long lval => if lval ≠ zendLongMin then some (op.op1.num, -lval) else none
      | _ => none
    else if op.op2.type = .cv ∧ op.op1.type = .const then
      match op.op1.constant with
      | .long lval => if lval ≠ zendLongMin then some (op.op2.num, -lval) else none
      | _ => none
    else none
  | .sub =>
    if op.op1.type = .cv ∧ op.op2.type = .const then
      match op.op2.constant with
      | .long lval => some (op.op1.num, lval)
      | _ => none
    else none
  | _ => none

/-- The last opline in front of `k` that sets the temporary. -/
def lastSetter (varNum : UInt32) : Nat → Option Nat
  | 0 => none
  | k + 1 =>
    let op := opArray.opcodes k
    if op.result.type ≠ .tmpVar ∨ op.result.var ≠ varNum then lastSetter varNum k else some k

/-- `find_adjusted_tmp_var` -/
def findAdjustedTmpVar (varNum : UInt32) (k : Nat) : Option (Nat × Int) :=
  (lastSetter opArray varNum k).bind fun op => adjustedBy (opArray.opcodes op)

def addWillOverflow (a b : Int) : Bool :=
  (b > 0 && a > zendLongMax - b) || (b < 0 && a < zendLongMin - b)

def subWillOverflow (a b : Int) : Bool :=
  (b > 0 && a < zendLongMin + b) || (b < 0 && a > zendLongMax + b)

/-! ## Placement -/

/-- The variable behind an operand of the comparison in front of `opline`, and its adjustment. -/
def comparedVar (opline : Nat) (node : Znode) : Option Nat × Int :=
  match node.type with
  | .cv => (some node.num, 0)
  | .tmpVar =>
    match findAdjustedTmpVar opArray node.var opline with
    | some (var, adjustment) => (some var, adjustment)
    | none => (none, 0)
  | _ => (none, 0)

/-- What a constant adds to the adjustment. -/
def constantVal (node : Znode) : Option Int :=
  if node.type = .const then
    match node.constant with
    | .long lval => some lval
    | .false => some 0
    | .true => some 1
    | _ => none
  else none

/-- `var1`, `var2`, `val1` and `val2` when the constraints are set. -/
def comparison (opline : Nat) (op1 op2 : Znode) : Option Nat × Option Nat × Int × Int :=
  let (var1, val2) := comparedVar opArray opline op1
  let (var2, val1) := comparedVar opArray opline op2
  match var1, var2 with
  | some _, some _ =>
    if !subWillOverflow val1 val2 && !subWillOverflow val2 val1 then
      (var1, var2, val1 - val2, val2 - val1)
    else (none, none, val1, val2)
  | some _, none =>
    match constantVal op2 with
    | some addVal2 =>
      if !addWillOverflow val2 addVal2 then (var1, none, val1, val2 + addVal2)
      else (none, none, val1, val2)
    | none => (none, none, val1, val2)
  | none, some _ =>
    match constantVal op1 with
    | some addVal1 =>
      if !addWillOverflow val1 addVal1 then (none, var2, val1 + addVal1, val2)
      else (none, none, val1, val2)
    | none => (none, none, val1, val2)
  | none, none => (none, none, val1, val2)

/-- The constraints on `var1`, each with the outcome of the condition that it is for. -/
def pis1 (opcode : Opcode) (var1 : Nat) (var2 : Option Nat) (val2 : Int) :
    List (Bool × Nat × RangeConstraint) :=
  match opcode with
  | .isEqual =>
    [(true, var1, piRangeEquals var2 val2), (false, var1, piRangeNotEquals var2 val2)]
  | .isNotEqual =>
    [(false, var1, piRangeEquals var2 val2), (true, var1, piRangeNotEquals var2 val2)]
  | .isSmaller =>
    (if val2 > zendLongMin then [(true, var1, piRangeMax var2 (val2 - 1))] else []) ++
      [(false, var1, piRangeMin var2 val2)]
  | .isSmallerOrEqual =>
    (true, var1, piRangeMax var2 val2) ::
      if val2 < zendLongMax then [(false, var1, piRangeMin var2 (val2 + 1))] else []
  | _ => []

/-- The constraints on `var2`. -/
def pis2 (opcode : Opcode) (var2 : Nat) (var1 : Option Nat) (val1 : Int) :
    List (Bool × Nat × RangeConstraint) :=
  match opcode with
  | .isEqual =>
    [(true, var2, piRangeEquals var1 val1), (false, var2, piRangeNotEquals var1 val1)]
  | .isNotEqual =>
    [(false, var2, piRangeEquals var1 val1), (true, var2, piRangeNotEquals var1 val1)]
  | .isSmaller =>
    (if val1 < zendLongMax then [(true, var2, piRangeMin var1 (val1 + 1))] else []) ++
      [(false, var2, piRangeMax var1 val1)]
  | .isSmallerOrEqual =>
    (true, var2, piRangeMin var1 val1) ::
      if val1 > zendLongMin then [(false, var2, piRangeMax var1 (val1 - 1))] else []
  | _ => []

/-- `ZEND_IS_EQUAL` and the other comparisons of the first branch -/
def Opcode.isComparison : Opcode → Bool
  | .isEqual | .isNotEqual | .isSmaller | .isSmallerOrEqual => true
  | _ => false

/-- The range constraints of a jump at `opline`, with the outcomes of the condition. -/
def rangePis (opline : Nat) : List (Bool × Nat × RangeConstraint) :=
  let jump := opArray.opcodes opline
  let prev := opArray.opcodes (opline - 1)
  if jump.op1.type = .tmpVar ∧ prev.opcode.isComparison ∧ jump.op1.var = prev.result.var then
    let (var1, var2, val1, val2) := comparison opArray opline prev.op1 prev.op2
    (match var1 with
      | some var => pis1 prev.opcode var var2 val2
      | none => []) ++
      match var2 with
      | some var => pis2 prev.opcode var var1 val1
      | none => []
  else if jump.op1.type = .tmpVar ∧ (prev.opcode = .postInc ∨ prev.opcode = .postDec) ∧
      jump.op1.var = prev.result.var ∧ prev.op1.type = .cv then
    let val := if prev.opcode = .postDec then -1 else 1
    [(false, prev.op1.num, piRangeEquals none val), (true, prev.op1.num, piRangeNotEquals none val)]
  else if jump.op1.type = .var ∧ (prev.opcode = .preInc ∨ prev.opcode = .preDec) ∧
      jump.op1.var = prev.result.var ∧ prev.op1.type = .cv then
    [(false, prev.op1.num, piRangeEquals none 0), (true, prev.op1.num, piRangeNotEquals none 0)]
  else []

/-- `bt` and `bf` of a block whose last opline is a conditional jump. -/
def branches {n : Nat} (b : BasicBlock n) (opcode : Opcode) :
    Option (Option (Fin n) × Option (Fin n)) :=
  match opcode with
  | .jmpz | .jmpznz => some (b.successor1, b.successor0)
  | .jmpnz => some (b.successor0, b.successor1)
  | _ => none

/-- The range pis that `place_essa_pis` places for a block. -/
def blockPis (blocks : Dominators cfg) (dfgIn : Fin cfg.blocksCount → Finset Nat)
    (j : Fin cfg.blocksCount) : List (Pi cfg.blocksCount) :=
  let b := cfg.blocks j
  if b.reachable = false ∨ b.len = 0 then []
  else
    let opline := b.start + b.len - 1
    match branches b (opArray.opcodes opline).opcode with
    | some (bt, bf) =>
      (rangePis opArray opline).flatMap fun (outcome, var, constraint) =>
        addPi cfg blocks dfgIn j (if outcome then bt else bf) var constraint
    | none => []

/-- The range pis that `place_essa_pis` places. -/
def placeEssaPis (blocks : Dominators cfg) (dfgIn : Fin cfg.blocksCount → Finset Nat) :
    List (Pi cfg.blocksCount) :=
  (List.finRange cfg.blocksCount).flatMap (blockPis opArray cfg blocks dfgIn)

end

end Optimizer

end Phpce
