import Phpce.Optimizer.Opline

/-!
# Ranges of integer operations

What `zend_inference_calc_range` computes for the result of an opline from the ranges of its
operands, for the opcodes that it treats without floating point, and what these opcodes evaluate to
on integers.
-/

namespace Phpce

namespace Optimizer

namespace Range

/-- `zend_ssa_range` -/
structure ZendSsaRange where
  min : Int64
  max : Int64
  underflow : Bool
  overflow : Bool
  deriving DecidableEq

def between (min max : Int64) : ZendSsaRange := ⟨min, max, false, false⟩

/-- `ZEND_LONG_MIN`, `ZEND_LONG_MAX` -/
def anyLong : ZendSsaRange := between Int64.minValue Int64.maxValue

def anyBool : ZendSsaRange := between 0 1

inductive Operand where
  | const (zv : Value)
  | var (range : Option ZendSsaRange)

/-- `OP1_HAS_RANGE` and the four macros that read the range. -/
def Operand.range : Operand → Option ZendSsaRange
  | .const .null => some (between 0 0)
  | .const .false => some (between 0 0)
  | .const .true => some (between 1 1)
  | .const (.long lval) => some (between (Int64.ofInt lval) (Int64.ofInt lval))
  | .const .other => none
  | .var range => range

inductive CastType where
  | null
  | bool
  | long
  deriving DecidableEq

/-- The opcodes that the switch treats without floating point. -/
inductive RangeOp where
  | add | sub | mod | sl | sr
  | bwNot
  | cast (type : CastType)
  | bool | jmpzEx | jmpnzEx
  | boolNot
  | boolXor
  | isIdentical | isEqual
  | isNotIdentical | isNotEqual
  | isSmaller
  | isSmallerOrEqual
  | preInc | preDec | postInc | postDec
  deriving DecidableEq

/-- The variable that is asked for: `result_def` or `op1_def` of the opline. -/
inductive Target where
  | result
  | op1
  deriving DecidableEq

/-! ## Binary operations -/

/-- The macros `MIN` and `MAX`. -/
def minLong (a b : Int64) : Int64 := if a < b then a else b

def maxLong (a b : Int64) : Int64 := if a > b then a else b

def ZendSsaRange.hasFlag (r : ZendSsaRange) : Bool := r.underflow || r.overflow

def addRange (op1 op2 : ZendSsaRange) : ZendSsaRange :=
  let min := op1.min + op2.min
  let max := op1.max + op2.max
  let underflow := op1.underflow || op2.underflow || (op1.min < 0 && op2.min < 0 && min ≥ 0)
  let overflow := op1.overflow || op2.overflow || (op1.max > 0 && op2.max > 0 && max ≤ 0)
  { min := if underflow then Int64.minValue else min
    max := if overflow then Int64.maxValue else max
    underflow := underflow
    overflow := overflow }

def subRange (op1 op2 : ZendSsaRange) : ZendSsaRange :=
  let min := op1.min - op2.max
  let max := op1.max - op2.min
  let underflow := op1.underflow || op2.overflow || (op1.min < 0 && op2.max > 0 && min ≥ 0)
  let overflow := op1.overflow || op2.underflow || (op1.max > 0 && op2.min < 0 && max ≤ 0)
  { min := if underflow then Int64.minValue else min
    max := if overflow then Int64.maxValue else max
    underflow := underflow
    overflow := overflow }

/-- From the least to the greatest of the values at the ends of the two ranges. -/
def corners (f : Int64 → Int64 → Int64) (op1 op2 : ZendSsaRange) : ZendSsaRange :=
  let t1 := f op1.min op2.min
  let t2 := f op1.min op2.max
  let t3 := f op1.max op2.min
  let t4 := f op1.max op2.max
  between (minLong (minLong t1 t2) (minLong t3 t4)) (maxLong (maxLong t1 t2) (maxLong t3 t4))

def remainder (a b : Int64) : Int64 := if b = -1 then 0 else a % b

/-- `zend_inference_calc_binary_op_range`. C leaves a shift undefined whose count is negative or
from 64 on; the processor takes the count modulo 64. -/
def zendInferenceCalcBinaryOpRange (opcode : RangeOp) (op1 op2 : ZendSsaRange) :
    Option ZendSsaRange :=
  match opcode with
  | .add => some (addRange op1 op2)
  | .sub => some (subRange op1 op2)
  | .mod =>
    if op1.hasFlag || op2.hasFlag then some anyLong
    else if op2.min = 0 ∨ op2.max = 0 then none
    else some (corners remainder op1 op2)
  | .sl =>
    if op1.hasFlag || op2.hasFlag then some anyLong else some (corners (· <<< ·) op1 op2)
  | .sr =>
    if op1.hasFlag || op2.hasFlag then some anyLong else some (corners (· >>> ·) op1 op2)
  | _ => none

/-! ## The other opcodes -/

def ofCond (b : Bool) : Int64 := if b then 1 else 0

def bwNotRange (r : ZendSsaRange) : ZendSsaRange :=
  if r.hasFlag then anyLong else between (~~~r.max) (~~~r.min)

def boolRange (r : ZendSsaRange) : ZendSsaRange :=
  between (ofCond (r.min > 0 || r.max < 0)) (ofCond (r.min ≠ 0 || r.max ≠ 0))

def boolNotRange (r : ZendSsaRange) : ZendSsaRange :=
  between (ofCond (r.min = 0 && r.max = 0)) (ofCond (r.min ≤ 0 && r.max ≥ 0))

def boolXorRange (op1 op2 : ZendSsaRange) : ZendSsaRange :=
  let op1_min := ofCond (op1.min > 0 || op1.max < 0)
  -- the least value is overwritten by now
  let op1_max := ofCond (op1_min ≠ 0 || op1.max ≠ 0)
  let op2_min := ofCond (op2.min > 0 || op2.max < 0)
  let op2_max := ofCond (op2_min ≠ 0 || op2.max ≠ 0)
  if op1_min = op1_max && op2_min = op2_max then
    if op1_min = op2_min then between 0 0 else between 1 1
  else anyBool

def isEqualRange (op1 op2 : ZendSsaRange) : ZendSsaRange :=
  between (ofCond (op1.min = op1.max && op2.min = op2.max && op1.min = op2.max))
    (ofCond (op1.min ≤ op2.max && op1.max ≥ op2.min))

def isNotEqualRange (op1 op2 : ZendSsaRange) : ZendSsaRange :=
  between (ofCond (op1.min > op2.max || op1.max < op2.min))
    (ofCond (op1.min ≠ op1.max || op2.min ≠ op2.max || op1.min ≠ op2.max))

def isSmallerRange (op1 op2 : ZendSsaRange) : ZendSsaRange :=
  between (ofCond (op1.max < op2.min)) (ofCond (op1.min < op2.max))

def isSmallerOrEqualRange (op1 op2 : ZendSsaRange) : ZendSsaRange :=
  between (ofCond (op1.max ≤ op2.min)) (ofCond (op1.min ≤ op2.max))

def incRange (r : ZendSsaRange) : ZendSsaRange :=
  { min := if r.min < Int64.maxValue && !r.underflow then r.min + 1 else r.min
    max := if r.max < Int64.maxValue then r.max + 1 else r.max
    underflow := r.underflow
    overflow := if r.max < Int64.maxValue then r.overflow else true }

def decRange (r : ZendSsaRange) : ZendSsaRange :=
  { min := if r.min > Int64.minValue then r.min - 1 else r.min
    max := if r.max > Int64.minValue && !r.overflow then r.max - 1 else r.max
    underflow := if r.min > Int64.minValue then r.underflow else true
    overflow := r.overflow }

def condRange (f : ZendSsaRange → ZendSsaRange → ZendSsaRange) (op1 op2 : Operand) :
    ZendSsaRange :=
  match op1.range, op2.range with
  | some r, some r' => f r r'
  | _, _ => anyBool

/-- `zend_inference_calc_range`, for a variable that an opline defines. -/
def zendInferenceCalcRange (opcode : RangeOp) (target : Target) (op1 op2 : Operand) :
    Option ZendSsaRange :=
  match opcode, target with
  | .cast _, .op1 => op1.range
  | .cast .null, .result => some (between 0 0)
  | .cast .bool, .result => some ((op1.range.map boolRange).getD anyBool)
  | .cast .long, .result =>
    some ((op1.range.map fun r => between r.min r.max).getD anyLong)
  | .preInc, _ => op1.range.map incRange
  | .preDec, _ => op1.range.map decRange
  | .postInc, .result => op1.range
  | .postInc, .op1 => op1.range.map incRange
  | .postDec, .result => op1.range
  | .postDec, .op1 => op1.range.map decRange
  | _, .op1 => none
  | .bwNot, .result => op1.range.map bwNotRange
  | .bool, .result => some ((op1.range.map boolRange).getD anyBool)
  | .jmpzEx, .result => some ((op1.range.map boolRange).getD anyBool)
  | .jmpnzEx, .result => some ((op1.range.map boolRange).getD anyBool)
  | .boolNot, .result => some ((op1.range.map boolNotRange).getD anyBool)
  | .boolXor, .result => some (condRange boolXorRange op1 op2)
  | .isIdentical, .result => some (condRange isEqualRange op1 op2)
  | .isEqual, .result => some (condRange isEqualRange op1 op2)
  | .isNotIdentical, .result => some (condRange isNotEqualRange op1 op2)
  | .isNotEqual, .result => some (condRange isNotEqualRange op1 op2)
  | .isSmaller, .result => some (condRange isSmallerRange op1 op2)
  | .isSmallerOrEqual, .result => some (condRange isSmallerOrEqualRange op1 op2)
  | opcode, .result =>
    match op1.range, op2.range with
    | some r, some r' => zendInferenceCalcBinaryOpRange opcode r r'
    | _, _ => none

/-! ## Evaluation -/

/-- What an operation on integers gives; a float stands for a result that no integer can hold. -/
inductive Outcome where
  | long (lval : Int64)
  | bool (b : Bool)
  | null
  /-- a float above all integers -/
  | above
  /-- a float below all integers -/
  | below
  deriving DecidableEq

/-- `fast_long_add_function` and its like switch to a float on an overflow. -/
def Outcome.ofExact (z : Int) : Outcome :=
  if z > Int64.maxValue.toInt then .above
  else if z < Int64.minValue.toInt then .below
  else .long (Int64.ofInt z)

/-- `mod_function`; `none` is an exception. -/
def modFunction (x y : Int64) : Option Int64 :=
  if y = 0 then none else if y = -1 then some 0 else some (x % y)

/-- `shift_left_function` -/
def shiftLeftFunction (x y : Int64) : Option Int64 :=
  if y < 0 then none else if y ≥ 64 then some 0 else some (x <<< y)

/-- `shift_right_function` -/
def shiftRightFunction (x y : Int64) : Option Int64 :=
  if y < 0 then none else if y ≥ 64 then some (if x < 0 then -1 else 0) else some (x >>> y)

/-- What the variable holds after the opline, where the operands are the integers `x` and `y`. -/
def evaluate (opcode : RangeOp) (target : Target) (x y : Int64) : Option Outcome :=
  match opcode, target with
  | .preInc, _ => some (.ofExact (x.toInt + 1))
  | .preDec, _ => some (.ofExact (x.toInt - 1))
  | .postInc, .op1 => some (.ofExact (x.toInt + 1))
  | .postInc, .result => some (.long x)
  | .postDec, .op1 => some (.ofExact (x.toInt - 1))
  | .postDec, .result => some (.long x)
  | _, .op1 => some (.long x)
  | .add, .result => some (.ofExact (x.toInt + y.toInt))
  | .sub, .result => some (.ofExact (x.toInt - y.toInt))
  | .mod, .result => (modFunction x y).map .long
  | .sl, .result => (shiftLeftFunction x y).map .long
  | .sr, .result => (shiftRightFunction x y).map .long
  | .bwNot, .result => some (.long (~~~x))
  | .cast .null, .result => some .null
  | .cast .long, .result => some (.long x)
  | .cast .bool, .result => some (.bool (x ≠ 0))
  | .bool, .result => some (.bool (x ≠ 0))
  | .jmpzEx, .result => some (.bool (x ≠ 0))
  | .jmpnzEx, .result => some (.bool (x ≠ 0))
  | .boolNot, .result => some (.bool (x = 0))
  | .boolXor, .result => some (.bool ((x ≠ 0) ^^ (y ≠ 0)))
  | .isIdentical, .result => some (.bool (x = y))
  | .isEqual, .result => some (.bool (x = y))
  | .isNotIdentical, .result => some (.bool (x ≠ y))
  | .isNotEqual, .result => some (.bool (x ≠ y))
  | .isSmaller, .result => some (.bool (x < y))
  | .isSmallerOrEqual, .result => some (.bool (x ≤ y))

end Range

end Optimizer

end Phpce
