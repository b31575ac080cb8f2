import Phpce.Optimizer.Pi

/-!
# Pi constraints and executions

What an execution of the oplines in front of a conditional jump does to integers, and which of the
constraints that `place_essa_pis` attaches to the edge taken hold then: a temporary is taken for an
adjusted variable also where the variable has changed since the temporary was computed.

* `value_adjusted`: a temporary that has kept the value it was given.
* **`pis_hold`**: when the constraints hold.
-/

namespace Phpce

namespace Optimizer

open List Option

/-! ## Executions -/

/-- The values of the CVs and of the temporaries, which have slots of their own. -/
structure Env where
  cv : Nat → Value
  tmp : Nat → Value

def Znode.value (env : Env) (node : Znode) : Value :=
  match node.type with
  | .const => node.constant
  | .cv => env.cv node.num
  | .tmpVar | .var => env.tmp node.num
  | .unused => .null

def Env.set (env : Env) (node : Znode) (x : Value) : Env :=
  match node.type with
  | .cv => { env with cv := Function.update env.cv node.num x }
  | .tmpVar | .var => { env with tmp := Function.update env.tmp node.num x }
  | _ => env

/-- The result of integer arithmetic: a float where it overflows. -/
def longResult (n : Int) : Value :=
  if zendLongMin ≤ n ∧ n ≤ zendLongMax then .long n else .other

def boolResult (b : Bool) : Value := if b then .true else .false

def truth : Value → Option Bool
  | .null | .false => some false
  | .true => some true
  | .long lval => some (lval ≠ 0)
  | .other => none

def Opcode.compare : Opcode → Int → Int → Bool
  | .isEqual, a, b => a = b
  | .isNotEqual, a, b => a ≠ b
  | .isSmaller, a, b => a < b
  | .isSmallerOrEqual, a, b => a ≤ b
  | _, _, _ => false

/-- An opline is executed. What it does to values that are no integers is left open, and so is what
any other opline does. -/
def Step (opline : ZendOp) (env env' : Env) : Prop :=
  match opline.opcode with
  | .add => ∀ a b, opline.op1.value env = .long a → opline.op2.value env = .long b →
    env' = env.set opline.result (longResult (a + b))
  | .sub => ∀ a b, opline.op1.value env = .long a → opline.op2.value env = .long b →
    env' = env.set opline.result (longResult (a - b))
  | .postInc => ∀ a, opline.op1.value env = .long a →
    env' = (env.set opline.op1 (longResult (a + 1))).set opline.result (.long a)
  | .postDec => ∀ a, opline.op1.value env = .long a →
    env' = (env.set opline.op1 (longResult (a - 1))).set opline.result (.long a)
  | .isEqual | .isNotEqual | .isSmaller | .isSmallerOrEqual =>
    ∀ a b, opline.op1.value env = .long a → opline.op2.value env = .long b →
      env' = env.set opline.result (boolResult (opline.opcode.compare a b))
  | .jmpz | .jmpnz | .jmpznz => env' = env
  | _ => True

/-- The oplines at some positions are executed one after the other. -/
inductive Run (opArray : OpArray) : Env → List Nat → Env → Prop where
  | nil (env : Env) : Run opArray env [] env
  | cons {env env' env'' : Env} {k : Nat} {ks : List Nat}
      (hstep : Step (opArray.opcodes k) env env') (hrun : Run opArray env' ks env'') :
      Run opArray env (k :: ks) env''

/-- The block that a conditional jump goes to. -/
def jumpTarget {n : Nat} (b : BasicBlock n) (opcode : Opcode) (outcome : Bool) : Option (Fin n) :=
  match opcode with
  | .jmpz | .jmpznz => if outcome then b.successor1 else b.successor0
  | .jmpnz => if outcome then b.successor0 else b.successor1
  | _ => none

/-- An execution through a block that ends in a jump on a comparison: `env` are the values when
the operands are compared, integers both, and `env'` those at the end of the block. -/
structure Passes (opArray : OpArray) {n : Nat} (b : BasicBlock n) (env₀ : Env) (ks : List Nat)
    (env env' : Env) (outcome : Bool) : Prop where
  run : Run opArray env₀ ks env
  compare : Step (opArray.opcodes (b.start + b.len - 1 - 1)) env env'
  positions : b.positions <:+ ks ++ [b.start + b.len - 1 - 1, b.start + b.len - 1]
  isComparison : (opArray.opcodes (b.start + b.len - 1 - 1)).opcode.isComparison = true
  tests : (opArray.opcodes (b.start + b.len - 1)).op1.type =
    (opArray.opcodes (b.start + b.len - 1 - 1)).result.type
  long1 : ∃ a, (opArray.opcodes (b.start + b.len - 1 - 1)).op1.value env = .long a
  long2 : ∃ a, (opArray.opcodes (b.start + b.len - 1 - 1)).op2.value env = .long a
  outcome : truth ((opArray.opcodes (b.start + b.len - 1)).op1.value env') = some outcome

def BoundVar (env : Env) (var : Option Nat) (x : Int) : Prop :=
  match var with
  | some var => env.cv var = .long x
  | none => x = 0

/-- What a constraint says of the values of a variable: all of them integers. -/
def RangeConstraint.Holds (constraint : RangeConstraint) (env : Env) (var : Nat) : Prop :=
  ∃ x lo hi, env.cv var = .long x ∧ BoundVar env constraint.minVar lo ∧
    BoundVar env constraint.maxVar hi ∧
    (((constraint.underflow = true ∨ lo + constraint.min ≤ x) ∧
      (constraint.overflow = true ∨ x ≤ hi + constraint.max)) ↔ constraint.negative = false)

/-- The opline that `find_adjusted_tmp_var` finds for an operand has been executed, on an integer
and without an overflow, and neither the temporary nor the variable has changed since. -/
def Kept (opArray : OpArray) (opline : Nat) (node : Znode) (env₀ : Env) (ks : List Nat)
    (env : Env) : Prop :=
  ∀ p v adjustment, node.type = .tmpVar → lastSetter opArray node.var opline = some p →
    adjustedBy (opArray.opcodes p) = some (v, adjustment) →
    ∃ before after env₁ env₂, ks = before ++ p :: after ∧ Run opArray env₀ before env₁ ∧
      Step (opArray.opcodes p) env₁ env₂ ∧ Run opArray env₂ after env ∧
      (∃ a, env₁.cv v = .long a) ∧ (∃ a, env₂.cv v = .long a) ∧
      env.tmp node.num = env₂.tmp node.num ∧ env.cv v = env₂.cv v

section

variable {opArray : OpArray} {env₀ env env' : Env} {node : Znode} {opline k p v w : Nat}
  {a b c x y val adjustment : Int} {var : Option Nat} {ks : List Nat}

/-! ## What the constraints say -/

theorem boundVar_none (env : Env) : BoundVar env none 0 := rfl

theorem holds_equals (hx : env.cv v = .long x) (hy : BoundVar env var y) (h : x = y + val) :
    (piRangeEquals var val).Holds env v :=
  ⟨x, y, y, hx, hy, hy, iff_of_true ⟨.inr h.ge, .inr h.le⟩ rfl⟩

theorem holds_notEquals (hx : env.cv v = .long x) (hy : BoundVar env var y) (h : x ≠ y + val) :
    (piRangeNotEquals var val).Holds env v := by
  refine ⟨x, y, y, hx, hy, hy, iff_of_false ?_ fun heq => absurd heq.symm Bool.false_ne_true⟩
  rintro ⟨hlo | hlo, hhi | hhi⟩
  · exact absurd hlo Bool.false_ne_true
  · exact absurd hlo Bool.false_ne_true
  · exact absurd hhi Bool.false_ne_true
  · exact h (Int.le_antisymm hhi hlo)

theorem holds_min (hx : env.cv v = .long x) (hy : BoundVar env var y) (h : y + val ≤ x) :
    (piRangeMin var val).Holds env v :=
  ⟨x, y, 0, hx, hy, boundVar_none env, iff_of_true ⟨.inr h, .inl rfl⟩ rfl⟩

theorem holds_max (hx : env.cv v = .long x) (hy : BoundVar env var y) (h : x ≤ y + val) :
    (piRangeMax var val).Holds env v :=
  ⟨x, 0, y, hx, boundVar_none env, hy, iff_of_true ⟨.inl rfl, .inr h⟩ rfl⟩

/-! ## Temporaries -/

theorem long_of_longResult {n m : Int} (h : longResult n = .long m) : n = m := by
  rw [longResult] at h
  split at h
  next => exact Value.long.inj h
  next => exact absurd h (by simp)

theorem set_tmp (env : Env) (h : node.type = .tmpVar) (x : Value) :
    (env.set node x).cv = env.cv ∧ (env.set node x).tmp node.num = x := by
  rw [Env.set, h]
  exact ⟨rfl, Function.update_self ..⟩

theorem set_cv (env : Env) (h : node.type = .cv) (x : Value) :
    (env.set node x).cv node.num = x := by
  rw [Env.set, h]
  exact Function.update_self ..

theorem value_cv (env : Env) (h : node.type = .cv) : node.value env = env.cv node.num := by
  rw [Znode.value, h]

theorem value_tmp (env : Env) (h : node.type = .tmpVar) : node.value env = env.tmp node.num := by
  rw [Znode.value, h]

theorem value_const (env : Env) (h : node.type = .const) : node.value env = node.constant := by
  rw [Znode.value, h]

section

variable {op : ZendOp} {env₁ env₂ : Env}

theorem step_arithmetic (htype : op.result.type = .tmpVar)
    (hstep : env₂ = env₁.set op.result (longResult x)) (h₁ : env₁.cv v = .long a)
    (h₂ : env₂.cv v = .long b) (ht : env₂.tmp op.result.num = .long c) : b = a ∧ c = x := by
  obtain ⟨hcv, htmp⟩ := set_tmp env₁ htype (longResult x)
  rw [hstep, hcv, h₁] at h₂
  rw [hstep, htmp] at ht
  exact ⟨(Value.long.inj h₂).symm, (long_of_longResult ht).symm⟩

theorem step_post (htype : op.result.type = .tmpVar) (hcv : op.op1.type = .cv)
    (hstep : env₂ = (env₁.set op.op1 (longResult x)).set op.result (.long a))
    (h₂ : env₂.cv op.op1.num = .long b) (ht : env₂.tmp op.result.num = .long c) :
    b = x ∧ c = a := by
  obtain ⟨hself, htmp⟩ := set_tmp (env₁.set op.op1 (longResult x)) htype (.long a)
  rw [hstep, hself, set_cv env₁ hcv] at h₂
  rw [hstep, htmp] at ht
  exact ⟨(long_of_longResult h₂).symm, (Value.long.inj ht).symm⟩

theorem long_of_match {α : Type} {value : Value} {f : Int → Option α} {r : α}
    (h : (match value with
      | .long lval => f lval
      | _ => none) = some r) : ∃ lval, value = .long lval ∧ f lval = some r := by
  cases value <;> first | exact ⟨_, rfl, h⟩ | cases h

theorem step_adjusted (h : adjustedBy op = some (v, adjustment))
    (htype : op.result.type = .tmpVar) (hstep : Step op env₁ env₂) (h₁ : env₁.cv v = .long a)
    (h₂ : env₂.cv v = .long b) (ht : env₂.tmp op.result.num = .long c) : b = c + adjustment := by
  have hpost : ∀ d, (if op.op1.type = .cv then some (op.op1.num, d) else none) =
      some (v, adjustment) → (∀ a, op.op1.value env₁ = .long a →
        env₂ = (env₁.set op.op1 (longResult (a + d))).set op.result (.long a)) →
      b = c + adjustment := by
    intro d h hstep
    split at h
    next hcv =>
      obtain ⟨rfl, rfl⟩ := Prod.mk.inj (some.inj h)
      have hself := hstep a ((value_cv env₁ hcv).trans h₁)
      obtain ⟨hb, hc⟩ := step_post htype hcv hself h₂ ht
      omega
    next => cases h
  rw [adjustedBy] at h
  split at h
  next hop =>
    simp only [Step, hop] at hstep
    exact hpost _ h hstep
  next hop =>
    simp only [Step, hop] at hstep
    exact hpost _ h hstep
  next hop =>
    simp only [Step, hop] at hstep
    split at h
    next hleft =>
      obtain ⟨lval, hconst, h⟩ := long_of_match h
      split at h
      next =>
        obtain ⟨rfl, rfl⟩ := Prod.mk.inj (some.inj h)
        have hself := hstep a lval ((value_cv env₁ hleft.1).trans h₁)
          ((value_const env₁ hleft.2).trans hconst)
        obtain ⟨hb, hc⟩ := step_arithmetic htype hself h₁ h₂ ht
        omega
      next => cases h
    next =>
      split at h
      next hright =>
        obtain ⟨lval, hconst, h⟩ := long_of_match h
        split at h
        next =>
          obtain ⟨rfl, rfl⟩ := Prod.mk.inj (some.inj h)
          have hself := hstep lval a ((value_const env₁ hright.2).trans hconst)
            ((value_cv env₁ hright.1).trans h₁)
          obtain ⟨hb, hc⟩ := step_arithmetic htype hself h₁ h₂ ht
          omega
        next => cases h
      next => cases h
  next hop =>
    simp only [Step, hop] at hstep
    split at h
    next hleft =>
      obtain ⟨lval, hconst, h⟩ := long_of_match h
      obtain ⟨rfl, rfl⟩ := Prod.mk.inj (some.inj h)
      have hself := hstep a lval ((value_cv env₁ hleft.1).trans h₁)
        ((value_const env₁ hleft.2).trans hconst)
      obtain ⟨hb, hc⟩ := step_arithmetic htype hself h₁ h₂ ht
      omega
    next => cases h
  next => cases h

end

theorem lastSetter_some {varNum : UInt32} (h : lastSetter opArray varNum opline = some p) :
    p < opline ∧ (opArray.opcodes p).result.type = .tmpVar ∧
      (opArray.opcodes p).result.var = varNum := by
  induction opline with
  | zero => exact absurd h (by simp [lastSetter])
  | succ k ih =>
    rw [lastSetter] at h
    split at h
    next =>
      obtain ⟨hlt, hp⟩ := ih h
      exact ⟨Nat.lt_succ_of_lt hlt, hp⟩
    next hsets =>
      obtain rfl := some.inj h
      rw [not_or, not_not, not_not] at hsets
      exact ⟨Nat.lt_succ_self _, hsets⟩

theorem comparedVar_value (h : comparedVar opArray opline node = (some v, adjustment))
    (hvalue : node.value env = .long a) (hkept : Kept opArray opline node env₀ ks env) :
    env.cv v = .long (a + adjustment) := by
  rw [comparedVar] at h
  split at h
  next hcv =>
    obtain ⟨hv, rfl⟩ := Prod.mk.inj h
    obtain rfl := some.inj hv
    rw [← value_cv env hcv, hvalue, Int.add_zero]
  next htype =>
    split at h
    next hfind =>
      obtain ⟨hv, rfl⟩ := Prod.mk.inj h
      obtain rfl := some.inj hv
      rw [findAdjustedTmpVar, bind_eq_some_iff] at hfind
      obtain ⟨p, hsetter, hadjusted⟩ := hfind
      obtain ⟨-, hresult, hvar⟩ := lastSetter_some hsetter
      obtain ⟨-, -, env₁, env₂, -, -, hstep, -, ⟨x, h₁⟩, ⟨y, h₂⟩, htmp, hcv⟩ :=
        hkept p _ _ htype hsetter hadjusted
      rw [value_tmp env htype, htmp, Znode.num, ← hvar] at hvalue
      have hy := step_adjusted hadjusted hresult hstep h₁ h₂ hvalue
      rw [hcv, h₂, hy]
    next => exact absurd h (by simp)
  next => exact absurd h (by simp)

/-! ## Comparisons -/

/-- The variables that the constraints are about relate to each other as the operands do. -/
structure Related (env : Env) (a b : Int) (var1 var2 : Option Nat) (val1 val2 : Int) : Prop where
  of_some1 : ∀ v, var1 = some v → ∃ x y, env.cv v = .long x ∧ BoundVar env var2 y ∧
    x - (y + val2) = a - b
  of_some2 : ∀ v, var2 = some v → ∃ x y, env.cv v = .long x ∧ BoundVar env var1 y ∧
    x - (y + val1) = b - a

theorem constantVal_value (h : constantVal node = some x) (hvalue : node.value env = .long a) :
    x = a := by
  rw [constantVal] at h
  split at h
  next hconst =>
    rw [value_const env hconst] at hvalue
    rw [hvalue] at h
    exact (some.inj h).symm
  next => exact absurd h (by simp)

theorem related_none (val1 val2 : Int) : Related env a b none none val1 val2 :=
  ⟨fun _ h => absurd h (by simp), fun _ h => absurd h (by simp)⟩

theorem comparison_related {op1 op2 : Znode} (h1 : op1.value env = .long a)
    (h2 : op2.value env = .long b) (hkept1 : Kept opArray opline op1 env₀ ks env)
    (hkept2 : Kept opArray opline op2 env₀ ks env) :
    Related env a b (comparison opArray opline op1 op2).1
      (comparison opArray opline op1 op2).2.1 (comparison opArray opline op1 op2).2.2.1
      (comparison opArray opline op1 op2).2.2.2 := by
  rw [comparison]
  rcases hvar1 : comparedVar opArray opline op1 with ⟨var1, val2⟩
  rcases hvar2 : comparedVar opArray opline op2 with ⟨var2, val1⟩
  dsimp only
  cases var1 with
  | some v1 =>
    have hx := comparedVar_value hvar1 h1 hkept1
    cases var2 with
    | some v2 =>
      have hy := comparedVar_value hvar2 h2 hkept2
      dsimp only
      split
      next =>
        refine ⟨fun v hv => ?_, fun v hv => ?_⟩
        · obtain rfl := some.inj hv
          exact ⟨_, _, hx, hy, by dsimp only; omega⟩
        · obtain rfl := some.inj hv
          exact ⟨_, _, hy, hx, by dsimp only; omega⟩
      next => exact related_none _ _
    | none =>
      cases hconst : constantVal op2 with
      | some addVal2 =>
        obtain rfl := constantVal_value hconst h2
        dsimp only
        split
        next =>
          refine ⟨fun v hv => ?_, fun v hv => absurd hv (by simp)⟩
          obtain rfl := some.inj hv
          exact ⟨_, 0, hx, rfl, by dsimp only; omega⟩
        next => exact related_none _ _
      | none => exact related_none _ _
  | none =>
    cases var2 with
    | some v2 =>
      have hy := comparedVar_value hvar2 h2 hkept2
      cases hconst : constantVal op1 with
      | some addVal1 =>
        obtain rfl := constantVal_value hconst h1
        dsimp only
        split
        next =>
          refine ⟨fun v hv => absurd hv (by simp), fun v hv => ?_⟩
          obtain rfl := some.inj hv
          exact ⟨_, 0, hy, rfl, by dsimp only; omega⟩
        next => exact related_none _ _
      | none => exact related_none _ _
    | none => exact related_none _ _

theorem pis1_hold {opcode : Opcode} {outcome : Bool} {constraint : RangeConstraint}
    (h : (outcome, w, constraint) ∈ pis1 opcode v var val) (houtcome : opcode.compare a b = outcome)
    (hx : env.cv v = .long x) (hy : BoundVar env var y) (hrel : x - (y + val) = a - b) :
    constraint.Holds env w := by
  cases opcode
  case isEqual =>
    simp only [pis1, mem_cons, Prod.mk.injEq, not_mem_nil, or_false] at h
    rcases h with ⟨rfl, rfl, rfl⟩ | ⟨rfl, rfl, rfl⟩
    · have hab : a = b := of_decide_eq_true houtcome
      exact holds_equals hx hy (by omega)
    · have hab : a ≠ b := of_decide_eq_false houtcome
      exact holds_notEquals hx hy (by omega)
  case isNotEqual =>
    simp only [pis1, mem_cons, Prod.mk.injEq, not_mem_nil, or_false] at h
    rcases h with ⟨rfl, rfl, rfl⟩ | ⟨rfl, rfl, rfl⟩
    · have hab : ¬a ≠ b := of_decide_eq_false houtcome
      exact holds_equals hx hy (by omega)
    · have hab : a ≠ b := of_decide_eq_true houtcome
      exact holds_notEquals hx hy (by omega)
  case isSmaller =>
    rcases mem_append.mp h with hmax | hmin
    · split at hmax
      next =>
        simp only [mem_singleton, Prod.mk.injEq] at hmax
        obtain ⟨rfl, rfl, rfl⟩ := hmax
        have hab : a < b := of_decide_eq_true houtcome
        exact holds_max hx hy (by omega)
      next => exact absurd hmax not_mem_nil
    · simp only [mem_singleton, Prod.mk.injEq] at hmin
      obtain ⟨rfl, rfl, rfl⟩ := hmin
      have hab : ¬a < b := of_decide_eq_false houtcome
      exact holds_min hx hy (by omega)
  case isSmallerOrEqual =>
    rcases mem_cons.mp h with hmax | hmin
    · simp only [Prod.mk.injEq] at hmax
      obtain ⟨rfl, rfl, rfl⟩ := hmax
      have hab : a ≤ b := of_decide_eq_true houtcome
      exact holds_max hx hy (by omega)
    · split at hmin
      next =>
        simp only [mem_singleton, Prod.mk.injEq] at hmin
        obtain ⟨rfl, rfl, rfl⟩ := hmin
        have hab : ¬a ≤ b := of_decide_eq_false houtcome
        exact holds_min hx hy (by omega)
      next => exact absurd hmin not_mem_nil
  all_goals exact absurd h not_mem_nil

theorem mem_pis1_of_mem_pis2 {opcode : Opcode} {outcome : Bool} {constraint : RangeConstraint}
    (h : (outcome, w, constraint) ∈ pis2 opcode v var val) :
    ∃ opcode' outcome', (outcome', w, constraint) ∈ pis1 opcode' v var val ∧
      ∀ a b, opcode.compare a b = outcome → opcode'.compare b a = outcome' := by
  cases opcode
  case isEqual =>
    exact ⟨.isEqual, outcome, h, fun a b hab => hab ▸ decide_eq_decide.mpr eq_comm⟩
  case isNotEqual =>
    exact ⟨.isNotEqual, outcome, h, fun a b hab => hab ▸ decide_eq_decide.mpr ne_comm⟩
  case isSmaller =>
    refine ⟨.isSmallerOrEqual, !outcome, ?_, fun a b hab => ?_⟩
    · simp only [pis1, pis2] at h ⊢
      grind
    · rw [← hab]
      show decide (b ≤ a) = !decide (a < b)
      rw [← decide_not, decide_eq_decide, Int.not_lt]
  case isSmallerOrEqual =>
    refine ⟨.isSmaller, !outcome, ?_, fun a b hab => ?_⟩
    · simp only [pis1, pis2] at h ⊢
      grind
    · rw [← hab]
      show decide (b < a) = !decide (a ≤ b)
      rw [← decide_not, decide_eq_decide, Int.not_le]
  all_goals exact absurd h not_mem_nil

/-! ## The edge that is taken -/

theorem isComparison_cases {opcode : Opcode} (h : opcode.isComparison = true) :
    opcode = .isEqual ∨ opcode = .isNotEqual ∨ opcode = .isSmaller ∨
      opcode = .isSmallerOrEqual := by
  cases opcode <;> simp_all [Opcode.isComparison]

theorem step_compare {op : ZendOp} (hop : op.opcode.isComparison = true) (hstep : Step op env env')
    (h1 : op.op1.value env = .long a) (h2 : op.op2.value env = .long b) :
    env' = env.set op.result (boolResult (op.opcode.compare a b)) := by
  rcases isComparison_cases hop with h | h | h | h
  all_goals
    simp only [Step, h] at hstep
    rw [h]
    exact hstep a b h1 h2

theorem truth_boolResult (c : Bool) : truth (boolResult c) = some c := by
  cases c <;> rfl

theorem rangePis_comparison (hprev : (opArray.opcodes (opline - 1)).opcode.isComparison = true)
    {pi : Bool × Nat × RangeConstraint} (hpi : pi ∈ rangePis opArray opline) :
    ((opArray.opcodes opline).op1.type = .tmpVar ∧
        (opArray.opcodes opline).op1.var = (opArray.opcodes (opline - 1)).result.var) ∧
      ∃ var1 var2 val1 val2, comparison opArray opline (opArray.opcodes (opline - 1)).op1
          (opArray.opcodes (opline - 1)).op2 = (var1, var2, val1, val2) ∧
        ((∃ v, var1 = some v ∧ pi ∈ pis1 (opArray.opcodes (opline - 1)).opcode v var2 val2) ∨
          ∃ v, var2 = some v ∧ pi ∈ pis2 (opArray.opcodes (opline - 1)).opcode v var1 val1) := by
  rw [rangePis] at hpi
  dsimp only at hpi
  split at hpi
  next hjump =>
    refine ⟨⟨hjump.1, hjump.2.2⟩, ?_⟩
    rcases hcomparison : comparison opArray opline (opArray.opcodes (opline - 1)).op1
      (opArray.opcodes (opline - 1)).op2 with ⟨var1, var2, val1, val2⟩
    rw [hcomparison] at hpi
    dsimp only at hpi
    refine ⟨var1, var2, val1, val2, rfl, ?_⟩
    rcases mem_append.mp hpi with hpi | hpi
    · cases var1 with
      | some v => exact .inl ⟨v, rfl, hpi⟩
      | none => exact absurd hpi not_mem_nil
    · cases var2 with
      | some v => exact .inr ⟨v, rfl, hpi⟩
      | none => exact absurd hpi not_mem_nil
  next =>
    rcases isComparison_cases hprev with h | h | h | h
    all_goals
      rw [h] at hpi
      simp at hpi

theorem rangePis_hold {constraint : RangeConstraint} {outcome : Bool}
    (hprev : (opArray.opcodes (opline - 1)).opcode.isComparison = true)
    (hpi : (outcome, w, constraint) ∈ rangePis opArray opline)
    (h1 : (opArray.opcodes (opline - 1)).op1.value env = .long a)
    (h2 : (opArray.opcodes (opline - 1)).op2.value env = .long b)
    (hkept1 : Kept opArray opline (opArray.opcodes (opline - 1)).op1 env₀ ks env)
    (hkept2 : Kept opArray opline (opArray.opcodes (opline - 1)).op2 env₀ ks env)
    (houtcome : (opArray.opcodes (opline - 1)).opcode.compare a b = outcome) :
    constraint.Holds env w := by
  have hrelated := comparison_related h1 h2 hkept1 hkept2
  obtain ⟨-, var1, var2, val1, val2, hcomparison, hpis⟩ := rangePis_comparison hprev hpi
  rw [hcomparison] at hrelated
  rcases hpis with ⟨v, hv, hmem⟩ | ⟨v, hv, hmem⟩
  · obtain ⟨x, y, hx, hy, hrel⟩ := hrelated.of_some1 v hv
    exact pis1_hold hmem houtcome hx hy hrel
  · obtain ⟨x, y, hx, hy, hrel⟩ := hrelated.of_some2 v hv
    obtain ⟨opcode, outcome, hmem, hmirror⟩ := mem_pis1_of_mem_pis2 hmem
    exact pis1_hold hmem (hmirror a b houtcome) hx hy hrel

theorem boundVar_congr (h : env'.cv = env.cv) (hx : BoundVar env var x) : BoundVar env' var x := by
  cases var with
  | some w => exact (congrFun h w).trans hx
  | none => exact hx

theorem holds_congr {constraint : RangeConstraint} (h : env'.cv = env.cv)
    (hholds : constraint.Holds env w) : constraint.Holds env' w := by
  obtain ⟨x, lo, hi, hx, hlo, hhi, hiff⟩ := hholds
  exact ⟨x, lo, hi, (congrFun h w).trans hx, boundVar_congr h hlo, boundVar_congr h hhi, hiff⟩

section

variable {cfg : Cfg} {blocks : Dominators cfg} {dfgIn : Fin cfg.blocksCount → Finset Nat}
  {pi : Pi cfg.blocksCount} {outcome : Bool}

theorem mem_addPi {source : Fin cfg.blocksCount} {target : Option (Fin cfg.blocksCount)}
    {var : Nat} {constraint : RangeConstraint}
    (h : pi ∈ addPi cfg blocks dfgIn source target var constraint) :
    pi.pi = source ∧ target = some pi.block ∧ pi.var = var ∧ pi.constraint = constraint := by
  cases target with
  | some target =>
    rw [addPi] at h
    split at h
    next =>
      obtain rfl := mem_singleton.mp h
      exact ⟨rfl, rfl, rfl, rfl⟩
    next => exact absurd h not_mem_nil
  | none => exact absurd h not_mem_nil

theorem jumpTarget_eq {n : Nat} {block : BasicBlock n} {opcode : Opcode} {bt bf : Option (Fin n)}
    (h : branches block opcode = some (bt, bf)) (hne : block.successor0 ≠ block.successor1) :
    (∀ outcome, jumpTarget block opcode outcome = if outcome then bt else bf) ∧ bt ≠ bf := by
  cases opcode
  case jmpz | jmpznz =>
    obtain ⟨rfl, rfl⟩ := Prod.mk.inj (some.inj h)
    exact ⟨fun _ => rfl, hne.symm⟩
  case jmpnz =>
    obtain ⟨rfl, rfl⟩ := Prod.mk.inj (some.inj h)
    exact ⟨fun _ => rfl, hne⟩
  all_goals exact absurd h (some_ne_none _).symm

theorem mem_placeEssaPis (h : pi ∈ placeEssaPis opArray cfg blocks dfgIn)
    (hne : (cfg.blocks pi.pi).successor0 ≠ (cfg.blocks pi.pi).successor1)
    (hedge : jumpTarget (cfg.blocks pi.pi)
      (opArray.opcodes ((cfg.blocks pi.pi).start + (cfg.blocks pi.pi).len - 1)).opcode outcome =
        some pi.block) :
    (outcome, pi.var, pi.constraint) ∈
      rangePis opArray ((cfg.blocks pi.pi).start + (cfg.blocks pi.pi).len - 1) := by
  obtain ⟨j, -, hblock⟩ := mem_flatMap.mp h
  rw [blockPis] at hblock
  split at hblock
  next => exact absurd hblock not_mem_nil
  next =>
    dsimp only at hblock
    split at hblock
    next bt bf hbranches =>
      obtain ⟨⟨outcome', var, constraint⟩, hrange, hadd⟩ := mem_flatMap.mp hblock
      obtain ⟨rfl, htarget, rfl, rfl⟩ := mem_addPi hadd
      obtain ⟨hjump, hbtf⟩ := jumpTarget_eq hbranches hne
      rw [hjump, ← htarget] at hedge
      have hself : outcome = outcome' := by
        cases outcome <;> cases outcome'
        · rfl
        · exact absurd hedge.symm hbtf
        · exact absurd hedge hbtf
        · rfl
      exact hself ▸ hrange
    next => exact absurd hblock not_mem_nil

/-- **When the constraints hold**: on the edge that is taken, if it is the only one to its target,
and if each adjusted temporary was computed by the opline found for it and neither the temporary nor
the variable has changed since. -/
theorem pis_hold (hpi : pi ∈ placeEssaPis opArray cfg blocks dfgIn)
    (hpasses : Passes opArray (cfg.blocks pi.pi) env₀ ks env env' outcome)
    (hedge : jumpTarget (cfg.blocks pi.pi)
      (opArray.opcodes ((cfg.blocks pi.pi).start + (cfg.blocks pi.pi).len - 1)).opcode outcome =
        some pi.block)
    (hne : (cfg.blocks pi.pi).successor0 ≠ (cfg.blocks pi.pi).successor1)
    (hkept : ∀ node ∈
        [(opArray.opcodes ((cfg.blocks pi.pi).start + (cfg.blocks pi.pi).len - 1 - 1)).op1,
          (opArray.opcodes ((cfg.blocks pi.pi).start + (cfg.blocks pi.pi).len - 1 - 1)).op2],
      Kept opArray ((cfg.blocks pi.pi).start + (cfg.blocks pi.pi).len - 1) node env₀ ks env) :
    pi.constraint.Holds env' pi.var := by
  obtain ⟨a, h1⟩ := hpasses.long1
  obtain ⟨b, h2⟩ := hpasses.long2
  have hrange := mem_placeEssaPis hpi hne hedge
  have hstep := step_compare hpasses.isComparison hpasses.compare h1 h2
  obtain ⟨⟨htype, hvar⟩, -⟩ := rangePis_comparison hpasses.isComparison hrange
  obtain ⟨hcv, htmp⟩ := set_tmp env (hpasses.tests.symm.trans htype) (boolResult
    ((opArray.opcodes ((cfg.blocks pi.pi).start + (cfg.blocks pi.pi).len - 1 - 1)).opcode.compare
      a b))
  rw [← hstep] at hcv htmp
  have houtcome := hpasses.outcome
  rw [value_tmp env' htype, Znode.num, hvar, ← Znode.num, htmp, truth_boolResult] at houtcome
  exact holds_congr hcv (rangePis_hold hpasses.isComparison hrange h1 h2
    (hkept _ mem_cons_self) (hkept _ (mem_cons_of_mem _ mem_cons_self))
    (some.inj houtcome))

end

/-! ## Two conditions -/

/-- The three blocks of `if (…) { echo $a; }`, with the jump at `jump`. -/
def ifCfg (jump : Nat) : Cfg where
  blocksCount := 3
  blocks i :=
    match i with
    | 0 => ⟨true, 0, jump + 1, some 2, some 1⟩
    | 1 => ⟨true, jump + 1, 1, some 2, none⟩
    | 2 => ⟨true, jump + 2, 1, none, none⟩
  reachable_of_mem {i j} _ _ := by
    match j with
    | 0 => rfl
    | 1 => rfl
    | 2 => rfl

def ifEntry (jump : Nat) : Fin (ifCfg jump).blocksCount := ⟨0, Nat.succ_pos 2⟩

def ifThen (jump : Nat) : Fin (ifCfg jump).blocksCount := ⟨1, Nat.le_succ 2⟩

def ifDominators (jump : Nat) : Dominators (ifCfg jump) where
  idom i := if i = ifEntry jump then none else some (ifEntry jump)
  level i := i.val
  level_lt {b d} h := by
    split at h
    next => exact absurd h (Option.some_ne_none _).symm
    next hne =>
      obtain rfl := Option.some.inj h
      exact Nat.pos_of_ne_zero fun hzero => hne (Fin.ext hzero)

/-- The sets `in` of the three blocks. -/
def ifDfgIn (jump : Nat) (i : Fin (ifCfg jump).blocksCount) : Finset Nat :=
  if i = ifThen jump then {0} else ∅

/-- `if ($i + 1 < $n) { echo $i; }` -/
def bounded : OpArray where
  opcodes k :=
    [⟨.add, .ofType .cv 80, .ofLong 1, .ofType .tmpVar 112, 0⟩,
      ⟨.isSmaller, .ofType .tmpVar 112, .ofType .cv 96, .ofType .tmpVar 128, 0⟩,
      ⟨.jmpz, .ofType .tmpVar 128, .ofType .unused 0, .ofType .unused 0, 0⟩,
      ⟨.other 40, .ofType .cv 80, .ofType .unused 0, .ofType .unused 0, 0⟩].getD k
      ⟨.other 62, .ofLong 1, .ofType .unused 0, .ofType .unused 0, 0⟩
  fnFlags := 0

/-- The values in front of `bounded`: 3 and 10. -/
def boundedEnv : Env := ⟨fun v => .long (if v = 0 then 3 else 10), fun _ => .null⟩

/-- The values when `$i + 1` has been computed. -/
def boundedSum : Env := boundedEnv.set (.ofType .tmpVar 112) (.long 4)

theorem step_boundedSum : Step (bounded.opcodes 0) boundedEnv boundedSum := by
  intro a b ha hb
  obtain rfl := Value.long.inj ha
  obtain rfl := Value.long.inj hb
  rfl

/-- What the entry of `bounded` puts on the edge to its body holds there. -/
theorem pis_hold_bounded :
    (piRangeMax (some 1) (-2)).Holds (boundedSum.set (.ofType .tmpVar 128) .true) 0 := by
  have hmem : (⟨ifEntry 2, ifThen 2, 0, piRangeMax (some 1) (-2)⟩ : Pi _) ∈
      placeEssaPis bounded (ifCfg 2) (ifDominators 2) (ifDfgIn 2) := by decide
  have hcompare : Step (bounded.opcodes 1) boundedSum
      (boundedSum.set (.ofType .tmpVar 128) .true) := by
    intro a b ha hb
    obtain rfl := Value.long.inj ha
    obtain rfl := Value.long.inj hb
    rfl
  have hpasses : Passes bounded ((ifCfg 2).blocks (ifEntry 2)) boundedEnv [0] boundedSum
      (boundedSum.set (.ofType .tmpVar 128) .true) true :=
    ⟨.cons step_boundedSum (.nil _), hcompare, suffix_rfl, rfl, rfl, ⟨4, rfl⟩, ⟨10, rfl⟩, rfl⟩
  refine pis_hold hmem hpasses rfl (by decide) fun node hnode => ?_
  rcases mem_cons.mp hnode with rfl | hnode
  · intro p v adjustment htype hsetter hadjusted
    obtain rfl : 0 = p := some.inj hsetter
    obtain ⟨rfl, rfl⟩ := Prod.mk.inj (some.inj hadjusted)
    exact ⟨[], [], boundedEnv, boundedSum, rfl, .nil _, step_boundedSum, .nil _, ⟨3, rfl⟩, ⟨3, rfl⟩,
      rfl, rfl⟩
  · obtain rfl := mem_singleton.mp hnode
    intro p v adjustment htype
    exact absurd htype (by decide)

/-- `if ($a + 0 == $a++) { echo $a; }` -/
def changed : OpArray where
  opcodes k :=
    [⟨.add, .ofType .cv 80, .ofLong 0, .ofType .tmpVar 96, 0⟩,
      ⟨.postInc, .ofType .cv 80, .ofType .unused 0, .ofType .tmpVar 112, 0⟩,
      ⟨.isEqual, .ofType .tmpVar 96, .ofType .tmpVar 112, .ofType .tmpVar 128, 0⟩,
      ⟨.jmpz, .ofType .tmpVar 128, .ofType .unused 0, .ofType .unused 0, 0⟩,
      ⟨.other 40, .ofType .cv 80, .ofType .unused 0, .ofType .unused 0, 0⟩].getD k
      ⟨.other 62, .ofLong 1, .ofType .unused 0, .ofType .unused 0, 0⟩
  fnFlags := 0

/-- The values in front of `changed`, behind its sum and behind its increment. -/
def changedEnv : Env := ⟨fun _ => .long 5, fun _ => .null⟩

def changedSum : Env := changedEnv.set (.ofType .tmpVar 96) (.long 5)

def changedInc : Env :=
  (changedSum.set (.ofType .cv 80) (.long 6)).set (.ofType .tmpVar 112) (.long 5)

/-- The sum is equal to the value in front of the increment, and the edge for that says that the
variable is one less than itself. -/
theorem not_pis_hold_changed :
    ∃ pi ∈ placeEssaPis changed (ifCfg 3) (ifDominators 3) (ifDfgIn 3),
      pi.pi = ifEntry 3 ∧ pi.block = ifThen 3 ∧
      Passes changed ((ifCfg 3).blocks (ifEntry 3)) changedEnv [0, 1] changedInc
        (changedInc.set (.ofType .tmpVar 128) .true) true ∧
      jumpTarget ((ifCfg 3).blocks (ifEntry 3)) (changed.opcodes 3).opcode true =
        some (ifThen 3) ∧
      ¬pi.constraint.Holds (changedInc.set (.ofType .tmpVar 128) .true) pi.var := by
  have hsum : Step (changed.opcodes 0) changedEnv changedSum := by
    intro a b ha hb
    obtain rfl := Value.long.inj ha
    obtain rfl := Value.long.inj hb
    rfl
  have hinc : Step (changed.opcodes 1) changedSum changedInc := by
    intro a ha
    obtain rfl := Value.long.inj ha
    rfl
  have hcompare : Step (changed.opcodes 2) changedInc
      (changedInc.set (.ofType .tmpVar 128) .true) := by
    intro a b ha hb
    obtain rfl := Value.long.inj ha
    obtain rfl := Value.long.inj hb
    rfl
  refine ⟨⟨ifEntry 3, ifThen 3, 0, piRangeEquals (some 0) (-1)⟩, by decide, rfl, rfl,
    ⟨.cons hsum (.cons hinc (.nil _)), hcompare, suffix_rfl, rfl, rfl, ⟨5, rfl⟩, ⟨5, rfl⟩,
      rfl⟩, rfl, ?_⟩
  rintro ⟨x, lo, hi, hx, -, hhi, hiff⟩
  obtain rfl := Value.long.inj hx
  obtain rfl := Value.long.inj hhi
  rcases (hiff.mpr rfl).2 with hoverflow | hle
  · exact absurd hoverflow Bool.false_ne_true
  · exact absurd hle (by decide)

end

end Optimizer

end Phpce
