import Phpce.Optimizer.Rename

/-!
# Liveness

The sets `in` against what the renaming reads: `zend_build_dfg` does not take the array that an
`ADD_ARRAY_ELEMENT` adds to for a use.

* `live_of_exposed_operand`: every operand that is read is live.
* **`liveness_iff`**: when everything that is read is live.
-/

namespace Phpce

namespace Optimizer

section

variable (opArray : OpArray) (cfg : Cfg) (buildFlags : UInt32)

/-- A path leads from the start of a block to an opline that reads the variable, and no opline
before it writes it. -/
inductive Exposed (reads : BasicBlock cfg.blocksCount → Nat → List Nat) :
    Fin cfg.blocksCount → Nat → Prop where
  | here {i : Fin cfg.blocksCount} {v : Nat}
      (hread : ReadFirst (reads (cfg.blocks i)) (writes opArray buildFlags)
        (cfg.blocks i).positions v) : Exposed reads i v
  | next {i j : Fin cfg.blocksCount} {v : Nat} (hsucc : j ∈ (cfg.blocks i).successors)
      (hwrites : ∀ k ∈ (cfg.blocks i).positions, v ∉ writes opArray buildFlags k)
      (hexposed : Exposed reads j v) : Exposed reads i v

/-- `op1_use` and `op2_use` -/
def operandReads (b : BasicBlock cfg.blocksCount) (k : Nat) : List Nat :=
  operands opArray (b.start + b.len) k

/-- `op1_use`, `op2_use` and `result_use` -/
def allReads (b : BasicBlock cfg.blocksCount) (k : Nat) : List Nat :=
  operandReads opArray cfg b k ++ resultReads opArray k

/-- A path leads from the start of a block to an opline that takes the variable as an operand and
is not behind a definition of it, or to a block that writes it as a CV in place and is not behind
one that defines it. -/
inductive Taken : Fin cfg.blocksCount → Nat → Prop where
  | here {i : Fin cfg.blocksCount} {v : Nat}
      (htaken : ReadFirst (operandReads opArray cfg (cfg.blocks i)) (defined opArray buildFlags)
          (cfg.blocks i).positions v ∨
        ∃ k ∈ (cfg.blocks i).positions, v ∈ separated opArray buildFlags k) : Taken i v
  | next {i j : Fin cfg.blocksCount} {v : Nat} (hsucc : j ∈ (cfg.blocks i).successors)
      (hdefined : ∀ k ∈ (cfg.blocks i).positions, v ∉ defined opArray buildFlags k)
      (htaken : Taken j v) : Taken i v

/-- What is read is in the sets `in` of the reachable blocks. -/
def Complete (dfg : Dataflow.State (Fin cfg.blocksCount) Nat) : Prop :=
  ∀ i v, (cfg.blocks i).reachable = true →
    Exposed opArray cfg buildFlags (allReads opArray cfg) i v → v ∈ dfg.inn i

variable {opArray cfg buildFlags} {i : Fin cfg.blocksCount} {v k : Nat}
  {reads reads' : BasicBlock cfg.blocksCount → Nat → List Nat}

/-! ## What is read -/

theorem exposed_append
    (h : Exposed opArray cfg buildFlags (fun b k => reads b k ++ reads' b k) i v) :
    Exposed opArray cfg buildFlags reads i v ∨ Exposed opArray cfg buildFlags reads' i v := by
  induction h with
  | here hread => exact (readFirst_append hread).imp .here .here
  | next hsucc hwrites _ ih => exact ih.imp (.next hsucc hwrites) (.next hsucc hwrites)

theorem exposed_mono (hsub : ∀ b k, reads b k ⊆ reads' b k)
    (h : Exposed opArray cfg buildFlags reads i v) :
    Exposed opArray cfg buildFlags reads' i v := by
  induction h with
  | here hread =>
    obtain ⟨before, k, after, heq, hread, hwrites⟩ := hread
    exact .here ⟨before, k, after, heq, hsub _ _ hread, hwrites⟩
  | next hsucc hwrites _ ih => exact .next hsucc hwrites ih

theorem writes_or_separated (h : v ∈ defined opArray buildFlags k) :
    v ∈ writes opArray buildFlags k ∨ v ∈ separated opArray buildFlags k := by
  rw [defined] at h
  rw [writes]
  split at h
  next => exact absurd h List.not_mem_nil
  next hdata =>
    rw [if_neg hdata]
    simp only [List.mem_append] at h ⊢
    rcases h with ((hsep | hverify) | hfetch) | hresult
    · exact .inr hsep
    · rw [mem_varIf, Bool.and_eq_true, decide_eq_true_iff] at hverify
      obtain ⟨⟨htemp, hop⟩, hv⟩ := hverify
      have hrename : renamesOp1 opArray buildFlags (opArray.opcodes k) = true := by
        rw [renamesOp1, hop]
        exact (isVariable_iff _).mpr (.inr htemp)
      exact .inl (.inl (.inl (.inr (mem_varIf.mpr ⟨hrename, hv⟩))))
    · rw [mem_varIf, Bool.and_eq_true] at hfetch
      exact .inl (.inl (.inl (.inl (.inl (mem_varIf.mpr ⟨hfetch.1.2, hfetch.2⟩)))))
    · exact .inl (.inr hresult)

/-! ## What is live -/

theorem taken_iff_live (hreach : (cfg.blocks i).reachable = true) :
    Taken opArray cfg buildFlags i v ↔ (dfgFlow opArray cfg buildFlags).Live i v := by
  constructor
  · intro h
    induction h with
    | here htaken => exact .gen hreach ((collect_uses hreach).mpr htaken)
    | next hsucc hdefined _ ih =>
      refine .succ hreach hsucc (ih (cfg.reachable_of_mem hreach hsucc)) fun hkill => ?_
      obtain ⟨k, hk, hmem⟩ := (collect_defs hreach).mp hkill
      exact hdefined k hk hmem
  · intro h
    induction h with
    | gen hactive hgen => exact .here ((collect_uses hactive).mp hgen)
    | succ hactive hsucc hlive hkill ih =>
      exact .next hsucc (fun k hk hmem => hkill ((collect_defs hactive).mpr ⟨k, hk, hmem⟩))
        (ih hlive.active)

theorem live_of_exposed_operand (hreach : (cfg.blocks i).reachable = true)
    (h : Exposed opArray cfg buildFlags (operandReads opArray cfg) i v) :
    (dfgFlow opArray cfg buildFlags).Live i v := by
  induction h with
  | @here i v hread =>
    obtain ⟨before, k, after, heq, hread, hwrites⟩ := hread
    refine .gen hreach ((collect_uses hreach).mpr ?_)
    by_cases hdefined : ∃ j ∈ before, v ∈ defined opArray buildFlags j
    · obtain ⟨j, hj, hmem⟩ := hdefined
      have hsep := (writes_or_separated hmem).resolve_left (hwrites j hj)
      exact .inr ⟨j, heq ▸ List.mem_append_left _ hj, hsep⟩
    · exact .inl ⟨before, k, after, heq, hread, fun j hj hmem => hdefined ⟨j, hj, hmem⟩⟩
  | @next i j v hsucc hwrites _ ih =>
    by_cases hdefined : ∃ k ∈ (cfg.blocks i).positions, v ∈ defined opArray buildFlags k
    · obtain ⟨k, hk, hmem⟩ := hdefined
      have hsep := (writes_or_separated hmem).resolve_left (hwrites k hk)
      exact .gen hreach ((collect_uses hreach).mpr (.inr ⟨k, hk, hsep⟩))
    · exact .succ hreach hsucc (ih (cfg.reachable_of_mem hreach hsucc))
        fun hkill => hdefined ((collect_defs hreach).mp hkill)

theorem dfg_unique {dfg dfg' : Dataflow.State (Fin cfg.blocksCount) Nat} {bound bound' : Nat}
    (h : ∀ turns, bound < turns → zendBuildDfg opArray cfg buildFlags turns = some dfg)
    (h' : ∀ turns, bound' < turns → zendBuildDfg opArray cfg buildFlags turns = some dfg') :
    dfg = dfg' := by
  have hrun := h (max bound bound' + 1) (Nat.lt_succ_of_le (Nat.le_max_left _ _))
  rw [h' _ (Nat.lt_succ_of_le (Nat.le_max_right _ _))] at hrun
  exact (Option.some.inj hrun).symm

/-- **When liveness is complete**: `zend_build_dfg` ends with the least solution, and everything
that is read is live if and only if each array that an `ADD_ARRAY_ELEMENT` adds to is also taken as
an operand. -/
theorem liveness_iff (opArray : OpArray) (cfg : Cfg) (buildFlags : UInt32) :
    (∃ dfg, (∃ bound, ∀ turns, bound < turns →
          zendBuildDfg opArray cfg buildFlags turns = some dfg) ∧
        (dfgFlow opArray cfg buildFlags).Least (fun i => ↑(dfg.inn i)) (fun i => ↑(dfg.out i)) ∧
        Complete opArray cfg buildFlags dfg) ↔
      ∀ i v, (cfg.blocks i).reachable = true →
        Exposed opArray cfg buildFlags (fun _ => resultReads opArray) i v →
          Taken opArray cfg buildFlags i v := by
  obtain ⟨dfg, ⟨bound, hdfg⟩, hleast, hlive⟩ := zendBuildDfg_eq opArray cfg buildFlags
  constructor
  · rintro ⟨dfg', ⟨bound', hdfg'⟩, -, hcomplete⟩ i v hreach hexposed
    obtain rfl := dfg_unique hdfg hdfg'
    have hall : Exposed opArray cfg buildFlags (allReads opArray cfg) i v :=
      exposed_mono (fun b k => List.subset_append_right _ _) hexposed
    exact (taken_iff_live hreach).mpr ((hlive i v).mp (hcomplete i v hreach hall))
  · intro h
    refine ⟨dfg, ⟨bound, hdfg⟩, hleast, fun i v hreach hexposed => (hlive i v).mpr ?_⟩
    rcases exposed_append hexposed with hoperand | hresult
    · exact live_of_exposed_operand hreach hoperand
    · exact (taken_iff_live hreach).mp (h i v hreach hresult)

/-! ## An array that is built over several blocks -/

/-- `[1, $x ? 2 : 3]` -/
def conditionalArray : OpArray where
  opcodes k :=
    [⟨.initArray, .ofLong 1, .ofType .unused 0, .ofType .tmpVar 96, 0⟩,
      ⟨.jmpz, .ofType .cv 80, .ofType .unused 0, .ofType .unused 0, 0⟩,
      ⟨.qmAssign, .ofLong 2, .ofType .unused 0, .ofType .tmpVar 112, 0⟩,
      ⟨.other 42, .ofType .unused 0, .ofType .unused 0, .ofType .unused 0, 0⟩,
      ⟨.qmAssign, .ofLong 3, .ofType .unused 0, .ofType .tmpVar 112, 0⟩,
      ⟨.addArrayElement, .ofType .tmpVar 112, .ofType .unused 0, .ofType .tmpVar 96, 0⟩].getD k
        ⟨.other 62, .ofType .tmpVar 96, .ofType .unused 0, .ofType .unused 0, 0⟩
  fnFlags := 0

/-- The blocks of `conditionalArray`. -/
def conditionalBlocks (i : Fin 4) : BasicBlock 4 :=
  if i.val = 0 then ⟨true, 0, 2, some ⟨2, by decide⟩, some ⟨1, by decide⟩⟩
  else if i.val = 1 then ⟨true, 2, 2, some ⟨3, by decide⟩, none⟩
  else if i.val = 2 then ⟨true, 4, 1, some ⟨3, by decide⟩, none⟩
  else ⟨true, 5, 2, none, none⟩

theorem reachable_conditionalBlocks (i : Fin 4) : (conditionalBlocks i).reachable = true := by
  rw [conditionalBlocks]
  split_ifs <;> rfl

def conditionalCfg : Cfg where
  blocksCount := 4
  blocks := conditionalBlocks
  reachable_of_mem {_ j} _ _ := reachable_conditionalBlocks j

/-- The block of the `ADD_ARRAY_ELEMENT`. -/
def lastBlock : Fin conditionalCfg.blocksCount := ⟨3, by decide⟩

/-- The array that the last block adds to is not live there. -/
theorem not_liveness_conditionalArray :
    ¬∃ dfg, (∃ bound, ∀ turns, bound < turns →
        zendBuildDfg conditionalArray conditionalCfg 0 turns = some dfg) ∧
      (dfgFlow conditionalArray conditionalCfg 0).Least (fun i => ↑(dfg.inn i))
        (fun i => ↑(dfg.out i)) ∧
      Complete conditionalArray conditionalCfg 0 dfg := by
  rintro ⟨dfg', ⟨bound', hdfg'⟩, -, hcomplete⟩
  obtain ⟨dfg, ⟨bound, hdfg⟩, -, hlive⟩ := zendBuildDfg_eq conditionalArray conditionalCfg 0
  obtain rfl := dfg_unique hdfg hdfg'
  have hexposed : Exposed conditionalArray conditionalCfg 0
      (allReads conditionalArray conditionalCfg) lastBlock 1 :=
    .here ⟨[], 5, [6], rfl, by decide, fun _ hj => absurd hj List.not_mem_nil⟩
  have htaken : Taken conditionalArray conditionalCfg 0 lastBlock 1 :=
    (taken_iff_live rfl).mpr ((hlive lastBlock 1).mp (hcomplete lastBlock 1 rfl hexposed))
  cases htaken with
  | here htaken =>
    rcases htaken with hread | ⟨k, hk, hsep⟩
    · rcases readFirst_cons.mp hread with hop | ⟨hdef, -⟩
      · exact absurd hop (by decide)
      · exact absurd (by decide) hdef
    · exact absurd hsep ((by decide : ∀ k ∈ [5, 6], 1 ∉ separated conditionalArray 0 k) k hk)
  | next hsucc => exact absurd hsucc List.not_mem_nil

end

end Optimizer

end Phpce
