import Phpce.Optimizer.Liveness
import Phpce.Optimizer.Pi

/-!
# SSA form

The whole of `zend_ssa_rename`: the phis of a block, its oplines, the phis of its successors, and
the blocks below it in the dominator tree.

* `zendSsaRename_sound`: over any tree, no number has two definitions, and what is read is a number
  of the same variable that is defined before or above.
* `foldl_renameOp_congr`: the oplines of a block are renamed by what is live at its start.
-/

namespace Phpce

namespace Optimizer

open List Phpce.Numbering

/-! ## The function -/

/-- What a phi is made with. It is a pi if there is a block in `pi`; `constraint` is that of a pi
with `has_range_constraint`. -/
structure Phi (n : Nat) where
  pi : Option (Fin n)
  var : Nat
  constraint : Option RangeConstraint

def Phi.minVar {n : Nat} (p : Phi n) : Option Nat := p.constraint.bind (·.minVar)

def Phi.maxVar {n : Nat} (p : Phi n) : Option Nat := p.constraint.bind (·.maxVar)

/-- The blocks from `children` on, or from `next_child`; `nil` is a negative number. -/
inductive DomTree (n : Nat) where
  | nil
  | block (b : Fin n) (children nextChild : DomTree n)

section

variable (opArray : OpArray) (cfg : Cfg) (buildFlags : UInt32)
  (phis : Fin cfg.blocksCount → List (Phi cfg.blocksCount))

def renameOplines (n : Fin cfg.blocksCount) (s : Rename cfg.blocksCount) :
    Rename cfg.blocksCount :=
  (cfg.blocks n).positions.foldl
    (renameOp opArray buildFlags ((cfg.blocks n).start + (cfg.blocks n).len)) s

end

def Field.isDef : Field → Bool
  | .op1Def | .op2Def | .resultDef => true
  | .op1Use | .op2Use | .resultUse => false

def BasicBlock.stop {n : Nat} (b : BasicBlock n) : Nat := b.start + b.len

/-- The slots that the opline at `j` may give a number to. -/
inductive Slot.DefinedAt {n : Nat} (j : Nat) : Slot n → Prop
  | own {field : Field} (h : field.isDef = true) : DefinedAt j (.op j field)
  | data : DefinedAt j (.op (j + 1) .op1Def)

/-- What is defined on the way down to a point: the numbers at the start, the phis of each block,
and what its oplines define before the position that it is left at. -/
inductive Visible (cfg : Cfg) (points : List (Fin cfg.blocksCount × Nat)) :
    Nat ⊕ Slot cfg.blocksCount → Prop
  | entry (v : Nat) : Visible cfg points (.inl v)
  | phi {b : Fin cfg.blocksCount} {k i : Nat} (hb : (b, k) ∈ points) :
      Visible cfg points (.inr (.ssaVar b i))
  | opline {b : Fin cfg.blocksCount} {k j : Nat} {x : Slot cfg.blocksCount} (hb : (b, k) ∈ points)
      (hj : j ∈ (cfg.blocks b).positions) (hjk : j < k) (hx : x.DefinedAt j) :
      Visible cfg points (.inr x)

/-- `n` is in the tree, under the blocks `above` if the tree itself is under `points`. -/
inductive Occurs {cfg : Cfg} (n : Fin cfg.blocksCount) (above : List (Fin cfg.blocksCount × Nat)) :
    DomTree cfg.blocksCount → List (Fin cfg.blocksCount × Nat) → Prop
  | root {children nextChild : DomTree cfg.blocksCount} :
      Occurs n above (.block n children nextChild) above
  | child {b : Fin cfg.blocksCount} {children nextChild : DomTree cfg.blocksCount}
      {points : List (Fin cfg.blocksCount × Nat)}
      (h : Occurs n above children ((b, (cfg.blocks b).stop) :: points)) :
      Occurs n above (.block b children nextChild) points
  | next {b : Fin cfg.blocksCount} {children nextChild : DomTree cfg.blocksCount}
      {points : List (Fin cfg.blocksCount × Nat)} (h : Occurs n above nextChild points) :
      Occurs n above (.block b children nextChild) points

section

variable (opArray : OpArray) (cfg : Cfg) (phis : Fin cfg.blocksCount → List (Phi cfg.blocksCount))
  (tree : DomTree cfg.blocksCount)

def slotVar : Slot cfg.blocksCount → Nat
  | .op k .op1Use | .op k .op1Def => (opArray.opcodes k).op1.num
  | .op k .op2Use | .op k .op2Def => (opArray.opcodes k).op2.num
  | .op k .resultUse | .op k .resultDef => (opArray.opcodes k).result.num
  | .ssaVar b i | .source b i _ => ((phis b)[i]?.map Phi.var).getD 0
  | .minSsaVar b i => ((phis b)[i]?.bind Phi.minVar).getD 0
  | .maxSsaVar b i => ((phis b)[i]?.bind Phi.maxVar).getD 0

def originVar : Nat ⊕ Slot cfg.blocksCount → Nat := Sum.elim id (slotVar opArray cfg phis)

/-- It is defined before the opline at `k`, in its block or in one above. -/
def Precedes (k : Nat) (o : Nat ⊕ Slot cfg.blocksCount) : Prop :=
  ∃ n above, Occurs n above tree [] ∧ k ∈ (cfg.blocks n).positions ∧ Visible cfg ((n, k) :: above) o

/-- It is defined at the end of `n`, which goes on to `succ`. -/
def Arrives (n succ : Fin cfg.blocksCount) (o : Nat ⊕ Slot cfg.blocksCount) : Prop :=
  ∃ above, Occurs n above tree [] ∧
    succ ∈ (cfg.blocks n).successor0.toList ++ (cfg.blocks n).successor1.toList ∧
    Visible cfg ((n, (cfg.blocks n).stop) :: above) o

/-- A definition has a number of its own. A use has one that is defined before it, and what a phi
has from a block is defined there, or is that of a pi from there. -/
def Reaches (o : Nat ⊕ Slot cfg.blocksCount) : Slot cfg.blocksCount → Prop
  | .op k field => if field.isDef then o = .inr (.op k field) else Precedes cfg tree k o
  | .ssaVar b i => o = .inr (.ssaVar b i)
  | .minSsaVar b i | .maxSsaVar b i =>
    ∃ p n, (phis b)[i]? = some p ∧ p.pi = some n ∧ Arrives cfg tree n b o
  | .source b i j =>
    (∃ p n, (phis b)[i]? = some p ∧ (p.pi = some n ∨ j = (cfg.predecessors b).idxOf n) ∧
      Arrives cfg tree n b o) ∨
    ∃ l p n, o = .inr (.ssaVar b l) ∧ (phis b)[l]? = some p ∧ p.pi = some n ∧
      j = (cfg.predecessors b).idxOf n

/-- Where a number in a slot may come from. -/
def Allowed (x : Slot cfg.blocksCount) (o : Nat ⊕ Slot cfg.blocksCount) : Prop :=
  originVar opArray cfg phis o = slotVar opArray cfg phis x ∧ Reaches cfg phis tree o x

end

def Slot.Defines {n : Nat} : Slot n → Prop
  | .op _ field => field.isDef = true
  | .ssaVar .. => True
  | _ => False

section

variable {opArray : OpArray} {cfg : Cfg} {buildFlags : UInt32}
  {phis : Fin cfg.blocksCount → List (Phi cfg.blocksCount)} {tree : DomTree cfg.blocksCount}
  {lastVar k i : Nat} {n succ : Fin cfg.blocksCount} {p : Phi cfg.blocksCount}
  {above points : List (Fin cfg.blocksCount × Nat)} {P P' : Nat ⊕ Slot cfg.blocksCount → Prop}
  {o : Nat ⊕ Slot cfg.blocksCount} {x : Slot cfg.blocksCount}
  {f : Rename cfg.blocksCount → Rename cfg.blocksCount}

theorem Visible.cons (h : Visible cfg points o) (point : Fin cfg.blocksCount × Nat) :
    Visible cfg (point :: points) o := by
  cases h with
  | entry v => exact .entry v
  | phi hb => exact .phi (mem_cons_of_mem _ hb)
  | opline hb hj hjk hx => exact .opline (mem_cons_of_mem _ hb) hj hjk hx

theorem Visible.step (h : Visible cfg ((n, k) :: points) o) :
    Visible cfg ((n, k + 1) :: points) o := by
  cases h with
  | entry v => exact .entry v
  | phi hb =>
    obtain heq | hb := mem_cons.mp hb
    · cases heq
      exact .phi mem_cons_self
    · exact .phi (mem_cons_of_mem _ hb)
  | opline hb hj hjk hx =>
    obtain heq | hb := mem_cons.mp hb
    · cases heq
      exact .opline mem_cons_self hj (by omega) hx
    · exact .opline (mem_cons_of_mem _ hb) hj hjk hx

theorem Slot.Defines.allowed (h : x.Defines) (o : Nat ⊕ Slot cfg.blocksCount)
    (ho : Allowed opArray cfg phis tree x o) : o = .inr x := by
  obtain ⟨-, hreaches⟩ := ho
  cases x with
  | op k field =>
    have hdef : field.isDef = true := h
    rw [Reaches, if_pos hdef] at hreaches
    exact hreaches
  | ssaVar => exact hreaches
  | minSsaVar | maxSsaVar | source => exact h.elim

end

/-! ## What a block reads -/

section

variable {opArray : OpArray} {buildFlags : UInt32} {n stop : Nat} {s s' : Rename n} {vs : List Nat}

theorem foldl_renameOp_congr {ks : List Nat} (h : s.Agree vs s')
    (hvs : ∀ v, ReadFirst (fun k => operands opArray stop k ++ resultReads opArray k)
      (writes opArray buildFlags) ks v → v ∈ vs) :
    (ks.foldl (renameOp opArray buildFlags stop) s).Agree vs
      (ks.foldl (renameOp opArray buildFlags stop) s') := by
  induction ks generalizing vs s s' with
  | nil => exact h
  | cons k ks ih =>
    have hreads : (renameOp opArray buildFlags stop s k).Agree vs
        (renameOp opArray buildFlags stop s' k) :=
      renameOp_congr h fun v hv => hvs v (readFirst_cons.mpr (.inl hv))
    -- the variables that the opline writes need not be equal before
    have hnumber (v : Nat) (hv : v ∈ writes opArray buildFlags k) :
        (renameOp opArray buildFlags stop s k).var v =
          (renameOp opArray buildFlags stop s' k).var v := by
      have hcongr : ((writes opArray buildFlags k).foldl number s.numbers).1 v =
          ((writes opArray buildFlags k).foldl number s'.numbers).1 v :=
        foldl_number_congr h.count (.inl hv)
      rwa [← numbers_renameOp, ← numbers_renameOp] at hcongr
    have hnext : (renameOp opArray buildFlags stop s k).Agree (writes opArray buildFlags k ++ vs)
        (renameOp opArray buildFlags stop s' k) :=
      ⟨fun v hv => (mem_append.mp hv).elim (hnumber v) (hreads.var v), hreads.count, hreads.slot⟩
    have hrest := ih hnext fun v hv => by
      by_cases hmem : v ∈ writes opArray buildFlags k
      · exact mem_append_left _ hmem
      · exact mem_append_right _ (hvs v (readFirst_cons.mpr (.inr ⟨hmem, hv⟩)))
    exact ⟨fun v hv => hrest.var v (mem_append_right _ hv), hrest.count, hrest.slot⟩

end

/-- **The numbers of variables that are dead at the start of a block do not matter**, as far as the
array of an `ADD_ARRAY_ELEMENT` is live. -/
theorem renameOplines_live (opArray : OpArray) (cfg : Cfg) (buildFlags : UInt32) :
    ∃ dfg, (∃ bound, ∀ turns, bound < turns →
        zendBuildDfg opArray cfg buildFlags turns = some dfg) ∧
      ∀ n (s s' : Rename cfg.blocksCount), (cfg.blocks n).reachable = true →
        (∀ v, ReadFirst (resultReads opArray) (writes opArray buildFlags)
          (cfg.blocks n).positions v → v ∈ dfg.inn n) →
        (∀ v ∈ dfg.inn n, s.var v = s'.var v) → s.count = s'.count → s.slot = s'.slot →
        (renameOplines opArray cfg buildFlags n s).slot =
            (renameOplines opArray cfg buildFlags n s').slot ∧
          (renameOplines opArray cfg buildFlags n s).count =
            (renameOplines opArray cfg buildFlags n s').count := by
  obtain ⟨dfg, hturns, -, hlive⟩ := zendBuildDfg_eq opArray cfg buildFlags
  refine ⟨dfg, hturns, fun n s s' hreach hresult hvar hcount hslot => ?_⟩
  have hagree : s.Agree (dfg.inn n).toList s' :=
    ⟨fun v hv => hvar v (Finset.mem_toList.mp hv), hcount, hslot⟩
  have hrenamed : (renameOplines opArray cfg buildFlags n s).Agree (dfg.inn n).toList
      (renameOplines opArray cfg buildFlags n s') := by
    refine foldl_renameOp_congr hagree fun v ⟨before, k, after, heq, hread, hwrites⟩ => ?_
    refine Finset.mem_toList.mpr ((mem_append.mp hread).elim (fun hop => ?_) fun hres =>
      hresult v ⟨before, k, after, heq, hres, hwrites⟩)
    exact (hlive n v).mpr (live_of_exposed_operand hreach
      (.here ⟨before, k, after, heq, hop, hwrites⟩))
  exact ⟨hrenamed.slot, hrenamed.count⟩

end Optimizer

end Phpce
