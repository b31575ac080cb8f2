import Mathlib.Algebra.BigOperators.Group.Finset.Basic
import Mathlib.Algebra.Order.BigOperators.Group.Finset
import Mathlib.Data.Finset.Union
import Mathlib.Data.Fintype.Basic

/-!
# Backward data flow over a graph

Each active node `i` makes the facts `gen i` and stops the facts `kill i`. The equations are
`out i = ⋃ inn j` over the successors `j` of `i` and `inn i = gen i ∪ (out i \ kill i)`, and their
least solution is reachability: a fact is in `inn i` if a path leads from `i` to a node that makes
it, through nodes that do not stop it.

* `readFirst_cons`: a fact that a sequence of steps reads before it writes it.
* `Dataflow.live_le`: every solution contains `Live`.
* `Dataflow.Inv.step`: what one turn of a worklist algorithm keeps, and that it makes progress.
* `Dataflow.loop_eq`: whichever node is picked, the algorithm ends, with the least solution.
-/

/-- Some step of a sequence reads the fact, and none before it writes it. -/
def ReadFirst {κ α : Type*} (reads writes : κ → List α) (ks : List κ) (a : α) : Prop :=
  ∃ before k after, ks = before ++ k :: after ∧ a ∈ reads k ∧ ∀ j ∈ before, a ∉ writes j

theorem readFirst_nil {κ α : Type*} {reads writes : κ → List α} {a : α} :
    ¬ReadFirst reads writes [] a := by
  rintro ⟨before, k, after, heq, -⟩
  exact absurd heq.symm (List.append_ne_nil_of_right_ne_nil _ (List.cons_ne_nil _ _))

theorem readFirst_cons {κ α : Type*} {reads writes : κ → List α} {k : κ} {ks : List κ} {a : α} :
    ReadFirst reads writes (k :: ks) a ↔
      a ∈ reads k ∨ a ∉ writes k ∧ ReadFirst reads writes ks a := by
  constructor
  · rintro ⟨before, j, after, heq, hread, hwrites⟩
    cases before with
    | nil =>
      obtain ⟨rfl, -⟩ := List.cons.inj heq
      exact .inl hread
    | cons i before =>
      obtain ⟨rfl, rfl⟩ := List.cons.inj heq
      obtain ⟨hk, hbefore⟩ := List.forall_mem_cons.mp hwrites
      exact .inr ⟨hk, before, j, after, rfl, hread, hbefore⟩
  · rintro (hread | ⟨hk, before, j, after, rfl, hread, hbefore⟩)
    · exact ⟨[], k, ks, rfl, hread, fun i hi => absurd hi List.not_mem_nil⟩
    · exact ⟨k :: before, j, after, rfl, hread, List.forall_mem_cons.mpr ⟨hk, hbefore⟩⟩

theorem readFirst_append {κ α : Type*} {reads reads' writes : κ → List α} {ks : List κ} {a : α}
    (h : ReadFirst (fun k => reads k ++ reads' k) writes ks a) :
    ReadFirst reads writes ks a ∨ ReadFirst reads' writes ks a := by
  obtain ⟨before, k, after, heq, hread, hwrites⟩ := h
  rcases List.mem_append.mp hread with hread | hread
  · exact .inl ⟨before, k, after, heq, hread, hwrites⟩
  · exact .inr ⟨before, k, after, heq, hread, hwrites⟩

/-- A problem: a graph with the facts that its nodes make and stop. -/
structure Dataflow (ι α : Type*) where
  active : ι → Bool
  succ : ι → List ι
  pred : ι → List ι
  gen : ι → Finset α
  kill : ι → Finset α
  mem_pred : ∀ {i j}, active i = true → j ∈ succ i → i ∈ pred j

namespace Dataflow

open Function (update update_of_ne update_self)

variable {ι α : Type*}

/-- A path leads from the node to one that makes the fact, through nodes that do not stop it. -/
inductive Live (F : Dataflow ι α) : ι → α → Prop where
  | gen {i : ι} {a : α} (hactive : F.active i = true) (hgen : a ∈ F.gen i) : F.Live i a
  | succ {i j : ι} {a : α} (hactive : F.active i = true) (hsucc : j ∈ F.succ i)
      (hlive : F.Live j a) (hkill : a ∉ F.kill i) : F.Live i a

def Solution (F : Dataflow ι α) (inn out : ι → Set α) : Prop :=
  ∀ i, F.active i = true →
    out i = {a | ∃ j ∈ F.succ i, a ∈ inn j} ∧ inn i = ↑(F.gen i) ∪ (out i \ ↑(F.kill i))

variable {F : Dataflow ι α} {i j : ι} {a : α}

theorem Live.active (h : F.Live i a) : F.active i = true := by
  cases h with
  | gen hactive => exact hactive
  | succ hactive => exact hactive

theorem live_le {inn out : ι → Set α} (h : F.Solution inn out) (hlive : F.Live i a) :
    a ∈ inn i := by
  induction hlive with
  | gen hactive hgen =>
    rw [(h _ hactive).2]
    exact .inl hgen
  | succ hactive hsucc _ hkill ih =>
    rw [(h _ hactive).2, (h _ hactive).1]
    exact .inr ⟨⟨_, hsucc, ih⟩, hkill⟩

/-! ## The algorithm -/

variable [DecidableEq ι] [DecidableEq α]

/-- The nodes that are still to be computed, and what has been computed so far. -/
@[ext]
structure State (ι α : Type*) where
  worklist : Finset ι
  inn : ι → Finset α
  out : ι → Finset α

/-- The facts at the start of some successor. -/
def join (F : Dataflow ι α) (inn : ι → Finset α) (i : ι) : Finset α :=
  (F.succ i).toFinset.biUnion inn

def transfer (F : Dataflow ι α) (inn : ι → Finset α) (i : ι) : Finset α :=
  F.gen i ∪ (F.join inn i \ F.kill i)

/-- A turn of the algorithm, for the node that was picked. -/
def step (F : Dataflow ι α) (i : ι) (s : State ι α) : State ι α :=
  if F.active i then
    if s.inn i = F.transfer s.inn i then
      ⟨s.worklist.erase i, s.inn, update s.out i (F.join s.inn i)⟩
    else
      ⟨s.worklist.erase i ∪ (F.pred i).toFinset, update s.inn i (F.transfer s.inn i),
        update s.out i (F.join s.inn i)⟩
  else ⟨s.worklist.erase i, s.inn, s.out⟩

structure Inv (F : Dataflow ι α) (s : State ι α) : Prop where
  sound : ∀ {i a}, a ∈ s.inn i → F.Live i a
  grows : ∀ {i}, F.active i = true → s.inn i ⊆ F.transfer s.inn i
  done : ∀ {i}, F.active i = true → i ∉ s.worklist →
    s.out i = F.join s.inn i ∧ s.inn i = F.transfer s.inn i

variable {s : State ι α} {inn inn' : ι → Finset α}

theorem mem_join : a ∈ F.join inn i ↔ ∃ j ∈ F.succ i, a ∈ inn j := by
  rw [join, Finset.mem_biUnion]
  simp only [List.mem_toFinset]

theorem mem_transfer :
    a ∈ F.transfer inn i ↔ a ∈ F.gen i ∨ (∃ j ∈ F.succ i, a ∈ inn j) ∧ a ∉ F.kill i := by
  rw [transfer, Finset.mem_union, Finset.mem_sdiff, mem_join]

theorem transfer_mono (h : ∀ i, inn i ⊆ inn' i) (i : ι) :
    F.transfer inn i ⊆ F.transfer inn' i := by
  intro a
  rw [mem_transfer, mem_transfer]
  rintro (hgen | ⟨⟨j, hj, hmem⟩, hkill⟩)
  · exact .inl hgen
  · exact .inr ⟨⟨j, hj, h j hmem⟩, hkill⟩

theorem join_congr (h : ∀ j ∈ F.succ i, inn j = inn' j) : F.join inn i = F.join inn' i :=
  Finset.biUnion_congr rfl fun j hj => h j (List.mem_toFinset.mp hj)

theorem transfer_congr (h : F.join inn i = F.join inn' i) :
    F.transfer inn i = F.transfer inn' i := by
  rw [transfer, transfer, h]

theorem Inv.live_transfer (h : F.Inv s) (hactive : F.active i = true)
    (hmem : a ∈ F.transfer s.inn i) : F.Live i a := by
  rcases mem_transfer.mp hmem with hgen | ⟨⟨j, hj, hlive⟩, hkill⟩
  · exact .gen hactive hgen
  · exact .succ hactive hj (h.sound hlive) hkill

theorem Inv.step (h : F.Inv s) (i : ι) : F.Inv (F.step i s) := by
  rw [Dataflow.step]
  split
  next hactive =>
    split
    next heq =>
      refine ⟨h.sound, h.grows, fun {j} hj hmem => ?_⟩
      by_cases hji : j = i
      · subst hji
        exact ⟨update_self .., heq⟩
      · have hold := h.done hj fun hin => hmem (Finset.mem_erase.mpr ⟨hji, hin⟩)
        exact ⟨(update_of_ne hji ..).trans hold.1, hold.2⟩
    next hne =>
      have hle : ∀ j, s.inn j ⊆ update s.inn i (F.transfer s.inn i) j := by
        intro j
        by_cases hji : j = i
        · subst hji
          rw [update_self]
          exact h.grows hactive
        · rw [update_of_ne hji]
      refine ⟨fun {j a} hmem => ?_, fun {j} hj => ?_, fun {j} hj hmem => ?_⟩
      · have hmem : a ∈ update s.inn i (F.transfer s.inn i) j := hmem
        by_cases hji : j = i
        · subst hji
          rw [update_self] at hmem
          exact h.live_transfer hactive hmem
        · rw [update_of_ne hji] at hmem
          exact h.sound hmem
      · refine Finset.Subset.trans ?_ (transfer_mono hle j)
        show update s.inn i (F.transfer s.inn i) j ⊆ F.transfer s.inn j
        by_cases hji : j = i
        · subst hji
          rw [update_self]
        · rw [update_of_ne hji]
          exact h.grows hj
      · have hmem : j ∉ s.worklist.erase i ∪ (F.pred i).toFinset := hmem
        rw [Finset.mem_union, not_or, List.mem_toFinset] at hmem
        -- the nodes with `i` as a successor are all on the worklist
        have hjoin : F.join s.inn j =
            F.join (update s.inn i (F.transfer s.inn i)) j := by
          refine join_congr fun k hk => (update_of_ne ?_ ..).symm
          rintro rfl
          exact hmem.2 (F.mem_pred hj hk)
        dsimp only
        rw [← hjoin, ← transfer_congr hjoin]
        by_cases hji : j = i
        · subst hji
          rw [update_self, update_self]
          exact ⟨rfl, rfl⟩
        · rw [update_of_ne hji, update_of_ne hji]
          exact h.done hj fun hin => hmem.1 (Finset.mem_erase.mpr ⟨hji, hin⟩)
  next hactive =>
    refine ⟨h.sound, h.grows, fun {j} hj hmem => ?_⟩
    refine h.done hj fun hin => hmem (Finset.mem_erase.mpr ⟨?_, hin⟩)
    rintro rfl
    exact hactive hj

/-! ## Progress -/

section

variable [Fintype ι]

def facts (F : Dataflow ι α) : Finset α := Finset.univ.biUnion F.gen

/-- What a turn makes smaller: the facts that may still be found, then the worklist. -/
def todo (F : Dataflow ι α) (s : State ι α) : ℕ :=
  (∑ i, (F.facts \ s.inn i).card) * (Fintype.card ι + 1) + s.worklist.card

omit [DecidableEq ι] in
theorem Live.mem_facts (h : F.Live i a) : a ∈ F.facts := by
  induction h with
  | gen _ hgen => exact Finset.mem_biUnion.mpr ⟨_, Finset.mem_univ _, hgen⟩
  | succ _ _ _ _ ih => exact ih

theorem Inv.todo_step (h : F.Inv s) (hpick : i ∈ s.worklist) :
    F.todo (F.step i s) < F.todo s := by
  have herase : (s.worklist.erase i).card < s.worklist.card :=
    Finset.card_lt_card (Finset.erase_ssubset hpick)
  rw [Dataflow.step]
  split
  next hactive =>
    split
    next => exact Nat.add_lt_add_left herase _
    next hne =>
      have hsub : ∀ j, F.facts \ update s.inn i (F.transfer s.inn i) j ⊆
          F.facts \ s.inn j := by
        intro j
        refine Finset.sdiff_subset_sdiff (Finset.Subset.refl _) ?_
        by_cases hji : j = i
        · subst hji
          rw [update_self]
          exact h.grows hactive
        · rw [update_of_ne hji]
      obtain ⟨a, hnew, hold⟩ : ∃ a ∈ F.transfer s.inn i, a ∉ s.inn i :=
        Finset.exists_of_ssubset (lt_of_le_of_ne (h.grows hactive) hne)
      have hfacts : a ∈ F.facts := (h.live_transfer hactive hnew).mem_facts
      have hsum : ∑ j, (F.facts \ update s.inn i (F.transfer s.inn i) j).card <
          ∑ j, (F.facts \ s.inn j).card := by
        refine Finset.sum_lt_sum (fun j _ => Finset.card_le_card (hsub j))
          ⟨i, Finset.mem_univ i, Finset.card_lt_card ?_⟩
        refine lt_of_le_of_ne (hsub i) fun heq => ?_
        have hmem : a ∈ F.facts \ s.inn i := Finset.mem_sdiff.mpr ⟨hfacts, hold⟩
        rw [← heq, update_self] at hmem
        exact (Finset.mem_sdiff.mp hmem).2 hnew
      have hcard : (s.worklist.erase i ∪ (F.pred i).toFinset).card < Fintype.card ι + 1 :=
        Nat.lt_succ_of_le (Finset.card_le_univ _)
      calc F.todo _
          < (∑ j, (F.facts \ update s.inn i (F.transfer s.inn i) j).card) *
              (Fintype.card ι + 1) + (Fintype.card ι + 1) := Nat.add_lt_add_left hcard _
        _ = (∑ j, (F.facts \ update s.inn i (F.transfer s.inn i) j).card + 1) *
              (Fintype.card ι + 1) := (Nat.succ_mul _ _).symm
        _ ≤ (∑ j, (F.facts \ s.inn j).card) * (Fintype.card ι + 1) :=
              Nat.mul_le_mul_right _ hsum
        _ ≤ F.todo s := Nat.le_add_right _ _
  next => exact Nat.add_lt_add_left herase _

/-! ## The whole run -/

/-- The algorithm, given enough turns; `pick` says which node is computed next. -/
def loop (F : Dataflow ι α) (pick : (w : Finset ι) → w.Nonempty → ι) :
    ℕ → State ι α → Option (State ι α)
  | 0, _ => none
  | turns + 1, s =>
    if h : s.worklist.Nonempty then loop F pick turns (F.step (pick s.worklist h) s) else some s

def Least (F : Dataflow ι α) (inn out : ι → Set α) : Prop :=
  F.Solution inn out ∧ ∀ inn' out', F.Solution inn' out' → ∀ i, F.active i = true →
    inn i ⊆ inn' i ∧ out i ⊆ out' i

theorem loop_eq {pick : (w : Finset ι) → w.Nonempty → ι} (hpick : ∀ w h, pick w h ∈ w)
    (h : F.Inv s) :
    ∃ s', (∀ turns, F.todo s < turns → F.loop pick turns s = some s') ∧ F.Inv s' ∧
      s'.worklist = ∅ := by
  induction htodo : F.todo s using Nat.strongRecOn generalizing s with
  | _ k ih =>
    by_cases hne : s.worklist.Nonempty
    · have hlt : F.todo (F.step (pick s.worklist hne) s) < k :=
        htodo ▸ h.todo_step (hpick s.worklist hne)
      obtain ⟨s', hloop, hinv, hempty⟩ := ih _ hlt (h.step _) rfl
      refine ⟨s', fun turns hturns => ?_, hinv, hempty⟩
      cases turns with
      | zero => exact absurd hturns (Nat.not_lt_zero _)
      | succ turns =>
        rw [loop, dif_pos hne]
        exact hloop turns (Nat.lt_of_lt_of_le hlt (Nat.le_of_lt_succ hturns))
    · refine ⟨s, fun turns hturns => ?_, h, Finset.not_nonempty_iff_eq_empty.mp hne⟩
      cases turns with
      | zero => exact absurd hturns (Nat.not_lt_zero _)
      | succ turns => rw [loop, dif_neg hne]

omit [Fintype ι] in
theorem Inv.mem_iff (h : F.Inv s) (hempty : s.worklist = ∅) : a ∈ s.inn i ↔ F.Live i a := by
  refine ⟨h.sound, fun hlive => ?_⟩
  induction hlive with
  | gen hactive hgen =>
    rw [(h.done hactive (hempty ▸ Finset.notMem_empty _)).2, mem_transfer]
    exact .inl hgen
  | succ hactive hsucc _ hkill ih =>
    rw [(h.done hactive (hempty ▸ Finset.notMem_empty _)).2, mem_transfer]
    exact .inr ⟨⟨_, hsucc, ih⟩, hkill⟩

omit [Fintype ι] in
theorem Inv.least (h : F.Inv s) (hempty : s.worklist = ∅) :
    F.Least (fun i => ↑(s.inn i)) (fun i => ↑(s.out i)) := by
  refine ⟨fun i hactive => ?_, fun inn' out' hsol i hactive => ⟨fun a ha => ?_, fun a ha => ?_⟩⟩
  · obtain ⟨hout, hinn⟩ := h.done hactive (hempty ▸ Finset.notMem_empty i)
    dsimp only
    constructor
    · rw [hout]
      ext a
      exact mem_join
    · rw [hinn, transfer, hout, Finset.coe_union, Finset.coe_sdiff]
  · exact live_le hsol ((h.mem_iff hempty).mp ha)
  · have ha : a ∈ s.out i := ha
    rw [(h.done hactive (hempty ▸ Finset.notMem_empty i)).1] at ha
    obtain ⟨j, hj, hmem⟩ := mem_join.mp ha
    rw [(hsol i hactive).1]
    exact ⟨j, hj, live_le hsol ((h.mem_iff hempty).mp hmem)⟩

end

end Dataflow
