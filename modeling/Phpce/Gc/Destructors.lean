import Phpce.Gc.Exact

/-!
# Destructors and what they save

The second half of `zend_gc_collect_cycles`: destructors are called for the objects of the garbage
set, then what they saved is taken out of the list, and what is left in it is destroyed and freed.

A destructor is any list of `DtorAct`s: it makes references inside and outside of the set and
removes them. The nodes with an address in the buffer that are black are those of the list; what
else is put into the buffer meanwhile is purple, and `gc_remove_nested_data_from_buffer` stops
there.

* `Saved`: reachable from outside of the garbage set.
* **`savedKept_iff`**: what is saved is kept exactly when it is reached, inside the list, from a
  node whose refcount has grown.
-/

namespace Phpce.Gc

open Traversal
open Function (update)

variable {ν : Type*} [DecidableEq ν]

/-- `gc_root_buffer`, with the refcount remembered before destructors are called. -/
structure GcRootBuffer (ν : Type*) where
  ref : ν
  refcount : Int
  deriving DecidableEq, Repr

namespace Refcounted

def erase (node : Refcounted ν) (n : ν) : Refcounted ν :=
  match node with
  | array slots => array (slots.erase n)
  | object slots dtor => object (slots.erase n) dtor
  | reference val => reference (if val = some n then none else val)
  | leaf => leaf

def holdsMore : Refcounted ν → Bool
  | array _ | object _ _ => true
  | reference val => val.isNone
  | leaf => false

/-- A reference more, where there is room. -/
def push (node : Refcounted ν) (n : ν) : Refcounted ν :=
  match node with
  | array slots => array (slots ++ [n])
  | object slots dtor => object (slots ++ [n]) dtor
  | reference _ => reference (some n)
  | leaf => leaf

end Refcounted

/-- The heap while destructors run: `out` counts the references of a node from outside of the heap,
`toFree` is the local list `to_free`. -/
structure Collection (ν : Type*) where
  node : ν → Refcounted ν
  refcount : ν → Int
  out : ν → Nat
  toFree : List (GcRootBuffer ν)

/-- What a destructor can do: references to `n` outside of the heap or in slots of `m` come and go,
and a node without references is freed. -/
inductive DtorAct (ν : Type*) where
  | store (n : ν)
  | forget (n : ν)
  | link (m n : ν)
  | unlink (m n : ν)
  | free (n : ν)
  deriving DecidableEq, Repr

namespace Collection

/-- `GC_REFCOUNT(ref) += n` -/
def addRef (s : Collection ν) (ref : ν) (n : Int) : Collection ν :=
  { s with refcount := update s.refcount ref (s.refcount ref + n) }

/-- `gc_remove_from_buffer` -/
def removeFromBuffer (s : Collection ν) (ref : ν) : Collection ν :=
  { s with toFree := s.toFree.filter fun current => current.ref ≠ ref }

def inBuffer (s : Collection ν) (ref : ν) : Bool := s.toFree.any fun current => current.ref = ref

/-- The freed node gives up what it holds. -/
def freeNode (s : Collection ν) (n : ν) : Collection ν :=
  { s.removeFromBuffer n with
    node := update s.node n .leaf
    refcount := fun m => s.refcount m - (s.node n).refs.count m }

end Collection

def DtorAct.apply (s : Collection ν) : DtorAct ν → Collection ν
  | store n => { s.addRef n 1 with out := update s.out n (s.out n + 1) }
  | forget n =>
      if 0 < s.out n then { s.addRef n (-1) with out := update s.out n (s.out n - 1) }
      else s
  | link m n =>
      if (s.node m).holdsMore then
        { s.addRef n 1 with node := update s.node m ((s.node m).push n) }
      else s
  | unlink m n =>
      if n ∈ (s.node m).refs then
        { s.addRef n (-1) with node := update s.node m ((s.node m).erase n) }
      else s
  | free n => if s.refcount n = 0 then s.freeNode n else s

namespace Collection

/-- The destructor of one entry; it keeps its object meanwhile. -/
def callDestructor (acts : ν → List (DtorAct ν)) (s : Collection ν) (ref : ν) : Collection ν :=
  if s.inBuffer ref && (s.node ref).hasDestructor then
    ((acts ref).foldl DtorAct.apply (s.addRef ref 1)).addRef ref (-1)
  else s

/-- Call destructors: an entry that was removed in the meantime is not met. -/
def callDestructors (acts : ν → List (DtorAct ν)) (s : Collection ν) : Collection ν :=
  s.toFree.foldl (fun s current => s.callDestructor acts current.ref) s

def removeNested : Traversal (Collection ν) ν where
  enter s ref :=
    if s.inBuffer ref then some (s.removeFromBuffer ref, (s.node ref).refs) else some (s, [])
  edge s _ := s

def gcRemoveNestedDataFromBuffer (fuel : Nat) (ref : ν) (s : Collection ν) :
    Option (Collection ν) :=
  removeNested.visit fuel ref s

/-- Remove values captured in destructors. -/
def removeCaptured (fuel : Nat) (s : Collection ν) : Option (Collection ν) :=
  s.toFree.foldlM (fun s current =>
    if s.inBuffer current.ref ∧ s.refcount current.ref > current.refcount then
      s.gcRemoveNestedDataFromBuffer fuel current.ref
    else some s) s

end Collection

namespace Heap

/-- The local list `to_free`, with the refcounts before destructors are called. -/
def toCollection (H : Heap ν) (out : ν → Nat) (s : GcState ν) : Collection ν where
  node := H.node
  refcount := s.refcount
  out
  toFree := s.toFree.map fun ref => ⟨ref, s.refcount ref⟩

/-- `zend_gc_collect_cycles`: the heap when the last destructor has returned, and with the list of
what is then destroyed and freed. -/
def zendGcCollectCycles (H : Heap ν) (fuel : Nat) (acts : ν → List (DtorAct ν)) (out : ν → Nat)
    (s : GcState ν) : Option (Collection ν × Collection ν) :=
  (H.gcFindGarbage fuel s).bind fun s =>
    let c := H.toCollection out s
    if s.flags then
      let c := c.callDestructors acts
      (c.removeCaptured fuel).map fun c' => (c, c')
    else some (c, c)

end Heap

/-! ## What is taken out of the list -/

namespace Collection

variable {s s' : Collection ν} {m n ref : ν} {fuel : Nat}

theorem inBuffer_iff : s.inBuffer ref = true ↔ ∃ c ∈ s.toFree, c.ref = ref := by
  rw [inBuffer, List.any_eq_true]
  simp

theorem inBuffer_removeFromBuffer :
    (s.removeFromBuffer ref).inBuffer m = true ↔ s.inBuffer m = true ∧ m ≠ ref := by
  rw [inBuffer_iff, inBuffer_iff]
  constructor
  · rintro ⟨c, hc, rfl⟩
    obtain ⟨hc, hne⟩ := List.mem_filter.mp hc
    exact ⟨⟨c, hc, rfl⟩, by simpa using hne⟩
  · rintro ⟨⟨c, hc, rfl⟩, hne⟩
    exact ⟨c, List.mem_filter.mpr ⟨hc, by simpa using hne⟩, rfl⟩

/-- Taking entries out of the list is all that `gc_remove_nested_data_from_buffer` does. -/
structure Removes (s s' : Collection ν) : Prop where
  node_eq : s'.node = s.node
  refcount_eq : s'.refcount = s.refcount
  toFree_eq : s'.toFree = s.toFree.filter fun c => s'.inBuffer c.ref

theorem Removes.refl (s : Collection ν) : Removes s s where
  node_eq := rfl
  refcount_eq := rfl
  toFree_eq := (List.filter_eq_self.mpr fun c hc => inBuffer_iff.mpr ⟨c, hc, rfl⟩).symm

theorem Removes.inBuffer (h : Removes s s') (hm : s'.inBuffer m = true) : s.inBuffer m = true := by
  obtain ⟨c, hc, rfl⟩ := inBuffer_iff.mp hm
  rw [h.toFree_eq] at hc
  exact inBuffer_iff.mpr ⟨c, (List.mem_filter.mp hc).1, rfl⟩

theorem Removes.trans {s₁ : Collection ν} (h : Removes s s₁) (h' : Removes s₁ s') :
    Removes s s' where
  node_eq := h'.node_eq.trans h.node_eq
  refcount_eq := h'.refcount_eq.trans h.refcount_eq
  toFree_eq := by
    rw [h'.toFree_eq, h.toFree_eq, List.filter_filter]
    apply List.filter_congr
    intro c hc
    rw [Bool.and_eq_left_iff_imp]
    exact h'.inBuffer

theorem removes_removeFromBuffer (s : Collection ν) (ref : ν) :
    Removes s (s.removeFromBuffer ref) where
  node_eq := rfl
  refcount_eq := rfl
  toFree_eq := by
    apply List.filter_congr
    intro c hc
    have hin : s.inBuffer c.ref = true := inBuffer_iff.mpr ⟨c, hc, rfl⟩
    rw [Bool.eq_iff_iff, inBuffer_removeFromBuffer]
    simp [hin]

theorem removeNested_enter {s₁ : Collection ν} {cs : List ν}
    (h : removeNested.enter s ref = some (s₁, cs)) :
    (s.inBuffer ref = false ∧ s₁ = s ∧ cs = []) ∨
      (s.inBuffer ref = true ∧ s₁ = s.removeFromBuffer ref ∧ cs = (s.node ref).refs) := by
  unfold removeNested at h
  dsimp only at h
  split at h
  · rename_i hin
    cases h
    exact .inr ⟨hin, rfl, rfl⟩
  · rename_i hnot
    cases h
    exact .inl ⟨Bool.eq_false_iff.mpr hnot, rfl, rfl⟩

theorem removes_removeNested (h : s.gcRemoveNestedDataFromBuffer fuel n = some s') :
    Removes s s' := by
  refine visit_preorder Removes.refl (fun _ _ _ => Removes.trans) (fun s c => Removes.refl s) ?_ h
  intro s n s₁ cs hent
  rcases removeNested_enter hent with ⟨-, rfl, -⟩ | ⟨-, rfl, -⟩
  · exact .refl s₁
  · exact removes_removeFromBuffer s n

def direct (s : Collection ν) (k : ν) : List ν :=
  if s.inBuffer k then (s.node k).refs.filter s.inBuffer else []

theorem mem_direct : m ∈ s.direct n ↔
    s.inBuffer n = true ∧ m ∈ (s.node n).refs ∧ s.inBuffer m = true := by
  unfold direct
  split
  · rename_i hin
    rw [List.mem_filter]
    simp [hin]
  · rename_i hnot
    simp [hnot]

theorem explored_removeNested {o : Collection ν} (ho : Removes o s)
    (h : s.gcRemoveNestedDataFromBuffer fuel n = some s') :
    Explored o.direct (fun m => s.inBuffer m = false) (fun m => s'.inBuffer m = false) [n] := by
  refine (explored_visit_of (V := fun s m => s.inBuffer m = false) (I := Removes o)
    (fun _ _ => rfl) (fun _ _ ho => ho) ?_ h ho).2
  intro s n s₁ cs ho hent
  rcases removeNested_enter hent with ⟨hnot, rfl, rfl⟩ | ⟨hin, rfl, rfl⟩
  · exact ⟨ho, .inl ⟨rfl, .of_mem hnot⟩⟩
  · refine ⟨ho.trans (removes_removeFromBuffer s n), .inr ⟨fun m => ?_, fun c hc => ?_, fun c hc => ?_⟩⟩
    · rw [← Bool.not_eq_true, inBuffer_removeFromBuffer, ← Bool.not_eq_true, not_and_or, not_not]
    · rw [ho.node_eq]
      exact (mem_direct.mp hc).2.1
    · cases hoc : o.inBuffer c with
      | true =>
        refine .inl (mem_direct.mpr ⟨ho.inBuffer hin, ?_, hoc⟩)
        rwa [← ho.node_eq]
      | false =>
        refine .inr ⟨Bool.eq_false_iff.mpr fun hc' => ?_, ?_⟩
        · have hsc := (inBuffer_removeFromBuffer.mp hc').1
          exact absurd ((ho.inBuffer hsc).symm.trans hoc) (by decide)
        · unfold direct
          rw [hoc, if_neg (by decide)]

/-- The entries whose refcount has grown since before the destructors. -/
def captured (s : Collection ν) : List ν :=
  (s.toFree.filter fun c => c.refcount < s.refcount c.ref).map GcRootBuffer.ref

theorem explored_removeCaptured (h : s.removeCaptured fuel = some s') :
    Removes s s' ∧
      Explored s.direct (fun m => s.inBuffer m = false) (fun m => s'.inBuffer m = false)
        s.captured := by
  have hloop : ∀ (cs : List (GcRootBuffer ν)) (s₁ : Collection ν), Removes s s₁ →
      cs.foldlM (fun s current =>
        if s.inBuffer current.ref ∧ s.refcount current.ref > current.refcount then
          s.gcRemoveNestedDataFromBuffer fuel current.ref
        else some s) s₁ = some s' →
      Removes s s' ∧ Explored s.direct (fun m => s₁.inBuffer m = false)
        (fun m => s'.inBuffer m = false)
        ((cs.filter fun c => c.refcount < s.refcount c.ref).map GcRootBuffer.ref) := by
    intro cs
    induction cs with
    | nil =>
      intro s₁ hs₁ h
      obtain rfl := Option.some.inj h
      exact ⟨hs₁, .nil⟩
    | cons c cs ih =>
      intro s₁ hs₁ h
      obtain ⟨s₂, hstep, hrest⟩ := List.foldlM_cons_eq_some.mp h
      by_cases hgrown : c.refcount < s.refcount c.ref
      · rw [List.filter_cons_of_pos (by simpa using hgrown), List.map_cons]
        split at hstep
        · obtain ⟨hs', hexp⟩ := ih s₂ (hs₁.trans (removes_removeNested hstep)) hrest
          exact ⟨hs', (explored_removeNested hs₁ hstep).append hexp⟩
        · rename_i hnot
          obtain rfl := Option.some.inj hstep
          have hgone : s₁.inBuffer c.ref = false := Bool.eq_false_iff.mpr fun hin =>
            hnot ⟨hin, by rw [hs₁.refcount_eq]; exact hgrown⟩
          have hsame : Explored s.direct (fun m => s₁.inBuffer m = false)
              (fun m => s₁.inBuffer m = false) [c.ref] := .of_mem hgone
          obtain ⟨hs', hexp⟩ := ih s₁ hs₁ hrest
          exact ⟨hs', hsame.append hexp⟩
      · rw [List.filter_cons_of_neg (by simpa using hgrown)]
        split at hstep
        · rename_i hyes
          rw [hs₁.refcount_eq] at hyes
          exact absurd hyes.2 hgrown
        · obtain rfl := Option.some.inj hstep
          exact ih s₁ hs₁ hrest
  exact hloop s.toFree s (.refl s) h

/-- **What is left in the list**: the entries that are not reached, inside the list, from one whose
refcount has grown. -/
theorem mem_toFree_removeCaptured (h : s.removeCaptured fuel = some s') (c : GcRootBuffer ν) :
    c ∈ s'.toFree ↔ c ∈ s.toFree ∧ ¬∃ n ∈ s.captured, Reach s.direct n c.ref := by
  obtain ⟨hrem, hexp⟩ := explored_removeCaptured h
  rw [hrem.toFree_eq, List.mem_filter]
  refine and_congr_right fun hc => ?_
  have hin : s.inBuffer c.ref = true := inBuffer_iff.mpr ⟨c, hc, rfl⟩
  constructor
  · rintro hleft ⟨n, hn, hreach⟩
    have hgone := hexp.of_reach hn (fun k _ hk m hm => ?_) hreach
    · exact absurd (hleft.symm.trans hgone) (by decide)
    · exact absurd ((mem_direct.mp hm).1.symm.trans hk) (by decide)
  · intro hnot
    by_contra hgone
    rcases hexp.reach c.ref (Bool.eq_false_iff.mpr hgone) with hk | hreach
    · exact absurd (hin.symm.trans hk) (by decide)
    · exact hnot hreach

theorem exists_removeCaptured [Fintype ν] (hfuel : Fintype.card ν < fuel) (s : Collection ν) :
    ∃ s', s.removeCaptured fuel = some s' := by
  refine List.exists_foldlM (fun s c => ?_) s.toFree s
  split
  · refine exists_visit_of_seen (V := fun s m => s.inBuffer m = false) (fun _ _ => rfl)
      (fun s n => ?_) hfuel c.ref s
    unfold removeNested
    dsimp only
    split
    · rename_i hin
      refine ⟨_, _, rfl, fun m hm => Bool.eq_false_iff.mpr fun h => ?_, fun _ => ⟨?_, ?_⟩⟩
      · exact absurd ((inBuffer_removeFromBuffer.mp h).1.symm.trans hm) (by decide)
      · rw [hin]
        decide
      · exact Bool.eq_false_iff.mpr fun h => (inBuffer_removeFromBuffer.mp h).2 rfl
    · exact ⟨_, _, rfl, fun m hm => hm, fun h => absurd rfl h⟩
  · exact ⟨s, rfl⟩

/-- Reachable from outside of the set `I`: from a node that is referred to from outside of the heap,
or by a node that is not in the set. -/
def Saved (s : Collection ν) (I : ν → Prop) (m : ν) : Prop :=
  ∃ n, (0 < s.out n ∨ ∃ k, ¬I k ∧ n ∈ (s.node k).refs) ∧ Reach (fun k => (s.node k).refs) n m

/-- Each entry that was saved is reached, along references that arrays and objects of the list hold,
from an entry whose refcount has grown since before the destructors. -/
def SavedNoticed (s : Collection ν) (I : ν → Prop) : Prop :=
  ∀ c ∈ s.toFree, s.Saved I c.ref → ∃ n ∈ s.captured, Reach s.direct n c.ref

end Collection

/-! ## The collection -/

namespace Heap

variable {H : Heap ν} {s : GcState ν} {m n : ν} {fuel : Nat} {out : ν → Nat} {roots : List ν}

omit [DecidableEq ν] in
theorem Garbage.of_ref (h : H.Garbage roots out m) (hn : m ∈ (H.node n).refs) :
    H.Garbage roots out n := by
  obtain ⟨hfound, hnot⟩ := h
  refine ⟨?_, fun k hk hheld hreach => hnot k hk hheld (hreach.tail hn)⟩
  by_contra hnf
  exact hnot m hfound (.inr ⟨n, hnf, hn⟩) .refl

omit [DecidableEq ν] in
theorem Garbage.not_saved (h : H.Garbage roots out m) (s : GcState ν) :
    ¬(H.toCollection out s).Saved (H.Garbage roots out) m := by
  rintro ⟨n, hn, hreach⟩
  have hgarbage : H.Garbage roots out n := by
    clear hn
    induction hreach using Relation.ReflTransGen.head_induction_on with
    | refl => exact h
    | head hedge _ ih => exact ih.of_ref hedge
  rcases hn with hout | ⟨k, hk, hmem⟩
  · exact hgarbage.2 n hgarbage.1 (.inl hout) .refl
  · exact hk (hgarbage.of_ref hmem)

variable [Fintype ν]

/-- **Nothing that was saved is destroyed**, exactly when all that was saved is noticed. -/
theorem savedKept_iff (hbuf : H.Buffered s) (hcount : H.Counted out s) (hsym : H.ExecutorHolds out)
    (hfuel : Fintype.card ν < fuel) (acts : ν → List (DtorAct ν)) :
    ∃ c c', H.zendGcCollectCycles fuel acts out s = some (c, c') ∧
      ((∀ entry ∈ c'.toFree, ¬c.Saved (H.Garbage s.roots out) entry.ref) ↔
        c.SavedNoticed (H.Garbage s.roots out)) := by
  obtain ⟨s', hfind, -, -, -, hmem⟩ := gcFindGarbage_exact hbuf hcount hsym hfuel
  unfold zendGcCollectCycles
  rw [hfind, Option.bind_some]
  dsimp only
  cases hflags : s'.flags with
  | true =>
    obtain ⟨c', hremove⟩ := Collection.exists_removeCaptured hfuel
      ((H.toCollection out s').callDestructors acts)
    refine ⟨(H.toCollection out s').callDestructors acts, c', by rw [if_pos rfl, hremove]; rfl, ?_⟩
    have hleft := Collection.mem_toFree_removeCaptured hremove
    constructor
    · intro hkept entry hentry hsaved
      by_contra hnot
      exact hkept entry ((hleft entry).mpr ⟨hentry, hnot⟩) hsaved
    · intro hnoticed entry hentry hsaved
      obtain ⟨hentry, hnot⟩ := (hleft entry).mp hentry
      exact hnot (hnoticed entry hentry hsaved)
  | false =>
    -- no destructor runs, and nothing is saved
    refine ⟨H.toCollection out s', H.toCollection out s', by rw [if_neg (by decide)], ?_⟩
    have hnone : ∀ entry ∈ (H.toCollection out s').toFree,
        ¬(H.toCollection out s').Saved (H.Garbage s.roots out) entry.ref := by
      intro entry hentry
      obtain ⟨ref, href, rfl⟩ := List.mem_map.mp hentry
      exact ((hmem ref).mp href).2.not_saved s'
    exact ⟨fun _ entry hentry hsaved => absurd hsaved (hnone entry hentry), fun _ => hnone⟩

/-- Two objects that hold each other; the first has a destructor. -/
def pairHeap : Heap Bool where
  node n := .object [!n] (!n)
  symbolTable := none

def pairState : GcState Bool where
  refcount _ := 1
  color n := if n then .black else .purple
  address n := !n
  roots := [false]
  toFree := []
  flags := false

/-- A destructor that stores the second object in a global variable. -/
def storeActs (n : Bool) : List (DtorAct Bool) := if n then [] else [.store true]

/-- A destructor that moves the second object to a global variable. -/
def moveActs (n : Bool) : List (DtorAct Bool) :=
  if n then [] else [.store true, .unlink false true]

theorem savedKept_iff_pairHeap :
    ∃ c c', pairHeap.zendGcCollectCycles 3 storeActs (fun _ => 0) pairState = some (c, c') ∧
      ((∀ entry ∈ c'.toFree, ¬c.Saved (pairHeap.Garbage [false] fun _ => 0) entry.ref) ↔
        c.SavedNoticed (pairHeap.Garbage [false] fun _ => 0)) :=
  savedKept_iff ⟨by unfold Purple; decide, by decide, by decide, by decide, rfl⟩
    (by unfold Counted; decide) (fun g hg => absurd hg (by revert g; decide)) (by decide) storeActs

/-- An object that a destructor moves out of the set is destroyed: its refcount is what it was. -/
theorem not_savedKept_pairHeap :
    ∃ c c', pairHeap.zendGcCollectCycles 3 moveActs (fun _ => 0) pairState = some (c, c') ∧
      c.out true = 1 ∧ ∃ entry ∈ c'.toFree, entry.ref = true ∧
        c.Saved (pairHeap.Garbage [false] fun _ => 0) entry.ref := by
  refine ⟨_, _, rfl, rfl, ⟨true, 1⟩, by decide, rfl, true, .inl (by decide), .refl⟩

end Heap

end Phpce.Gc
