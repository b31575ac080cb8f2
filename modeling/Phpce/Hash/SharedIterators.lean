import Mathlib.Data.List.DropRight
import Phpce.Hash.Duplicate
import Phpce.Hash.IteratorPositions
import Phpce.Lib.Run

/-!
# Tables that share their iterators

`EG(ht_iterators)` holds the iterators of all tables, and a table has a counter of its own, of eight
bits, that stops counting at 255. Where the counter is 0 the iterators are not looked at.

* `World.Sane` is what holds of all tables at any time, and `Sane.reassign` what the calls do that
  give an iterator to another table.
* **`iteratorsSurvive`**: in every run, each iterator is on an element or past the end, no counter
  is 0 while its table has an iterator, and deletions move iterators to the next element.
-/

namespace Phpce

open List Option
open Function (update update_comm update_of_ne update_self)

/-- `HT_POISONED_PTR` -/
def htPoisonedPtr : Nat := 0xffffffffffffffff

/-- The tables, by their addresses, and `EG(ht_iterators)` up to `EG(ht_iterators_used)`. -/
structure World (V : Type*) where
  tables : Nat → Option (HashTable V)
  htIterators : List HashTableIterator

variable {V : Type*}

namespace World

/-- An operation on the table at the address `a`. -/
def onTable (w : World V) (a : Nat) (f : HashTable V → Except HashStop (HashTable V)) :
    Option (World V) :=
  (w.tables a).bind fun ht =>
    (f { ht with htIterators := w.htIterators }).toOption.map fun ht =>
      { tables := update w.tables a (some ht), htIterators := ht.htIterators }

/-- The counter of the table at `a`, if it is one, is decremented unless it is 255. -/
def release (tables : Nat → Option (HashTable V)) (a : Nat) : Nat → Option (HashTable V) :=
  if a ≠ 0 ∧ a ≠ htPoisonedPtr then
    update tables a ((tables a).map fun ht =>
      if ht.nIteratorsCount ≠ 255 then
        -- the counter is a `zend_uchar`
        { ht with nIteratorsCount := (ht.nIteratorsCount + 255) % 256 }
      else ht)
  else tables

/-- The counter of the table at `a` is incremented unless it is 255. -/
def register (tables : Nat → Option (HashTable V)) (a : Nat) : Nat → Option (HashTable V) :=
  update tables a ((tables a).map fun ht =>
    if ht.nIteratorsCount ≠ 255 then { ht with nIteratorsCount := ht.nIteratorsCount + 1 } else ht)

/-- `zend_hash_iterator_pos`: the position that it returns. -/
def zendHashIteratorPos (w : World V) (idx a : Nat) : Option (Nat × World V) :=
  (w.htIterators[idx]?).bind fun iter =>
    (w.tables a).map fun ht =>
      if iter.pos = htInvalidIdx then (htInvalidIdx, w)
      else if iter.ht ≠ a then
        (ht.nInternalPointer,
          { tables := register (release w.tables iter.ht) a
            htIterators := w.htIterators.set idx ⟨a, ht.nInternalPointer⟩ })
      else (iter.pos, w)

/-- `zend_hash_iterator_del` -/
def zendHashIteratorDel (w : World V) (idx : Nat) : Option (World V) :=
  (w.htIterators[idx]?).map fun iter =>
    { tables := release w.tables iter.ht
      htIterators :=
        if idx + 1 = w.htIterators.length then
          (w.htIterators.take idx).rdropWhile fun iter => iter.ht == 0
        else w.htIterators.set idx { iter with ht := 0 } }

end World

structure ArrayCopy (V : Type*) where
  self : Nat
  immutable : Bool
  arData : Nat → Bucket (Zval V)
  zNext : Nat → Nat

namespace World

/-- `zend_hash_iterator_pos_ex`; `copy` is where `SEPARATE_ARRAY` puts a copy of the array, if it
has to make one. -/
def zendHashIteratorPosEx (w : World (Zval V)) (idx a : Nat) (copy : Option (ArrayCopy V)) :
    Option (Nat × World (Zval V)) :=
  (w.htIterators[idx]?).bind fun iter =>
    (w.tables a).map fun ht =>
      if iter.pos = htInvalidIdx then (htInvalidIdx, w)
      else if iter.ht ≠ a then
        let tables := release w.tables iter.ht
        match copy with
        | none =>
            (ht.nInternalPointer,
              { tables := register tables a
                htIterators := w.htIterators.set idx ⟨a, ht.nInternalPointer⟩ })
        | some c =>
            let dup := ht.zendArrayDup c.immutable c.self c.arData c.zNext
            (dup.nInternalPointer,
              { tables := register (update tables c.self (some dup)) c.self
                htIterators := w.htIterators.set idx ⟨c.self, dup.nInternalPointer⟩ })
      else (iter.pos, w)

/-- `zend_hash_init` at the address `a`. -/
def create (w : World V) (a nSize : Nat) (arData : Nat → Bucket V) (zNext : Nat → Nat) :
    Option (World V) :=
  (HashTable.zendHashInit a arData zNext [] nSize).toOption.map fun ht =>
    { w with tables := update w.tables a (some ht) }

end World

inductive WorldOp (V : Type*) where
  | init (a nSize : Nat) (arData : Nat → Bucket (Zval V)) (zNext : Nat → Nat)
  | insert (a : Nat) (key : ZendString) (v : Zval V) (flag : HashFlag)
  | indexInsert (a : Nat) (h : UInt64) (v : Zval V) (flag : HashFlag)
  | del (a : Nat) (key : ZendString)
  | indexDel (a : Nat) (h : UInt64)
  | iteratorAdd (a pos : Nat)
  | iteratorPos (idx a : Nat)
  | iteratorPosEx (idx a : Nat) (copy : Option (ArrayCopy V))
  | iteratorDel (idx : Nat)

def WorldOp.apply (w : World (Zval V)) : WorldOp V → Option (World (Zval V))
  | .init a nSize arData zNext => w.create a nSize arData zNext
  | .insert a key v flag => w.onTable a fun ht => (ht.zendHashAddOrUpdateI key v flag).map Prod.snd
  | .indexInsert a h v flag =>
      w.onTable a fun ht => (ht.zendHashIndexAddOrUpdateI h v flag).map Prod.snd
  | .del a key => w.onTable a fun ht => (ht.zendHashDel key).map Prod.snd
  | .indexDel a h => w.onTable a fun ht => (ht.zendHashIndexDel h).map Prod.snd
  | .iteratorAdd a pos => w.onTable a fun ht => .ok (ht.zendHashIteratorAdd pos).2
  | .iteratorPos idx a => (w.zendHashIteratorPos idx a).map Prod.snd
  | .iteratorPosEx idx a copy => (w.zendHashIteratorPosEx idx a copy).map Prod.snd
  | .iteratorDel idx => w.zendHashIteratorDel idx

def worldSystem (V : Type*) : EventSystem (World (Zval V)) (WorldOp V) where
  step w op := op.apply w

namespace World

open HashTable

variable {w w' : World V} {a b c p : Nat} {l : List HashTableIterator} {iter : HashTableIterator}

def view (w : World V) (ht : HashTable V) : HashTable V := { ht with htIterators := w.htIterators }

structure Sane (w : World V) : Prop where
  self_eq : ∀ a ht, w.tables a = some ht → ht.self = a
  address : ∀ a ht, w.tables a = some ht → a ≠ 0 ∧ a ≠ htPoisonedPtr
  attached : ∀ a ht, w.tables a = some ht → (w.view ht).Attached

theorem onTable_eq_some {f : HashTable V → Except HashStop (HashTable V)}
    (h : w.onTable a f = some w') : ∃ o ht, w.tables a = some o ∧ f (w.view o) = .ok ht ∧
      w' = { tables := update w.tables a (some ht), htIterators := ht.htIterators } := by
  obtain ⟨o, ho, h⟩ := bind_eq_some_iff.mp h
  obtain ⟨ht, hres, heq⟩ := map_eq_some_iff.mp h
  refine ⟨o, ht, ho, ?_, heq.symm⟩
  show f { o with htIterators := w.htIterators } = .ok ht
  cases hfo : f { o with htIterators := w.htIterators } with
  | error stop =>
    rw [hfo] at hres
    cases hres
  | ok ht' =>
    rw [hfo] at hres
    rw [some.inj hres]

theorem update_eq_some {tables : Nat → Option (HashTable V)} {o : Option (HashTable V)}
    {ht : HashTable V} (h : update tables a o c = some ht) :
    c = a ∧ o = some ht ∨ c ≠ a ∧ tables c = some ht := by
  by_cases hca : c = a
  · rw [hca, update_self] at h
    exact .inl ⟨hca, h⟩
  · rw [update_of_ne hca] at h
    exact .inr ⟨hca, h⟩

theorem Sane.onTable (hw : w.Sane) {f : HashTable V → Except HashStop (HashTable V)}
    (hf : ∀ o ht, o.Attached → f o = .ok ht → Carried o ht) (hstep : w.onTable a f = some w') :
    w'.Sane := by
  obtain ⟨o, ht, ho, hres, rfl⟩ := onTable_eq_some hstep
  have hcarried : Carried (w.view o) ht := hf _ _ (hw.attached a o ho) hres
  have hself : ht.self = a := hcarried.self_eq.trans (hw.self_eq a o ho)
  refine ⟨fun c ht' hc => ?_, fun c ht' hc => ?_, fun c ht' hc => ?_⟩
  · rcases update_eq_some hc with ⟨rfl, heq⟩ | ⟨_, hc⟩
    · rw [← some.inj heq]
      exact hself
    · exact hw.self_eq c ht' hc
  · rcases update_eq_some hc with ⟨rfl, _⟩ | ⟨_, hc⟩
    · exact hw.address c o ho
    · exact hw.address c ht' hc
  · rcases update_eq_some hc with ⟨rfl, heq⟩ | ⟨hca, hc⟩
    · rw [← some.inj heq]
      exact hcarried.toAttached
    · -- the iterators of the other tables are left alone
      have hold := hw.attached c ht' hc
      have hcself := hw.self_eq c ht' hc
      refine ⟨hold.fresh, hold.counter, ?_, fun iter hmem hown => ?_, hold.pointer⟩
      · show ht'.nIteratorsCount = 255 ∨ attachedTo ht.htIterators ht'.self ≤ ht'.nIteratorsCount
        rw [hcarried.attachedTo_eq]
        exact hold.counted
      · refine hold.placed iter (hcarried.mem_of_ne hmem fun heq => hca ?_) hown
        rw [← hcself, ← hw.self_eq a o ho]
        exact hown.symm.trans heq

/-- The iterator of the table at `b` is one of the table at `a` now, on slot `p`. -/
structure Reassigned (l l' : List HashTableIterator) (b a p : Nat) : Prop where
  count : ∀ c ≠ 0, attachedTo l' c + (if b = c then 1 else 0) =
    attachedTo l c + (if a = c then 1 else 0)
  mem : ∀ iter ∈ l', iter.ht ≠ 0 → iter ∈ l ∨ iter = ⟨a, p⟩

/-- The counter of the table at `c`. -/
def counterAfter (b a c n : Nat) : Nat :=
  let n := if b = c then if n ≠ 255 then (n + 255) % 256 else n else n
  if a = c then if n ≠ 255 then n + 1 else n else n

theorem counterAfter_counted {n m m' : Nat} (hle : n ≤ 255) (hcounted : n = 255 ∨ m ≤ n)
    (hcount : m' + (if b = c then 1 else 0) = m + (if a = c then 1 else 0)) :
    counterAfter b a c n ≤ 255 ∧ (counterAfter b a c n = 255 ∨ m' ≤ counterAfter b a c n) := by
  unfold counterAfter
  dsimp only
  by_cases hbc : b = c
  · by_cases hac : a = c
    · rw [if_pos hbc, if_pos hac] at hcount ⊢
      split
      · split
        · omega
        · omega
      · omega
    · rw [if_pos hbc, if_neg hac] at hcount ⊢
      split
      · omega
      · omega
  · by_cases hac : a = c
    · rw [if_neg hbc, if_pos hac] at hcount ⊢
      split
      · omega
      · omega
    · rw [if_neg hbc, if_neg hac] at hcount ⊢
      omega

theorem Sane.reassign (hw : w.Sane) {tables : Nat → Option (HashTable V)}
    (hl : Reassigned w.htIterators l b a p)
    (htables : ∀ c ht, tables c = some ht → ∃ o, w.tables c = some o ∧
      { ht with htIterators := l } =
        { o with nIteratorsCount := counterAfter b a c o.nIteratorsCount, htIterators := l })
    (hpos : ∀ ht, w.tables a = some ht → ht.Positioned p) :
    Sane { tables, htIterators := l } := by
  refine ⟨fun c ht hc => ?_, fun c ht hc => ?_, fun c ht hc => ?_⟩
  · obtain ⟨o, ho, heq⟩ := htables c ht hc
    exact (congrArg HashTable.self heq).trans (hw.self_eq c o ho)
  · obtain ⟨o, ho, -⟩ := htables c ht hc
    exact hw.address c o ho
  · obtain ⟨o, ho, heq⟩ := htables c ht hc
    obtain ⟨hnull, -⟩ := hw.address c o ho
    have hself := hw.self_eq c o ho
    have hold := hw.attached c o ho
    show Attached { ht with htIterators := l }
    rw [heq]
    have hcounted : o.nIteratorsCount = 255 ∨ attachedTo w.htIterators c ≤ o.nIteratorsCount := by
      rw [← hself]
      exact hold.counted
    obtain ⟨hle, hcounted'⟩ := counterAfter_counted hold.counter hcounted (hl.count c hnull)
    refine ⟨hold.fresh, hle, ?_, fun iter hmem hown => ?_, hold.pointer⟩
    · show _ ∨ attachedTo l o.self ≤ _
      rw [hself]
      exact hcounted'
    · have hown : iter.ht = c := hown.trans hself
      rcases hl.mem iter hmem (by omega) with hmem | rfl
      · exact hold.placed iter hmem (hown.trans hself.symm)
      · have hac : a = c := hown
        exact hpos o (hac ▸ ho)

/-! ## Which iterators change tables -/

theorem attachedTo_append (l l' : List HashTableIterator) (c : Nat) :
    attachedTo (l ++ l') c = attachedTo l c + attachedTo l' c := countP_append

theorem attachedTo_cons (iter : HashTableIterator) (l : List HashTableIterator) (c : Nat) :
    attachedTo (iter :: l) c = attachedTo l c + (if iter.ht = c then 1 else 0) := by
  unfold attachedTo
  rw [countP_cons]
  simp

theorem eq_take_cons_drop {n : Nat} (hn : l[n]? = some iter) :
    l = l.take n ++ iter :: l.drop (n + 1) := by
  obtain ⟨hlt, hget⟩ := List.getElem?_eq_some_iff.mp hn
  rw [← hget, ← drop_eq_getElem_cons hlt, take_append_drop]

theorem reassigned_set {n : Nat} (hn : l[n]? = some iter) :
    Reassigned l (l.take n ++ ⟨a, p⟩ :: l.drop (n + 1)) iter.ht a p := by
  have hsplit := eq_take_cons_drop hn
  refine ⟨fun c _ => ?_, fun x hmem _ => ?_⟩
  · conv_rhs => rw [hsplit]
    rw [attachedTo_append, attachedTo_append, attachedTo_cons, attachedTo_cons]
    dsimp only
    omega
  · rcases mem_append.mp hmem with hmem | hmem
    · exact .inl (mem_of_mem_take hmem)
    · rcases mem_cons.mp hmem with heq | hmem
      · exact .inr heq
      · exact .inl (mem_of_mem_drop hmem)

theorem reassigned_add (ht : HashTable V) (pos : Nat) :
    Reassigned ht.htIterators (ht.zendHashIteratorAdd pos).2.htIterators 0 ht.self pos := by
  show Reassigned ht.htIterators (ht.htIterators.take _ ++ _ :: ht.htIterators.drop _) 0 ht.self pos
  generalize hidx : ht.htIterators.findIdx (fun iter => iter.ht == 0) = idx
  rcases Nat.lt_or_ge idx ht.htIterators.length with hlt | hge
  · have hfree : (ht.htIterators[idx]).ht = 0 := by
      subst hidx
      exact beq_iff_eq.mp (findIdx_getElem (w := hlt))
    have hset := @reassigned_set ht.self pos ht.htIterators _ idx (List.getElem?_eq_getElem hlt)
    rw [hfree] at hset
    exact hset
  · rw [take_of_length_le hge, drop_of_length_le (by omega)]
    refine ⟨fun c hc => ?_, fun iter hmem _ => ?_⟩
    · rw [attachedTo_append, attachedTo_cons, if_neg (Ne.symm hc)]
      show _ + (0 + _) + 0 = _
      dsimp only
      omega
    · exact (mem_append.mp hmem).imp_right mem_singleton.mp

theorem attachedTo_rdropWhile (hc : c ≠ 0) :
    attachedTo (l.rdropWhile fun iter => iter.ht == 0) c = attachedTo l c := by
  induction l using List.reverseRecOn with
  | nil => rfl
  | append_singleton l iter ih =>
    rw [rdropWhile_concat]
    split
    · rename_i hnull
      rw [ih, attachedTo_append, attachedTo_cons, if_neg]
      · rfl
      · intro heq
        exact hc (heq.symm.trans (beq_iff_eq.mp hnull))
    · rfl

theorem reassigned_del {n : Nat} (hn : l[n]? = some iter) :
    Reassigned l (if n + 1 = l.length then (l.take n).rdropWhile fun iter => iter.ht == 0
      else l.set n { iter with ht := 0 }) iter.ht 0 iter.pos := by
  obtain ⟨hlt, -⟩ := List.getElem?_eq_some_iff.mp hn
  split
  · rename_i hlast
    have hsplit := eq_take_cons_drop hn
    rw [drop_of_length_le (Nat.le_of_eq hlast.symm)] at hsplit
    refine ⟨fun c hc => ?_, fun x hmem _ => .inl ?_⟩
    · conv_rhs => rw [hsplit]
      rw [attachedTo_rdropWhile hc, attachedTo_append, attachedTo_cons, if_neg (Ne.symm hc)]
      show _ = _ + (0 + _) + 0
      omega
    · exact mem_of_mem_take ((List.rdropWhile_prefix _ _).subset hmem)
  · rw [set_eq_take_append_cons_drop, if_pos hlt]
    exact reassigned_set hn

/-! ## The calls on iterators -/

theorem Sane.release_eq_some (hw : w.Sane) {ht : HashTable V}
    (h : release w.tables b c = some ht) :
    ∃ o, w.tables c = some o ∧ ht = { o with nIteratorsCount := if b = c then
      if o.nIteratorsCount ≠ 255 then (o.nIteratorsCount + 255) % 256 else o.nIteratorsCount
      else o.nIteratorsCount } := by
  unfold release at h
  split at h
  · rcases update_eq_some h with ⟨rfl, h⟩ | ⟨hne, h⟩
    · obtain ⟨o, ho, rfl⟩ := map_eq_some_iff.mp h
      refine ⟨o, ho, ?_⟩
      rw [@if_pos (c = c) _ rfl]
      by_cases hmax : o.nIteratorsCount ≠ 255
      · rw [if_pos hmax, if_pos hmax]
      · rw [if_neg hmax, if_neg hmax]
    · exact ⟨ht, h, by rw [if_neg (Ne.symm hne)]⟩
  · rename_i hb
    exact ⟨ht, h, by rw [if_neg fun hbc : b = c => hb (hbc ▸ hw.address c ht h)]⟩

theorem register_eq_some {tables : Nat → Option (HashTable V)} {ht : HashTable V}
    (h : register tables a c = some ht) : ∃ o, tables c = some o ∧
      ht = { o with nIteratorsCount := if a = c then
        if o.nIteratorsCount ≠ 255 then o.nIteratorsCount + 1 else o.nIteratorsCount
        else o.nIteratorsCount } := by
  rcases update_eq_some h with ⟨rfl, h⟩ | ⟨hne, h⟩
  · obtain ⟨o, ho, rfl⟩ := map_eq_some_iff.mp h
    refine ⟨o, ho, ?_⟩
    rw [@if_pos (c = c) _ rfl]
    by_cases hmax : o.nIteratorsCount ≠ 255
    · rw [if_pos hmax, if_pos hmax]
    · rw [if_neg hmax, if_neg hmax]
  · exact ⟨ht, h, by rw [if_neg (Ne.symm hne)]⟩

theorem Sane.zendHashIteratorPos {idx : Nat} {r : Nat × World V} (hw : w.Sane)
    (hstep : w.zendHashIteratorPos idx a = some r) : r.2.Sane := by
  obtain ⟨iter, hiter, hstep⟩ := bind_eq_some_iff.mp hstep
  obtain ⟨ht, hht, rfl⟩ := map_eq_some_iff.mp hstep
  split
  · exact hw
  · split
    · have hset : Reassigned w.htIterators (w.htIterators.set idx ⟨a, ht.nInternalPointer⟩)
          iter.ht a ht.nInternalPointer := by
        rw [set_eq_take_append_cons_drop, if_pos (List.getElem?_eq_some_iff.mp hiter).1]
        exact reassigned_set hiter
      refine hw.reassign hset (fun c ht' hc => ?_) fun o ho => ?_
      · obtain ⟨m, hm, rfl⟩ := register_eq_some hc
        obtain ⟨o, ho, rfl⟩ := hw.release_eq_some hm
        exact ⟨o, ho, rfl⟩
      · rw [← some.inj (hht.symm.trans ho)]
        exact (hw.attached a ht hht).pointer
    · exact hw

theorem Sane.zendHashIteratorDel {idx : Nat} (hw : w.Sane)
    (hstep : w.zendHashIteratorDel idx = some w') : w'.Sane := by
  obtain ⟨iter, hiter, rfl⟩ := map_eq_some_iff.mp hstep
  refine hw.reassign (reassigned_del hiter) (fun c ht hc => ?_) fun o ho => ?_
  · obtain ⟨o, ho, rfl⟩ := hw.release_eq_some hc
    refine ⟨o, ho, ?_⟩
    unfold counterAfter
    rw [if_neg (hw.address c o ho).1.symm]
  · exact absurd rfl (hw.address 0 o ho).1

theorem Sane.zendHashIteratorAdd {pos : Nat} (hw : w.Sane)
    (hpos : ∀ ht, w.tables a = some ht → ht.Positioned pos)
    (hstep : w.onTable a (fun ht => .ok (ht.zendHashIteratorAdd pos).2) = some w') : w'.Sane := by
  obtain ⟨o, ht, ho, hres, rfl⟩ := onTable_eq_some hstep
  have hadd := reassigned_add (w.view o) pos
  rw [show (w.view o).self = a from hw.self_eq a o ho] at hadd
  rw [← Except.ok.inj hres]
  refine hw.reassign hadd (fun c ht' hc => ?_) hpos
  unfold counterAfter
  rcases update_eq_some hc with ⟨rfl, hadded⟩ | ⟨hne, hother⟩
  · refine ⟨o, ho, ?_⟩
    have hcounter : (if o.nIteratorsCount = 255 then 255 else o.nIteratorsCount + 1) =
        if o.nIteratorsCount ≠ 255 then o.nIteratorsCount + 1 else o.nIteratorsCount := by
      by_cases hmax : o.nIteratorsCount = 255
      · rw [if_pos hmax, if_neg (not_not.mpr hmax), hmax]
      · rw [if_neg hmax, if_pos hmax]
    dsimp only
    rw [if_neg (hw.address c o ho).1.symm, @if_pos (c = c) _ rfl, ← some.inj hadded,
      ← hcounter]
    rfl
  · refine ⟨ht', hother, ?_⟩
    dsimp only
    rw [if_neg (hw.address c ht' hother).1.symm, if_neg (Ne.symm hne)]

/-! ## New tables -/

/-- No table is at the address `a`, and no iterator belongs to it. -/
def Free (w : World V) (a : Nat) : Prop :=
  w.tables a = none ∧ a ≠ 0 ∧ a ≠ htPoisonedPtr ∧ ∀ iter ∈ w.htIterators, iter.ht ≠ a

theorem Sane.withTable (hw : w.Sane) (hfree : w.Free a) {ht : HashTable V} (hself : ht.self = a)
    (hfresh : ht.initialized = false → ht.packed = false ∧ ht.nNumUsed = 0)
    (hcounter : ht.nIteratorsCount ≤ 255) (hpointer : ht.Positioned ht.nInternalPointer) :
    Sane { w with tables := update w.tables a (some ht) } := by
  obtain ⟨-, hnull, hpoison, hnone⟩ := hfree
  refine ⟨fun c ht' hc => ?_, fun c ht' hc => ?_, fun c ht' hc => ?_⟩
  · rcases update_eq_some hc with ⟨rfl, heq⟩ | ⟨_, hc⟩
    · rw [← some.inj heq]
      exact hself
    · exact hw.self_eq c ht' hc
  · rcases update_eq_some hc with ⟨rfl, _⟩ | ⟨_, hc⟩
    · exact ⟨hnull, hpoison⟩
    · exact hw.address c ht' hc
  · rcases update_eq_some hc with ⟨rfl, heq⟩ | ⟨_, hc⟩
    · rw [← some.inj heq]
      refine ⟨hfresh, hcounter, .inr ?_, fun iter hmem hown => ?_, hpointer⟩
      · show attachedTo w.htIterators ht.self ≤ ht.nIteratorsCount
        have hzero : attachedTo w.htIterators ht.self = 0 := by
          rw [hself]
          exact countP_eq_zero.mpr fun iter hmem => by simpa using hnone iter hmem
        omega
      · exact absurd (hown.trans hself) (hnone iter hmem)
    · exact hw.attached c ht' hc

theorem Sane.create (hw : w.Sane) (hfree : w.Free a) {nSize : Nat} {arData : Nat → Bucket V}
    {zNext : Nat → Nat} (hstep : w.create a nSize arData zNext = some w') : w'.Sane := by
  obtain ⟨ht, hres, rfl⟩ := map_eq_some_iff.mp hstep
  unfold zendHashInit at hres
  cases hsize : zendHashCheckSize nSize with
  | error stop =>
    rw [hsize] at hres
    cases hres
  | ok size =>
    rw [hsize] at hres
    rw [← some.inj hres]
    exact hw.withTable hfree rfl (fun _ => ⟨rfl, rfl⟩) (Nat.zero_le _) (.inr (.inl rfl))

theorem zendArrayDup_carried {source : HashTable (Zval V)} {immutable : Bool}
    (h : Duplicable source immutable) (self : Nat) (arData : Nat → Bucket (Zval V))
    (zNext : Nat → Nat) :
    let dup := source.zendArrayDup immutable self arData zNext
    dup.self = self ∧ dup.nIteratorsCount = source.nIteratorsCount ∧
      (dup.initialized = false → dup.packed = false ∧ dup.nNumUsed = 0) ∧
      dup.Positioned dup.nInternalPointer := by
  have hcopy : Duplicates source (source.zendArrayDup immutable self arData zNext) →
      ((source.zendArrayDup immutable self arData zNext).initialized = false →
        (source.zendArrayDup immutable self arData zNext).packed = false ∧
          (source.zendArrayDup immutable self arData zNext).nNumUsed = 0) ∧
      (source.zendArrayDup immutable self arData zNext).Positioned
        (source.zendArrayDup immutable self arData zNext).nInternalPointer := by
    intro hdup
    refine ⟨fun huninit => ?_, ?_⟩
    · obtain ⟨hpacked, hused, -⟩ := hdup.valid.uninit huninit
      exact ⟨hpacked, hused⟩
    · rcases hdup.pointer with hend | hlive
      · exact .inr (.inl hend)
      · exact .inl hlive
  have hpoint : ∀ ht : HashTable (Zval V), ht.pointToFirst.self = ht.self ∧
      ht.pointToFirst.nIteratorsCount = ht.nIteratorsCount := by
    intro ht
    unfold pointToFirst
    split
    · exact ⟨rfl, rfl⟩
    · exact ⟨rfl, rfl⟩
  have hpack : ∀ (withHoles : Bool) (n i : Nat) (target : HashTable (Zval V)),
      (dupPackedElements source withHoles target i n).self = target.self ∧
        (dupPackedElements source withHoles target i n).nIteratorsCount =
          target.nIteratorsCount := by
    intro withHoles n
    induction n with
    | zero => exact fun i target => ⟨rfl, rfl⟩
    | succ n ih => exact fun i target => ih (i + 1) _
  dsimp only
  by_cases hused : source.nNumUsed = 0
  · have hhead : (source.zendArrayDup immutable self arData zNext).self = self ∧
        (source.zendArrayDup immutable self arData zNext).nIteratorsCount =
          source.nIteratorsCount := by
      unfold zendArrayDup
      dsimp only
      rw [if_pos hused]
      exact ⟨rfl, rfl⟩
    exact ⟨hhead.1, hhead.2, hcopy (duplicates_empty h hused)⟩
  · cases immutable with
    | true =>
      have hhead : (source.zendArrayDup true self arData zNext).self = self ∧
          (source.zendArrayDup true self arData zNext).nIteratorsCount =
            source.nIteratorsCount := by
        unfold zendArrayDup
        dsimp only
        rw [if_neg hused, if_pos rfl]
        exact hpoint _
      exact ⟨hhead.1, hhead.2, hcopy (duplicates_immutable h hused)⟩
    | false =>
      cases hpacked : source.packed with
      | true =>
        have hhead : (source.zendArrayDup false self arData zNext).self = self ∧
            (source.zendArrayDup false self arData zNext).nIteratorsCount =
              source.nIteratorsCount := by
          unfold zendArrayDup
          dsimp only
          rw [if_neg hused, if_neg (by decide), if_pos hpacked, (hpoint _).1, (hpoint _).2]
          exact hpack _ _ _ _
        exact ⟨hhead.1, hhead.2, hcopy (duplicates_packed h hused hpacked)⟩
      | false =>
        -- a hashed copy has no holes
        have hre := rehashed_dupElements h.valid.toSound self arData zNext
        dsimp only at hre
        unfold zendArrayDup
        dsimp only
        rw [if_neg hused, if_neg (by decide), if_neg (by rw [hpacked]; decide)]
        generalize dupElements source (!source.isWithoutHoles)
          (hashReset { source with self, arData, zNext }) 0 source.nNumUsed = dup at hre
        obtain ⟨ht, idx⟩ := dup
        dsimp only at hre ⊢
        have hinit : ht.initialized = true :=
          hre.head.initialized_eq.trans (h.valid.initialized hused)
        have hhashed : ht.packed = false := hre.head.packed_eq.trans hpacked
        have hpos : ∀ (ht' : HashTable (Zval V)) (p : Nat), ht'.initialized = ht.initialized →
            ht'.packed = ht.packed → ht'.arData = ht.arData → ht'.nNumUsed = idx →
            ht'.Positioned p := by
          intro ht' p hinit' hpacked' hdata hidx
          rcases Nat.lt_or_ge p idx with hlt | hge
          · refine .inl ⟨hidx ▸ hlt, ?_⟩
            rw [isLive, hdata]
            exact hre.compacted.isLive hlt
          · exact .inr (.inr ⟨hinit'.trans hinit, hpacked'.trans hhashed, hidx ▸ hge⟩)
        split
        · exact ⟨hre.head.self_eq, hre.head.iteratorsCount_eq,
            fun hun => absurd (hinit.symm.trans hun) (by decide), hpos _ _ rfl rfl rfl rfl⟩
        · exact ⟨hre.head.self_eq, hre.head.iteratorsCount_eq,
            fun hun => absurd (hinit.symm.trans hun) (by decide), hpos _ _ rfl rfl rfl rfl⟩

theorem release_update {tables : Nat → Option (HashTable V)} {o : Option (HashTable V)}
    (hne : b ≠ c) :
    release (update tables c o) b = update (release tables b) c o := by
  unfold release
  split
  · rw [update_of_ne hne, update_comm hne]
  · rfl

section Runs

variable {w w' : World (Zval V)} {a b c p idx : Nat}

def empty (V : Type*) : World V := { tables := fun _ => none, htIterators := [] }

theorem sane_empty (V : Type*) : (empty V).Sane :=
  ⟨fun _ _ h => (by cases h), fun _ _ h => (by cases h), fun _ _ h => (by cases h)⟩

/-- What the callers see to: new tables are at free addresses, an iterator is added on an element or
past the end, and only arrays are copied. -/
def Allows (w : World (Zval V)) : WorldOp V → Prop
  | .init a _ _ _ => w.Free a
  | .iteratorAdd a pos => ∀ ht, w.tables a = some ht → ht.Positioned pos
  | .iteratorPosEx _ a (some c) =>
      w.Free c.self ∧ ∀ ht, w.tables a = some ht → Duplicable ht c.immutable
  | _ => True

theorem Sane.zendHashIteratorPosEx {copy : Option (ArrayCopy V)} {r : Nat × World (Zval V)}
    (hw : w.Sane) (hallows : w.Allows (.iteratorPosEx idx a copy))
    (hstep : w.zendHashIteratorPosEx idx a copy = some r) : r.2.Sane := by
  cases copy with
  | none => exact hw.zendHashIteratorPos hstep
  | some c =>
    obtain ⟨hfree, hdup⟩ := hallows
    obtain ⟨iter, hiter, hstep⟩ := bind_eq_some_iff.mp hstep
    obtain ⟨ht, hht, rfl⟩ := map_eq_some_iff.mp hstep
    dsimp only
    split
    · exact hw
    · rename_i hpos
      split
      · obtain ⟨hself, hcount, hfresh, hpointer⟩ :=
          zendArrayDup_carried (hdup ht hht) c.self c.arData c.zNext
        have hcreated := hw.withTable hfree hself hfresh
          (hcount ▸ (hw.attached a ht hht).counter) hpointer
        have hne : iter.ht ≠ c.self := hfree.2.2.2 iter (mem_of_getElem? hiter)
        generalize ht.zendArrayDup c.immutable c.self c.arData c.zNext = dup at hcreated ⊢
        -- the iterator goes to the copy as it goes to any other table
        have hmoved : World.zendHashIteratorPos
            { w with tables := update w.tables c.self (some dup) } idx c.self =
            some (dup.nInternalPointer,
              { tables := register (update (release w.tables iter.ht) c.self (some dup))
                  c.self
                htIterators := w.htIterators.set idx ⟨c.self, dup.nInternalPointer⟩ }) := by
          unfold World.zendHashIteratorPos
          dsimp only
          rw [hiter, update_self, bind_some, map_some, if_neg hpos,
            if_pos hne, release_update hne]
        exact hcreated.zendHashIteratorPos hmoved
      · exact hw

theorem exists_of_map_ok {ε α β : Type*} {x : Except ε α} {g : α → β} {y : β}
    (h : x.map g = .ok y) : ∃ r, x = .ok r ∧ g r = y := by
  cases x with
  | error e => cases h
  | ok r => exact ⟨r, rfl, Except.ok.inj h⟩

theorem Sane.apply {op : WorldOp V} (hw : w.Sane) (hallows : w.Allows op)
    (hstep : op.apply w = some w') : w'.Sane := by
  cases op with
  | init a nSize arData zNext => exact hw.create hallows hstep
  | insert a key v flag =>
    refine hw.onTable (a := a) (f := fun ht => (ht.zendHashAddOrUpdateI key v flag).map Prod.snd)
      (fun o ht ho hres => ?_) hstep
    obtain ⟨r, hr, rfl⟩ := exists_of_map_ok hres
    exact ho.zendHashAddOrUpdateI hr
  | indexInsert a h v flag =>
    refine hw.onTable (a := a) (f := fun ht => (ht.zendHashIndexAddOrUpdateI h v flag).map Prod.snd)
      (fun o ht ho hres => ?_) hstep
    obtain ⟨r, hr, rfl⟩ := exists_of_map_ok hres
    exact ho.zendHashIndexAddOrUpdateI hr
  | del a key =>
    refine hw.onTable (a := a) (f := fun ht => (ht.zendHashDel key).map Prod.snd)
      (fun o ht ho hres => ?_) hstep
    obtain ⟨r, hr, rfl⟩ := exists_of_map_ok hres
    rcases o.zendHashDel_eq key hr with ⟨-, heq⟩ | ⟨idx, prev, -, heq⟩
    · exact heq ▸ ho.refl
    · exact heq ▸ ho.zendHashDelElEx idx prev
  | indexDel a h =>
    refine hw.onTable (a := a) (f := fun ht => (ht.zendHashIndexDel h).map Prod.snd)
      (fun o ht ho hres => ?_) hstep
    obtain ⟨r, hr, rfl⟩ := exists_of_map_ok hres
    rcases o.zendHashIndexDel_eq h hr with ⟨-, heq⟩ | ⟨idx, prev, -, heq⟩
    · exact heq ▸ ho.refl
    · exact heq ▸ ho.zendHashDelElEx idx prev
  | iteratorAdd a pos => exact hw.zendHashIteratorAdd hallows hstep
  | iteratorPos idx a =>
    obtain ⟨r, hr, rfl⟩ := map_eq_some_iff.mp hstep
    exact hw.zendHashIteratorPos hr
  | iteratorPosEx idx a copy =>
    obtain ⟨r, hr, rfl⟩ := map_eq_some_iff.mp hstep
    exact hw.zendHashIteratorPosEx hallows hr
  | iteratorDel idx => exact hw.zendHashIteratorDel hstep

def deletes (w : World (Zval V)) : WorldOp V → Option (Nat × Nat)
  | .del a key => (w.tables a).bind fun ht =>
      (ht.zendHashFindBucket key).toOption.join.map fun idx => (a, idx)
  | .indexDel a h => (w.tables a).bind fun ht =>
      (ht.indexSlot h).toOption.join.map fun idx => (a, idx)
  | _ => none

/-- Each iterator of a table is on an element or past the end, and the counter of the table is not
0. -/
def IteratorsPlaced (w : World (Zval V)) : Prop :=
  ∀ a ht, w.tables a = some ht → ∀ iter ∈ w.htIterators, iter.ht = a →
    (ht.OnElementOrEnd iter.pos ∨ ht.nNumUsed ≤ iter.pos) ∧ ht.nIteratorsCount ≠ 0

/-- The iterators on slot `idx` of the table `ht` at the address `a` go to the next element, and the
others stay. -/
def MovesOn (w w' : World (Zval V)) (a idx : Nat) (ht : HashTable (Zval V)) : Prop :=
  List.Forall₂ (fun iter iter' => iter'.ht = iter.ht ∧
    (iter.ht = a ∧ iter.pos = idx → ht.IsNextLive idx iter'.pos) ∧
    (¬(iter.ht = a ∧ iter.pos = idx) → iter' = iter)) w.htIterators w'.htIterators

theorem Sane.iteratorsPlaced (hw : w.Sane) : w.IteratorsPlaced := by
  intro a ht hht iter hmem hown
  have hself : iter.ht = ht.self := hown.trans (hw.self_eq a ht hht).symm
  have hatt := hw.attached a ht hht
  refine ⟨?_, hatt.count_ne_zero hmem hself⟩
  rcases hatt.placed iter hmem hself with hlive | hend | ⟨_, _, hge⟩
  · exact .inl (.inr hlive)
  · exact .inl (.inl hend)
  · exact .inr hge

theorem Sane.movesOn_of_delete {b : Nat} (hw : w.Sane)
    {delete : HashTable (Zval V) → Except HashStop (Bool × HashTable (Zval V))}
    {find : HashTable (Zval V) → Except HashStop (Option Nat)}
    (hdelete : ∀ ht r, delete ht = .ok r → find ht = .ok none ∧ r.2 = ht ∨
      ∃ idx prev, find ht = .ok (some idx) ∧ r.2 = ht.zendHashDelElEx idx prev)
    (hview : ∀ ht, find (w.view ht) = find ht)
    (hstep : w.onTable b (fun ht => (delete ht).map Prod.snd) = some w')
    (hdeletes : ((w.tables b).bind fun ht =>
      (find ht).toOption.join.map fun idx => (b, idx)) = some (a, idx)) :
    ∃ ht, w.tables a = some ht ∧ w.MovesOn w' a idx ht := by
  obtain ⟨o, ht, ho, hres, rfl⟩ := onTable_eq_some hstep
  obtain ⟨o', ho', hfound⟩ := bind_eq_some_iff.mp hdeletes
  rw [← some.inj (ho.symm.trans ho')] at hfound
  obtain ⟨r, hr, rfl⟩ := exists_of_map_ok hres
  obtain ⟨slot, hslot, heq⟩ := map_eq_some_iff.mp hfound
  obtain ⟨rfl, rfl⟩ := Prod.mk.inj heq
  rcases hdelete _ _ hr with ⟨hnone, -⟩ | ⟨found, prev, hsome, hr2⟩
  · rw [← hview, hnone] at hslot
    cases hslot
  · rw [← hview, hsome] at hslot
    rw [some.inj hslot] at hr2
    refine ⟨o, ho, ?_⟩
    have hself : (w.view o).self = b := hw.self_eq b o ho
    obtain ⟨hnext, -⟩ := (w.view o).isNextLive_successor slot
    show List.Forall₂ _ w.htIterators r.2.htIterators
    rw [hr2, (zendHashDelElEx_cursors _ slot prev).1]
    unfold zendHashIteratorsUpdate
    split
    · -- the table has no iterators
      rename_i hzero
      refine forall₂_same.mpr fun iter hmem => ⟨rfl, fun hat => ?_, fun _ => rfl⟩
      exact absurd hzero
        ((hw.attached b o ho).count_ne_zero hmem (hat.1.trans hself.symm))
    · rw [hself]
      show List.Forall₂ _ w.htIterators (w.htIterators.map _)
      rw [forall₂_map_right_iff, forall₂_same]
      intro iter _
      by_cases hat : iter.ht = b ∧ iter.pos = slot
      · rw [if_pos hat]
        exact ⟨rfl, fun _ => hnext, fun hnot => absurd hat hnot⟩
      · rw [if_neg hat]
        exact ⟨rfl, fun hat' => absurd hat' hat, fun _ => rfl⟩

theorem Sane.movesOn {op : WorldOp V} (hw : w.Sane) (hstep : op.apply w = some w')
    (hdeletes : w.deletes op = some (a, idx)) :
    ∃ ht, w.tables a = some ht ∧ w.MovesOn w' a idx ht := by
  cases op with
  | del b key =>
    exact hw.movesOn_of_delete (fun ht _ => ht.zendHashDel_eq key) (fun _ => rfl) hstep hdeletes
  | indexDel b h =>
    exact hw.movesOn_of_delete (fun ht _ => ht.zendHashIndexDel_eq h) (fun _ => rfl) hstep hdeletes
  | init _ _ _ _ => cases hdeletes
  | insert _ _ _ _ => cases hdeletes
  | indexInsert _ _ _ _ => cases hdeletes
  | iteratorAdd _ _ => cases hdeletes
  | iteratorPos _ _ => cases hdeletes
  | iteratorPosEx _ _ _ => cases hdeletes
  | iteratorDel _ => cases hdeletes

/-- **Iterators survive.** Whatever is called, each iterator is on an element or past the end, no
counter is 0 while its table has an iterator, and each deletion moves the iterators on its element
to the next one. -/
theorem iteratorsSurvive {ops : List (WorldOp V)} (hw : w.Sane)
    (hrun : (worldSystem V).Run Allows w ops w') :
    w'.IteratorsPlaced ∧ ∀ (op : WorldOp V) (w'' : World (Zval V)) (a idx : Nat),
      op.apply w' = some w'' → w'.deletes op = some (a, idx) →
        ∃ ht, w'.tables a = some ht ∧ w'.MovesOn w'' a idx ht := by
  have hsane : w'.Sane :=
    hrun.invariant (fun w op w' hw hallows hstep => hw.apply hallows hstep) hw
  exact ⟨hsane.iteratorsPlaced, fun op w'' a idx hstep hdeletes => hsane.movesOn hstep hdeletes⟩

def pairOps : List (WorldOp Nat) :=
  [.init 1 8 (fun _ => ⟨0, none, none⟩) fun _ => 0, .indexInsert 1 0 (.data (.plain 10)) HASH_ADD,
    .indexInsert 1 1 (.data (.plain 20)) HASH_ADD, .iteratorAdd 1 0]

theorem iteratorsSurvive_pairOps : ∃ w' : World (Zval Nat),
    (worldSystem Nat).Run Allows (empty (Zval Nat)) pairOps w' ∧ w'.htIterators = [⟨1, 0⟩] ∧
      w'.deletes (.indexDel 1 0) = some (1, 0) ∧
      w'.IteratorsPlaced ∧ ∀ (op : WorldOp Nat) (w'' : World (Zval Nat)) (a idx : Nat),
        op.apply w' = some w'' → w'.deletes op = some (a, idx) →
          ∃ ht, w'.tables a = some ht ∧ w'.MovesOn w'' a idx ht := by
  have hrun : ∃ w', (worldSystem Nat).Run Allows (empty (Zval Nat)) pairOps w' ∧
      w'.htIterators = [⟨1, 0⟩] ∧ w'.deletes (.indexDel 1 0) = some (1, 0) := by
    refine ⟨_, .cons ⟨rfl, by decide, by decide, fun iter h => (by cases h)⟩ rfl
      (.cons trivial rfl (.cons trivial rfl (.cons ?_ rfl (.nil _)))), rfl, rfl⟩
    intro ht hht
    rw [← some.inj hht]
    exact .inl ⟨by decide, by decide⟩
  obtain ⟨w', hrun, hiters, hdeletes⟩ := hrun
  exact ⟨w', hrun, hiters, hdeletes, iteratorsSurvive (sane_empty _) hrun⟩

end Runs

end World

end Phpce
