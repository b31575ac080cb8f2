import Mathlib.Data.List.Range
import Phpce.Tsrm.Registry

/-!
# Resources of coroutines

A start-up routine calls `ts_allocate_id` for every resource, and every coroutine runs it. The
coroutine that comes first makes the blocks of all; each constructs its own.

* **`Registered`** — the blocks of `n` coroutines after the first `k` calls of the routine.
* **`registerAll_first`**, **`registerAll_again`** — what the routine does in the first coroutine,
  and in the others.
* **`constructed_once`** — in the end every resource is constructed once for every coroutine.
-/

namespace Phpce

open List Option

/-- The arguments of a call of `ts_allocate_id`. -/
structure Registration where
  rsrcId : RsrcIdPtr
  size : Nat
  ctor : Option ResourceFn
  dtor : Option ResourceFn
  deriving DecidableEq, Repr

def Registration.type (r : Registration) : ResourceType := ⟨r.size, r.ctor, r.dtor, false⟩

namespace Tsrm

/-- One coroutine makes its calls: the ids it gets. -/
def registerAll (s : Tsrm) : List Registration → Option (List Nat × Tsrm)
  | [] => some ([], s)
  | r :: regs => do
    let (id, s) ← s.tsAllocateId r.rsrcId r.size r.ctor r.dtor
    let (ids, s) ← s.registerAll regs
    return (id :: ids, s)

def runCoroutines (regs : List Registration) (s : Tsrm) :
    List Nat → Option (List (List Nat) × Tsrm)
  | [] => some ([], s)
  | c :: order => do
    let (ids, s) ← (s.setForceThreadId c).registerAll regs
    let (idss, s) ← runCoroutines regs s order
    return (ids :: idss, s)

/-- The start of `n` coroutines in `main`. -/
def createCoroutines (n expectedResources : Nat) (pthreadSelf : ThreadT) : Option Tsrm :=
  tsrmSystem.exec (tsrmStartup n expectedResources pthreadSelf)
    ((List.range n).map .createTsrmTlsEntry)

def blockOf (s : Tsrm) (c id : Nat) : Option TsrmBlock :=
  (s.getTsrmTlsEntry c).bind fun p => (index (s.entries p).storage (unshuffleRsrcId id)).join

variable {s s' : Tsrm} {n c k : Nat} {r : Registration} {regs : List Registration}

/-! ## Start-up -/

/-- The first `k` of `n` coroutines have their entries. -/
structure Created (n k : Nat) (s : Tsrm) : Prop where
  sound : Sound s
  table : s.tlsTable = (List.range k).map ([·]) ++ List.replicate (n - k) []
  threads : ∀ c < k, s.entries c = ⟨[], c⟩
  unknown : ∀ a, ¬s.Known a
  idCount : s.idCount = 0
  entryMallocs : s.entryMallocs = k
  blockMallocs : s.blockMallocs = []
  calls : s.calls = []

theorem created_tsrmStartup (n expectedResources : Nat) (pthreadSelf : ThreadT) :
    Created n 0 (tsrmStartup n expectedResources pthreadSelf) :=
  ⟨sound_tsrmStartup _ _ _, rfl, nofun, nofun, rfl, rfl, rfl, rfl⟩

theorem Created.createTsrmTlsEntry (h : Created n k s) (hk : k < n) :
    ∃ s', s.createTsrmTlsEntry k = some s' ∧ Created n (k + 1) s' := by
  have hlen : k < s.tlsTable.length := by
    rw [h.table, length_append, length_map, length_range, length_replicate]
    omega
  have htake : s.resourceTypes.take s.idCount = [] := by rw [h.idCount, take_zero]
  have hcreate : s.createTsrmTlsEntry k = some { s with
      forceThreadId := k
      tlsTable := s.tlsTable.set k [k]
      entryMallocs := k + 1
      entries := Function.update s.entries k ⟨[], k⟩ } := by
    rw [Tsrm.createTsrmTlsEntry, if_pos hlen]
    unfold tsrmNewInterpreterContext allocateNewResource
    rw [tsrmThreadId_setForceThreadId]
    simp only [setForceThreadId, htake, foldl_nil, tsrmSetInterpreterContext, h.entryMallocs,
      toList_some]
  refine ⟨_, hcreate, h.sound.createTsrmTlsEntry hcreate, ?_, fun c hc => ?_, h.unknown, h.idCount,
    rfl, h.blockMallocs, h.calls⟩
  · obtain ⟨m, hm⟩ : ∃ m, n - k = m + 1 := ⟨n - k - 1, by omega⟩
    have hm' : n - (k + 1) = m := by omega
    have hleft : ((List.range k).map ([·])).length = k := by rw [length_map, length_range]
    dsimp only
    rw [h.table, set_append_right _ _ (Nat.le_of_eq hleft), hleft, Nat.sub_self, hm, hm',
      replicate_succ, set_cons_zero, range_succ, map_append, map_singleton,
      append_assoc, singleton_append]
  · dsimp only
    by_cases hck : c = k
    · rw [hck, Function.update_self]
    · rw [Function.update_of_ne hck]
      exact h.threads c (by omega)

theorem created_range (h : Created n 0 s) (k : Nat) (hk : k ≤ n) :
    ∃ s', tsrmSystem.exec s ((List.range k).map .createTsrmTlsEntry) = some s' ∧
      Created n k s' := by
  -- induction on the number of entries
  induction k with
  | zero => exact ⟨s, rfl, h⟩
  | succ k ih =>
    obtain ⟨t, hexec, hcreated⟩ := ih (by omega)
    obtain ⟨s', hstep, hcreated'⟩ := hcreated.createTsrmTlsEntry (by omega)
    refine ⟨s', ?_, hcreated'⟩
    rw [range_succ, map_append, map_singleton, EventSystem.exec_append, hexec,
      bind_some]
    simp only [EventSystem.exec, tsrmSystem, hstep, bind_some]

/-! ## The slots of coroutines -/

theorem slots_eq (h : s.tlsTable = (List.range n).map ([·])) :
    s.slots = (List.range n).map fun i => (i, i) := by
  have hrange : ∀ m k, (((List.range' k m).map ([·])).zipIdx k).flatMap
      (fun x : List TlsEntryPtr × Nat => x.1.map fun p => (x.2, p)) =
        (List.range' k m).map fun i => (i, i) := by
    intro m
    induction m with
    | zero => intro k; rfl
    | succ m ih =>
      intro k
      rw [List.range'_succ, map_cons, zipIdx_cons, flatMap_cons, ih, map_cons]
      rfl
  rw [slots, h, range_eq_range']
  exact hrange n 0

theorem newCalls_range (type : ResourceType) (c m k b : Nat) :
    newCalls c type b ((List.range' k m).map fun i => (i, i)) =
      if k ≤ c ∧ c < k + m then ctorCalls type (some (b + (c - k))) else [] := by
  -- induction on the slots
  induction m generalizing k b with
  | zero =>
    rw [if_neg (by omega)]
    rfl
  | succ m ih =>
    have hconstructs : constructs c k = decide (c = k) := by
      have hne : (c : Int) ≠ -1 := by omega
      rw [constructs, decide_eq_false hne, Bool.false_or]
      exact decide_eq_decide.mpr (by omega)
    rw [List.range'_succ, map_cons, newCalls, ih, hconstructs]
    by_cases hck : c = k
    · subst hck
      rw [if_pos (decide_eq_true rfl), if_neg (by omega), if_pos (by omega), Nat.sub_self,
        Nat.add_zero, append_nil]
    · rw [if_neg (by simpa using hck), nil_append]
      by_cases hin : k + 1 ≤ c ∧ c < k + 1 + m
      · have hblock : b + 1 + (c - (k + 1)) = b + (c - k) := by omega
        rw [if_pos hin, if_pos (by omega), hblock]
      · rw [if_neg hin, if_neg (by omega)]

/-! ## The routine -/

/-- The first `k` calls of the routine have been made: for the id of the `j`-th, coroutine `c` has
the block `j * n + c`. -/
structure Registered (n : Nat) (regs : List Registration) (k : Nat) (s : Tsrm) : Prop where
  sound : Sound s
  table : s.tlsTable = (List.range n).map ([·])
  idCount : s.idCount = k
  known : ∀ a, s.Known a ↔ a ∈ (regs.take k).map Registration.rsrcId
  ids : ∀ j (hj : j < regs.length), j < k → s.rsrcIds regs[j].rsrcId = j + 1
  types : s.resourceTypes.take k = (regs.take k).map Registration.type
  storage : ∀ c < n, (s.entries c).storage = (List.range k).map fun j => some (j * n + c)
  mallocs : s.blockMallocs.length = k * n

theorem Created.registered (h : Created n n s) (regs : List Registration) :
    Registered n regs 0 s where
  sound := h.sound
  table := by
    rw [h.table, Nat.sub_self, replicate_zero, append_nil]
  idCount := h.idCount
  known a := by
    rw [take_zero, map_nil]
    exact ⟨fun hk => absurd hk (h.unknown a), nofun⟩
  ids _ _ hj := absurd hj (Nat.not_lt_zero _)
  types := rfl
  storage c hc := by
    rw [h.threads c hc]
    rfl
  mallocs := by
    rw [h.blockMallocs, Nat.zero_mul]
    rfl

theorem Registered.setForceThreadId (h : Registered n regs k s) (threadId : Int) :
    Registered n regs k (s.setForceThreadId threadId) :=
  ⟨⟨⟨h.sound.types, h.sound.nodup, h.sound.fresh, h.sound.storage⟩, h.sound.ids⟩, h.table,
    h.idCount, h.known, h.ids, h.types, h.storage, h.mallocs⟩

theorem Registered.callCtor (h : Registered n regs k s) (type : ResourceType)
    (block : Option TsrmBlock) : Registered n regs k (s.callCtor type block) := by
  have hsound : Sound (s.callCtor type block) := h.sound.callCtor block
  rw [callCtor_eq] at hsound ⊢
  exact ⟨hsound, h.table, h.idCount, h.known, h.ids, h.types, h.storage, h.mallocs⟩

/-- What coroutine `c` constructs in the routine from its `k`-th call on. -/
def ctorCallsFrom (n c k : Nat) (regs : List Registration) : List ResourceCall :=
  (regs.zipIdx k).flatMap fun x => ctorCalls x.1.type (some (x.2 * n + c))

theorem Registered.allocate (h : Registered n regs k s) (hk : k < regs.length)
    (hnodup : (regs.map Registration.rsrcId).Nodup) (hc : c < n) (hforce : s.forceThreadId = c) :
    ∃ s', s.tsAllocateId regs[k].rsrcId regs[k].size regs[k].ctor regs[k].dtor =
        some (k + 1, s') ∧
      Registered n regs (k + 1) s' ∧ s'.forceThreadId = c ∧
      s'.calls = s.calls ++ ctorCalls regs[k].type (some (k * n + c)) := by
  have htake : regs.take (k + 1) = regs.take k ++ [regs[k]] := take_succ_eq_append_getElem hk
  have hnew : ¬s.Known regs[k].rsrcId := by
    rw [h.known]
    intro hmem
    have hsplit : ((regs.take k).map Registration.rsrcId ++ [regs[k].rsrcId]).Nodup := by
      have hsub := hnodup.sublist ((take_sublist (k + 1) regs).map Registration.rsrcId)
      rwa [htake, map_append, map_singleton] at hsub
    exact (nodup_append.mp hsplit).2.2 _ hmem _ (mem_singleton.mpr rfl) rfl
  have hcall : s.tsAllocateId regs[k].rsrcId regs[k].size regs[k].ctor regs[k].dtor =
      some ((s.remember regs[k].rsrcId).allocateForAll regs[k].rsrcId regs[k].size regs[k].ctor
        regs[k].dtor) := by
    rw [tsAllocateId, rsrcIdSetIsnew_new hnew]
  have hsound := h.sound.allocateForAll regs[k].rsrcId regs[k].size regs[k].ctor regs[k].dtor
  have hslots : (s.remember regs[k].rsrcId).slots = (List.range n).map fun i => (i, i) :=
    slots_eq h.table
  rw [allocateForAll_eq h.sound.toLaid.remember, hslots] at hcall hsound
  have hid : (s.remember regs[k].rsrcId).idCount = k := h.idCount
  rw [hid] at hcall
  refine ⟨_, hcall, ⟨hsound, h.table, ?_, fun a => ?_, fun j hj hjk => ?_, ?_, fun c' hc' => ?_,
    ?_⟩, hforce, ?_⟩
  · exact congrArg (· + 1) h.idCount
  · rw [htake, map_append, map_singleton, mem_append, mem_singleton,
      ← h.known a]
    exact known_remember
  · show Function.update s.rsrcIds regs[k].rsrcId (s.idCount + 1) regs[j].rsrcId = j + 1
    by_cases hjk' : j = k
    · subst hjk'
      rw [Function.update_self, h.idCount]
    · have hne : regs[j].rsrcId ≠ regs[k].rsrcId := by
        intro heq
        have hsame : regs[j] = regs[k] := inj_on_of_nodup_map hnodup (getElem_mem hj)
          (getElem_mem hk) heq
        exact hjk' ((List.Nodup.of_map _ hnodup).getElem_inj_iff.mp hsame)
      rw [Function.update_of_ne hne]
      exact h.ids j hj (by omega)
  · have hlen : k ≤ s.resourceTypes.length := h.idCount ▸ h.sound.types
    have hstore : (storeType s.resourceTypes (k + 1) regs[k].type).take (k + 1) =
        s.resourceTypes.take k ++ [regs[k].type] := take_storeType hlen
    show (storeType s.resourceTypes (s.idCount + 1) regs[k].type).take (k + 1) = _
    rw [h.idCount, hstore, h.types, htake, map_append, map_singleton]
  · have hmem : c' ∈ ((List.range n).map fun i => (i, i)).map Prod.snd := by
      rw [List.map_map]
      exact List.mem_map.mpr ⟨c', mem_range.mpr hc', rfl⟩
    have hidx : (((List.range n).map fun i => (i, i)).map Prod.snd).idxOf c' = c' := by
      have hid : ((List.range n).map fun i => (i, i)).map Prod.snd = List.range n := by
        rw [List.map_map]
        exact List.map_id _
      have hlt : c' < (List.range n).length := by rwa [length_range]
      have hget := nodup_range.idxOf_getElem c' hlt
      rw [getElem_range] at hget
      rw [hid, hget]
    unfold addBlocks
    dsimp only
    rw [if_pos hmem, hidx]
    show (s.entries c').storage ++ [some (s.blockMallocs.length + c')] = _
    rw [h.storage c' hc', h.mallocs, range_succ, map_append, map_singleton]
  · show (s.blockMallocs ++ List.replicate _ _).length = _
    rw [length_append, h.mallocs, length_replicate, length_map, length_range,
      Nat.succ_mul]
  · show s.calls ++ newCalls s.forceThreadId _ s.blockMallocs.length _ = _
    rw [hforce, h.mallocs, range_eq_range', newCalls_range, if_pos (by omega), Nat.sub_zero]
    rfl

theorem registerAll_first {suffix : List Registration} (h : Registered n regs k s)
    (hnodup : (regs.map Registration.rsrcId).Nodup) (hc : c < n) (hforce : s.forceThreadId = c)
    (hk : k ≤ regs.length) (hsuffix : suffix = regs.drop k) :
    ∃ s', s.registerAll suffix = some (List.range' (k + 1) suffix.length, s') ∧
      Registered n regs regs.length s' ∧ s'.calls = s.calls ++ ctorCallsFrom n c k suffix := by
  -- induction on the calls that are left
  induction suffix generalizing k s with
  | nil =>
    have hlen : regs.length ≤ k := drop_eq_nil_iff.mp hsuffix.symm
    obtain rfl : k = regs.length := Nat.le_antisymm hk hlen
    exact ⟨s, rfl, h, (append_nil _).symm⟩
  | cons r suffix ih =>
    have hk' : k < regs.length := by
      by_contra hge
      rw [drop_of_length_le (Nat.not_lt.mp hge)] at hsuffix
      cases hsuffix
    rw [drop_eq_getElem_cons hk'] at hsuffix
    obtain ⟨rfl, hrest⟩ := List.cons.inj hsuffix
    obtain ⟨t, hcall, ht, hforce', hcalls⟩ := h.allocate hk' hnodup hc hforce
    obtain ⟨s', hall, hs', hcalls'⟩ := ih ht hforce' hk' hrest
    refine ⟨s', ?_, hs', ?_⟩
    · rw [registerAll, hcall]
      simp only [bind_eq_bind, bind_some, hall, length_cons, List.range'_succ]
      rfl
    · rw [hcalls', hcalls, append_assoc, ctorCallsFrom, ctorCallsFrom, zipIdx_cons,
        flatMap_cons]

theorem Registered.construct {j : Nat} (h : Registered n regs regs.length s) (hj : j < regs.length)
    (hc : c < n) (hforce : s.forceThreadId = c) :
    s.tsAllocateId regs[j].rsrcId regs[j].size regs[j].ctor regs[j].dtor =
      some (j + 1, s.callCtor regs[j].type (some (j * n + c))) := by
  have hknown : s.Known regs[j].rsrcId := by
    rw [h.known, take_length]
    exact mem_map_of_mem (getElem_mem hj)
  have hid : s.rsrcIds regs[j].rsrcId = j + 1 := h.ids j hj hj
  have hchain : index s.tlsTable s.forceThreadId = some [c] := by
    rw [hforce, index, if_pos (Int.natCast_nonneg c), Int.toNat_natCast, h.table,
      List.getElem?_map, List.getElem?_range hc]
    rfl
  have hunshuffle : unshuffleRsrcId (j + 1) = j := by
    rw [unshuffleRsrcId]
    omega
  have htype : index s.resourceTypes (unshuffleRsrcId (j + 1)) = some regs[j].type := by
    rw [hunshuffle, index, if_pos (Int.natCast_nonneg j), Int.toNat_natCast,
      ← List.getElem?_take_of_lt hj, h.types, take_length, List.getElem?_map,
      List.getElem?_eq_getElem hj]
    rfl
  have hblock : index (s.entries c).storage (unshuffleRsrcId (j + 1)) =
      some (some (j * n + c)) := by
    rw [hunshuffle, index, if_pos (Int.natCast_nonneg j), Int.toNat_natCast, h.storage c hc,
      List.getElem?_map, List.getElem?_range hj]
    rfl
  rw [tsAllocateId, rsrcIdSetIsnew_known hknown]
  dsimp only
  unfold constructCurrent
  simp only [bind_eq_bind, hchain, bind_some, hid, htype]
  by_cases hctor : regs[j].type.ctor.isSome
  · rw [if_pos hctor]
    simp only [List.head?_cons, bind_some, hblock]
    rfl
  · rw [if_neg hctor, Tsrm.callCtor, not_isSome_iff_eq_none.mp hctor]
    rfl

theorem registerAll_again {suffix : List Registration} (h : Registered n regs regs.length s)
    (hc : c < n) (hforce : s.forceThreadId = c) (hsuffix : suffix = regs.drop k) :
    ∃ s', s.registerAll suffix = some (List.range' (k + 1) suffix.length, s') ∧
      Registered n regs regs.length s' ∧ s'.calls = s.calls ++ ctorCallsFrom n c k suffix := by
  -- induction on the calls that are left
  induction suffix generalizing k s with
  | nil => exact ⟨s, rfl, h, (append_nil _).symm⟩
  | cons r suffix ih =>
    have hk : k < regs.length := by
      by_contra hge
      rw [drop_of_length_le (Nat.not_lt.mp hge)] at hsuffix
      cases hsuffix
    rw [drop_eq_getElem_cons hk] at hsuffix
    obtain ⟨rfl, hrest⟩ := List.cons.inj hsuffix
    have hcall := h.construct hk hc hforce
    have hnext := h.callCtor regs[k].type (some (k * n + c))
    have hframe := callCtor_eq s regs[k].type (some (k * n + c))
    obtain ⟨s', hall, hs', hcalls⟩ := ih hnext (by rw [hframe]; exact hforce) hrest
    refine ⟨s', ?_, hs', ?_⟩
    · rw [registerAll, hcall]
      simp only [bind_eq_bind, bind_some, hall, length_cons, List.range'_succ]
      rfl
    · rw [hcalls, hframe, append_assoc, ctorCallsFrom, ctorCallsFrom, zipIdx_cons,
        flatMap_cons]

/-! ## All coroutines -/

theorem runCoroutines_again (h : Registered n regs regs.length s) (order : List Nat)
    (horder : ∀ c ∈ order, c < n) :
    ∃ s', runCoroutines regs s order =
        some (order.map fun _ => List.range' 1 regs.length, s') ∧
      Registered n regs regs.length s' ∧
      s'.calls = s.calls ++ order.flatMap fun c => ctorCallsFrom n c 0 regs := by
  -- induction on the coroutines
  induction order generalizing s with
  | nil => exact ⟨s, rfl, h, (append_nil _).symm⟩
  | cons c order ih =>
    have hc : c < n := horder c mem_cons_self
    obtain ⟨t, hall, ht, hcalls⟩ := registerAll_again (h.setForceThreadId c) hc rfl
      (drop_zero (l := regs)).symm
    obtain ⟨s', hrun, hs', hcalls'⟩ := ih ht fun c' hc' => horder c' (mem_cons_of_mem _ hc')
    refine ⟨s', ?_, hs', ?_⟩
    · rw [runCoroutines, hall]
      simp only [bind_eq_bind, bind_some, hrun]
      rfl
    · rw [hcalls', hcalls, append_assoc, flatMap_cons]
      rfl

theorem runCoroutines_eq (h : Registered n regs 0 s) (hcalls : s.calls = [])
    (hnodup : (regs.map Registration.rsrcId).Nodup) (order : List Nat)
    (horder : ∀ c ∈ order, c < n) (hne : order ≠ []) :
    ∃ s', runCoroutines regs s order =
        some (order.map fun _ => List.range' 1 regs.length, s') ∧
      Registered n regs regs.length s' ∧
      s'.calls = order.flatMap fun c => ctorCallsFrom n c 0 regs := by
  obtain ⟨c, rest, rfl⟩ := exists_cons_of_ne_nil hne
  obtain ⟨t, hall, ht, hfirst⟩ := registerAll_first (h.setForceThreadId c) hnodup
    (horder c mem_cons_self) rfl (Nat.zero_le _) (drop_zero (l := regs)).symm
  obtain ⟨s', hrun, hs', hagain⟩ := runCoroutines_again ht rest
    fun c' hc' => horder c' (mem_cons_of_mem _ hc')
  have hnone : (s.setForceThreadId c).calls = [] := hcalls
  refine ⟨s', ?_, hs', ?_⟩
  · rw [runCoroutines, hall]
    simp only [bind_eq_bind, bind_some, hrun]
    rfl
  · rw [hagain, hfirst, hnone, nil_append, flatMap_cons]

theorem Registered.blockOf_eq {j : Nat} (h : Registered n regs regs.length s) (hc : c < n)
    (hj : j < regs.length) : s.blockOf c (j + 1) = some (j * n + c) := by
  have hentry : s.getTsrmTlsEntry c = some c := by
    rw [getTsrmTlsEntry, h.table, List.getElem?_map, List.getElem?_range hc]
    rfl
  have hunshuffle : unshuffleRsrcId (j + 1) = j := by
    rw [unshuffleRsrcId]
    omega
  rw [blockOf, hentry, bind_some, hunshuffle, index, if_pos (Int.natCast_nonneg j),
    Int.toNat_natCast, h.storage c hc, List.getElem?_map, List.getElem?_range hj]
  rfl

theorem block_inj {c c' j j' : Nat} (hc : c < n) (hc' : c' < n)
    (heq : j * n + c = j' * n + c') : c = c' ∧ j = j' := by
  have hpos : 0 < n := by omega
  have hdiv := congrArg (· / n) heq
  have hmod := congrArg (· % n) heq
  simp only [Nat.add_comm _ c, Nat.add_comm _ c', Nat.add_mul_div_right _ _ hpos,
    Nat.add_mul_mod_self_right, Nat.div_eq_of_lt hc, Nat.div_eq_of_lt hc', Nat.mod_eq_of_lt hc,
    Nat.mod_eq_of_lt hc', Nat.zero_add] at hdiv hmod
  exact ⟨hmod, hdiv⟩

/-- `n` coroutines have the ids of the registrations, different ones. `block c j` is the block of
coroutine `c` for the `j`-th, all of them separate, and every constructor has been called on those
of its resource, once on each and on no other. -/
structure ConstructedOnce (n : Nat) (regs : List Registration) (ids : List Nat)
    (block : Nat → Nat → TsrmBlock) (s : Tsrm) : Prop where
  length : ids.length = regs.length
  nodup : ids.Nodup
  stored : ∀ c < n, ∀ j, ∀ id ∈ ids[j]?, s.blockOf c id = some (block c j)
  separate : ∀ c < n, ∀ c' < n, ∀ j j', block c j = block c' j' → c = c' ∧ j = j'
  calls : s.calls.Perm ((List.range n).flatMap fun c =>
    regs.zipIdx.flatMap fun x => ctorCalls x.1.type (some (block c x.2)))

/-- **Every resource is constructed once per coroutine**, in whatever order the coroutines run the
routine; and they all get the same ids. -/
theorem constructed_once (n expectedResources : Nat) (pthreadSelf : ThreadT)
    (regs : List Registration) (hnodup : (regs.map Registration.rsrcId).Nodup) (order : List Nat)
    (horder : order.Perm (List.range n)) :
    ∃ s₀ s ids block, createCoroutines n expectedResources pthreadSelf = some s₀ ∧
      runCoroutines regs s₀ order = some (order.map fun _ => ids, s) ∧
      ConstructedOnce n regs ids block s := by
  obtain ⟨s₀, hexec, hcreated⟩ :=
    created_range (created_tsrmStartup n expectedResources pthreadSelf) n (Nat.le_refl n)
  have hlt : ∀ c ∈ order, c < n := fun c hc => mem_range.mp (horder.mem_iff.mp hc)
  by_cases hne : order = []
  · subst hne
    obtain rfl : n = 0 := range_eq_nil.mp (nil_perm.mp horder)
    refine ⟨s₀, s₀, List.range' 1 regs.length, fun c j => j, hexec, rfl, length_range',
      nodup_range', nofun, nofun, ?_⟩
    rw [hcreated.calls]
    exact List.Perm.refl _
  · obtain ⟨s, hrun, hs, hcalls⟩ := runCoroutines_eq (hcreated.registered regs) hcreated.calls
      hnodup order hlt hne
    refine ⟨s₀, s, List.range' 1 regs.length, fun c j => j * n + c, hexec, hrun,
      length_range', nodup_range', fun c hc j id hid => ?_,
      fun c hc c' hc' j j' heq => block_inj hc hc' heq, ?_⟩
    · obtain ⟨hj, rfl⟩ := List.getElem?_eq_some_iff.mp hid
      rw [length_range'] at hj
      rw [getElem_range', Nat.one_mul, Nat.add_comm]
      exact hs.blockOf_eq hc hj
    · rw [hcalls]
      exact horder.flatMap_right _

/-- Two coroutines and two resources in one bucket, the second coroutine first. -/
theorem constructed_once_two :
    ∃ s₀ s ids block, createCoroutines 2 1 7 = some s₀ ∧
      runCoroutines [⟨10, 4, some 5, none⟩, ⟨110, 8, some 6, none⟩] s₀ [1, 0] =
        some ([1, 0].map fun _ => ids, s) ∧
      ConstructedOnce 2 [⟨10, 4, some 5, none⟩, ⟨110, 8, some 6, none⟩] ids block s :=
  constructed_once 2 1 7 [⟨10, 4, some 5, none⟩, ⟨110, 8, some 6, none⟩] (by decide) [1, 0]
    (by decide)

end Tsrm

end Phpce
