import Mathlib.Data.List.Forall2
import Mathlib.Data.List.Nodup
import Phpce.Tsrm.Basic

/-!
# The entries and the resource types agree

In every run each entry of the table has a slot for every id given out, and there is a block in it
unless the id has been freed.

* **`Sound`** — the invariant.
* **`allocateForAll_eq`** — the branch of `ts_allocate_id` for a new address, as one update: a fresh
  block for every entry.
* `sound_step`: every call of the manager keeps the invariant.
-/

namespace Phpce

namespace Tsrm

open List Option
open Function (update update_apply update_eq_self update_idem update_of_ne update_self)

variable {s s' : Tsrm} {p q : TlsEntryPtr} {type : ResourceType} {a : RsrcIdPtr}

/-! ## Addresses -/

/-- The address has been given to `ts_allocate_id`. -/
def Known (s : Tsrm) (rsrcId : RsrcIdPtr) : Prop :=
  rsrcId ∈ s.rsrcIdMap (threadHashOf rsrcId rsrcIdMapSize)

instance (s : Tsrm) (rsrcId : RsrcIdPtr) : Decidable (s.Known rsrcId) :=
  inferInstanceAs (Decidable (_ ∈ _))

theorem rsrcIdSetIsnew_known (h : s.Known a) : s.rsrcIdSetIsnew a = (false, s) := if_pos h

def remember (s : Tsrm) (rsrcId : RsrcIdPtr) : Tsrm :=
  { s with
    rsrcIdMap := update s.rsrcIdMap (threadHashOf rsrcId rsrcIdMapSize)
      (s.rsrcIdMap (threadHashOf rsrcId rsrcIdMapSize) ++ [rsrcId]) }

theorem rsrcIdSetIsnew_new (h : ¬s.Known a) : s.rsrcIdSetIsnew a = (true, s.remember a) := if_neg h

theorem known_remember {a' : RsrcIdPtr} : (s.remember a).Known a' ↔ s.Known a' ∨ a' = a := by
  unfold Known remember
  dsimp only
  by_cases hhash : threadHashOf a' rsrcIdMapSize = threadHashOf a rsrcIdMapSize
  · rw [hhash, update_self, mem_append, mem_singleton]
  · rw [update_of_ne hhash]
    exact ⟨Or.inl, fun h => h.resolve_right fun heq => hhash (heq ▸ rfl)⟩

/-! ## Constructors -/

def ctorCalls (type : ResourceType) (block : Option TsrmBlock) : List ResourceCall :=
  match type.ctor with
  | some f => [.ctor f block]
  | none => []

theorem callCtor_eq (s : Tsrm) (type : ResourceType) (block : Option TsrmBlock) :
    s.callCtor type block = { s with calls := s.calls ++ ctorCalls type block } := by
  unfold callCtor ctorCalls
  cases type.ctor with
  | some f => rfl
  | none => simp only [append_nil]

theorem addBlock_eq (p : TlsEntryPtr) (construct : Bool) (s : Tsrm) (type : ResourceType) :
    addBlock p construct s type = { s with
      entries := update s.entries p { s.entries p with
        storage := (s.entries p).storage ++ [some s.blockMallocs.length] }
      blockMallocs := s.blockMallocs ++ [type.size]
      calls := s.calls ++
        if construct then ctorCalls type (some s.blockMallocs.length) else [] } := by
  unfold addBlock
  cases construct with
  | true => exact callCtor_eq _ _ _
  | false =>
    simp only [Bool.false_eq_true, if_false, append_nil]
    rfl

/-! ## Enlarging the arrays -/

def slots (s : Tsrm) : List (Nat × TlsEntryPtr) :=
  s.tlsTable.zipIdx.flatMap fun x => x.1.map fun p => (x.2, p)

theorem map_snd_slots (s : Tsrm) : s.slots.map Prod.snd = s.tlsTable.flatten := by
  have hchain : ∀ x : List TlsEntryPtr × Nat, (x.1.map fun p => (x.2, p)).map Prod.snd = x.1 := by
    intro x
    rw [List.map_map]
    exact List.map_id _
  rw [slots, map_flatMap]
  simp only [hchain]
  rw [flatMap_def, zipIdx_map_fst]

/-- `force_thread_id == -1 || force_thread_id == i` -/
def constructs (forceThreadId : Int) (i : Nat) : Bool := forceThreadId = -1 || forceThreadId = i

/-- What the loop of `ts_allocate_id` calls, when the next block is `n`. -/
def newCalls (force : Int) (type : ResourceType) : TsrmBlock → List (Nat × TlsEntryPtr) →
    List ResourceCall
  | _, [] => []
  | n, (i, _) :: l =>
    (if constructs force i then ctorCalls type (some n) else []) ++ newCalls force type (n + 1) l

/-- Every entry of `l` gets a block of its own. -/
def addBlocks (s : Tsrm) (type : ResourceType) (l : List (Nat × TlsEntryPtr)) : Tsrm :=
  { s with
    entries := fun q =>
      if q ∈ l.map Prod.snd then
        { s.entries q with
          storage := (s.entries q).storage ++
            [some (s.blockMallocs.length + (l.map Prod.snd).idxOf q)] }
      else s.entries q
    blockMallocs := s.blockMallocs ++ replicate l.length type.size
    calls := s.calls ++ newCalls s.forceThreadId type s.blockMallocs.length l }

theorem addBlocks_nil : s.addBlocks type [] = s := by
  simp [addBlocks, newCalls]

theorem addBlocks_cons {i : Nat} {l : List (Nat × TlsEntryPtr)} (hp : p ∉ l.map Prod.snd) :
    (addBlock p (constructs s.forceThreadId i) s type).addBlocks type l =
      s.addBlocks type ((i, p) :: l) := by
  have hentries : ∀ q, ((addBlock p (constructs s.forceThreadId i) s type).addBlocks type
      l).entries q = (s.addBlocks type ((i, p) :: l)).entries q := by
    intro q
    rw [addBlock_eq]
    simp only [addBlocks, map_cons, mem_cons]
    by_cases hq : q = p
    · subst hq
      rw [if_neg hp, if_pos (Or.inl rfl), update_self, idxOf_cons_self, Nat.add_zero]
    · have hidx : (p :: l.map Prod.snd).idxOf q = (l.map Prod.snd).idxOf q + 1 :=
        idxOf_cons_ne _ (Ne.symm hq)
      by_cases hmem : q ∈ l.map Prod.snd
      · rw [if_pos hmem, if_pos (Or.inr hmem), update_of_ne hq, hidx, length_append,
          length_singleton, Nat.add_assoc, Nat.add_comm 1]
      · rw [if_neg hmem, if_neg (not_or.mpr ⟨hq, hmem⟩), update_of_ne hq]
  have hrest : (addBlock p (constructs s.forceThreadId i) s type).addBlocks type l =
      { s.addBlocks type ((i, p) :: l) with
        entries :=
          ((addBlock p (constructs s.forceThreadId i) s type).addBlocks type l).entries } := by
    rw [addBlock_eq]
    simp only [addBlocks, newCalls, length_append, length_cons, length_nil,
      append_assoc, replicate_succ, singleton_append]
  rw [hrest, funext hentries]

theorem foldl_enlargeEntry {l : List (Nat × TlsEntryPtr)} (hnodup : (l.map Prod.snd).Nodup)
    (hlength : ∀ x ∈ l, (s.entries x.2).storage.length + 1 = s.idCount)
    (htype : (s.resourceTypes.take s.idCount).drop (s.idCount - 1) = [type]) :
    l.foldl (fun s x => enlargeEntry x.1 s x.2) s = s.addBlocks type l := by
  -- induction on the entries
  induction l generalizing s with
  | nil => exact addBlocks_nil.symm
  | cons x l ih =>
    obtain ⟨i, p⟩ := x
    obtain ⟨hp, hnodup⟩ := nodup_cons.mp hnodup
    have hlen : (s.entries p).storage.length = s.idCount - 1 :=
      Nat.eq_sub_of_add_eq (hlength (i, p) mem_cons_self)
    have hhead : enlargeEntry i s p = addBlock p (constructs s.forceThreadId i) s type := by
      rw [enlargeEntry, hlen, htype]
      rfl
    have hframe := addBlock_eq p (constructs s.forceThreadId i) s type
    rw [foldl_cons, hhead, ih hnodup ?_ ?_, addBlocks_cons hp]
    · intro y hy
      have hmem : y.2 ∈ l.map Prod.snd := mem_map_of_mem hy
      have hne : y.2 ≠ p := fun heq => hp (heq ▸ hmem)
      rw [hframe]
      simp only [update_of_ne hne]
      exact hlength y (mem_cons_of_mem _ hy)
    · rw [hframe]
      exact htype

theorem enlarge_eq_foldl (s : Tsrm) :
    s.enlarge = s.slots.foldl (fun s x => enlargeEntry x.1 s x.2) s := by
  rw [slots, foldl_flatMap, enlarge]
  simp only [foldl_map]

theorem take_storeType {types : List ResourceType} {n : Nat} (h : n ≤ types.length) :
    (storeType types (n + 1) type).take (n + 1) = types.take n ++ [type] := by
  have hlen : n < (types ++ replicate (n + 1 - types.length) type).length := by
    rw [length_append, length_replicate]
    omega
  rw [storeType, Nat.add_sub_cancel, take_set, take_succ_eq_append_getElem hlen,
    set_append_right _ _ (by rw [length_take]; omega), take_append_of_le_length h]
  rw [length_take, Nat.min_eq_left h, Nat.sub_self]
  rfl

theorem length_storeType (types : List ResourceType) (n : Nat) (type : ResourceType) :
    n ≤ (storeType types n type).length := by
  rw [storeType, length_set, length_append, length_replicate]
  omega

/-! ## The invariant -/

/-- A slot of an entry fits the type of its resource: it is empty once the id has been freed. -/
def Fits (type : ResourceType) (block : Option TsrmBlock) : Prop :=
  block = none ↔ type.done = true

/-- The table holds different entries, each with a fitting slot for every id. -/
structure Laid (s : Tsrm) : Prop where
  types : s.idCount ≤ s.resourceTypes.length
  nodup : s.tlsTable.flatten.Nodup
  fresh : ∀ p ∈ s.tlsTable.flatten, p < s.entryMallocs
  storage : ∀ p ∈ s.tlsTable.flatten,
    Forall₂ Fits (s.resourceTypes.take s.idCount) (s.entries p).storage

/-- Also the address of every resource holds an id that was given out. -/
structure Sound (s : Tsrm) : Prop extends Laid s where
  ids : ∀ a, s.Known a → 0 < s.rsrcIds a ∧ s.rsrcIds a ≤ s.idCount

theorem Laid.length_storage (h : Laid s) (hp : p ∈ s.tlsTable.flatten) :
    (s.entries p).storage.length = s.idCount := by
  rw [← (h.storage p hp).length_eq, length_take_of_le h.types]

theorem Laid.remember (h : Laid s) : Laid (s.remember a) :=
  ⟨h.types, h.nodup, h.fresh, h.storage⟩

theorem sound_tsrmStartup (expectedThreads expectedResources : Nat) (pthreadSelf : ThreadT) :
    Sound (tsrmStartup expectedThreads expectedResources pthreadSelf) := by
  have hflatten : (replicate expectedThreads ([] : List TlsEntryPtr)).flatten = [] := by simp
  refine ⟨⟨Nat.zero_le _, ?_, ?_, ?_⟩, nofun⟩
  · rw [tsrmStartup, hflatten]
    exact nodup_nil
  · rw [tsrmStartup, hflatten]
    nofun
  · rw [tsrmStartup, hflatten]
    nofun

/-! ## `ts_allocate_id` -/

def newId (s : Tsrm) (rsrcId : RsrcIdPtr) (type : ResourceType) : Tsrm :=
  { s with
    idCount := s.idCount + 1
    rsrcIds := update s.rsrcIds rsrcId (s.idCount + 1)
    resourceTypes := storeType s.resourceTypes (s.idCount + 1) type }

theorem allocateForAll_eq (h : Laid s) (a : RsrcIdPtr) (size : Nat)
    (ctor dtor : Option ResourceFn) :
    s.allocateForAll a size ctor dtor =
      (s.idCount + 1,
        (s.newId a ⟨size, ctor, dtor, false⟩).addBlocks ⟨size, ctor, dtor, false⟩ s.slots) := by
  set type : ResourceType := ⟨size, ctor, dtor, false⟩
  have hmem : ∀ x ∈ s.slots, x.2 ∈ s.tlsTable.flatten := by
    intro x hx
    rw [← map_snd_slots]
    exact mem_map_of_mem hx
  have hadd : (s.newId a type).enlarge = (s.newId a type).addBlocks type s.slots := by
    rw [enlarge_eq_foldl]
    refine foldl_enlargeEntry ?_ ?_ ?_
    · exact map_snd_slots s ▸ h.nodup
    · exact fun x hx => congrArg (· + 1) (h.length_storage (hmem x hx))
    · have htake : ((s.newId a type).resourceTypes.take (s.newId a type).idCount) =
          s.resourceTypes.take s.idCount ++ [type] := take_storeType h.types
      have hlen : (s.resourceTypes.take s.idCount).length = s.idCount :=
        length_take_of_le h.types
      rw [htake]
      exact drop_left' hlen
  exact congrArg _ hadd

theorem Laid.addBlocks (h : Laid s) (a : RsrcIdPtr) (size : Nat) (ctor dtor : Option ResourceFn) :
    Laid ((s.newId a ⟨size, ctor, dtor, false⟩).addBlocks ⟨size, ctor, dtor, false⟩ s.slots) where
  types := length_storeType _ _ _
  nodup := h.nodup
  fresh := h.fresh
  storage := by
    intro p hp
    have hslot : p ∈ s.slots.map Prod.snd := map_snd_slots s ▸ hp
    have htake : (storeType s.resourceTypes (s.idCount + 1) ⟨size, ctor, dtor, false⟩).take
        (s.idCount + 1) = s.resourceTypes.take s.idCount ++ [⟨size, ctor, dtor, false⟩] :=
      take_storeType h.types
    unfold Tsrm.addBlocks newId
    simp only [hslot, if_true]
    rw [htake]
    refine rel_append (h.storage p hp) (.cons ?_ .nil)
    simp [Fits]

theorem Sound.allocateForAll (h : Sound s) (a : RsrcIdPtr) (size : Nat)
    (ctor dtor : Option ResourceFn) :
    Sound ((s.remember a).allocateForAll a size ctor dtor).2 := by
  rw [allocateForAll_eq h.toLaid.remember]
  refine ⟨h.toLaid.remember.addBlocks a size ctor dtor, fun a' ha' => ?_⟩
  have hids : ((s.remember a).newId a ⟨size, ctor, dtor, false⟩).rsrcIds a' =
      if a' = a then s.idCount + 1 else s.rsrcIds a' :=
    update_apply s.rsrcIds a (s.idCount + 1) a'
  show 0 < ((s.remember a).newId a ⟨size, ctor, dtor, false⟩).rsrcIds a' ∧
    ((s.remember a).newId a ⟨size, ctor, dtor, false⟩).rsrcIds a' ≤ s.idCount + 1
  rw [hids]
  by_cases heq : a' = a
  · rw [if_pos heq]
    omega
  · obtain ⟨hpos, hle⟩ := h.ids a' ((known_remember.mp ha').resolve_right heq)
    rw [if_neg heq]
    omega

theorem Sound.callCtor (h : Sound s) (block : Option TsrmBlock) :
    Sound (s.callCtor type block) := by
  rw [callCtor_eq]
  exact ⟨⟨h.types, h.nodup, h.fresh, h.storage⟩, h.ids⟩

theorem constructCurrent_eq {id : Nat} (h : s.constructCurrent a = some (id, s')) :
    id = s.rsrcIds a ∧ ∃ type block, s' = s.callCtor type block := by
  unfold constructCurrent at h
  simp only [bind_eq_bind, bind_eq_some_iff, Option.pure_def] at h
  obtain ⟨chain, -, type, -, h⟩ := h
  by_cases hctor : type.ctor.isSome
  · rw [if_pos hctor] at h
    obtain ⟨p, -, h⟩ := bind_eq_some_iff.mp h
    obtain ⟨block, -, h⟩ := bind_eq_some_iff.mp h
    obtain ⟨rfl, rfl⟩ := Prod.mk.inj (some.inj h)
    exact ⟨rfl, type, block, rfl⟩
  · rw [if_neg hctor] at h
    obtain ⟨rfl, rfl⟩ := Prod.mk.inj (some.inj h)
    refine ⟨rfl, type, none, ?_⟩
    rw [Tsrm.callCtor, not_isSome_iff_eq_none.mp hctor]

theorem Sound.tsAllocateId {size id : Nat} {ctor dtor : Option ResourceFn} (h : Sound s)
    (hcall : s.tsAllocateId a size ctor dtor = some (id, s')) : Sound s' := by
  unfold Tsrm.tsAllocateId at hcall
  by_cases hknown : s.Known a
  · rw [rsrcIdSetIsnew_known hknown] at hcall
    obtain ⟨-, type, block, rfl⟩ := constructCurrent_eq hcall
    exact h.callCtor block
  · rw [rsrcIdSetIsnew_new hknown] at hcall
    have hs' : s' = ((s.remember a).allocateForAll a size ctor dtor).2 :=
      (congrArg Prod.snd (some.inj hcall)).symm
    rw [hs']
    exact h.allocateForAll a size ctor dtor

/-! ## New entries -/

theorem foldl_addSlot (p : TlsEntryPtr) (types : List ResourceType) (s : Tsrm) :
    ∃ storage mallocs calls, Forall₂ Fits types storage ∧
      types.foldl (addSlot p) s = { s with
        entries := update s.entries p { s.entries p with
          storage := (s.entries p).storage ++ storage }
        blockMallocs := mallocs
        calls := calls } := by
  -- induction on the types
  induction types generalizing s with
  | nil =>
    refine ⟨[], s.blockMallocs, s.calls, .nil, ?_⟩
    rw [append_nil, update_eq_self]
    rfl
  | cons type types ih =>
    obtain ⟨storage, mallocs, calls, hfits, hfold⟩ := ih (addSlot p s type)
    have hslot : ∃ block mallocs calls, Fits type block ∧ addSlot p s type = { s with
        entries := update s.entries p { s.entries p with
          storage := (s.entries p).storage ++ [block] }
        blockMallocs := mallocs
        calls := calls } := by
      unfold addSlot
      cases hdone : type.done with
      | true =>
        exact ⟨none, s.blockMallocs, s.calls, by simp [Fits, hdone], rfl⟩
      | false =>
        exact ⟨some _, _, _, by simp [Fits, hdone], addBlock_eq p true s type⟩
    obtain ⟨block, mallocs₁, calls₁, hblock, hslot⟩ := hslot
    refine ⟨block :: storage, mallocs, calls, .cons hblock hfits, ?_⟩
    rw [foldl_cons, hfold, hslot]
    simp only [update_self, update_idem, append_assoc, singleton_append]

theorem allocateNewResource_eq (s : Tsrm) (threadId : ThreadT) :
    ∃ storage mallocs calls, Forall₂ Fits (s.resourceTypes.take s.idCount) storage ∧
      s.allocateNewResource threadId = (s.entryMallocs, { s with
        entryMallocs := s.entryMallocs + 1
        entries := update s.entries s.entryMallocs ⟨storage, threadId⟩
        tls := some s.entryMallocs
        blockMallocs := mallocs
        calls := calls }) := by
  obtain ⟨storage, mallocs, calls, hfits, hfold⟩ := foldl_addSlot s.entryMallocs
    (s.resourceTypes.take s.idCount) { s with
      entryMallocs := s.entryMallocs + 1
      entries := update s.entries s.entryMallocs ⟨[], threadId⟩
      tls := some s.entryMallocs }
  refine ⟨storage, mallocs, calls, hfits, ?_⟩
  rw [allocateNewResource]
  dsimp only
  rw [hfold]
  simp only [update_self, update_idem, nil_append]

theorem Laid.insert {chain chain' : List TlsEntryPtr} {i : Nat} {storage : List (Option TsrmBlock)}
    {threadId : ThreadT} {mallocs : List Nat} {calls : List ResourceCall} (h : Laid s)
    (hi : i < s.tlsTable.length) (hsub : chain.Sublist s.tlsTable[i])
    (hchain : chain' = chain ++ [s.entryMallocs])
    (hfits : Forall₂ Fits (s.resourceTypes.take s.idCount) storage)
    (hs' : s' = { s with
      tlsTable := s.tlsTable.set i chain'
      entryMallocs := s.entryMallocs + 1
      entries := update s.entries s.entryMallocs ⟨storage, threadId⟩
      tls := s'.tls
      forceThreadId := s'.forceThreadId
      blockMallocs := mallocs
      calls := calls }) : Laid s' := by
  have hold : s.tlsTable.flatten =
      (s.tlsTable.take i).flatten ++ (s.tlsTable[i] ++ (s.tlsTable.drop (i + 1)).flatten) := by
    rw [← flatten_cons, ← flatten_append, getElem_cons_drop, take_append_drop]
  have hnew : (s.tlsTable.set i chain').flatten =
      ((s.tlsTable.take i).flatten ++ chain) ++
        s.entryMallocs :: (s.tlsTable.drop (i + 1)).flatten := by
    rw [set_eq_take_append_cons_drop, if_pos hi, flatten_append, flatten_cons,
      hchain, append_assoc, append_assoc]
    rfl
  have hsublist : (((s.tlsTable.take i).flatten ++ chain) ++
      (s.tlsTable.drop (i + 1)).flatten).Sublist s.tlsTable.flatten := by
    rw [hold, append_assoc]
    exact (Sublist.refl _).append (hsub.append (Sublist.refl _))
  have hmem : ∀ q ∈ (s.tlsTable.set i chain').flatten,
      q = s.entryMallocs ∨ q ∈ s.tlsTable.flatten := by
    intro q hq
    rw [hnew] at hq
    rcases mem_cons.mp (perm_middle.mem_iff.mp hq) with rfl | hq
    · exact .inl rfl
    · exact .inr (hsublist.subset hq)
  have hne : ∀ q ∈ s.tlsTable.flatten, q ≠ s.entryMallocs :=
    fun q hq => Nat.ne_of_lt (h.fresh q hq)
  rw [hs']
  refine ⟨h.types, ?_, fun q hq => ?_, fun q hq => ?_⟩
  · rw [hnew, nodup_middle, nodup_cons]
    exact ⟨fun hin => hne _ (hsublist.subset hin) rfl, h.nodup.sublist hsublist⟩
  · rcases hmem q hq with rfl | hq
    · exact Nat.lt_succ_self _
    · exact Nat.lt_succ_of_lt (h.fresh q hq)
  · rcases hmem q hq with rfl | hq
    · dsimp only
      rw [update_self]
      exact hfits
    · dsimp only
      rw [update_of_ne (hne q hq)]
      exact h.storage q hq

theorem createTsrmTlsEntry_eq {idx : Nat} (hidx : idx < s.tlsTable.length) :
    ∃ storage mallocs calls, Forall₂ Fits (s.resourceTypes.take s.idCount) storage ∧
      s.createTsrmTlsEntry idx = some { s with
        forceThreadId := idx
        tlsTable := s.tlsTable.set idx [s.entryMallocs]
        entryMallocs := s.entryMallocs + 1
        entries := update s.entries s.entryMallocs
          ⟨storage, (s.setForceThreadId idx).tsrmThreadId⟩
        blockMallocs := mallocs
        calls := calls } := by
  obtain ⟨storage, mallocs, calls, hfits, hnew⟩ :=
    allocateNewResource_eq (s.setForceThreadId idx) (s.setForceThreadId idx).tsrmThreadId
  refine ⟨storage, mallocs, calls, hfits, ?_⟩
  rw [Tsrm.createTsrmTlsEntry, if_pos hidx]
  unfold tsrmNewInterpreterContext
  dsimp only
  rw [hnew]
  rfl

theorem Sound.createTsrmTlsEntry {idx : Nat} (h : Sound s)
    (hcall : s.createTsrmTlsEntry idx = some s') : Sound s' := by
  have hidx : idx < s.tlsTable.length := by
    by_contra hidx
    rw [Tsrm.createTsrmTlsEntry, if_neg hidx] at hcall
    cases hcall
  obtain ⟨storage, mallocs, calls, hfits, hnew⟩ := createTsrmTlsEntry_eq hidx
  obtain rfl := some.inj (hnew.symm.trans hcall)
  exact ⟨h.toLaid.insert hidx (nil_sublist _) rfl hfits rfl, h.ids⟩

theorem tsResourceOf_new {threadId : ThreadT} (id : Nat) (hfind : s.findEntry threadId = none)
    (hhash : threadHashOf threadId s.tlsTable.length < s.tlsTable.length) :
    ∃ storage mallocs calls t, Forall₂ Fits (s.resourceTypes.take s.idCount) storage ∧
      t = { s with
        tlsTable := s.tlsTable.set (threadHashOf threadId s.tlsTable.length)
          (s.tlsTable[threadHashOf threadId s.tlsTable.length] ++ [s.entryMallocs])
        entryMallocs := s.entryMallocs + 1
        entries := update s.entries s.entryMallocs ⟨storage, threadId⟩
        tls := some s.entryMallocs
        blockMallocs := mallocs
        calls := calls } ∧
      s.tsResourceOf id threadId = (t.safeReturnRsrc s.entryMallocs id).map fun r => (r, t) := by
  obtain ⟨storage, mallocs, calls, hfits, hnew⟩ := allocateNewResource_eq s threadId
  refine ⟨storage, mallocs, calls, _, hfits, rfl, ?_⟩
  have hmodify : s.tlsTable.modify (threadHashOf threadId s.tlsTable.length)
      (· ++ [s.entryMallocs]) = s.tlsTable.set (threadHashOf threadId s.tlsTable.length)
        (s.tlsTable[threadHashOf threadId s.tlsTable.length] ++ [s.entryMallocs]) := by
    rw [modify_eq_take_cons_drop hhash, set_eq_take_append_cons_drop, if_pos hhash]
  unfold tsResourceOf
  rw [hfind]
  dsimp only
  rw [if_pos hhash, hnew]
  dsimp only
  rw [hmodify]

theorem Sound.tsResource {id : Nat} {r : Resource} (h : Sound s)
    (hcall : s.tsResource id = some (r, s')) : Sound s' := by
  have hread : ∀ {t : Tsrm} {p : TlsEntryPtr}, Sound t →
      (t.safeReturnRsrc p id).map (fun r => (r, t)) = some (r, s') → Sound s' := by
    intro t p ht hmap
    obtain ⟨_, -, heq⟩ := map_eq_some_iff.mp hmap
    obtain ⟨-, rfl⟩ := Prod.mk.inj heq
    exact ht
  unfold Tsrm.tsResource at hcall
  cases htls : s.tls with
  | some p =>
    rw [htls] at hcall
    exact hread h hcall
  | none =>
    rw [htls] at hcall
    dsimp only at hcall
    cases hfind : s.findEntry s.tsrmThreadId with
    | some p =>
      unfold tsResourceOf at hcall
      rw [hfind] at hcall
      exact hread h hcall
    | none =>
      by_cases hhash : threadHashOf s.tsrmThreadId s.tlsTable.length < s.tlsTable.length
      · obtain ⟨storage, mallocs, calls, t, hfits, ht, hof⟩ := tsResourceOf_new id hfind hhash
        rw [hof] at hcall
        have hlaid : Laid t :=
          h.toLaid.insert hhash (Sublist.refl _) rfl hfits (ht.trans (by rw [ht]))
        exact hread ⟨hlaid, by rw [ht]; exact h.ids⟩ hcall
      · unfold tsResourceOf at hcall
        rw [hfind] at hcall
        dsimp only at hcall
        rw [if_neg hhash] at hcall
        cases hcall

/-! ## `ts_free_id` -/

theorem foldl_freeBlock (j : Nat) (type : ResourceType) (l : List TlsEntryPtr) (s : Tsrm) :
    ∃ frees calls, l.foldl (freeBlock j type) s = { s with
      entries := fun q =>
        if q ∈ l then { s.entries q with storage := (s.entries q).storage.set j none }
        else s.entries q
      blockFrees := frees
      calls := calls } := by
  -- induction on the entries
  induction l generalizing s with
  | nil => exact ⟨s.blockFrees, s.calls, by simp⟩
  | cons p l ih =>
    obtain ⟨frees, calls, hfold⟩ := ih (freeBlock j type s p)
    have hhead : ∃ frees calls, freeBlock j type s p = { s with
        entries := update s.entries p { s.entries p with
          storage := (s.entries p).storage.set j none }
        blockFrees := frees
        calls := calls } := by
      unfold freeBlock
      split
      · unfold callDtor
        split
        · exact ⟨_, _, rfl⟩
        · exact ⟨_, _, rfl⟩
      · rename_i hslot
        have hset : (s.entries p).storage.set j none = (s.entries p).storage := by
          refine ext_getElem? fun i => ?_
          rw [List.getElem?_set]
          by_cases hij : j = i
          · subst hij
            cases hget : (s.entries p).storage[j]? with
            | none => simpa using hget
            | some block =>
              cases block with
              | none =>
                obtain ⟨hlt, -⟩ := List.getElem?_eq_some_iff.mp hget
                simp [hlt]
              | some block => exact absurd hget (hslot block)
          · rw [if_neg hij]
        refine ⟨s.blockFrees, s.calls, ?_⟩
        rw [hset]
        simp
    obtain ⟨frees₁, calls₁, hhead⟩ := hhead
    refine ⟨frees, calls, ?_⟩
    rw [foldl_cons, hfold, hhead]
    simp only [mem_cons]
    congr 1
    funext q
    by_cases hq : q = p
    · subst hq
      by_cases hmem : q ∈ l
      · rw [if_pos hmem, if_pos (Or.inl rfl), update_self, set_set]
      · rw [if_neg hmem, if_pos (Or.inl rfl), update_self]
    · rw [update_of_ne hq]
      by_cases hmem : q ∈ l
      · rw [if_pos hmem, if_pos (Or.inr hmem)]
      · rw [if_neg hmem, if_neg (not_or.mpr ⟨hq, hmem⟩)]

theorem forall₂_fits_modify {types : List ResourceType} {storage : List (Option TsrmBlock)}
    (h : Forall₂ Fits types storage) (j : Nat) :
    Forall₂ Fits (types.modify j fun type => { type with done := true })
      (storage.set j none) := by
  -- induction on the slots
  induction h generalizing j with
  | nil =>
    rw [modify_nil]
    exact .nil
  | cons hfits hrest ih =>
    cases j with
    | zero => exact .cons (by simp [Fits]) hrest
    | succ j => exact .cons hfits (ih j)

theorem Sound.tsFreeId {id : Nat} (h : Sound s) (hcall : s.tsFreeId id = some s') : Sound s' := by
  unfold Tsrm.tsFreeId at hcall
  obtain ⟨type, -, hcall⟩ := bind_eq_some_iff.mp hcall
  obtain ⟨frees, calls, hfold⟩ := foldl_freeBlock (id - 1) type s.tlsTable.flatten s
  dsimp only at hcall
  rw [hfold] at hcall
  rw [← some.inj hcall]
  refine ⟨⟨?_, h.nodup, h.fresh, fun p hp => ?_⟩, h.ids⟩
  · rw [length_modify]
    exact h.types
  · dsimp only at hp ⊢
    rw [if_pos hp, take_modify]
    exact forall₂_fits_modify (h.storage p hp) (id - 1)

/-! ## Runs -/

theorem sound_step {call : TsrmCall} (h : Sound s) (hstep : tsrmSystem.step s call = some s') :
    Sound s' := by
  cases call with
  | setForceThreadId threadId =>
    rw [← some.inj hstep]
    exact ⟨⟨h.types, h.nodup, h.fresh, h.storage⟩, h.ids⟩
  | setInterpreterContext idx =>
    rw [← some.inj hstep]
    exact ⟨⟨h.types, h.nodup, h.fresh, h.storage⟩, h.ids⟩
  | createTsrmTlsEntry idx => exact h.createTsrmTlsEntry hstep
  | tsResource id =>
    obtain ⟨⟨r, t⟩, hcall, rfl⟩ := map_eq_some_iff.mp hstep
    exact h.tsResource hcall
  | tsAllocateId rsrcId size ctor dtor =>
    obtain ⟨⟨id, t⟩, hcall, rfl⟩ := map_eq_some_iff.mp hstep
    exact h.tsAllocateId hcall
  | tsFreeId id => exact h.tsFreeId hstep

end Tsrm

end Phpce
