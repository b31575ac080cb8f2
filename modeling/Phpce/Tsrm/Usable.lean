import Phpce.Tsrm.Registry

/-!
# Is an id that `ts_allocate_id` returns usable?

An address that is new gets an id with a block in every entry. For one that is known the code
takes the entry at `force_thread_id` and the id that the address holds, and looks neither at
whether coroutines are in use nor at whether the id has been freed since.

* **`allocate_usable_iff`** — the calls of `ts_allocate_id` in a sequence of calls all return
  usable ids if and only if each of them is for a new address, or for one whose id has not been
  freed while `force_thread_id` is a coroutine's.
* **`not_allocate_usable`** — an address registered again after `ts_free_id`, without coroutines.
-/

namespace Phpce

namespace Tsrm

open List

variable {s s' : Tsrm} {p : TlsEntryPtr} {a : RsrcIdPtr} {id : Nat} {type : ResourceType}

/-- The id is not marked as done, and the entry of the calling thread, if it has one, has a block
for it. -/
def UsableId (s : Tsrm) (id : Nat) : Prop :=
  (∃ type, index s.resourceTypes (unshuffleRsrcId id) = some type ∧ type.done = false) ∧
    ∀ p, s.findEntry s.tsrmThreadId = some p →
      ∃ block, index (s.entries p).storage (unshuffleRsrcId id) = some (some block)

/-- A call of `ts_allocate_id` goes beyond no array and returns a usable id. -/
def ReturnsUsable (s : Tsrm) : TsrmCall → Prop
  | .tsAllocateId rsrcId size ctor dtor =>
      ∃ id s', s.tsAllocateId rsrcId size ctor dtor = some (id, s') ∧ s'.UsableId id
  | _ => True

/-- Where the address is known, `force_thread_id` is a slot of the table, with an entry in it if
there is a constructor to call, and the id at the address has not been freed. -/
def MayAllocate (s : Tsrm) : TsrmCall → Prop
  | .tsAllocateId rsrcId _ _ _ =>
      s.Known rsrcId → ∃ chain type, index s.tlsTable s.forceThreadId = some chain ∧
        index s.resourceTypes (unshuffleRsrcId (s.rsrcIds rsrcId)) = some type ∧
        type.done = false ∧ (type.ctor.isSome → chain ≠ [])
  | _ => True

theorem index_unshuffle {α : Type*} {array : List α} (h : 0 < id) :
    index array (unshuffleRsrcId id) = array[id - 1]? := by
  have hnonneg : (0 : Int) ≤ unshuffleRsrcId id := by
    rw [unshuffleRsrcId]
    omega
  have htoNat : (unshuffleRsrcId id).toNat = id - 1 := by
    rw [unshuffleRsrcId]
    omega
  rw [index, if_pos hnonneg, htoNat]

theorem mem_flatten_of_findEntry {threadId : ThreadT} (h : s.findEntry threadId = some p) :
    p ∈ s.tlsTable.flatten := by
  have hmem := mem_of_find?_eq_some h
  cases hslot : s.tlsTable[threadHashOf threadId s.tlsTable.length]? with
  | none =>
    rw [hslot] at hmem
    cases hmem
  | some chain =>
    rw [hslot] at hmem
    exact mem_flatten.mpr ⟨chain, mem_of_getElem? hslot, hmem⟩

theorem Sound.block (h : Sound s) (hp : p ∈ s.tlsTable.flatten) (hpos : 0 < id)
    (hle : id ≤ s.idCount) (htype : index s.resourceTypes (unshuffleRsrcId id) = some type)
    (hlive : type.done = false) :
    ∃ block, index (s.entries p).storage (unshuffleRsrcId id) = some (some block) := by
  have hfits := h.storage p hp
  rw [index_unshuffle hpos] at htype ⊢
  have hlt : id - 1 < (s.entries p).storage.length := by
    rw [h.length_storage hp]
    omega
  have htake : (s.resourceTypes.take s.idCount)[id - 1]? = some type := by
    rw [List.getElem?_take_of_lt (by omega), htype]
  obtain ⟨hlt', hget⟩ := List.getElem?_eq_some_iff.mp htake
  have hslot : Fits (s.resourceTypes.take s.idCount)[id - 1] (s.entries p).storage[id - 1] :=
    (forall₂_iff_get.mp hfits).2 (id - 1) hlt' hlt
  rw [hget] at hslot
  cases hblock : (s.entries p).storage[id - 1] with
  | none =>
    rw [hslot.mp hblock] at hlive
    cases hlive
  | some block => exact ⟨block, by rw [List.getElem?_eq_getElem hlt, hblock]⟩

theorem Sound.usableId (h : Sound s) (hpos : 0 < id) (hle : id ≤ s.idCount)
    (htype : index s.resourceTypes (unshuffleRsrcId id) = some type) (hlive : type.done = false) :
    s.UsableId id :=
  ⟨⟨type, htype, hlive⟩, fun _ hp =>
    h.block (mem_flatten_of_findEntry hp) hpos hle htype hlive⟩

theorem usable_of_new (h : Sound s) (hnew : ¬s.Known a) (size : Nat)
    (ctor dtor : Option ResourceFn) :
    ∃ id s', s.tsAllocateId a size ctor dtor = some (id, s') ∧ s'.UsableId id := by
  have hcall : s.tsAllocateId a size ctor dtor =
      some ((s.remember a).allocateForAll a size ctor dtor) := by
    rw [tsAllocateId, rsrcIdSetIsnew_new hnew]
  have hsound := h.allocateForAll a size ctor dtor
  rw [allocateForAll_eq h.toLaid.remember] at hcall hsound
  have hlive : (⟨size, ctor, dtor, false⟩ : ResourceType).done = false := rfl
  refine ⟨_, _, hcall, hsound.usableId (Nat.succ_pos _) (Nat.le_refl _) ?_ hlive⟩
  have htake : (storeType s.resourceTypes (s.idCount + 1) ⟨size, ctor, dtor, false⟩).take
      (s.idCount + 1) = s.resourceTypes.take s.idCount ++ [⟨size, ctor, dtor, false⟩] :=
    take_storeType h.types
  have hlen : (s.resourceTypes.take s.idCount).length = s.idCount :=
    length_take_of_le h.types
  rw [index_unshuffle (Nat.succ_pos _)]
  show (storeType s.resourceTypes (s.idCount + 1) ⟨size, ctor, dtor, false⟩)[s.idCount]? = _
  rw [← List.getElem?_take_of_lt (Nat.lt_succ_self s.idCount), htake,
    List.getElem?_append_right (Nat.le_of_eq hlen), hlen, Nat.sub_self]
  rfl

theorem usable_known_iff (h : Sound s) (hknown : s.Known a) :
    (∃ id s', s.constructCurrent a = some (id, s') ∧ s'.UsableId id) ↔
      ∃ chain type, index s.tlsTable s.forceThreadId = some chain ∧
        index s.resourceTypes (unshuffleRsrcId (s.rsrcIds a)) = some type ∧
        type.done = false ∧ (type.ctor.isSome → chain ≠ []) := by
  obtain ⟨hpos, hle⟩ := h.ids a hknown
  constructor
  · rintro ⟨id, s', hcall, ⟨type', htype', hlive⟩, -⟩
    obtain ⟨rfl, t, b, rfl⟩ := constructCurrent_eq hcall
    rw [callCtor_eq] at htype'
    unfold constructCurrent at hcall
    obtain ⟨chain, hchain, hcall⟩ := Option.bind_eq_some_iff.mp hcall
    obtain ⟨type, htype, hcall⟩ := Option.bind_eq_some_iff.mp hcall
    have hsame : type' = type := Option.some.inj (htype'.symm.trans htype)
    refine ⟨chain, type, hchain, htype, hsame ▸ hlive, fun hctor hnil => ?_⟩
    rw [if_pos hctor, hnil] at hcall
    cases hcall
  · rintro ⟨chain, type, hchain, htype, hlive, hctor⟩
    by_cases hisSome : type.ctor.isSome
    · obtain ⟨p, rest, rfl⟩ := exists_cons_of_ne_nil (hctor hisSome)
      have hslot : s.tlsTable[s.forceThreadId.toNat]? = some (p :: rest) := by
        unfold index at hchain
        split at hchain
        · exact hchain
        · cases hchain
      have hp : p ∈ s.tlsTable.flatten :=
        mem_flatten.mpr ⟨p :: rest, mem_of_getElem? hslot, mem_cons_self⟩
      obtain ⟨block, hblock⟩ := h.block hp hpos hle htype hlive
      have hcall : s.constructCurrent a = some (s.rsrcIds a, s.callCtor type (some block)) := by
        simp [constructCurrent, hchain, htype, hisSome, hblock]
      refine ⟨_, _, hcall, (h.callCtor (some block)).usableId hpos ?_ ?_ hlive⟩
      · rw [callCtor_eq]
        exact hle
      · rw [callCtor_eq]
        exact htype
    · have hcall : s.constructCurrent a = some (s.rsrcIds a, s) := by
        simp [constructCurrent, hchain, htype, hisSome]
      exact ⟨_, _, hcall, h.usableId hpos hle htype hlive⟩

theorem returnsUsable_iff (h : Sound s) (call : TsrmCall) :
    s.ReturnsUsable call ↔ s.MayAllocate call := by
  cases call with
  | tsAllocateId rsrcId size ctor dtor =>
    by_cases hknown : s.Known rsrcId
    · have hcall : s.tsAllocateId rsrcId size ctor dtor = s.constructCurrent rsrcId := by
        rw [tsAllocateId, rsrcIdSetIsnew_known hknown]
      simp only [ReturnsUsable, MayAllocate, hcall]
      exact (usable_known_iff h hknown).trans ⟨fun h _ => h, fun h => h hknown⟩
    · exact ⟨fun _ h => absurd h hknown, fun _ => usable_of_new h hknown size ctor dtor⟩
  | _ => exact Iff.rfl

/-- **Exactly when ids are usable.** In a sequence of calls from the start on, `ts_allocate_id`
returns a usable id each time if and only if each time the address is new, or its id has not been
freed and `force_thread_id` is that of a coroutine. -/
theorem allocate_usable_iff (expectedThreads expectedResources : Nat) (pthreadSelf : ThreadT)
    (calls : List TsrmCall) :
    tsrmSystem.Along ReturnsUsable (tsrmStartup expectedThreads expectedResources pthreadSelf)
        calls ↔
      tsrmSystem.Along MayAllocate (tsrmStartup expectedThreads expectedResources pthreadSelf)
        calls :=
  EventSystem.Along.congr (fun _ _ _ h hstep => sound_step h hstep)
    (fun _ call h => returnsUsable_iff h call) calls
    (sound_tsrmStartup expectedThreads expectedResources pthreadSelf)

/-- **An extension loaded again**, without coroutines: the table is read at the index -1. -/
theorem not_allocate_usable : ¬∀ (calls : List TsrmCall),
    tsrmSystem.Along ReturnsUsable (tsrmStartup 1 1 7) calls := by
  intro h
  have hrun := h [.tsResource 0, .tsAllocateId 1000 16 none none, .tsFreeId 1,
    .tsAllocateId 1000 16 none none]
  obtain ⟨id, s', hcall, -⟩ := (((hrun.2 _ rfl).2 _ rfl).2 _ rfl).1
  cases hcall

end Tsrm

end Phpce
