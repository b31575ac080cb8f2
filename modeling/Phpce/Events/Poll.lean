import Mathlib.Logic.Function.Basic
import Phpce.Lib.Run
import Phpce.Lib.SlotTable

/-!
# The poll slots

The poll module of the process manager keeps an array for `poll(2)` with one slot for each
registered event. An event remembers the slot it was given, and the module remembers a slot that is
supposed to be free.

`Paired` says that the events and the slots agree, `Sound` also that waiting fires the events that
are readable. As long as the slot remembered is free the array is a table of slots
(`table_fpmEventPollAdd_of_free`, `table_fpmEventPollRemove`); where it is not, the array is
searched and the event remembers another slot than the one it was given.

* **`throughout_sound_iff`** — in a run of additions and removals the events and the slots agree
  after every operation, if and only if the slot remembered is free at each addition.
-/

namespace Phpce

open List Option
open Function (update update_of_ne update_self)

/-- `struct pollfd`. -/
structure PollFd where
  fd : Int
  events : Nat
  revents : Nat
  deriving Repr, DecidableEq

/-- `struct fpm_event_s`, as far as the poll module uses it. -/
structure PollEvent where
  fd : Int
  index : Int
  deriving Repr, DecidableEq

/-- The variables of the poll module, and the events. -/
structure Poll (ι : Type*) where
  pollfds : List PollFd
  nextFreeSlot : Nat
  events : ι → PollEvent

namespace Poll

variable {ι : Type*} {p : Poll ι} {ev ev' : ι} {registered : List ι} {i : Nat} {fd : Int}

/-! ## The module -/

def POLLIN : Nat := 0x001
def POLLERR : Nat := 0x008
def POLLHUP : Nat := 0x010
def POLLNVAL : Nat := 0x020

def npollfds (p : Poll ι) : Nat := p.pollfds.length

/-- `fpm_event_poll_init`. The events have not been set. -/
def fpmEventPollInit (max : Nat) : Poll ι where
  pollfds := List.replicate max ⟨-1, 0, 0⟩
  nextFreeSlot := 0
  events := fun _ => ⟨0, 0⟩

/-- `pollfds[i].fd`; `0` where there is no such slot. -/
def slotFd (p : Poll ι) (i : Nat) : Int := (p.pollfds[i]?.map PollFd.fd).getD 0

section Operations

variable [DecidableEq ι]

/-- `fpm_event_set`, with the index that `fpm_event_add` gives. -/
def fpmEventSet (p : Poll ι) (ev : ι) (fd : Int) : Poll ι :=
  { p with events := update p.events ev ⟨fd, -1⟩ }

/-- The slot `i` is filled. The index is that of the slot supposed to be free. -/
def register (p : Poll ι) (ev : ι) (i : Nat) : Poll ι where
  pollfds := p.pollfds.modify i fun slot => { slot with fd := (p.events ev).fd, events := POLLIN }
  nextFreeSlot := if p.npollfds ≤ p.nextFreeSlot + 1 then 0 else p.nextFreeSlot + 1
  events := update p.events ev { p.events ev with index := p.nextFreeSlot }

/-- `fpm_event_poll_add`, with what it returns. -/
def fpmEventPollAdd (p : Poll ι) (ev : ι) : Poll ι × Int :=
  if p.slotFd p.nextFreeSlot = -1 then
    (p.register ev p.nextFreeSlot, 0)
  else
    match p.pollfds.findIdx? fun slot => slot.fd = -1 with
    | some i => (p.register ev i, 0)
    | none => (p, -1)

/-- The slot `i` is cleared. -/
def unregister (p : Poll ι) (ev : ι) (i : Nat) : Poll ι where
  pollfds := p.pollfds.modify i fun slot => { slot with fd := -1, events := 0 }
  nextFreeSlot := i
  events := update p.events ev { p.events ev with index := -1 }

/-- `fpm_event_poll_remove`, with what it returns. -/
def fpmEventPollRemove (p : Poll ι) (ev : ι) : Poll ι × Int :=
  if 0 ≤ (p.events ev).index ∧ (p.events ev).index < p.npollfds ∧
      p.slotFd (p.events ev).index.toNat = (p.events ev).fd then
    (p.unregister ev (p.events ev).index.toNat, 0)
  else
    match p.pollfds.findIdx? fun slot => slot.fd = (p.events ev).fd with
    | some i => (p.unregister ev i, 0)
    | none => (p, -1)

end Operations

/-- What `poll` leaves in the array: a slot whose descriptor is negative is passed over, and errors
are reported without being asked for. `ready fd` is what has happened on `fd`. -/
def poll (ready : Int → Nat) (pollfds : List PollFd) : List PollFd :=
  pollfds.map fun slot =>
    { slot with revents :=
        if slot.fd < 0 then 0
        else ready slot.fd &&& (slot.events ||| POLLERR ||| POLLHUP ||| POLLNVAL) }

/-- The event has a slot, and `POLLIN` has been reported there. -/
def triggered (p : Poll ι) (active : List PollFd) (ev : ι) : Bool :=
  match active[(p.events ev).index.toNat]? with
  | some slot =>
    0 ≤ (p.events ev).index && (p.events ev).index < p.npollfds && (p.events ev).fd == slot.fd &&
      slot.revents &&& POLLIN != 0
  | none => false

/-- `fpm_event_poll_wait`: the events that are fired, and what is returned. `poll` fails when
`ready` is `none`. -/
def fpmEventPollWait (p : Poll ι) (queue : List ι) (ready : Option (Int → Nat)) : List ι × Int :=
  match ready with
  | none => ([], -1)
  | some ready =>
    let active := poll ready p.pollfds
    let ret := active.countP fun slot => slot.revents != 0
    if 0 < ret then (queue.filter (p.triggered active), ret) else ([], ret)

/-! ## Pairing -/

/-- Each registered event has a slot of its own with its descriptor, and the other slots are
free. -/
structure Paired (p : Poll ι) (registered : List ι) : Prop where
  index_range : ∀ ev ∈ registered, 0 ≤ (p.events ev).index ∧ (p.events ev).index < p.npollfds
  fd_eq : ∀ ev ∈ registered, p.slotFd (p.events ev).index.toNat = (p.events ev).fd
  distinct : ∀ ev ∈ registered, ∀ ev' ∈ registered,
    (p.events ev).index = (p.events ev').index → ev = ev'
  free : ∀ i, i < p.npollfds → (∀ ev ∈ registered, (p.events ev).index ≠ i) → p.slotFd i = -1

def table (p : Poll ι) : SlotTable Int where
  slots := p.pollfds.map fun slot => if slot.fd = -1 then none else some slot.fd
  hint := p.nextFreeSlot

def readable (ready : Int → Nat) (fd : Int) : Bool := ready fd &&& POLLIN != 0

def FiresReadable (p : Poll ι) (registered : List ι) : Prop :=
  ∀ ready, (p.fpmEventPollWait registered (some ready)).1 =
    registered.filter fun ev => readable ready (p.events ev).fd

/-! ### The array as a table -/

theorem slotFd_eq (hi : i < p.npollfds) : p.slotFd i = (p.pollfds.get ⟨i, hi⟩).fd := by
  have hget : p.pollfds[i]? = some (p.pollfds.get ⟨i, hi⟩) := List.getElem?_eq_getElem hi
  rw [slotFd, hget]
  rfl

theorem lt_of_slotFd_ne_zero (h : p.slotFd i ≠ 0) : i < p.npollfds := by
  by_contra hle
  apply h
  rw [slotFd, List.getElem?_eq_none (Nat.le_of_not_lt hle)]
  rfl

theorem table_slots (hi : i < p.npollfds) :
    p.table.slots[i]? = some (if p.slotFd i = -1 then none else some (p.slotFd i)) := by
  have hget : p.pollfds[i]? = some (p.pollfds.get ⟨i, hi⟩) := List.getElem?_eq_getElem hi
  rw [table, List.getElem?_map, hget, slotFd_eq hi]
  rfl

theorem size_table : p.table.size = p.npollfds := length_map ..

theorem table_slots_eq_some_none : p.table.slots[i]? = some none ↔ p.slotFd i = -1 := by
  constructor
  · intro h
    have hi : i < p.npollfds := size_table (p := p) ▸ (List.getElem?_eq_some_iff.mp h).1
    rw [table_slots hi] at h
    by_contra hused
    rw [if_neg hused] at h
    cases h
  · intro h
    rw [table_slots (lt_of_slotFd_ne_zero (by omega)), if_pos h]

theorem table_slots_eq_some_some {a : Int} :
    p.table.slots[i]? = some (some a) ↔ i < p.npollfds ∧ p.slotFd i = a ∧ a ≠ -1 := by
  constructor
  · intro h
    have hi : i < p.npollfds := size_table (p := p) ▸ (List.getElem?_eq_some_iff.mp h).1
    rw [table_slots hi] at h
    by_cases hfree : p.slotFd i = -1
    · rw [if_pos hfree] at h
      cases h
    · rw [if_neg hfree] at h
      have ha : p.slotFd i = a := some.inj (some.inj h)
      exact ⟨hi, ha, ha ▸ hfree⟩
  · rintro ⟨hi, rfl, hused⟩
    rw [table_slots hi, if_neg hused]

theorem table_slots_congr {slots : List (Option Int)} (hlength : slots.length = p.npollfds)
    (h : ∀ i, i < p.npollfds → slots[i]? = some (if p.slotFd i = -1 then none else
      some (p.slotFd i))) : p.table.slots = slots := by
  apply ext_getElem?
  intro i
  by_cases hi : i < p.npollfds
  · rw [table_slots hi, h i hi]
  · have htable : p.table.slots.length = p.npollfds := size_table
    rw [List.getElem?_eq_none (by omega), List.getElem?_eq_none (by omega)]

structure Described (p : Poll ι) (registered : List ι) : Prop where
  nodup : registered.Nodup
  fd_nonneg : ∀ ev ∈ registered, 0 ≤ (p.events ev).fd

theorem paired_iff_heldBy (h : p.Described registered) :
    p.Paired registered ↔
      (∀ ev ∈ registered, 0 ≤ (p.events ev).index ∧
        p.slotFd (p.events ev).index.toNat = (p.events ev).fd) ∧
      p.table.HeldBy (registered.map fun ev => (p.events ev).index.toNat) := by
  constructor
  · intro hpaired
    refine ⟨fun ev hev => ⟨(hpaired.index_range ev hev).1, hpaired.fd_eq ev hev⟩, ?_, fun i => ?_⟩
    · refine h.nodup.map_on fun ev hev ev' hev' heq => hpaired.distinct ev hev ev' hev' ?_
      have hlow := (hpaired.index_range ev hev).1
      have hlow' := (hpaired.index_range ev' hev').1
      omega
    · rw [List.mem_map]
      constructor
      · rintro ⟨ev, hev, rfl⟩
        have hrange := hpaired.index_range ev hev
        have hfd := h.fd_nonneg ev hev
        exact ⟨_, table_slots_eq_some_some.mpr ⟨by omega, hpaired.fd_eq ev hev, by omega⟩⟩
      · rintro ⟨a, ha⟩
        obtain ⟨hi, hslot, hused⟩ := table_slots_eq_some_some.mp ha
        by_contra hnone
        refine hused (hslot ▸ hpaired.free i hi fun ev hev heq => hnone ⟨ev, hev, ?_⟩)
        omega
  · rintro ⟨hslot, hheld⟩
    have hlt : ∀ ev ∈ registered, (p.events ev).index.toNat < p.npollfds := fun ev hev =>
      size_table (p := p) ▸ hheld.lt_size (mem_map_of_mem hev)
    refine ⟨fun ev hev => ?_, fun ev hev => (hslot ev hev).2, fun ev hev ev' hev' heq => ?_,
      fun i hi hnone => ?_⟩
    · have hlow := (hslot ev hev).1
      have hhigh := hlt ev hev
      omega
    · exact inj_on_of_nodup_map hheld.nodup hev hev' (congrArg Int.toNat heq)
    · by_contra hused
      have hmem := (hheld.mem_iff i).mpr ⟨_, table_slots_eq_some_some.mpr ⟨hi, rfl, hused⟩⟩
      obtain ⟨ev, hev, heq⟩ := List.mem_map.mp hmem
      have hlow := (hslot ev hev).1
      exact hnone ev hev (by omega)

section Operations

variable [DecidableEq ι]

@[simp]
theorem npollfds_fpmEventSet : (p.fpmEventSet ev fd).npollfds = p.npollfds := rfl

@[simp]
theorem nextFreeSlot_fpmEventSet : (p.fpmEventSet ev fd).nextFreeSlot = p.nextFreeSlot := rfl

@[simp]
theorem events_fpmEventSet_self : (p.fpmEventSet ev fd).events ev = ⟨fd, -1⟩ :=
  update_self ..

theorem events_fpmEventSet_of_ne (h : ev' ≠ ev) :
    (p.fpmEventSet ev fd).events ev' = p.events ev' :=
  update_of_ne h ..

@[simp]
theorem npollfds_register : (p.register ev i).npollfds = p.npollfds := length_modify ..

theorem nextFreeSlot_register :
    (p.register ev i).nextFreeSlot =
      if p.npollfds ≤ p.nextFreeSlot + 1 then 0 else p.nextFreeSlot + 1 := rfl

@[simp]
theorem npollfds_unregister : (p.unregister ev i).npollfds = p.npollfds := length_modify ..

theorem slotFd_register (hi : i < p.npollfds) (j : Nat) :
    (p.register ev i).slotFd j = if i = j then (p.events ev).fd else p.slotFd j := by
  have hget : p.pollfds[i]? = some (p.pollfds.get ⟨i, hi⟩) := List.getElem?_eq_getElem hi
  rw [slotFd, register, List.getElem?_modify]
  split
  · rename_i hij
    rw [← hij, hget]
    rfl
  · rw [slotFd]
    simp

theorem slotFd_unregister (hi : i < p.npollfds) (j : Nat) :
    (p.unregister ev i).slotFd j = if i = j then -1 else p.slotFd j := by
  have hget : p.pollfds[i]? = some (p.pollfds.get ⟨i, hi⟩) := List.getElem?_eq_getElem hi
  rw [slotFd, unregister, List.getElem?_modify]
  split
  · rename_i hij
    rw [← hij, hget]
    rfl
  · rw [slotFd]
    simp

@[simp]
theorem events_register_self :
    (p.register ev i).events ev = { p.events ev with index := p.nextFreeSlot } :=
  update_self ..

theorem events_register_of_ne (h : ev' ≠ ev) : (p.register ev i).events ev' = p.events ev' :=
  update_of_ne h ..

@[simp]
theorem events_unregister_self :
    (p.unregister ev i).events ev = { p.events ev with index := -1 } :=
  update_self ..

theorem events_unregister_of_ne (h : ev' ≠ ev) : (p.unregister ev i).events ev' = p.events ev' :=
  update_of_ne h ..

theorem fpmEventPollAdd_of_free (h : p.slotFd p.nextFreeSlot = -1) :
    p.fpmEventPollAdd ev = (p.register ev p.nextFreeSlot, 0) := if_pos h

theorem table_fpmEventPollAdd_of_free (hfree : p.slotFd p.nextFreeSlot = -1)
    (hfd : (p.events ev).fd ≠ -1) :
    p.table.alloc (p.events ev).fd =
      some (p.nextFreeSlot, (p.fpmEventPollAdd ev).1.table) := by
  have hi : p.nextFreeSlot < p.npollfds := lt_of_slotFd_ne_zero (by omega)
  have hlength : p.table.slots.length = p.npollfds := size_table
  have hpick : p.table.pick = some p.nextFreeSlot := by
    have hslot : p.table.slots[p.table.hint]? = some none := table_slots_eq_some_none.mpr hfree
    rw [SlotTable.pick, hslot]
    rfl
  have hslots : (p.register ev p.nextFreeSlot).table.slots =
      p.table.slots.set p.nextFreeSlot (some (p.events ev).fd) := by
    refine table_slots_congr (by rw [length_set, hlength, npollfds_register]) fun j hj => ?_
    rw [npollfds_register] at hj
    rw [slotFd_register hi]
    by_cases hij : p.nextFreeSlot = j
    · rw [if_pos hij, if_neg hfd, ← hij, List.getElem?_set_self (by omega)]
    · rw [if_neg hij, List.getElem?_set_ne hij, table_slots hj]
  rw [SlotTable.alloc, hpick, fpmEventPollAdd_of_free hfree, map_some, ← hslots, hlength]
  rfl

theorem table_fpmEventPollRemove (hlow : 0 ≤ (p.events ev).index)
    (hhigh : (p.events ev).index < p.npollfds)
    (hfd : p.slotFd (p.events ev).index.toNat = (p.events ev).fd) :
    (p.fpmEventPollRemove ev).1.table = p.table.free (p.events ev).index.toNat := by
  have hi : (p.events ev).index.toNat < p.npollfds := by omega
  have hlength : p.table.slots.length = p.npollfds := size_table
  have hslots : (p.unregister ev (p.events ev).index.toNat).table.slots =
      p.table.slots.set (p.events ev).index.toNat none := by
    refine table_slots_congr (by rw [length_set, hlength, npollfds_unregister]) fun j hj => ?_
    rw [npollfds_unregister] at hj
    rw [slotFd_unregister hi]
    by_cases hij : (p.events ev).index.toNat = j
    · rw [if_pos hij, if_pos rfl, ← hij, List.getElem?_set_self (by omega)]
    · rw [if_neg hij, List.getElem?_set_ne hij, table_slots hj]
  rw [fpmEventPollRemove, if_pos ⟨hlow, hhigh, hfd⟩, SlotTable.free, if_pos (by omega), ← hslots]
  rfl

theorem Paired.fpmEventPollAdd (hpaired : p.Paired registered) (h : p.Described registered)
    (hev : ev ∉ registered) (hfd : 0 ≤ (p.events ev).fd)
    (hfree : p.slotFd p.nextFreeSlot = -1) :
    (p.fpmEventPollAdd ev).1.Paired (ev :: registered) := by
  obtain ⟨hslot, hheld⟩ := (paired_iff_heldBy h).mp hpaired
  have hi : p.nextFreeSlot < p.npollfds := lt_of_slotFd_ne_zero (by omega)
  have hslot' : p.table.alloc (p.events ev).fd =
      some (p.nextFreeSlot, (p.fpmEventPollAdd ev).1.table) :=
    table_fpmEventPollAdd_of_free hfree (by omega)
  have halloc := hheld.alloc hslot'
  rw [fpmEventPollAdd_of_free hfree] at halloc ⊢
  dsimp only at halloc ⊢
  have hother : ∀ ev' ∈ registered, (p.register ev p.nextFreeSlot).events ev' = p.events ev' :=
    fun ev' hev' => events_register_of_ne fun heq => hev (heq ▸ hev')
  have hdescribed : (p.register ev p.nextFreeSlot).Described (ev :: registered) := by
    refine ⟨nodup_cons.mpr ⟨hev, h.nodup⟩, forall_mem_cons.mpr ⟨?_, fun ev' hev' => ?_⟩⟩
    · rw [events_register_self]
      exact hfd
    · rw [hother ev' hev']
      exact h.fd_nonneg ev' hev'
  have hmap : (registered.map fun ev' =>
      ((p.register ev p.nextFreeSlot).events ev').index.toNat) =
      registered.map fun ev' => (p.events ev').index.toNat :=
    map_congr_left fun ev' hev' => by rw [hother ev' hev']
  refine (paired_iff_heldBy hdescribed).mpr ⟨forall_mem_cons.mpr ⟨?_, fun ev' hev' => ?_⟩, ?_⟩
  · rw [events_register_self, slotFd_register hi]
    dsimp only
    rw [if_pos (by omega)]
    exact ⟨by omega, rfl⟩
  · rw [hother ev' hev', slotFd_register hi]
    -- the slot that was free is not that of a registered event
    have hne : p.nextFreeSlot ≠ (p.events ev').index.toNat := by
      intro heq
      have hfd' := h.fd_nonneg ev' hev'
      have hslot' := (hslot ev' hev').2
      rw [← heq, hfree] at hslot'
      omega
    rw [if_neg hne]
    exact hslot ev' hev'
  · rw [map_cons, hmap, events_register_self]
    simpa using halloc

theorem Paired.fpmEventPollRemove (hpaired : p.Paired registered) (h : p.Described registered)
    (hev : ev ∈ registered) : (p.fpmEventPollRemove ev).1.Paired (registered.erase ev) := by
  obtain ⟨hslot, hheld⟩ := (paired_iff_heldBy h).mp hpaired
  have hrange := hpaired.index_range ev hev
  have hi : (p.events ev).index.toNat < p.npollfds := by omega
  have hfree := hheld.free (mem_map_of_mem hev)
  rw [← table_fpmEventPollRemove hrange.1 hrange.2 (hslot ev hev).2] at hfree
  have hremove : p.fpmEventPollRemove ev = (p.unregister ev (p.events ev).index.toNat, 0) :=
    if_pos ⟨hrange.1, hrange.2, (hslot ev hev).2⟩
  rw [hremove] at hfree ⊢
  dsimp only at hfree ⊢
  have hmem : ∀ {ev'}, ev' ∈ registered.erase ev → ev' ≠ ev ∧ ev' ∈ registered :=
    h.nodup.mem_erase_iff.mp
  have hother : ∀ ev' ∈ registered.erase ev,
      (p.unregister ev (p.events ev).index.toNat).events ev' = p.events ev' :=
    fun ev' hev' => events_unregister_of_ne (hmem hev').1
  have hdescribed :
      (p.unregister ev (p.events ev).index.toNat).Described (registered.erase ev) := by
    refine ⟨h.nodup.erase ev, fun ev' hev' => ?_⟩
    rw [hother ev' hev']
    exact h.fd_nonneg ev' (hmem hev').2
  have hmap : ((registered.erase ev).map fun ev' =>
      ((p.unregister ev (p.events ev).index.toNat).events ev').index.toNat) =
      (registered.map fun ev' => (p.events ev').index.toNat).erase (p.events ev).index.toNat := by
    rw [map_congr_left fun ev' hev' => by rw [hother ev' hev']]
    exact SlotTable.map_erase_of_nodup hheld.nodup hev
  refine (paired_iff_heldBy hdescribed).mpr ⟨fun ev' hev' => ?_, hmap ▸ hfree⟩
  rw [hother ev' hev', slotFd_unregister hi]
  have hne : (p.events ev).index.toNat ≠ (p.events ev').index.toNat := fun heq =>
    (hmem hev').1 (inj_on_of_nodup_map hheld.nodup (hmem hev').2 hev heq.symm)
  rw [if_neg hne]
  exact hslot ev' (hmem hev').2

end Operations

/-! ### Waiting -/

theorem land_mask_land_POLLIN (n : Nat) :
    (n &&& (POLLIN ||| POLLERR ||| POLLHUP ||| POLLNVAL)) &&& POLLIN = n &&& POLLIN := by
  rw [Nat.and_assoc]
  rfl

def ForReading (p : Poll ι) : Prop :=
  ∀ slot ∈ p.pollfds, slot.fd ≠ -1 → slot.events = POLLIN

theorem Paired.triggered (hpaired : p.Paired registered) (h : p.Described registered)
    (hread : p.ForReading) (ready : Int → Nat) (hev : ev ∈ registered) :
    p.triggered (poll ready p.pollfds) ev = readable ready (p.events ev).fd := by
  have hrange := hpaired.index_range ev hev
  have hi : (p.events ev).index.toNat < p.npollfds := by omega
  have hfd := hpaired.fd_eq ev hev
  have hnonneg := h.fd_nonneg ev hev
  rw [slotFd_eq hi] at hfd
  have hget : p.pollfds[(p.events ev).index.toNat]? =
      some (p.pollfds.get ⟨(p.events ev).index.toNat, hi⟩) := List.getElem?_eq_getElem hi
  have hevents := hread _ (mem_of_getElem? hget) (by omega)
  generalize p.pollfds.get ⟨(p.events ev).index.toNat, hi⟩ = slot at hfd hget hevents
  rw [Poll.triggered, poll, List.getElem?_map, hget, map_some, hevents,
    if_neg (by omega), hfd, decide_eq_true hrange.1, decide_eq_true hrange.2]
  dsimp only
  rw [land_mask_land_POLLIN, beq_self_eq_true, Bool.true_and, Bool.true_and, Bool.true_and]
  rfl

theorem Paired.firesReadable (hpaired : p.Paired registered) (h : p.Described registered)
    (hread : p.ForReading) : p.FiresReadable registered := by
  intro ready
  have hfilter : registered.filter (p.triggered (poll ready p.pollfds)) =
      registered.filter fun ev => readable ready (p.events ev).fd :=
    filter_congr fun ev hev => hpaired.triggered h hread ready hev
  unfold fpmEventPollWait
  dsimp only
  split
  · exact hfilter
  · rename_i hnone
    -- nothing has been reported on any slot
    rw [← hfilter, eq_comm, filter_eq_nil_iff]
    intro ev _ htriggered
    unfold Poll.triggered at htriggered
    split at htriggered
    · rename_i slot hslot
      apply hnone
      refine countP_pos_iff.mpr ⟨slot, mem_of_getElem? hslot, ?_⟩
      simp only [Bool.and_eq_true, bne_iff_ne, ne_eq] at htriggered ⊢
      intro hzero
      rw [hzero] at htriggered
      exact htriggered.2 rfl
    · cases htriggered

end Poll

/-! ## Runs -/

inductive PollOp (ι : Type*) where
  /-- The event is set to the descriptor, and added. -/
  | add (ev : ι) (fd : Int)
  | remove (ev : ι)
  deriving Repr, DecidableEq

structure PollQueue (ι : Type*) where
  poll : Poll ι
  registered : List ι

namespace PollQueue

variable {ι : Type*} {q : PollQueue ι}

section Operations

variable [DecidableEq ι]

/-- There is no slot for more than `npollfds` events, and no two have one descriptor. -/
def MayAdd (q : PollQueue ι) (ev : ι) (fd : Int) : Prop :=
  ev ∉ q.registered ∧ 0 ≤ fd ∧ (∀ ev' ∈ q.registered, (q.poll.events ev').fd ≠ fd) ∧
    q.registered.length < q.poll.npollfds

instance (q : PollQueue ι) (ev : ι) (fd : Int) : Decidable (q.MayAdd ev fd) :=
  inferInstanceAs (Decidable (_ ∧ _))

def step (q : PollQueue ι) : PollOp ι → Option (PollQueue ι)
  | .add ev fd =>
    if q.MayAdd ev fd then
      some ⟨((q.poll.fpmEventSet ev fd).fpmEventPollAdd ev).1, ev :: q.registered⟩
    else none
  | .remove ev =>
    if ev ∈ q.registered then some ⟨(q.poll.fpmEventPollRemove ev).1, q.registered.erase ev⟩
    else none

def system : EventSystem (PollQueue ι) (PollOp ι) where
  step := step

end Operations

def init (max : Nat) : PollQueue ι := ⟨Poll.fpmEventPollInit max, []⟩

/-- The events and the slots agree, and waiting fires what is readable. -/
def Sound (q : PollQueue ι) : Prop :=
  q.poll.Paired q.registered ∧ q.poll.FiresReadable q.registered

def HintFree (q : PollQueue ι) : PollOp ι → Prop
  | .add _ _ => q.poll.slotFd q.poll.nextFreeSlot = -1
  | .remove _ => True

structure Legal (q : PollQueue ι) : Prop where
  described : q.poll.Described q.registered
  forReading : q.poll.ForReading
  hint_lt : 0 < q.poll.npollfds → q.poll.nextFreeSlot < q.poll.npollfds

theorem legal_init (max : Nat) : (init max : PollQueue ι).Legal where
  described := ⟨nodup_nil, fun _ h => absurd h not_mem_nil⟩
  forReading _ hslot hused := absurd (congrArg PollFd.fd (eq_of_mem_replicate hslot)) hused
  hint_lt := id

theorem sound_iff_paired (h : q.Legal) : q.Sound ↔ q.poll.Paired q.registered :=
  ⟨fun hsound => hsound.1, fun hpaired => ⟨hpaired, hpaired.firesReadable h.described h.forReading⟩⟩

theorem sound_init (max : Nat) : (init max : PollQueue ι).Sound := by
  refine (sound_iff_paired (legal_init max)).mpr ⟨fun _ h => absurd h not_mem_nil,
    fun _ h => absurd h not_mem_nil, fun _ h => absurd h not_mem_nil, fun i hi _ => ?_⟩
  have hi : i < (Poll.fpmEventPollInit max : Poll ι).npollfds := hi
  exact (Poll.slotFd_eq hi).trans
    (congrArg PollFd.fd (eq_of_mem_replicate (get_mem ..)))

end PollQueue

namespace Poll

variable {ι : Type*} {p : Poll ι} {ev : ι} {i : Nat}

theorem ForReading.modify {f : PollFd → PollFd} (h : p.ForReading)
    (hf : ∀ slot, (f slot).fd ≠ -1 → (f slot).events = POLLIN) :
    ∀ slot ∈ p.pollfds.modify i f, slot.fd ≠ -1 → slot.events = POLLIN := by
  intro slot hslot
  obtain ⟨j, hj⟩ := mem_iff_getElem?.mp hslot
  rw [List.getElem?_modify] at hj
  obtain ⟨old, hold, rfl⟩ := map_eq_some_iff.mp hj
  split
  · exact hf old
  · exact h old (mem_of_getElem? hold)

variable [DecidableEq ι]

theorem fpmEventPollAdd_cases (p : Poll ι) (ev : ι) :
    (∃ i, p.fpmEventPollAdd ev = (p.register ev i, 0)) ∨ p.fpmEventPollAdd ev = (p, -1) := by
  unfold fpmEventPollAdd
  split
  · exact .inl ⟨_, rfl⟩
  · split
    · exact .inl ⟨_, rfl⟩
    · exact .inr rfl

theorem fpmEventPollRemove_cases (p : Poll ι) (ev : ι) :
    (∃ i, i < p.npollfds ∧ p.fpmEventPollRemove ev = (p.unregister ev i, 0)) ∨
      p.fpmEventPollRemove ev = (p, -1) := by
  unfold fpmEventPollRemove
  split
  · rename_i h
    exact .inl ⟨_, by omega, rfl⟩
  · split
    · rename_i i hi
      exact .inl ⟨i, (List.findIdx?_eq_some_iff_getElem.mp hi).1, rfl⟩
    · exact .inr rfl

theorem fd_register (ev' : ι) : ((p.register ev i).events ev').fd = (p.events ev').fd := by
  by_cases h : ev' = ev
  · rw [h, events_register_self]
  · rw [events_register_of_ne h]

theorem fd_unregister (ev' : ι) : ((p.unregister ev i).events ev').fd = (p.events ev').fd := by
  by_cases h : ev' = ev
  · rw [h, events_unregister_self]
  · rw [events_unregister_of_ne h]

end Poll

namespace PollQueue

variable {ι : Type*} [DecidableEq ι] {q q' : PollQueue ι} {op : PollOp ι} {ops : List (PollOp ι)}
  {ev : ι} {fd : Int}

theorem step_add (h : q.step (.add ev fd) = some q') :
    q.MayAdd ev fd ∧
      q' = ⟨((q.poll.fpmEventSet ev fd).fpmEventPollAdd ev).1, ev :: q.registered⟩ := by
  simp only [step, ite_none_right_eq_some, some.injEq] at h
  exact ⟨h.1, h.2.symm⟩

theorem step_remove (h : q.step (.remove ev) = some q') :
    ev ∈ q.registered ∧ q' = ⟨(q.poll.fpmEventPollRemove ev).1, q.registered.erase ev⟩ := by
  simp only [step, ite_none_right_eq_some, some.injEq] at h
  exact ⟨h.1, h.2.symm⟩

theorem fd_fpmEventSet (hev : ev ∉ q.registered) :
    ∀ ev' ∈ q.registered, (q.poll.fpmEventSet ev fd).events ev' = q.poll.events ev' :=
  fun _ hev' => Poll.events_fpmEventSet_of_ne fun heq => hev (heq ▸ hev')

theorem Legal.fpmEventSet (h : q.Legal) (hadd : q.MayAdd ev fd) :
    (q.poll.fpmEventSet ev fd).Described (ev :: q.registered) := by
  refine ⟨nodup_cons.mpr ⟨hadd.1, h.described.nodup⟩,
    forall_mem_cons.mpr ⟨?_, fun ev' hev' => ?_⟩⟩
  · rw [Poll.events_fpmEventSet_self]
    exact hadd.2.1
  · rw [fd_fpmEventSet hadd.1 ev' hev']
    exact h.described.fd_nonneg ev' hev'

theorem Legal.step (h : q.Legal) (hstep : q.step op = some q') : q'.Legal := by
  cases op with
  | add ev fd =>
    obtain ⟨hadd, rfl⟩ := step_add hstep
    have hset := h.fpmEventSet hadd
    obtain ⟨i, hi⟩ | hi := (q.poll.fpmEventSet ev fd).fpmEventPollAdd_cases ev
    · rw [hi]
      refine ⟨⟨hset.nodup, fun ev' hev' => ?_⟩, ?_, fun hpos => ?_⟩
      · rw [Poll.fd_register]
        exact hset.fd_nonneg ev' hev'
      · exact Poll.ForReading.modify (p := q.poll.fpmEventSet ev fd) h.forReading fun _ _ => rfl
      · rw [Poll.npollfds_register, Poll.npollfds_fpmEventSet] at hpos ⊢
        rw [Poll.nextFreeSlot_register, Poll.npollfds_fpmEventSet, Poll.nextFreeSlot_fpmEventSet]
        split
        · exact hpos
        · omega
    · rw [hi]
      exact ⟨hset, h.forReading, h.hint_lt⟩
  | remove ev =>
    obtain ⟨-, rfl⟩ := step_remove hstep
    have hmem : ∀ {ev'}, ev' ∈ q.registered.erase ev → ev' ∈ q.registered := mem_of_mem_erase
    obtain ⟨i, hlt, hi⟩ | hi := q.poll.fpmEventPollRemove_cases ev
    · rw [hi]
      refine ⟨⟨h.described.nodup.erase ev, fun ev' hev' => ?_⟩, ?_, fun _ => ?_⟩
      · rw [Poll.fd_unregister]
        exact h.described.fd_nonneg ev' (hmem hev')
      · exact h.forReading.modify fun _ hused => absurd rfl hused
      · rw [Poll.npollfds_unregister]
        exact hlt
    · rw [hi]
      exact ⟨⟨h.described.nodup.erase ev, fun ev' hev' => h.described.fd_nonneg ev' (hmem hev')⟩,
        h.forReading, h.hint_lt⟩

theorem paired_fpmEventSet (hpaired : q.poll.Paired q.registered) (hev : ev ∉ q.registered) :
    (q.poll.fpmEventSet ev fd).Paired q.registered := by
  have hother : ∀ ev' ∈ q.registered, (q.poll.fpmEventSet ev fd).events ev' = q.poll.events ev' :=
    fd_fpmEventSet hev
  refine ⟨fun ev' hev' => ?_, fun ev' hev' => ?_, fun ev₁ h₁ ev₂ h₂ => ?_, fun i hi hnone => ?_⟩
  · rw [hother ev' hev']
    exact hpaired.index_range ev' hev'
  · rw [hother ev' hev']
    exact hpaired.fd_eq ev' hev'
  · rw [hother ev₁ h₁, hother ev₂ h₂]
    exact hpaired.distinct ev₁ h₁ ev₂ h₂
  · exact hpaired.free i hi fun ev' hev' => hother ev' hev' ▸ hnone ev' hev'

theorem paired_step (h : q.Legal) (hpaired : q.poll.Paired q.registered) (hfree : q.HintFree op)
    (hstep : q.step op = some q') : q'.poll.Paired q'.registered := by
  cases op with
  | add ev fd =>
    obtain ⟨hadd, rfl⟩ := step_add hstep
    have hset := h.fpmEventSet hadd
    refine (paired_fpmEventSet hpaired hadd.1).fpmEventPollAdd
      ⟨h.described.nodup, fun ev' hev' => hset.fd_nonneg ev' (mem_cons_of_mem _ hev')⟩ hadd.1
      (hset.fd_nonneg ev mem_cons_self) hfree
  | remove ev =>
    obtain ⟨hev, rfl⟩ := step_remove hstep
    exact hpaired.fpmEventPollRemove h.described hev

theorem not_paired_step (h : q.Legal) (hpaired : q.poll.Paired q.registered)
    (hused : ¬q.HintFree op) (hstep : q.step op = some q') : ¬q'.poll.Paired q'.registered := by
  cases op with
  | remove ev => exact absurd trivial hused
  | add ev fd =>
    obtain ⟨hadd, rfl⟩ := step_add hstep
    have hlt := h.hint_lt (Nat.zero_lt_of_lt hadd.2.2.2)
    obtain ⟨other, hother, hindex⟩ : ∃ ev' ∈ q.registered,
        (q.poll.events ev').index = q.poll.nextFreeSlot := by
      by_contra hnone
      exact hused (hpaired.free _ hlt fun ev' hev' heq => hnone ⟨ev', hev', heq⟩)
    have hne : other ≠ ev := fun heq => hadd.1 (heq ▸ hother)
    intro hpaired'
    obtain ⟨i, hi⟩ | hi := (q.poll.fpmEventSet ev fd).fpmEventPollAdd_cases ev
    · rw [hi] at hpaired'
      refine hne (hpaired'.distinct other (mem_cons_of_mem _ hother) ev mem_cons_self ?_)
      rw [Poll.events_register_of_ne hne, Poll.events_register_self,
        Poll.events_fpmEventSet_of_ne hne, hindex]
      rfl
    · rw [hi] at hpaired'
      have hlow : 0 ≤ ((q.poll.fpmEventSet ev fd).events ev).index :=
        (hpaired'.index_range ev mem_cons_self).1
      rw [Poll.events_fpmEventSet_self] at hlow
      dsimp only at hlow
      omega

/-- The events and the slots agree after every operation, and waiting fires the registered events
that are readable, if and only if the slot remembered is free whenever an event is added. -/
theorem throughout_sound_iff {max : Nat} (h : system.FreeRun (init max) ops q) :
    system.Throughout Sound (init max) ops ↔ system.Along HintFree (init max) ops := by
  have hpres : ∀ (s : PollQueue ι) op s', s.Legal → True → system.step s op = some s' → s'.Legal :=
    fun _ _ _ hlegal _ hstep => hlegal.step hstep
  refine h.throughout_iff_along hpres
    (fun s op s' hlegal _ hsound hfree hstep => ?_)
    (fun s op s' hlegal _ hsound hused hstep => ?_)
    (legal_init max) (sound_init max)
  · exact (sound_iff_paired (hlegal.step hstep)).mpr (paired_step hlegal hsound.1 hfree hstep)
  · exact fun hsound' => not_paired_step hlegal hsound.1 hused hstep hsound'.1

theorem throughout_sound_iff_two :
    system.Throughout Sound (init 3) [.add 0 5, .add 1 6] ↔
      system.Along HintFree (init 3) [.add (0 : Nat) 5, .add 1 6] :=
  throughout_sound_iff (EventSystem.run_of_exec (some_get (x := system.exec (init 3)
    [.add (0 : Nat) 5, .add 1 6]) (by decide)).symm)

/-- Three slots, where the last event to be added is given the third and remembers the second. -/
def crowded : List (PollOp Nat) :=
  [.add 0 5, .add 1 6, .remove 0, .add 2 7, .add 3 8]

/-- The last event is never fired. -/
theorem not_throughout_sound :
    ¬∀ (max : Nat) (ops : List (PollOp Nat)) (q : PollQueue Nat),
      system.FreeRun (init max) ops q → system.Throughout Sound (init max) ops := by
  intro hclaim
  have hrun := EventSystem.run_of_exec
    (some_get (x := system.exec (init 3) crowded) (by decide)).symm
  have hsound := hrun.last_of_throughout (hclaim 3 crowded _ hrun)
  exact absurd (hsound.2 fun fd => if fd = 8 then Poll.POLLIN else 0) (by decide)

end PollQueue

end Phpce
