import Phpce.Headers.Basic
import Phpce.Lib.Multimap

/-!
# The headers as a multimap

The list of headers as a multimap from names to headers, where the case of a name does not matter:
what a call does to the list in memory is an operation of the multimap.

* **`refines_multimap_iff`** — over every sequence of calls, as long as no length is cut where a
  header is to be removed.
-/

namespace Phpce

namespace Headers

open Bytes List
open Option hiding or_assoc

def entryName (e : HeaderStruct) : Option Bytes := (nameOf e.header).map (List.map toLower)

def Refused (sg : SapiGlobals) (p : HeaderLine) : Prop :=
  (sg.headersSent ∧ ¬sg.noHeaders) ∨ p.line = []

instance (sg : SapiGlobals) (p : HeaderLine) : Decidable (Refused sg p) :=
  inferInstanceAs (Decidable (_ ∨ _))

def mapAfter (sg : SapiGlobals) (call : HeaderCall) (es : List HeaderStruct) :
    List HeaderStruct :=
  match call with
  | .setStatus _ => es
  | .deleteAll => if sg.headersSent ∧ ¬sg.noHeaders then es else []
  | .line .delete p =>
    if Refused sg p ∨ colon ∈ cstr (trim p.line) then es
    else Multimap.delete entryName ((trim p.line).map toLower) es
  | .line .add _ => (addedHeader sg call).elim es fun e => Multimap.add e es
  | .line .replace _ => (addedHeader sg call).elim es fun e => Multimap.replace entryName e es

def RefinesMap (h : SapiHeaders) (ev : HeaderEvent) : Prop :=
  ∀ h', system.step h ev = some h' →
    h'.headers.toList = mapAfter ev.sg ev.call h.headers.toList

def Unhandled (_ : SapiHeaders) (ev : HeaderEvent) : Prop :=
  Fresh ev.alloc ∧ ev.sg.headerHandler = none ∧ (0 : UInt8) ∉ ev.sg.defaultCharset

/-- The headers with the name that the call removes have a length that is greater than that of the
name, and the name of a line that replaces them has a length that is an `int`. -/
def LengthsFit (h : SapiHeaders) (ev : HeaderEvent) : Prop :=
  ∀ name len, removedName ev.sg ev.call = some (name, len) →
    ∀ e ∈ h.headers.toList, entryName e = some (name.map toLower) →
      name.length < e.headerLen ∧
        ((∃ p, ev.call = .line .replace p) → name.length < 0x80000000)

variable {sg : SapiGlobals} {h h' : SapiHeaders} {call : HeaderCall} {e : HeaderStruct}
  {ev : HeaderEvent} {evs : List HeaderEvent} {name b n : Bytes} {len : Nat}

/-! ## Names -/

theorem toLower_eq_iff {x c : UInt8} (hc : c < 65) : toLower x = c ↔ x = c := by
  unfold toLower
  split
  · rename_i hupper
    have hne : x ≠ c := fun heq => absurd hupper.1 (by rw [heq]; exact UInt8.not_le.mpr hc)
    refine iff_of_false (fun heq => ?_) hne
    obtain ⟨hlow, hhigh⟩ := hupper
    have hlow := UInt8.le_iff_toNat_le.mp hlow
    have hhigh := UInt8.le_iff_toNat_le.mp hhigh
    have hlt := UInt8.lt_iff_toNat_lt.mp hc
    have hsum := congrArg UInt8.toNat heq
    rw [UInt8.toNat_add] at hsum
    simp only [UInt8.reduceToNat] at hlow hhigh hlt hsum
    omega
  · exact Iff.rfl

theorem mem_map_toLower_iff {c : UInt8} (hc : c < 65) : c ∈ b.map toLower ↔ c ∈ b := by
  rw [List.mem_map]
  constructor
  · rintro ⟨x, hx, heq⟩
    exact (toLower_eq_iff hc).mp heq ▸ hx
  · exact fun hmem => ⟨c, hmem, (toLower_eq_iff hc).mpr rfl⟩

theorem nameOf_eq_some_iff :
    nameOf b = some n ↔ colon ∉ n ∧ b.take n.length = n ∧ b[n.length]? = some colon := by
  unfold nameOf
  constructor
  · intro heq
    split at heq
    · rename_i hmem
      have hn := some.inj heq
      subst hn
      have hsplit := takeWhile_append_dropWhile (p := (· ≠ colon)) (l := b)
      have hdrop : (b.dropWhile (· ≠ colon)).head? = some colon := by
        cases hrest : b.dropWhile (· ≠ colon) with
        | nil =>
          have hall := dropWhile_eq_nil_iff.mp hrest colon hmem
          simp at hall
        | cons c rest =>
          have hhead := List.head?_dropWhile_not (· ≠ colon) b
          rw [hrest] at hhead
          simpa using hhead
      refine ⟨fun hin => ?_, ?_, ?_⟩
      · simpa using mem_takeWhile_imp hin
      · exact (prefix_iff_eq_take.mp (List.takeWhile_prefix _)).symm
      · rw [← hdrop, List.head?_eq_getElem?]
        generalize b.takeWhile (· ≠ colon) = front at hsplit
        generalize b.dropWhile (· ≠ colon) = back at hsplit
        rw [← hsplit, List.getElem?_append_right (Nat.le_refl _), Nat.sub_self]
    · cases heq
  · rintro ⟨hcolon, htake, hget⟩
    rw [if_pos (mem_of_getElem? hget)]
    obtain ⟨hlt, hc⟩ := List.getElem?_eq_some_iff.mp hget
    have hsplit : b = n ++ colon :: b.drop (n.length + 1) := by
      rw [← hc, getElem_cons_drop, ← htake, length_take, Nat.min_eq_left hlt.le,
        take_append_drop]
    rw [hsplit, takeWhile_append_of_pos, takeWhile_cons_of_neg (by simp),
      append_nil]
    intro x hx
    simpa using fun heq : x = colon => hcolon (heq ▸ hx)

theorem entryName_eq_some_iff (hname : colon ∉ name) :
    entryName e = some (name.map toLower) ↔
      (e.header.take name.length).map toLower = name.map toLower ∧
        e.header[name.length]? = some colon := by
  unfold entryName
  constructor
  · intro heq
    obtain ⟨n, hn, hlower⟩ := map_eq_some_iff.mp heq
    obtain ⟨-, htake, hget⟩ := nameOf_eq_some_iff.mp hn
    have hlength : n.length = name.length := by
      simpa using congrArg List.length hlower
    rw [← hlength, htake]
    exact ⟨hlower, hget⟩
  · rintro ⟨hlower, hget⟩
    refine map_eq_some_iff.mpr ⟨e.header.take name.length, ?_, hlower⟩
    have hlt := (List.getElem?_eq_some_iff.mp hget).1
    have hlength : (e.header.take name.length).length = name.length := by
      rw [length_take, Nat.min_eq_left hlt.le]
    refine nameOf_eq_some_iff.mpr ⟨fun hmem => ?_, ?_, ?_⟩
    · have hin := (mem_map_toLower_iff (by decide)).mpr hmem
      rw [hlower] at hin
      exact hname ((mem_map_toLower_iff (by decide)).mp hin)
    · rw [hlength]
    · rw [hlength]
      exact hget

theorem isNamed_iff (hnul : (0 : UInt8) ∉ e.header) (hname : colon ∉ cstr name) :
    isNamed name name.length e = true ↔
      entryName e = some (name.map toLower) ∧ name.length < e.headerLen := by
  have hcstr : cstr e.header = e.header := takeWhile_eq_self_iff.mpr fun x hx => by
    simpa using fun h0 : x = 0 => hnul (h0 ▸ hx)
  have hnamed : isNamed name name.length e = true ↔ name.length < e.headerLen ∧
      e.header[name.length]? = some colon ∧
      (e.header.take name.length).map toLower = ((cstr name).take name.length).map toLower := by
    rw [isNamed, strncasecmpEq, hcstr]
    simp only [Bool.and_eq_true, decide_eq_true_eq, and_assoc]
  by_cases h0 : (0 : UInt8) ∈ name
  · -- no header has a NUL in its name
    refine iff_of_false (fun h => ?_) fun h => ?_
    · obtain ⟨-, hget, hlower⟩ := hnamed.mp h
      have hlt := (List.getElem?_eq_some_iff.mp hget).1
      have hlength := congrArg List.length hlower
      rw [length_map, length_map, length_take, length_take,
        Nat.min_eq_left hlt.le] at hlength
      have hshort : (cstr name).length < name.length := by
        refine Nat.lt_of_le_of_ne (List.takeWhile_prefix _).length_le fun heq => ?_
        have hself := (List.takeWhile_prefix _).eq_of_length heq
        exact absurd (takeWhile_eq_self_iff.mp hself 0 h0) (by decide)
      omega
    · obtain ⟨n, hn, hlower⟩ := map_eq_some_iff.mp h.1
      have hmem : (0 : UInt8) ∈ n := by
        rw [← mem_map_toLower_iff (by decide), hlower]
        exact (mem_map_toLower_iff (by decide)).mpr h0
      have htake := (nameOf_eq_some_iff.mp hn).2.1
      rw [← htake] at hmem
      exact hnul (mem_of_mem_take hmem)
  · have hself : cstr name = name := takeWhile_eq_self_iff.mpr fun x hx => by
      simpa using fun heq : x = 0 => h0 (heq ▸ hx)
    rw [hself] at hname
    rw [hnamed, entryName_eq_some_iff hname, hself, take_length]
    tauto

/-! ## Lengths -/

/-- What every list has: lines without NULs, and lengths of 32 bits. -/
structure Stored (es : List HeaderStruct) : Prop where
  noNul : ∀ e ∈ es, (0 : UInt8) ∉ e.header
  headerLen_lt : ∀ e ∈ es, e.headerLen < 0x100000000

theorem nameOf_clean {line : Bytes} (hn : nameOf line = some n) : colon ∉ n ∧ n ⊆ line := by
  obtain ⟨hcolon, htake, -⟩ := nameOf_eq_some_iff.mp hn
  exact ⟨hcolon, htake ▸ take_subset _ _⟩

theorem noNul_storedHeader {line : Bytes} (hline : LineClean line)
    (hcharset : (0 : UInt8) ∉ sg.defaultCharset) :
    (0 : UInt8) ∉ (storedHeader sg line).header := by
  have hnul : ∀ b : Bytes, LineClean b → (0 : UInt8) ∉ b := fun b hb h0 => (hb 0 h0).2.2 rfl
  rcases storedHeader_cases sg line with heq | ⟨m, -, hm, heq⟩
  · rw [heq]
    exact hnul line hline
  · rw [heq, sapiApplyDefaultCharset_eq_some hm]
    dsimp only
    simp only [mem_append, not_or]
    exact ⟨by decide, ⟨hnul _ (hline.sublist (mimetypeOf_subset line)), by decide⟩, hcharset⟩

theorem headerLen_storedHeader {line : Bytes} (hlt : line.length < 0x100000000) :
    (storedHeader sg line).headerLen < 0x100000000 := by
  rcases storedHeader_cases sg line with heq | ⟨m, -, -, heq⟩
  · rw [heq]
    exact hlt
  · rw [heq]
    exact Nat.mod_lt _ (by decide)

theorem entryName_storedHeader (sg : SapiGlobals) (line : Bytes) :
    entryName (storedHeader sg line) = (nameOf line).map (List.map toLower) := by
  rcases storedHeader_cases sg line with heq | ⟨m, hname, -, heq⟩
  · rw [heq]
    rfl
  · rw [heq, hname, entryName]
    rfl

/-! ## Calls -/

section Calls

variable {es : List HeaderStruct} {p : HeaderLine}

theorem filter_isNamed_iff (hstored : Stored es) (hname : colon ∉ cstr name) :
    (es.filter fun e => !isNamed name name.length e) =
        Multimap.delete entryName (name.map toLower) es ↔
      ∀ e ∈ es, entryName e = some (name.map toLower) → name.length < e.headerLen := by
  rw [Multimap.filter_eq_delete_iff]
  refine forall₂_congr fun e he => ?_
  rw [isNamed_iff (hstored.noNul e he) hname]
  exact ⟨fun h hentry => (h.mpr hentry).2, fun h => ⟨fun h' => h'.1, fun h' => ⟨h', h h'⟩⟩⟩

theorem filter_isNamed_intLen_iff (hstored : Stored es) (hname : colon ∉ cstr name)
    (hlt : name.length < 0x100000000) :
    (es.filter fun e => !isNamed name (intLen name.length) e) =
        Multimap.delete entryName (name.map toLower) es ↔
      ∀ e ∈ es, entryName e = some (name.map toLower) →
        name.length < e.headerLen ∧ name.length < 0x80000000 := by
  by_cases hint : name.length < 0x80000000
  · rw [intLen_eq_self hint, filter_isNamed_iff hstored hname]
    refine forall₃_congr fun e _ _ => ⟨fun h => ⟨h, hint⟩, fun h => h.1⟩
  · -- the length that is passed is greater than those of all headers
    rw [Multimap.filter_eq_delete_iff]
    refine forall₂_congr fun e he => ?_
    have hlen := lt_intLen (Nat.le_of_not_lt hint) hlt
    have hnot : isNamed name (intLen name.length) e = false := by
      have hheader := hstored.headerLen_lt e he
      rw [isNamed, decide_eq_false (by omega)]
      rfl
    rw [hnot]
    exact ⟨fun h hentry => absurd (h.mpr hentry) Bool.false_ne_true,
      fun h => ⟨fun hfalse => absurd hfalse Bool.false_ne_true, fun hentry =>
        absurd (h hentry).2 hint⟩⟩

theorem removedName_delete : removedName sg (.line .delete p) =
    if Refused sg p ∨ colon ∈ cstr (trim p.line) then none
    else some (trim p.line, (trim p.line).length) := by
  rw [removedName]
  simp only [Refused, or_assoc]

theorem listAfter_delete_iff (hstored : Stored es) :
    listAfter sg (.line .delete p) es = mapAfter sg (.line .delete p) es ↔
      ∀ name len, removedName sg (.line .delete p) = some (name, len) →
        ∀ e ∈ es, entryName e = some (name.map toLower) → name.length < e.headerLen := by
  have hadded : addedHeader sg (.line .delete p) = none := by simp [addedHeader]
  rw [listAfter, clearsAll_line, if_neg Bool.false_ne_true, hadded, toList_none,
    append_nil, mapAfter, removedName_delete]
  by_cases hrefused : Refused sg p ∨ colon ∈ cstr (trim p.line)
  · rw [if_pos hrefused, if_pos hrefused]
    exact iff_of_true rfl fun _ _ h => by cases h
  · rw [if_neg hrefused, if_neg hrefused]
    dsimp only
    rw [filter_isNamed_iff hstored fun h => hrefused (.inr h)]
    refine ⟨fun h name len heq => ?_, fun h => h _ _ rfl⟩
    obtain ⟨rfl, -⟩ := Prod.mk.inj (some.inj heq)
    exact h

theorem listAfter_replace_iff (hstored : Stored es) (hcharset : (0 : UInt8) ∉ sg.defaultCharset) :
    listAfter sg (.line .replace p) es = mapAfter sg (.line .replace p) es ↔
      ∀ name len, removedName sg (.line .replace p) = some (name, len) →
        ∀ e ∈ es, entryName e = some (name.map toLower) →
          name.length < e.headerLen ∧ name.length < 0x80000000 := by
  rw [listAfter, clearsAll_line, if_neg Bool.false_ne_true, mapAfter, removedName_line (by decide),
    if_pos rfl]
  cases hadded : addedHeader sg (.line .replace p) with
  | none => exact iff_of_true (append_nil _) fun _ _ h => by cases h
  | some e =>
    obtain ⟨op, p', hcall, hclean, hlt, rfl⟩ := addedHeader_eq_some hadded
    obtain ⟨rfl, rfl⟩ := HeaderCall.line.inj hcall
    have hcstr : cstr (storedHeader sg (trim p.line)).header =
        (storedHeader sg (trim p.line)).header :=
      takeWhile_eq_self_iff.mpr fun x hx => by
        simpa using fun h0 : x = 0 => noNul_storedHeader hclean hcharset (h0 ▸ hx)
    rw [bind_some, hcstr, elim_some, toList_some, Multimap.replace]
    cases hname : nameOf (storedHeader sg (trim p.line)).header with
    | none =>
      have hentry : entryName (storedHeader sg (trim p.line)) = none := by
        rw [entryName, hname]
        rfl
      rw [hentry]
      exact iff_of_true rfl fun _ _ h => by cases h
    | some name =>
      have hentry : entryName (storedHeader sg (trim p.line)) = some (name.map toLower) := by
        rw [entryName, hname]
        rfl
      -- the name is no longer than that of the line
      have hshort : name.length < 0x100000000 := by
        rw [entryName_storedHeader] at hentry
        obtain ⟨n, hn, hlower⟩ := map_eq_some_iff.mp hentry
        have hlength : n.length = name.length := by simpa using congrArg List.length hlower
        have htake := congrArg List.length (nameOf_eq_some_iff.mp hn).2.1
        rw [length_take] at htake
        omega
      have hnul : colon ∉ cstr name := fun hmem =>
        (nameOf_clean hname).1 (takeWhile_subset _ hmem)
      rw [hentry]
      dsimp only [map_some]
      rw [Multimap.add, append_cancel_right_eq,
        filter_isNamed_intLen_iff hstored hnul hshort]
      refine ⟨fun h name' len heq => ?_, fun h => h _ _ rfl⟩
      obtain ⟨rfl, -⟩ := Prod.mk.inj (some.inj heq)
      exact h

theorem listAfter_eq_mapAfter_iff (hstored : Stored h.headers.toList)
    (hcharset : (0 : UInt8) ∉ ev.sg.defaultCharset) :
    listAfter ev.sg ev.call h.headers.toList = mapAfter ev.sg ev.call h.headers.toList ↔
      LengthsFit h ev := by
  obtain ⟨sg, call, alloc⟩ := ev
  unfold LengthsFit
  cases call with
  | setStatus code => exact iff_of_true (append_nil _) fun _ _ h => by cases h
  | deleteAll =>
    refine iff_of_true ?_ fun _ _ h => by cases h
    rw [listAfter, mapAfter]
    by_cases hsent : sg.headersSent ∧ ¬sg.noHeaders
    · rw [if_pos hsent, if_neg (by simpa [clearsAll] using hsent)]
      exact append_nil _
    · have hopen : (sg.headersSent && !sg.noHeaders) = false :=
        Bool.eq_false_iff.mpr fun hboth => hsent (by simpa using hboth)
      rw [if_neg hsent, if_pos (by simp [clearsAll, hopen])]
  | line op p =>
    cases op with
    | add =>
      refine iff_of_true ?_ fun _ _ h => by cases h
      rw [listAfter, clearsAll_line, if_neg Bool.false_ne_true, mapAfter]
      cases addedHeader sg (.line .add p) with
      | none => exact append_nil _
      | some e => rfl
    | delete =>
      rw [listAfter_delete_iff hstored]
      refine forall_congr' fun name => forall_congr' fun len => forall₄_congr fun _ e _ _ => ?_
      refine ⟨fun h => ⟨h, ?_⟩, fun h => h.1⟩
      rintro ⟨p', hp⟩
      cases hp
    | replace =>
      rw [listAfter_replace_iff hstored hcharset]
      refine forall_congr' fun name => forall_congr' fun len => forall₄_congr fun _ e _ _ => ?_
      exact and_congr_right fun _ => ⟨fun h _ => h, fun h => h ⟨p, rfl⟩⟩

end Calls

/-! ## Runs -/

/-- What every state has. -/
structure Kept (h : SapiHeaders) : Prop where
  wellFormed : h.headers.WellFormed
  stored : Stored h.headers.toList

theorem kept_sapiActivate {links : Links Nat} {data : Nat → HeaderStruct} {code : Int} :
    Kept (sapiActivate links data code) where
  wellFormed := wellFormed_sapiActivate
  stored := ⟨fun _ h => absurd h not_mem_nil, fun _ h => absurd h not_mem_nil⟩

theorem Kept.step (hkept : Kept h) (hconf : Unhandled h ev) (hstep : system.step h ev = some h') :
    Kept h' := by
  obtain ⟨hwell, hlist⟩ := step_toList hconf.1 hkept.wellFormed hstep
  have hadded : ∀ e, addedHeader ev.sg ev.call = some e →
      (0 : UInt8) ∉ e.header ∧ e.headerLen < 0x100000000 := by
    intro e hadded
    obtain ⟨op, p, -, hclean, hlt, rfl⟩ := addedHeader_eq_some hadded
    exact ⟨noNul_storedHeader hclean hconf.2.2, headerLen_storedHeader hlt⟩
  refine ⟨hwell, fun e he => ?_, fun e he => ?_⟩
  · rw [hlist] at he
    exact (mem_listAfter he).elim (hkept.stored.noNul e) fun h => (hadded e h).1
  · rw [hlist] at he
    exact (mem_listAfter he).elim (hkept.stored.headerLen_lt e) fun h => (hadded e h).2

theorem refinesMap_iff (hkept : Kept h) (hconf : Unhandled h ev)
    (hstep : system.step h ev = some h') : RefinesMap h ev ↔ LengthsFit h ev := by
  rw [← listAfter_eq_mapAfter_iff hkept.stored hconf.2.2,
    ← (step_toList hconf.1 hkept.wellFormed hstep).2]
  refine ⟨fun h => h h' hstep, fun h h'' hstep' => ?_⟩
  rw [← some.inj (hstep.symm.trans hstep')]
  exact h

/-- Over every sequence of calls with no handler installed the list stays well formed. Every call
does to the headers what it is to do, if and only if no length is cut where a header is to be
removed. -/
theorem refines_multimap_iff {links : Links Nat} {data : Nat → HeaderStruct} {code : Int}
    (hrun : system.Run Unhandled (sapiActivate links data code) evs h) :
    (system.Throughout (fun h => h.headers.WellFormed) (sapiActivate links data code) evs ∧
      system.Along RefinesMap (sapiActivate links data code) evs) ↔
    system.Along LengthsFit (sapiActivate links data code) evs := by
  have hwell : system.Throughout (fun h => h.headers.WellFormed) (sapiActivate links data code)
      evs :=
    hrun.throughout
      (fun s ev s' hwell hconf hstep => (step_toList hconf.1 hwell hstep).1) wellFormed_sapiActivate
  rw [and_iff_right hwell]
  have hpres : ∀ s ev s', Kept s → Unhandled s ev → system.step s ev = some s' → Kept s' :=
    fun s ev s' hkept hconf hstep => hkept.step hconf hstep
  exact hrun.along_congr hpres
    (fun s ev s' hkept hconf hstep => refinesMap_iff hkept hconf hstep) kept_sapiActivate

theorem unhandled_onUnsent (h : SapiHeaders) (call : HeaderCall) : Unhandled h (onUnsent call) := by
  have hcharset : (0 : UInt8) ∉ ascii "UTF-8" := by decide
  exact ⟨fresh_nextAddress, rfl, hcharset⟩

theorem refines_multimap_iff_powered :
    (system.Throughout (fun h => h.headers.WellFormed)
        (sapiActivate ⟨fun _ => none, fun _ => none⟩ (fun _ => ⟨[], 0⟩) 200)
        [onUnsent (.line .add ⟨ascii "X-Powered-By: a", 0⟩),
          onUnsent (.line .replace ⟨ascii "x-powered-by: b", 0⟩)] ∧
      system.Along RefinesMap
        (sapiActivate ⟨fun _ => none, fun _ => none⟩ (fun _ => ⟨[], 0⟩) 200)
        [onUnsent (.line .add ⟨ascii "X-Powered-By: a", 0⟩),
          onUnsent (.line .replace ⟨ascii "x-powered-by: b", 0⟩)]) ↔
    system.Along LengthsFit (sapiActivate ⟨fun _ => none, fun _ => none⟩ (fun _ => ⟨[], 0⟩) 200)
      [onUnsent (.line .add ⟨ascii "X-Powered-By: a", 0⟩),
        onUnsent (.line .replace ⟨ascii "x-powered-by: b", 0⟩)] :=
  refines_multimap_iff (.cons (unhandled_onUnsent _ _) (some_get (by decide)).symm
    (.cons (unhandled_onUnsent _ _) (some_get (by decide)).symm (.nil _)))

/-- A line whose name has `n` bytes. -/
def longLine (n : Nat) : Bytes := replicate n 97 ++ [58, 120]

section LongLine

variable {n : Nat}

theorem length_longLine : (longLine n).length = n + 2 := by
  rw [longLine, length_append, length_replicate]
  rfl

theorem lineClean_longLine : LineClean (longLine n) := by
  have hend : LineClean [58, 120] := lineClean_of_all rfl
  have hname : LineClean (replicate n 97) := fun x hx => by
    rw [eq_of_mem_replicate hx]
    decide
  exact hname.append hend

theorem trim_longLine : trim (longLine n) = longLine n := by
  have hsplit : longLine n = (replicate n 97 ++ [58]) ++ [120] := by
    rw [append_assoc]
    rfl
  rw [hsplit]
  exact rdropWhile_concat_neg isSpace _ 120 (by decide)

theorem nameOf_longLine : nameOf (longLine n) = some (replicate n 97) := by
  refine nameOf_eq_some_iff.mpr ⟨fun h => ?_, take_left .., ?_⟩
  · exact absurd (eq_of_mem_replicate h) (by decide)
  · rw [longLine, List.getElem?_append_right (Nat.le_refl _), Nat.sub_self]
    rfl

theorem storedHeader_longLine : storedHeader unsent (longLine (n + 1)) =
    ⟨longLine (n + 1), (longLine (n + 1)).length⟩ := by
  refine if_neg fun h => ?_
  rw [nameOf_longLine, map_some, replicate_succ, map_cons] at h
  exact absurd (List.cons.inj (some.inj h)).1 (by decide)

theorem addedHeader_longLine {op : LineOp} (hop : op ≠ .delete) (hlt : n + 3 < 0x100000000) :
    addedHeader unsent (.line op ⟨longLine (n + 1), 0⟩) =
      some ⟨longLine (n + 1), (longLine (n + 1)).length⟩ := by
  have hcheck : lineCheck (longLine (n + 1)) = some none :=
    lineCheck_eq_some_none.mpr ⟨lineClean_longLine, length_longLine.trans_lt hlt⟩
  have hadded := addedHeader_line unsent op ⟨longLine (n + 1), 0⟩ (by decide)
    (fun h => by cases h) hop (trim_longLine.symm ▸ hcheck) (trim_longLine.symm ▸ rfl)
  rw [hadded, trim_longLine, storedHeader_longLine]
  exact if_pos rfl

end LongLine

/-- A header is replaced whose name has `2 ^ 31` bytes: as an `int` its length is negative, and the
old header stays. -/
theorem not_refines_multimap :
    ¬∀ (evs : List HeaderEvent) (h : SapiHeaders),
      system.Run Unhandled (sapiActivate ⟨fun _ => none, fun _ => none⟩ (fun _ => ⟨[], 0⟩) 200)
        evs h →
      system.Along RefinesMap (sapiActivate ⟨fun _ => none, fun _ => none⟩ (fun _ => ⟨[], 0⟩) 200)
        evs := by
  intro hclaim
  let e : HeaderStruct := ⟨longLine (0x7fffffff + 1), (longLine (0x7fffffff + 1)).length⟩
  have hadd : addedHeader unsent (.line .add ⟨longLine (0x7fffffff + 1), 0⟩) = some e :=
    addedHeader_longLine (by decide) (by decide)
  have hreplace : addedHeader unsent (.line .replace ⟨longLine (0x7fffffff + 1), 0⟩) = some e :=
    addedHeader_longLine (by decide) (by decide)
  obtain ⟨h₁, hstep₁⟩ := exists_step_of_added
    (sapiActivate ⟨fun _ => none, fun _ => none⟩ (fun _ => ⟨[], 0⟩) 200)
    (onUnsent (.line .add ⟨longLine (0x7fffffff + 1), 0⟩)) hadd
  obtain ⟨h₂, hstep₂⟩ := exists_step_of_added h₁
    (onUnsent (.line .replace ⟨longLine (0x7fffffff + 1), 0⟩)) hreplace
  have hkept := kept_sapiActivate.step (unhandled_onUnsent _ _) hstep₁
  have hmem : e ∈ h₁.headers.toList := by
    rw [(step_toList fresh_nextAddress wellFormed_sapiActivate hstep₁).2]
    exact addedHeader_mem_listAfter hadd
  have hrefines := ((hclaim _ h₂ (.cons (unhandled_onUnsent _ _) hstep₁
    (.cons (unhandled_onUnsent _ _) hstep₂ (.nil h₂)))).2 h₁ hstep₁).1
  have hfit := (refinesMap_iff hkept (unhandled_onUnsent _ _) hstep₂).mp hrefines
  have hcstr : cstr e.header = e.header := lineClean_longLine.cstr_eq
  have hremoved : removedName unsent (.line .replace ⟨longLine (0x7fffffff + 1), 0⟩) =
      some (replicate (0x7fffffff + 1) 97,
        intLen (replicate (0x7fffffff + 1) (97 : UInt8)).length) := by
    rw [removedName_line (by decide), if_pos rfl, hreplace, bind_some, hcstr,
      nameOf_longLine, map_some]
  have hentry : entryName e = some ((replicate (0x7fffffff + 1) 97).map toLower) := by
    rw [entryName, nameOf_longLine, map_some]
  have hlt := (hfit _ _ hremoved e hmem hentry).2 ⟨_, rfl⟩
  rw [length_replicate] at hlt
  omega

end Headers

end Phpce
