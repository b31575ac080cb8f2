import Phpce.Input.Register

/-!
# Names of input variables

What a name says: the part in front of the first bracket, with spaces and dots replaced, and a level
for each closed pair of brackets behind it (`readPath`), under which a value is put (`insertAt`).

* **`phpRegisterVariableEx_mangles_iff`**: when a value is stored under what its name says.
-/

namespace Phpce

namespace Input

open Bytes Option List
open Json (Key symtableKey hashUpdate)

/-! ## What a name says -/

/-- No part of the name but brackets that are closed has a meaning of its own. -/
def mangleAll (s : Bytes) : Bytes := s.map fun c => if c = 32 ∨ c = 46 ∨ c = 91 then 95 else c

def readPath (name : Bytes) : List (Option Bytes) :=
  match cutAt 91 (trimmed name) with
  | none => [some (mangleAll (trimmed name))]
  | some (t, rest) =>
    if (inBracket [] rest).1 = [] then [some (mangleAll (trimmed name))]
    else some (mangleAll t) :: (inBracket [] rest).1.map level

section

variable {α : Type*}

/-- The key of a level of a path; `none` appends. -/
def keyAt (ht : HashTable (Zval α)) : Option Bytes → Key
  | none => .index ht.nNextFreeElement
  | some k => symtableKey k

def tableAt (ht : HashTable (Zval α)) (key : Key) : HashTable (Zval α) :=
  match ht.find key with
  | some (.array sub) => sub
  | _ => .init

/-- The value is put under a path, and tables are made where there are none. -/
def insertAt (val : α) : List (Option Bytes) → HashTable (Zval α) → HashTable (Zval α)
  | [], ht => ht
  | [index], ht => ht.update (keyAt ht index) (.value val)
  | index :: next :: path, ht =>
    let key := keyAt ht index
    ht.update key (.array (insertAt val (next :: path) (tableAt ht key)))

variable (S : Settings) (val : α)

/-- Nothing is stored, or the value goes under the path that the name says, the first key of which
has no space, dot or bracket. -/
def Mangles (name : Bytes) (trackVarsArray : HashTable (Zval α)) : Prop :=
  let r := phpRegisterVariableEx S val name trackVarsArray
  r.stored = none ∨
    r.stored = some (readPath name) ∧ r.symtable = insertAt val (readPath name) trackVarsArray ∧
      ∀ key, (readPath name).head? = some (some key) → 32 ∉ key ∧ 46 ∉ key ∧ 91 ∉ key

/-! ## What is stored -/

variable {S val} {ht : HashTable (Zval α)}

theorem nextIndexInsert_eq_some {β : Type*} {ht ht' : HashTable β} {v : β}
    (h : ht.nextIndexInsert v = some ht') :
    ht.find (.index ht.nNextFreeElement) = none ∧
      ht' = ht.update (.index ht.nNextFreeElement) v := by
  rw [HashTable.nextIndexInsert] at h
  split at h
  next => exact absurd h (some_ne_none _).symm
  next hfind => exact ⟨hfind, (some.inj h).symm⟩

theorem notMem_of_find {β : Type*} {ht : HashTable β} {key : Key} (h : ht.find key = none) :
    key ∉ ht.entries.map Prod.fst := by
  rw [HashTable.find, map_eq_none_iff, List.find?_eq_none] at h
  intro hmem
  obtain ⟨e, he, rfl⟩ := List.mem_map.mp hmem
  exact h e he (decide_eq_true rfl)

theorem hashUpdate_of_notMem {β : Type*} {es : List (Key × β)} {key : Key} {v v' : β}
    (h : key ∉ es.map Prod.fst) :
    hashUpdate (hashUpdate es key v) key v' = hashUpdate es key v' := by
  have hself : OrderedMap.replace key v' es = es := by
    refine (map_congr_left fun e he => ?_).trans (List.map_id es)
    exact if_neg fun (hkey : e.1 = key) => h (hkey ▸ mem_map_of_mem he)
  have hmem : key ∈ (es ++ [(key, v)]).map Prod.fst := by simp
  rw [hashUpdate, hashUpdate, hashUpdate, if_neg h, if_neg h, if_pos hmem, OrderedMap.replace,
    map_append, ← OrderedMap.replace, hself, map_singleton, if_pos rfl]

theorem update_update {β : Type*} {ht : HashTable β} {key : Key} {v v' : β}
    (h : ht.find key = none) : (ht.update key v).update key v' = ht.update key v' := by
  refine congrArg₂ HashTable.mk ?_ (hashUpdate_of_notMem (notMem_of_find h))
  cases key with
  | name s => rfl
  | index idx => by_cases hle : ht.nNextFreeElement ≤ idx <;> simp [HashTable.update, hle]

theorem stored_plainVar {top : Bool} {index : Option Bytes} {path : List (Option Bytes)}
    (h : (plainVar S val top index ht).stored = some path) :
    path = [index] ∧ (plainVar S val top index ht).symtable = insertAt val [index] ht := by
  rw [plainVar.eq_def] at h ⊢
  cases index with
  | none =>
    dsimp only at h ⊢
    cases hinsert : ht.nextIndexInsert (.value val) with
    | none => exact absurd (hinsert ▸ h) (some_ne_none _).symm
    | some ht' =>
      rw [hinsert] at h
      exact ⟨(some.inj h).symm, (nextIndexInsert_eq_some hinsert).2⟩
  | some key =>
    dsimp only at h ⊢
    split at h
    next => exact absurd h (some_ne_none _).symm
    next hcond =>
      rw [if_neg hcond]
      exact ⟨(some.inj h).symm, rfl⟩

theorem tableAt_eq_init {key : Key} (h : ht.find key = none) : tableAt ht key = .init := by
  rw [tableAt, h]

theorem stored_descend {index : Option Bytes} {next : HashTable (Zval α) → Registered α}
    {path' : List (Option Bytes)} (h : (descend index ht next).stored = some path') :
    ∃ path, path' = index :: path ∧ (next (tableAt ht (keyAt ht index))).stored = some path ∧
      (descend index ht next).symtable =
        ht.update (keyAt ht index) (.array (next (tableAt ht (keyAt ht index))).symtable) ∧
      (descend index ht next).tooDeep = (next (tableAt ht (keyAt ht index))).tooDeep := by
  rw [descend.eq_def] at h ⊢
  cases index with
  | none =>
    dsimp only at h ⊢
    cases hinsert : ht.nextIndexInsert (.array .init) with
    | none => exact absurd (hinsert ▸ h) (some_ne_none _).symm
    | some ht' =>
      obtain ⟨hfind, rfl⟩ := nextIndexInsert_eq_some hinsert
      rw [hinsert] at h
      obtain ⟨path, hstored, rfl⟩ := map_eq_some_iff.mp h
      rw [keyAt, tableAt_eq_init hfind]
      exact ⟨path, rfl, hstored, update_update hfind, rfl⟩
  | some key =>
    obtain ⟨path, hstored, rfl⟩ := map_eq_some_iff.mp h
    exact ⟨path, rfl, hstored, rfl, rfl⟩

theorem stored_walk {opens : Bool} {path path' : List (Option Bytes)} {nestLevel : Nat} {top : Bool}
    (h : (walk S val opens path nestLevel top ht).stored = some path') :
    path' = path ∧ (walk S val opens path nestLevel top ht).symtable = insertAt val path ht ∧
      (walk S val opens path nestLevel top ht).tooDeep = false := by
  induction path generalizing nestLevel top ht path' with
  | nil => exact absurd h (some_ne_none _).symm
  | cons index path ih =>
    cases path with
    | nil =>
      rw [walk] at h ⊢
      split at h
      next => exact absurd h (some_ne_none _).symm
      next hcond =>
        rw [if_neg hcond]
        obtain ⟨hpath, htable⟩ := stored_plainVar h
        exact ⟨hpath, htable, tooDeep_plainVar S val top index ht⟩
    | cons next path =>
      rw [walk] at h ⊢
      split at h
      next => exact absurd h (some_ne_none _).symm
      next hcond =>
        rw [if_neg hcond]
        obtain ⟨path', rfl, hstored, htable, hdeep⟩ := stored_descend h
        obtain ⟨rfl, hsub, hfalse⟩ := ih hstored
        exact ⟨rfl, htable.trans (by rw [hsub, insertAt]), hdeep.trans hfalse⟩

/-! ## When a name is read as it says -/

variable (S val)

def Special (s : Bytes) : Prop := 32 ∈ s ∨ 46 ∈ s ∨ 91 ∈ s

/-- Nothing is stored for a name whose first bracket is not closed, and which is `key` then. -/
def Ignored (name key : Bytes) (ht : HashTable (Zval α)) : Prop :=
  refused S name = true ∨ S.maxInputNestingLevel < 1 ∨
    S.isCookie = true ∧ (ht.find (symtableKey key)).isSome = true

variable {S val}

theorem stored_of_not_refused {name : Bytes} (h : ¬refused S name = true) :
    (phpRegisterVariableEx S val name ht).stored =
      (walk S val (pathTaken name).2 (pathTaken name).1 0 true ht).stored := by
  rw [phpRegisterVariableEx_eq, if_neg h]
  dsimp only
  split <;> rfl

theorem stored_register {name : Bytes} {path : List (Option Bytes)}
    (h : (phpRegisterVariableEx S val name ht).stored = some path) :
    refused S name = false ∧ path = (pathTaken name).1 ∧
      (phpRegisterVariableEx S val name ht).symtable = insertAt val (pathTaken name).1 ht := by
  by_cases hrefused : refused S name = true
  · rw [phpRegisterVariableEx_eq, if_pos hrefused] at h
    exact absurd h (some_ne_none _).symm
  rw [stored_of_not_refused hrefused] at h
  obtain ⟨hpath, htable, hdeep⟩ := stored_walk h
  refine ⟨Bool.eq_false_iff.mpr hrefused, hpath, ?_⟩
  rw [phpRegisterVariableEx_eq, if_neg hrefused]
  dsimp only
  rw [hdeep]
  exact htable

theorem mangleAll_of_notMem {s : Bytes} (h : 91 ∉ s) : mangleAll s = mangle s := by
  refine map_congr_left fun c hc => ?_
  have hne : c ≠ 91 := fun h91 => h (h91 ▸ hc)
  simp only [hne, or_false]

theorem not_special_mangleAll (s : Bytes) :
    32 ∉ mangleAll s ∧ 46 ∉ mangleAll s ∧ 91 ∉ mangleAll s := by
  have hne : ∀ c ∈ mangleAll s, c ≠ 32 ∧ c ≠ 46 ∧ c ≠ 91 := by
    intro c hc
    obtain ⟨d, -, rfl⟩ := List.mem_map.mp hc
    split
    next => decide
    next h => simpa only [not_or] using h
  exact ⟨fun h => (hne 32 h).1 rfl, fun h => (hne 46 h).2.1 rfl, fun h => (hne 91 h).2.2 rfl⟩

theorem mangleAll_eq_self_iff {s : Bytes} : mangleAll s = s ↔ ¬Special s := by
  constructor
  · intro heq hspecial
    have hnone := not_special_mangleAll s
    rw [heq] at hnone
    exact hspecial.elim hnone.1 fun h => h.elim hnone.2.1 hnone.2.2
  · intro h
    refine (map_congr_left fun c hc => ?_).trans (List.map_id s)
    refine if_neg fun hor => h ?_
    rcases hor with rfl | rfl | rfl
    · exact .inl hc
    · exact .inr (.inl hc)
    · exact .inr (.inr hc)

theorem pathTaken_eq {name : Bytes}
    (h : ∀ t rest, cutAt 91 (trimmed name) = some (t, rest) → 93 ∉ rest → ¬Special rest) :
    (pathTaken name).1 = readPath name := by
  rw [pathTaken, readPath]
  cases hcut : cutAt 91 (trimmed name) with
  | none =>
    have htop : topName name = mangle (trimmed name) := by rw [topName, hcut]
    dsimp only
    rw [htop, mangleAll_of_notMem (cutAt_eq_none_iff.mp hcut)]
  | some cut =>
    obtain ⟨t, rest⟩ := cut
    obtain ⟨htr, ht⟩ := cutAt_eq_some_iff.mp hcut
    have htop : topName name = mangle t := by rw [topName, hcut]
    dsimp only
    rw [pathOf, htop, mangleAll_of_notMem ht]
    split
    next hnil =>
      have hself := mangleAll_eq_self_iff.mpr (h t rest hcut (inBracket_eq_nil_iff.mp hnil))
      have hcons : mangleAll (91 :: rest) = 95 :: rest := congrArg (95 :: ·) hself
      have happend : mangleAll (t ++ 91 :: rest) = mangleAll t ++ mangleAll (91 :: rest) :=
        map_append
      rw [htr, happend, hcons, mangleAll_of_notMem ht]
      rfl
    next => rfl

theorem head_readPath (name : Bytes) :
    ∃ s, (readPath name).head? = some (some (mangleAll s)) := by
  rw [readPath]
  cases cutAt 91 (trimmed name) with
  | none => exact ⟨_, rfl⟩
  | some cut =>
    dsimp only
    split
    next => exact ⟨_, rfl⟩
    next => exact ⟨_, rfl⟩

theorem stored_eq_none_iff {name t rest : Bytes} (hcut : cutAt 91 (trimmed name) = some (t, rest))
    (hopen : 93 ∉ rest) :
    (phpRegisterVariableEx S val name ht).stored = none ↔
      Ignored S name (topName name ++ 95 :: rest) ht := by
  have hpath : pathTaken name = ([some (topName name ++ 95 :: rest)], true) := by
    rw [pathTaken, hcut]
    exact Prod.ext (if_pos (inBracket_eq_nil_iff.mpr hopen))
      (congrArg (·.2.isSome) (inBracket_of_notMem hopen []))
  rw [Ignored]
  by_cases hrefused : refused S name = true
  · rw [phpRegisterVariableEx_eq, if_pos hrefused]
    exact iff_of_true rfl (.inl hrefused)
  rw [stored_of_not_refused hrefused, hpath]
  by_cases hlevel : S.maxInputNestingLevel < 1
  · rw [walk, if_pos ⟨rfl, hlevel⟩]
    exact iff_of_true rfl (.inr (.inl hlevel))
  rw [walk, if_neg fun h => hlevel h.2, plainVar]
  by_cases hcookie : S.isCookie = true ∧
      (ht.find (symtableKey (topName name ++ 95 :: rest))).isSome = true
  · rw [if_pos ⟨hcookie.1, rfl, hcookie.2⟩]
    exact iff_of_true rfl (.inr (.inr hcookie))
  · rw [if_neg fun h => hcookie ⟨h.1, h.2.2⟩]
    refine iff_of_false (some_ne_none _) ?_
    exact fun h => h.elim hrefused fun h => h.elim hlevel hcookie

variable (S val)

/-- **Names.** What is registered is what the name says, except for a name whose first bracket is
not closed, with a space, a dot or a bracket behind it, and for which something is stored. -/
theorem phpRegisterVariableEx_mangles_iff (name : Bytes) (trackVarsArray : HashTable (Zval α)) :
    Mangles S val name trackVarsArray ↔
      ∀ t rest, cutAt 91 (trimmed name) = some (t, rest) → 93 ∉ rest → Special rest →
        Ignored S name (topName name ++ 95 :: rest) trackVarsArray := by
  constructor
  · intro hmangles t rest hcut hopen hspecial
    rcases hmangles with hnone | ⟨hstored, -, hkey⟩
    · exact (stored_eq_none_iff hcut hopen).mp hnone
    · -- the name would have to say the path that is taken
      have hpath : (pathTaken name).1 = [some (topName name ++ 95 :: rest)] := by
        rw [pathTaken, hcut]
        exact if_pos (inBracket_eq_nil_iff.mpr hopen)
      obtain ⟨-, htaken, -⟩ := stored_register hstored
      rw [htaken, hpath] at hkey
      have hnone := hkey _ rfl
      have hmem : ∀ c ∈ rest, c ∈ topName name ++ 95 :: rest := fun c hc =>
        mem_append_right _ (mem_cons_of_mem _ hc)
      rcases hspecial with h | h | h
      · exact absurd (hmem 32 h) hnone.1
      · exact absurd (hmem 46 h) hnone.2.1
      · exact absurd (hmem 91 h) hnone.2.2
  · intro h
    cases hstored : (phpRegisterVariableEx S val name trackVarsArray).stored with
    | none => exact .inl hstored
    | some path =>
      obtain ⟨-, rfl, htable⟩ := stored_register hstored
      have hread := pathTaken_eq fun t rest hcut hopen hspecial => by
        have hnone : (phpRegisterVariableEx S val name trackVarsArray).stored = none :=
          (stored_eq_none_iff hcut hopen).mpr (h t rest hcut hopen hspecial)
        exact absurd (hnone.symm.trans hstored) (some_ne_none _).symm
      rw [hread] at hstored htable
      refine .inr ⟨hstored, htable, fun key hkey => ?_⟩
      obtain ⟨s, hs⟩ := head_readPath name
      obtain rfl := some.inj (some.inj (hs.symm.trans hkey))
      exact not_special_mangleAll s

/-! ## A name that is read otherwise -/

/-- No limit is near, and the table is none of those that refuse names. -/
def someSettings : Settings where
  maxInputNestingLevel := 64
  ownsThis := false
  isSymbolTable := false
  isCookie := false

/-- `a[b.c` is stored as `a_b.c`. -/
theorem not_mangles_openBracket : ¬Mangles someSettings () (ascii "a[b.c") .init := by
  rintro (hnone | ⟨hstored, -⟩)
  · exact absurd hnone (by decide)
  · exact absurd hstored (by decide)

end

end Input

end Phpce
