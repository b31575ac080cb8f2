import Mathlib.Algebra.Order.BigOperators.Group.Finset
import Phpce.Gc.Balance

/-!
# The three phases of a collection

`H.Part roots` are the nodes that the traversals meet from the roots. What each phase makes of the
colours:

* `markRoots_color`: after `gc_mark_roots` the part is grey, all else black.
* `Scanned`: after `gc_scan_roots` a node of the part is black when it is `Live`, white otherwise.
* `collectRoots_color`: `gc_collect_roots` makes the white nodes black, and garbage of the arrays
  and objects among them.
-/

namespace Phpce.Gc.Heap

open Traversal List
open Function (update_of_ne update_self)

variable {ν : Type*} [DecidableEq ν] {H : Heap ν} {s s' s₁ : GcState ν} {ref m n : ν} {fuel : Nat}
  {roots : List ν}

/-- The nodes that the traversals meet from the roots. -/
def Part (H : Heap ν) (roots : List ν) (m : ν) : Prop := ∃ r ∈ roots, Reach H.scanned r m

theorem Part.root (h : n ∈ roots) : H.Part roots n := ⟨n, h, .refl⟩

theorem Part.child (h : H.Part roots n) (hm : m ∈ H.scanned n) : H.Part roots m := by
  obtain ⟨r, hr, hreach⟩ := h
  exact ⟨r, hr, hreach.tail hm⟩

/-- The fields that only `gc_collect_roots` changes. -/
structure SameBuffer (s s' : GcState ν) : Prop where
  roots_eq : s'.roots = s.roots
  address_eq : s'.address = s.address
  toFree_eq : s'.toFree = s.toFree
  flags_eq : s'.flags = s.flags

omit [DecidableEq ν] in
theorem SameBuffer.refl (s : GcState ν) : SameBuffer s s := ⟨rfl, rfl, rfl, rfl⟩

omit [DecidableEq ν] in
theorem SameBuffer.trans (h : SameBuffer s s₁) (h' : SameBuffer s₁ s') : SameBuffer s s' :=
  ⟨h'.1.trans h.1, h'.2.trans h.2, h'.3.trans h.3, h'.4.trans h.4⟩

theorem sameBuffer_setColor (s : GcState ν) (ref : ν) (color : GcColor) :
    SameBuffer s (s.setColor ref color) := ⟨rfl, rfl, rfl, rfl⟩

theorem sameBuffer_addRef (s : GcState ν) (ref : ν) (n : Int) : SameBuffer s (s.addRef ref n) :=
  ⟨rfl, rfl, rfl, rfl⟩

/-! ## Marking -/

def Marked (H : Heap ν) (s : GcState ν) (m : ν) : Prop :=
  s.color m = .grey ∨ (s.color m = .black ∧ H.isSymbolTable m = true)

theorem explored_markGrey (h : H.gcMarkGrey fuel n s = some s') :
    Explored H.scanned (H.Marked s) (H.Marked s') [n] := by
  refine explored_visit (fun _ _ => rfl) ?_ h
  intro s n s₁ cs hent
  rcases markGrey_enter hent with ⟨hgrey, rfl, rfl⟩ | ⟨-, hsym, rfl, rfl⟩ | ⟨hne, hsym, rfl, rfl⟩
  · exact .inl ⟨rfl, .of_mem (.inl hgrey)⟩
  · refine .inr ⟨fun m => ?_, fun _ h => h, fun _ h => .inl h⟩
    unfold Marked
    rw [GcState.color_setColor]
    by_cases hm : m = n
    · subst hm
      simp [hsym]
    · rw [update_of_ne hm]
      simp [hm]
  · refine .inr ⟨fun m => ?_, fun _ h => h, fun _ h => .inl h⟩
    unfold Marked
    rw [GcState.color_setColor]
    by_cases hm : m = n
    · subst hm
      simp
    · rw [update_of_ne hm]
      simp [hm]

structure Marks (H : Heap ν) (s s' : GcState ν) : Prop where
  color : ∀ m, s'.color m = s.color m ∨ (s'.color m = .grey ∧ H.isSymbolTable m = false) ∨
    (s'.color m = .black ∧ H.isSymbolTable m = true)
  buffer : SameBuffer s s'

theorem Marks.refl (H : Heap ν) (s : GcState ν) : H.Marks s s := ⟨fun _ => .inl rfl, .refl s⟩

theorem Marks.trans (h : H.Marks s s₁) (h' : H.Marks s₁ s') : H.Marks s s' where
  color m := by
    rcases h'.color m with heq | hmark
    · rw [heq]
      exact h.color m
    · exact .inr hmark
  buffer := h.buffer.trans h'.buffer

theorem marks_setColor {color : GcColor}
    (hcolor : (color = .grey ∧ H.isSymbolTable ref = false) ∨
      (color = .black ∧ H.isSymbolTable ref = true)) (s : GcState ν) :
    H.Marks s (s.setColor ref color) where
  color m := by
    rw [GcState.color_setColor]
    by_cases hm : m = ref
    · subst hm
      rw [update_self]
      exact .inr hcolor
    · rw [update_of_ne hm]
      exact .inl rfl
  buffer := sameBuffer_setColor s ref color

theorem marks_markGrey (h : H.gcMarkGrey fuel n s = some s') : H.Marks s s' := by
  refine visit_preorder (Marks.refl H) (fun _ _ _ => Marks.trans)
    (fun s c => ⟨fun _ => .inl rfl, sameBuffer_addRef s c (-1)⟩) ?_ h
  intro s n s₁ cs hent
  rcases markGrey_enter hent with ⟨-, rfl, -⟩ | ⟨-, hsym, rfl, -⟩ | ⟨-, hsym, rfl, -⟩
  · exact .refl H s₁
  · exact marks_setColor (.inr ⟨rfl, hsym⟩) s
  · exact marks_setColor (.inl ⟨rfl, hsym⟩) s

def Purple (s : GcState ν) : Prop :=
  ∀ n, s.color n = if n ∈ s.roots then .purple else .black

theorem marks_markRoots (h : H.gcMarkRoots fuel s = some s') : H.Marks s s' := by
  refine List.foldlM_invariant (I := H.Marks s) ?_ h (.refl H s)
  intro s₁ n s₂ _ hs₁ hstep
  split at hstep
  · exact hs₁.trans (marks_markGrey hstep)
  · obtain rfl := Option.some.inj hstep
    exact hs₁

theorem explored_markRoots (h : H.gcMarkRoots fuel s = some s') (hs : Purple s) :
    Explored H.scanned (H.Marked s) (H.Marked s') s.roots := by
  refine (List.explored_foldlM (I := H.Marks s) ?_ h (.refl H s)).2
  intro s₁ n s₂ hn hs₁ hstep
  split at hstep
  · exact ⟨hs₁.trans (marks_markGrey hstep), explored_markGrey hstep⟩
  · rename_i hne
    obtain rfl := Option.some.inj hstep
    refine ⟨hs₁, .of_mem ?_⟩
    -- a root that is no longer purple was marked
    have hpurple : s.color n = .purple := by rw [hs n, if_pos hn]
    rcases hs₁.color n with heq | ⟨hgrey, -⟩ | hsym
    · exact absurd (heq.trans hpurple) hne
    · exact .inl hgrey
    · exact .inr hsym

/-- **After `gc_mark_roots`** the part is grey but for the symbol table, all else is black. -/
theorem markRoots_color (h : H.gcMarkRoots fuel s = some s') (hs : Purple s) (m : ν) :
    (s'.color m = .grey ∧ H.Part s.roots m ∧ H.isSymbolTable m = false) ∨
      (s'.color m = .black ∧ (H.Part s.roots m → H.isSymbolTable m = true)) := by
  have hexp := explored_markRoots h hs
  have hmarks := marks_markRoots h
  have hseen : ∀ k, H.Marked s k → H.isSymbolTable k = true := by
    rintro k (hk | ⟨-, hk⟩)
    · rw [hs k] at hk
      split at hk <;> cases hk
    · exact hk
  have hpart : H.Part s.roots m → H.Marked s' m := by
    rintro ⟨r, hr, hreach⟩
    refine hexp.of_reach hr (fun k _ hk c hc => ?_) hreach
    -- only the symbol table was marked before, and its slots are not followed
    rw [scanned_of_isSymbolTable (hseen k hk)] at hc
    cases hc
  rcases hmarks.color m with heq | ⟨hg, hsym⟩ | ⟨hb, hsym⟩
  · rw [hs m] at heq
    split at heq
    · rename_i hroot
      rcases hpart (Part.root hroot) with hg | ⟨hb, -⟩
      · exact absurd (hg.symm.trans heq) (by decide)
      · exact absurd (hb.symm.trans heq) (by decide)
    · refine .inr ⟨heq, fun hp => ?_⟩
      rcases hpart hp with hg | ⟨-, hsym⟩
      · exact absurd (hg.symm.trans heq) (by decide)
      · exact hsym
  · refine .inl ⟨hg, ?_, hsym⟩
    rcases hexp.reach m (.inl hg) with hk | hreach
    · exact absurd ((hseen m hk).symm.trans hsym) (by decide)
    · exact hreach
  · exact .inr ⟨hb, fun _ => hsym⟩

/-! ## Scanning -/

/-- What `gc_scan_black` may do. -/
structure Blackens (s s' : GcState ν) : Prop where
  color : ∀ m, s'.color m = s.color m ∨ s'.color m = .black
  buffer : SameBuffer s s'

omit [DecidableEq ν] in
theorem Blackens.refl (s : GcState ν) : Blackens s s := ⟨fun _ => .inl rfl, .refl s⟩

omit [DecidableEq ν] in
theorem Blackens.trans (h : Blackens s s₁) (h' : Blackens s₁ s') : Blackens s s' where
  color m := by
    rcases h'.color m with heq | hblack
    · rw [heq]
      exact h.color m
    · exact .inr hblack
  buffer := h.buffer.trans h'.buffer

theorem blackens_setColor (s : GcState ν) (ref : ν) : Blackens s (s.setColor ref .black) where
  color m := by
    rw [GcState.color_setColor]
    by_cases hm : m = ref
    · rw [hm, update_self]
      exact .inr rfl
    · rw [update_of_ne hm]
      exact .inl rfl
  buffer := sameBuffer_setColor s ref .black

theorem blackens_scanBlack (h : H.gcScanBlack fuel n s = some s') : Blackens s s' := by
  refine visit_preorder Blackens.refl (fun _ _ _ => Blackens.trans)
    (fun s c => ⟨fun _ => .inl rfl, sameBuffer_addRef s c 1⟩) ?_ h
  intro s n s₁ cs hent
  rcases scanBlack_enter hent with ⟨-, rfl, -⟩ | ⟨-, rfl, -⟩
  · exact .refl s₁
  · exact blackens_setColor s n

theorem explored_scanBlack (h : H.gcScanBlack fuel n s = some s') :
    Explored H.scanned (fun m => s.color m = .black) (fun m => s'.color m = .black) [n] := by
  refine explored_visit (V := fun s m => s.color m = .black) (fun _ _ => rfl) ?_ h
  intro s n s₁ cs hent
  rcases scanBlack_enter hent with ⟨hblack, rfl, rfl⟩ | ⟨hne, rfl, rfl⟩
  · exact .inl ⟨rfl, .of_mem hblack⟩
  · refine .inr ⟨fun m => ?_, fun _ h => h, fun _ h => .inl h⟩
    rw [GcState.color_setColor]
    by_cases hm : m = n
    · subst hm
      simp
    · rw [update_of_ne hm]
      simp [hm]

theorem explored_scan (h : H.gcScan fuel n s = some s') :
    Explored H.scanned (fun m => s.color m ≠ .grey) (fun m => s'.color m ≠ .grey) [n] := by
  refine explored_visit (V := fun s m => s.color m ≠ .grey) (fun _ _ => rfl) ?_ h
  have hcolor : ∀ (s : GcState ν) n color, color ≠ .grey → ∀ m,
      (s.setColor n color).color m ≠ .grey ↔ s.color m ≠ .grey ∨ m = n := by
    intro s n color hne m
    rw [GcState.color_setColor]
    by_cases hm : m = n
    · subst hm
      simp [hne]
    · rw [update_of_ne hm]
      simp [hm]
  intro s n s₁ cs hent
  rcases scan_enter hent with ⟨hne, rfl, rfl⟩ | ⟨-, -, hblack, rfl⟩ | ⟨-, -, -, rfl, rfl⟩ |
    ⟨-, -, -, rfl, rfl⟩
  · exact .inl ⟨rfl, .of_mem hne⟩
  · -- what `gc_scan_black` met is black with all that it holds
    have hexp := explored_scanBlack hblack
    have hcol := (blackens_scanBlack hblack).color
    have hnot : ∀ m, s₁.color m = .black → s₁.color m ≠ .grey := fun m h => by rw [h]; decide
    have hsplit : ∀ m, s₁.color m ≠ .grey → s.color m ≠ .grey ∨
        (s.color m ≠ .black ∧ s₁.color m = .black) := by
      intro m hm
      rcases hcol m with heq | hb
      · exact .inl (heq ▸ hm)
      · by_cases hsb : s.color m = .black
        · exact .inl (by rw [hsb]; decide)
        · exact .inr ⟨hsb, hb⟩
    refine .inl ⟨rfl, ⟨fun m hm => ?_, fun m hm => hnot m (hexp.mem m hm), fun m hm => ?_,
      fun m hm => ?_⟩⟩
    · rcases hcol m with heq | hb
      · rw [heq]
        exact hm
      · exact hnot m hb
    · rcases hsplit m hm with hm | ⟨hns, hb⟩
      · exact .inl hm
      · rcases hexp.closed m hb with hs | hc
        · exact absurd hs hns
        · exact .inr fun c hcm => hnot c (hc c hcm)
    · rcases hsplit m hm with hm | ⟨hns, hb⟩
      · exact .inl hm
      · rcases hexp.reach m hb with hs | hr
        · exact absurd hs hns
        · exact .inr hr
  · exact .inr ⟨hcolor s n .black (by decide), fun _ h => h, fun _ h => .inl h⟩
  · exact .inr ⟨hcolor s n .white (by decide), fun _ h => h, fun _ h => .inl h⟩

/-- A node of the part that something outside of it refers to: `ext` counts the references that
are no slots of a traversed node. -/
def Held (H : Heap ν) (roots : List ν) (ext : ν → Int) (m : ν) : Prop :=
  0 < ext m ∨ ∃ k, ¬H.Part roots k ∧ m ∈ H.scanned k

def Live (H : Heap ν) (roots : List ν) (ext : ν → Int) (m : ν) : Prop :=
  H.isSymbolTable m = true ∨ ∃ k, H.Part roots k ∧ H.Held roots ext k ∧ Reach H.scanned k m

variable [Fintype ν] {ext : ν → Int}

/-- The invariant of `gc_scan`. -/
structure Scanning (H : Heap ν) (roots : List ν) (ext : ν → Int) (s : GcState ν) : Prop where
  noPurple : NoPurple s
  outside : ∀ m, ¬H.Part roots m → s.color m = .black
  closed : ∀ m, H.Part roots m → s.color m = .black → ∀ c ∈ H.scanned m, s.color c = .black
  live : ∀ m, H.Part roots m → s.color m = .black → H.Live roots ext m
  white : ∀ m, s.color m = .white → ¬H.Held roots ext m
  symbolTable : ∀ m, H.isSymbolTable m = true → s.color m = .black
  balance : ∀ m, H.balance s m = ext m

omit [Fintype ν] in
theorem countedRefs_nonneg (k : ν) (color : GcColor) (m : ν) : 0 ≤ H.countedRefs k color m := by
  unfold countedRefs
  split
  · exact Int.natCast_nonneg _
  · exact le_rfl

omit [Fintype ν] in
theorem countedRefs_pos {k : ν} {color : GcColor} :
    0 < H.countedRefs k color m ↔ color.counted = true ∧ m ∈ H.scanned k := by
  unfold countedRefs
  split
  · rename_i hcounted
    rw [Int.natCast_pos, count_pos_iff]
    simp [hcounted]
  · rename_i hcounted
    simp [hcounted]

theorem Scanning.held_of_pos (h : H.Scanning roots ext s) (hgrey : s.color n = .grey)
    (hpos : 0 < s.refcount n) : H.Held roots ext n := by
  by_cases hext : 0 < ext n
  · exact .inl hext
  · have hsum : 0 < ∑ k, H.countedRefs k (s.color k) n := by
      have hbal := h.balance n
      unfold Heap.balance at hbal
      omega
    obtain ⟨k, -, hk⟩ := Finset.exists_lt_of_sum_lt (s := Finset.univ) (f := fun _ => (0 : Int))
      (g := fun k => H.countedRefs k (s.color k) n) (by simpa using hsum)
    obtain ⟨hcounted, hmem⟩ := countedRefs_pos.mp hk
    have hblack : s.color k = .black := by
      have hpurple := h.noPurple k
      cases hcolor : s.color k with
      | black => rfl
      | purple => exact absurd hcolor hpurple
      | white => rw [hcolor] at hcounted; cases hcounted
      | grey => rw [hcolor] at hcounted; cases hcounted
    -- a black node of the part holds black nodes only
    refine .inr ⟨k, fun hpart => ?_, hmem⟩
    exact absurd ((h.closed k hpart hblack n hmem).symm.trans hgrey) (by decide)

theorem Scanning.not_held_of_nonpos (h : H.Scanning roots ext s) (hext : ∀ m, 0 ≤ ext m)
    (hzero : s.refcount n ≤ 0) : ¬H.Held roots ext n := by
  have hbal := h.balance n
  unfold Heap.balance at hbal
  have hsum : 0 ≤ ∑ k, H.countedRefs k (s.color k) n :=
    Finset.sum_nonneg fun k _ => countedRefs_nonneg k _ n
  have hextn := hext n
  rintro (hpos | ⟨k, hk, hmem⟩)
  · omega
  · have hcounted : 0 < H.countedRefs k (s.color k) n :=
      countedRefs_pos.mpr ⟨by rw [h.outside k hk]; rfl, hmem⟩
    have hle := Finset.single_le_sum (f := fun k => H.countedRefs k (s.color k) n)
      (fun k _ => countedRefs_nonneg k _ n) (Finset.mem_univ k)
    omega

omit [Fintype ν] in
theorem reach_part (hpart : H.Part roots n) (h : Reach H.scanned n m) : H.Part roots m := by
  obtain ⟨r, hr, hreach⟩ := hpart
  exact ⟨r, hr, hreach.trans h⟩

theorem Scanning.scanBlack (h : H.Scanning roots ext s) (hpart : H.Part roots n)
    (hheld : H.Held roots ext n) (hblack : H.gcScanBlack fuel n s = some s') :
    H.Scanning roots ext s' := by
  have hexp := explored_scanBlack hblack
  obtain ⟨hcol, -⟩ := blackens_scanBlack hblack
  obtain ⟨hpurple, hbal⟩ := balance_scanBlack hblack h.noPurple
  refine ⟨hpurple, fun m hm => hexp.le m (h.outside m hm), fun m hm hb c hc => ?_, fun m hm hb => ?_,
    fun m hw => ?_, fun m hm => hexp.le m (h.symbolTable m hm), fun m => (hbal m).trans (h.balance m)⟩
  · rcases hexp.closed m hb with hs | hs
    · exact hexp.le c (h.closed m hm hs c hc)
    · exact hs c hc
  · rcases hexp.reach m hb with hs | ⟨k, hk, hreach⟩
    · exact h.live m hm hs
    · obtain rfl := mem_singleton.mp hk
      exact .inr ⟨k, hpart, hheld, hreach⟩
  · rcases hcol m with heq | hb
    · exact h.white m (heq.symm.trans hw)
    · exact absurd (hb.symm.trans hw) (by decide)

theorem Scanning.scan (hscan : H.gcScan fuel n s = some s') (hext : ∀ m, 0 ≤ ext m)
    (h : H.Scanning roots ext s) (hpart : H.Part roots n) :
    H.Scanning roots ext s' ∧ SameBuffer s s' := by
  refine visit_rule
    (R := fun s n s' => H.Scanning roots ext s → H.Part roots n →
      H.Scanning roots ext s' ∧ SameBuffer s s')
    (L := fun s cs s' => H.Scanning roots ext s → (∀ c ∈ cs, H.Part roots c) →
      H.Scanning roots ext s' ∧ SameBuffer s s') ?_ ?_ ?_ hscan h hpart
  · exact fun s h _ => ⟨h, .refl s⟩
  · intro s c s₁ cs s₂ hvisit hrest h hcs
    obtain ⟨h₁, hbuf₁⟩ := hvisit h (hcs c mem_cons_self)
    obtain ⟨h₂, hbuf₂⟩ := hrest h₁ fun d hd => hcs d (mem_cons_of_mem c hd)
    exact ⟨h₂, hbuf₁.trans hbuf₂⟩
  · intro s n s₁ cs s₂ hent hfollow h hpart
    rcases scan_enter hent with ⟨-, rfl, rfl⟩ | ⟨hgrey, hpos, hblack, rfl⟩ |
      ⟨hgrey, -, hsym, -, -⟩ | ⟨hgrey, hzero, hsym, rfl, rfl⟩
    · exact hfollow h fun c hc => absurd hc not_mem_nil
    · obtain ⟨h₂, hbuf₂⟩ := hfollow (h.scanBlack hpart (h.held_of_pos hgrey hpos) hblack) fun c hc =>
        absurd hc not_mem_nil
      exact ⟨h₂, (blackens_scanBlack hblack).buffer.trans hbuf₂⟩
    · exact absurd ((h.symbolTable n hsym).symm.trans hgrey) (by decide)
    · have hnot : ∀ {m}, s.color m = .black → (s.setColor n .white).color m = .black := by
        intro m hm
        rw [GcState.color_setColor, update_of_ne]
        · exact hm
        · rintro rfl
          exact absurd (hm.symm.trans hgrey) (by decide)
      have hold : ∀ {m}, (s.setColor n .white).color m = .black → s.color m = .black := by
        intro m hm
        rw [GcState.color_setColor] at hm
        by_cases hmn : m = n
        · rw [hmn, update_self] at hm
          cases hm
        · rwa [update_of_ne hmn] at hm
      have h₁ : H.Scanning roots ext (s.setColor n .white) := by
        refine ⟨ne_of_setColor h.noPurple (by decide) n, fun m hm => hnot (h.outside m hm),
          fun m hm hb c hc => hnot (h.closed m hm (hold hb) c hc),
          fun m hm hb => h.live m hm (hold hb), fun m hw => ?_,
          fun m hm => hnot (h.symbolTable m hm), fun m => ?_⟩
        · by_cases hmn : m = n
          · rw [hmn]
            exact h.not_held_of_nonpos hext hzero
          · rw [GcState.color_setColor, update_of_ne hmn] at hw
            exact h.white m hw
        · rw [balance_setColor, hgrey]
          simp [countedRefs, GcColor.counted, h.balance m]
      obtain ⟨h₂, hbuf₂⟩ := hfollow h₁ fun c hc => Part.child hpart hc
      exact ⟨h₂, (sameBuffer_setColor s n .white).trans hbuf₂⟩

theorem Scanning.scanRoots (hscan : H.gcScanRoots fuel s = some s') (hext : ∀ m, 0 ≤ ext m)
    (h : H.Scanning s.roots ext s) :
    (H.Scanning s.roots ext s' ∧ SameBuffer s s') ∧
      Explored H.scanned (fun m => s.color m ≠ .grey) (fun m => s'.color m ≠ .grey) s.roots := by
  refine List.explored_foldlM (V := fun s m => s.color m ≠ .grey)
    (I := fun s₁ => H.Scanning s.roots ext s₁ ∧ SameBuffer s s₁) ?_ hscan ⟨h, .refl s⟩
  intro s₁ n s₂ hn hs₁ hstep
  obtain ⟨hs₂, hbuf⟩ := Scanning.scan hstep hext hs₁.1 (Part.root hn)
  exact ⟨⟨hs₂, hs₁.2.trans hbuf⟩, explored_scan hstep⟩

/-- **After `gc_scan_roots`** no node is grey, and the black ones of the part are the live ones. -/
structure Scanned (H : Heap ν) (roots : List ν) (ext : ν → Int) (s : GcState ν) : Prop
    extends H.Scanning roots ext s where
  noGrey : ∀ m, s.color m ≠ .grey
  black_of_live : ∀ m, H.Part roots m → H.Live roots ext m → s.color m = .black

theorem Scanning.scanned (hscan : H.gcScanRoots fuel s = some s') (hext : ∀ m, 0 ≤ ext m)
    (h : H.Scanning s.roots ext s) (hwhite : NoWhite s) : H.Scanned s.roots ext s' := by
  obtain ⟨⟨hs', -⟩, hexp⟩ := h.scanRoots hscan hext
  have hgrey : ∀ m, s'.color m ≠ .grey := by
    intro m
    by_cases hpart : H.Part s.roots m
    · obtain ⟨r, hr, hreach⟩ := hpart
      refine hexp.of_reach hr (fun k hk hnot c hc => ?_) hreach
      -- before, all that was not grey was black
      have hblack : s.color k = .black := by
        have hpurple := h.noPurple k
        have hw := hwhite k
        cases hcolor : s.color k with
        | black => rfl
        | purple => exact absurd hcolor hpurple
        | white => exact absurd hcolor hw
        | grey => exact absurd hcolor hnot
      exact hexp.le c (by rw [h.closed k ⟨r, hr, hk⟩ hblack c hc]; decide)
    · rw [hs'.outside m hpart]
      decide
  refine ⟨hs', hgrey, fun m hpart hlive => ?_⟩
  have hheld : ∀ k, H.Held s.roots ext k → s'.color k = .black := by
    intro k hk
    have hpurple := hs'.noPurple k
    have hg := hgrey k
    cases hcolor : s'.color k with
    | black => rfl
    | purple => exact absurd hcolor hpurple
    | white => exact absurd hk (hs'.white k hcolor)
    | grey => exact absurd hcolor hg
  rcases hlive with hsym | ⟨k, hk, hheldk, hreach⟩
  · exact hs'.symbolTable m hsym
  · -- induction on the path from the held node
    induction hreach with
    | refl => exact hheld k hheldk
    | tail hpath hedge ih =>
      have hpart' := reach_part hk hpath
      exact hs'.closed _ hpart' (ih hpart') _ hedge

/-! ## Collecting -/

omit [Fintype ν]

/-- What `gc_collect_white` may do: white nodes become black, and those of them that are arrays or
objects and have no entry in the buffer yet get one, in front. -/
structure Collects (H : Heap ν) (s s' : GcState ν) : Prop where
  color : ∀ m, s'.color m = s.color m ∨ (s.color m = .white ∧ s'.color m = .black)
  roots : ∃ new, s'.roots = new ++ s.roots ∧ new.Nodup ∧
    (∀ m, m ∈ new ↔ (H.node m).collectable = true ∧ s.address m = false ∧
      s.color m = .white ∧ s'.color m = .black) ∧
    ∀ m, s'.address m = true ↔ s.address m = true ∨ m ∈ new
  toFree_eq : s'.toFree = s.toFree

omit [DecidableEq ν] in
theorem Collects.refl (H : Heap ν) (s : GcState ν) : H.Collects s s where
  color _ := .inl rfl
  roots := by
    refine ⟨[], rfl, nodup_nil, fun m => ?_, fun m => by simp⟩
    constructor
    · exact fun h => absurd h not_mem_nil
    · rintro ⟨-, -, hw, hb⟩
      exact absurd (hw.symm.trans hb) (by decide)
  toFree_eq := rfl

omit [DecidableEq ν] in
theorem Collects.trans (h : H.Collects s s₁) (h' : H.Collects s₁ s') : H.Collects s s' := by
  obtain ⟨new, hroots, hnd, hnew, haddr⟩ := h.roots
  obtain ⟨new', hroots', hnd', hnew', haddr'⟩ := h'.roots
  -- a node is white before its one change of colour, and black behind it
  have hwhite : ∀ m, s₁.color m = .white → s.color m = .white := by
    intro m hm
    rcases h.color m with heq | ⟨-, hb⟩
    · exact heq.symm.trans hm
    · exact absurd (hb.symm.trans hm) (by decide)
  have hblack : ∀ m, s₁.color m = .black → s'.color m = .black := by
    intro m hm
    rcases h'.color m with heq | ⟨-, hb⟩
    · exact heq.trans hm
    · exact hb
  refine ⟨fun m => ?_, ⟨new' ++ new, by rw [hroots', hroots, append_assoc], ?_, fun m => ?_,
    fun m => ?_⟩, h'.toFree_eq.trans h.toFree_eq⟩
  · rcases h'.color m with heq | ⟨hw, hb⟩
    · rcases h.color m with heq₁ | ⟨hw, hb⟩
      · exact .inl (heq.trans heq₁)
      · exact .inr ⟨hw, heq.trans hb⟩
    · exact .inr ⟨hwhite m hw, hb⟩
  · refine List.Nodup.append hnd' hnd fun m hm' hm => ?_
    exact absurd (((hnew m).mp hm).2.2.2.symm.trans ((hnew' m).mp hm').2.2.1) (by decide)
  · rw [mem_append, hnew, hnew']
    constructor
    · rintro (⟨hc, ha, hw, hb⟩ | ⟨hc, ha, hw, hb⟩)
      · refine ⟨hc, ?_, hwhite m hw, hb⟩
        exact Bool.eq_false_iff.mpr fun h => absurd (((haddr m).mpr (.inl h)).symm.trans ha)
          (by decide)
      · exact ⟨hc, ha, hw, hblack m hb⟩
    · rintro ⟨hc, ha, hw, hb⟩
      rcases h.color m with heq | ⟨-, hb₁⟩
      · refine .inl ⟨hc, Bool.eq_false_iff.mpr fun h₁ => ?_, heq.trans hw, hb⟩
        rcases (haddr m).mp h₁ with h | h
        · exact absurd (h.symm.trans ha) (by decide)
        · exact absurd (((hnew m).mp h).2.2.2.symm.trans (heq.trans hw)) (by decide)
      · exact .inr ⟨hc, ha, hw, hb₁⟩
  · rw [haddr', haddr, mem_append]
    constructor
    · rintro ((h | h) | h)
      · exact .inl h
      · exact .inr (.inr h)
      · exact .inr (.inl h)
    · rintro (h | h | h)
      · exact .inl (.inl h)
      · exact .inr h
      · exact .inl (.inr h)

theorem collects_collect (hwhite : s.color ref = .white) : H.Collects s (H.collect s ref) where
  color m := by
    rw [color_collect]
    by_cases hm : m = ref
    · subst hm
      rw [update_self]
      exact .inr ⟨hwhite, rfl⟩
    · rw [update_of_ne hm]
      exact .inl rfl
  roots := by
    have hmem : ∀ m, (s.color m = .white ∧ (H.collect s ref).color m = .black) ↔ m = ref := by
      intro m
      rw [color_collect]
      by_cases hm : m = ref
      · subst hm
        simp [hwhite]
      · rw [update_of_ne hm]
        constructor
        · rintro ⟨hw, hb⟩
          exact absurd (hw.symm.trans hb) (by decide)
        · exact fun h => absurd h hm
    cases hadd : (H.node ref).collectable && !s.address ref with
    | true =>
      rw [Bool.and_eq_true, Bool.not_eq_true'] at hadd
      refine ⟨[ref], ?_, nodup_singleton ref, fun m => ?_, fun m => ?_⟩
      · simp [collect, hadd.1, GcState.setColor, hadd.2, gcAddGarbage]
      · rw [mem_singleton]
        constructor
        · rintro rfl
          exact ⟨hadd.1, hadd.2, (hmem m).mpr rfl⟩
        · exact fun h => (hmem m).mp h.2.2
      · simp only [collect, hadd.1, GcState.setColor, hadd.2, gcAddGarbage]
        by_cases hm : m = ref
        · subst hm
          simp
        · simp [hm]
    | false =>
      have hnot : ¬((H.node ref).collectable = true ∧ s.address ref = false) := by
        rintro ⟨hc, ha⟩
        rw [hc, ha] at hadd
        cases hadd
      have hsame : (if ((H.node ref).collectable && !(s.setColor ref .black).address ref) = true
          then gcAddGarbage ref (s.setColor ref .black) else s.setColor ref .black) =
          s.setColor ref .black :=
        if_neg (by rw [show (s.setColor ref .black).address = s.address from rfl, hadd]; decide)
      refine ⟨[], ?_, nodup_nil, fun m => ?_, fun m => ?_⟩
      · unfold collect
        dsimp only
        rw [hsame]
        rfl
      · constructor
        · exact fun h => absurd h not_mem_nil
        · rintro ⟨hc, ha, hm⟩
          obtain rfl := (hmem m).mp hm
          exact absurd ⟨hc, ha⟩ hnot
      · unfold collect
        dsimp only
        rw [hsame]
        simp [GcState.setColor]
  toFree_eq := by
    unfold collect
    dsimp only
    split
    · rfl
    · rfl

theorem collects_collectWhite (h : H.gcCollectWhite fuel n s = some s') : H.Collects s s' := by
  refine visit_preorder (Collects.refl H) (fun _ _ _ => Collects.trans) (fun s c => ?_) ?_ h
  · exact ⟨fun _ => .inl rfl, (Collects.refl H s).roots, rfl⟩
  · intro s n s₁ cs hent
    rcases collectWhite_enter hent with ⟨-, rfl, -⟩ | ⟨hwhite, rfl, -⟩
    · exact .refl H s₁
    · exact collects_collect hwhite

theorem explored_collectWhite (h : H.gcCollectWhite fuel n s = some s') :
    Explored (fun k => (H.node k).refs) (fun m => s.color m ≠ .white)
      (fun m => s'.color m ≠ .white) [n] := by
  refine explored_visit (V := fun s m => s.color m ≠ .white) (fun _ _ => rfl) ?_ h
  intro s n s₁ cs hent
  rcases collectWhite_enter hent with ⟨hne, rfl, rfl⟩ | ⟨hwhite, rfl, rfl⟩
  · exact .inl ⟨rfl, .of_mem hne⟩
  · refine .inr ⟨fun m => ?_, fun _ h => h, fun _ h => .inl h⟩
    rw [color_collect]
    by_cases hm : m = n
    · subst hm
      simp
    · rw [update_of_ne hm]
      simp [hm]

theorem collects_collectRoots (h : H.collectRoots fuel s = some s') : H.Collects s s' := by
  refine List.foldlM_invariant (I := H.Collects s) ?_ h (.refl H s)
  intro s₁ n s₂ _ hs₁ hstep
  split at hstep
  · exact hs₁.trans (collects_collectWhite hstep)
  · obtain rfl := Option.some.inj hstep
    exact hs₁

theorem explored_collectRoots (h : H.collectRoots fuel s = some s') :
    Explored (fun k => (H.node k).refs) (fun m => s.color m ≠ .white)
      (fun m => s'.color m ≠ .white) s.roots := by
  refine (List.explored_foldlM (V := fun s m => s.color m ≠ .white) (I := fun _ => True)
    ?_ h trivial).2
  intro s₁ n s₂ _ _ hstep
  split at hstep
  · exact ⟨trivial, explored_collectWhite hstep⟩
  · rename_i hne
    obtain rfl := Option.some.inj hstep
    exact ⟨trivial, .of_mem hne⟩

end Phpce.Gc.Heap
