import Phpce.Gc.Phases

/-!
# Cycle detection is exact

From a heap with exact refcounts and purple roots, `gc_mark_roots`, `gc_scan_roots` and
`gc_collect_roots` restore the refcounts and the colours, and `to_free` lists the garbage: the
arrays and objects that are found from the roots, but not from a node that is held from outside of
what is found from the roots.

* `garbage_iff`: garbage is what is met by the traversals and not live there.
* **`gcFindGarbage_exact`**: the collection.
-/

namespace Phpce.Gc.Heap

open Traversal List Option
open Function (update_of_ne update_self)

variable {ν : Type*} [DecidableEq ν] {H : Heap ν} {s s' s₁ s₂ : GcState ν} {m n : ν} {fuel : Nat}
  {roots : List ν} {out : ν → Nat}

/-! ## Enough fuel -/

section Fuel

variable [Fintype ν]

theorem exists_visit_of_color {T : Traversal (GcState ν) ν} {K : GcState ν → ν → Prop}
    (hedge : ∀ s c, K (T.edge s c) = K s)
    (htotal : ∀ s n, ∃ s₁ cs, T.enter s n = some (s₁, cs))
    (hmono : ∀ s n s₁ cs, T.enter s n = some (s₁, cs) → ∀ m, K s m → K s₁ m)
    (hnew : ∀ s n s₁ cs, T.enter s n = some (s₁, cs) → cs ≠ [] → ¬K s n ∧ K s₁ n)
    (hfuel : Fintype.card ν < fuel) (n : ν) (s : GcState ν) : ∃ s', T.visit fuel n s = some s' := by
  refine exists_visit_of_seen hedge (fun s n => ?_) hfuel n s
  obtain ⟨s₁, cs, hent⟩ := htotal s n
  exact ⟨s₁, cs, hent, hmono s n s₁ cs hent, hnew s n s₁ cs hent⟩

theorem exists_gcScanBlack (hfuel : Fintype.card ν < fuel) (n : ν) (s : GcState ν) :
    ∃ s', H.gcScanBlack fuel n s = some s' := by
  refine exists_visit_of_color (K := fun s m => s.color m = .black) (fun _ _ => rfl) ?_ ?_ ?_
    hfuel n s
  · intro s n
    unfold scanBlack
    dsimp only
    split
    · exact ⟨_, _, rfl⟩
    · exact ⟨_, _, rfl⟩
  · intro s n s₁ cs hent m hm
    rcases scanBlack_enter hent with ⟨-, rfl, -⟩ | ⟨-, rfl, -⟩
    · exact hm
    · rcases (blackens_setColor s n).color m with heq | hb
      · exact heq.trans hm
      · exact hb
  · intro s n s₁ cs hent hcs
    rcases scanBlack_enter hent with ⟨-, -, rfl⟩ | ⟨hne, rfl, -⟩
    · exact absurd rfl hcs
    · exact ⟨hne, update_self ..⟩

theorem exists_gcMarkGrey (hfuel : Fintype.card ν < fuel) (n : ν) (s : GcState ν) :
    ∃ s', H.gcMarkGrey fuel n s = some s' := by
  refine exists_visit_of_color (K := fun s m => s.color m = .grey ∧ H.isSymbolTable m = false)
    (fun _ _ => rfl) ?_ ?_ ?_ hfuel n s
  · intro s n
    unfold markGrey
    dsimp only
    split
    · split
      · exact ⟨_, _, rfl⟩
      · exact ⟨_, _, rfl⟩
    · exact ⟨_, _, rfl⟩
  · intro s n s₁ cs hent m hm
    rcases markGrey_enter hent with ⟨-, rfl, -⟩ | ⟨-, hsym, rfl, -⟩ | ⟨-, hsym, rfl, -⟩
    · exact hm
    · rw [GcState.color_setColor, update_of_ne]
      · exact hm
      · rintro rfl
        exact absurd (hsym.symm.trans hm.2) (by decide)
    · rw [GcState.color_setColor]
      by_cases hmn : m = n
      · rw [hmn, update_self]
        exact ⟨rfl, hsym⟩
      · rw [update_of_ne hmn]
        exact hm
  · intro s n s₁ cs hent hcs
    rcases markGrey_enter hent with ⟨-, -, rfl⟩ | ⟨-, hsym, -, rfl⟩ | ⟨hne, hsym, rfl, -⟩
    · exact absurd rfl hcs
    · exact absurd (scanned_of_isSymbolTable hsym) hcs
    · exact ⟨fun h => hne h.1, update_self .., hsym⟩

theorem exists_gcScan (hfuel : Fintype.card ν < fuel) (n : ν) (s : GcState ν) :
    ∃ s', H.gcScan fuel n s = some s' := by
  refine exists_visit_of_color (K := fun s m => s.color m ≠ .grey) (fun _ _ => rfl) ?_ ?_ ?_
    hfuel n s
  · intro s n
    obtain ⟨s', hs'⟩ := exists_gcScanBlack (H := H) hfuel n s
    unfold scan
    dsimp only
    split
    · split
      · rw [hs']
        exact ⟨_, _, rfl⟩
      · split
        · exact ⟨_, _, rfl⟩
        · exact ⟨_, _, rfl⟩
    · exact ⟨_, _, rfl⟩
  · intro s n s₁ cs hent m hm
    have hset : ∀ color, color ≠ .grey → (s.setColor n color).color m ≠ .grey := by
      intro color hcolor
      rw [GcState.color_setColor]
      by_cases hmn : m = n
      · rw [hmn, update_self]
        exact hcolor
      · rw [update_of_ne hmn]
        exact hm
    rcases scan_enter hent with ⟨-, rfl, -⟩ | ⟨-, -, hblack, -⟩ | ⟨-, -, -, rfl, -⟩ |
      ⟨-, -, -, rfl, -⟩
    · exact hm
    · rcases (blackens_scanBlack hblack).color m with heq | hb
      · rw [heq]
        exact hm
      · rw [hb]
        decide
    · exact hset .black (by decide)
    · exact hset .white (by decide)
  · intro s n s₁ cs hent hcs
    rcases scan_enter hent with ⟨-, -, rfl⟩ | ⟨-, -, -, rfl⟩ | ⟨-, -, hsym, -, rfl⟩ |
      ⟨hgrey, -, -, rfl, -⟩
    · exact absurd rfl hcs
    · exact absurd rfl hcs
    · exact absurd (scanned_of_isSymbolTable hsym) hcs
    · refine ⟨fun h => h hgrey, ?_⟩
      rw [GcState.color_setColor, update_self]
      decide

theorem exists_gcCollectWhite (hfuel : Fintype.card ν < fuel) (n : ν) (s : GcState ν) :
    ∃ s', H.gcCollectWhite fuel n s = some s' := by
  refine exists_visit_of_color (K := fun s m => s.color m ≠ .white) (fun _ _ => rfl) ?_ ?_ ?_
    hfuel n s
  · intro s n
    unfold collectWhite
    dsimp only
    split
    · exact ⟨_, _, rfl⟩
    · exact ⟨_, _, rfl⟩
  · intro s n s₁ cs hent m hm
    rcases collectWhite_enter hent with ⟨-, rfl, -⟩ | ⟨hwhite, rfl, -⟩
    · exact hm
    · rcases (collects_collect (H := H) hwhite).color m with heq | ⟨-, hb⟩
      · rw [heq]
        exact hm
      · rw [hb]
        decide
  · intro s n s₁ cs hent hcs
    rcases collectWhite_enter hent with ⟨-, -, rfl⟩ | ⟨hwhite, rfl, -⟩
    · exact absurd rfl hcs
    · refine ⟨fun h => h hwhite, ?_⟩
      rw [color_collect, update_self]
      decide

theorem exists_gcFindGarbage (hfuel : Fintype.card ν < fuel) (s : GcState ν) :
    ∃ s₁ s₂ s₃, H.gcMarkRoots fuel s = some s₁ ∧ H.gcScanRoots fuel s₁ = some s₂ ∧
      H.collectRoots fuel (removeBlack s₂) = some s₃ ∧
      H.gcFindGarbage fuel s = some (relinkRoots s₃) := by
  obtain ⟨s₁, h₁⟩ : ∃ s₁, H.gcMarkRoots fuel s = some s₁ := by
    refine List.exists_foldlM (fun s n => ?_) s.roots s
    split
    · exact exists_gcMarkGrey hfuel n s
    · exact ⟨s, rfl⟩
  obtain ⟨s₂, h₂⟩ : ∃ s₂, H.gcScanRoots fuel s₁ = some s₂ :=
    List.exists_foldlM (fun s n => exists_gcScan hfuel n s) s₁.roots s₁
  obtain ⟨s₃, h₃⟩ : ∃ s₃, H.collectRoots fuel (removeBlack s₂) = some s₃ := by
    refine List.exists_foldlM (fun s n => ?_) _ _
    split
    · exact exists_gcCollectWhite hfuel n s
    · exact ⟨s, rfl⟩
  refine ⟨s₁, s₂, s₃, h₁, h₂, h₃, ?_⟩
  rw [gcFindGarbage, h₁, bind_some, h₂, bind_some, gcCollectRoots, h₃, map_some]

end Fuel

/-! ## Garbage -/

def Found (H : Heap ν) (roots : List ν) (m : ν) : Prop :=
  ∃ r ∈ roots, Reach (fun k => (H.node k).refs) r m

def HeldOutside (H : Heap ν) (roots : List ν) (out : ν → Nat) (m : ν) : Prop :=
  0 < out m ∨ ∃ k, ¬H.Found roots k ∧ m ∈ (H.node k).refs

def Garbage (H : Heap ν) (roots : List ν) (out : ν → Nat) (m : ν) : Prop :=
  H.Found roots m ∧
    ∀ k, H.Found roots k → H.HeldOutside roots out k → ¬Reach (fun k => (H.node k).refs) k m

theorem scanned_subset (h : m ∈ H.scanned n) : m ∈ (H.node n).refs := by
  cases hsym : H.isSymbolTable n with
  | true =>
    rw [scanned_of_isSymbolTable hsym] at h
    cases h
  | false => rwa [scanned_of_not hsym] at h

theorem reach_refs (h : Reach H.scanned n m) : Reach (fun k => (H.node k).refs) n m :=
  Relation.ReflTransGen.mono (fun _ _ hmem => scanned_subset hmem) _ _ h

theorem Part.found (h : H.Part roots m) : H.Found roots m := by
  obtain ⟨r, hr, hreach⟩ := h
  exact ⟨r, hr, reach_refs hreach⟩

theorem Found.part_or (h : H.Found roots m) : H.Part roots m ∨
    ∃ g, H.isSymbolTable g = true ∧ H.Found roots g ∧ Reach (fun k => (H.node k).refs) g m := by
  obtain ⟨r, hr, hreach⟩ := h
  -- induction on the path from the root
  induction hreach with
  | refl => exact .inl (Part.root hr)
  | @tail k m hpath hedge ih =>
    rcases ih with hpart | ⟨g, hsym, hfound, hg⟩
    · cases hsym : H.isSymbolTable k with
      | true => exact .inr ⟨k, hsym, hpart.found, .single hedge⟩
      | false => exact .inl (Part.child hpart (by rwa [scanned_of_not hsym]))
    · exact .inr ⟨g, hsym, hfound, hg.tail hedge⟩

/-- `EG(symbol_table)` is an array that the executor holds. -/
def ExecutorHolds (H : Heap ν) (out : ν → Nat) : Prop := ∀ g, H.isSymbolTable g = true → 0 < out g

/-- The references that are no slots of a traversed node: those from outside, and those of the
symbol table. -/
def ExternalOf (H : Heap ν) (out : ν → Nat) (ext : ν → Int) : Prop :=
  ∀ m, 0 < ext m ↔ 0 < out m ∨ ∃ g, H.isSymbolTable g = true ∧ m ∈ (H.node g).refs

variable {ext : ν → Int}

theorem garbage_iff (hsym : H.ExecutorHolds out) (hext : H.ExternalOf out ext) :
    H.Garbage roots out m ↔ H.Part roots m ∧ ¬H.Live roots ext m := by
  constructor
  · rintro ⟨hfound, hgarbage⟩
    have hnosym : ∀ g, H.isSymbolTable g = true → H.Found roots g →
        ¬Reach (fun k => (H.node k).refs) g m := fun g hg hf => hgarbage g hf (.inl (hsym g hg))
    refine ⟨?_, ?_⟩
    · rcases hfound.part_or with hpart | ⟨g, hg, hf, hreach⟩
      · exact hpart
      · exact absurd hreach (hnosym g hg hf)
    · rintro (hg | ⟨k, hpart, hheld, hreach⟩)
      · exact hnosym m hg hfound .refl
      · have hkm := reach_refs hreach
        have hkheld : ¬H.HeldOutside roots out k := fun h => hgarbage k hpart.found h hkm
        rcases hheld with hpos | ⟨j, hj, hmem⟩
        · rcases (hext k).mp hpos with hout | ⟨g, hg, hmem⟩
          · exact hkheld (.inl hout)
          · by_cases hf : H.Found roots g
            · exact hnosym g hg hf (.head hmem hkm)
            · exact hkheld (.inr ⟨g, hf, hmem⟩)
        · by_cases hf : H.Found roots j
          · rcases hf.part_or with hp | ⟨g, hg, hfg, hgj⟩
            · exact hj hp
            · exact hnosym g hg hfg (hgj.trans (.head (scanned_subset hmem) hkm))
          · exact hkheld (.inr ⟨j, hf, scanned_subset hmem⟩)
  · rintro ⟨hpart, hlive⟩
    refine ⟨hpart.found, fun k hf hheld hreach => ?_⟩
    -- along the path all that is traversed is live
    have hall : H.Part roots m → H.Live roots ext m := by
      clear hpart hlive
      induction hreach with
      | refl =>
        intro hk
        rcases hheld with hout | ⟨j, hj, hmem⟩
        · exact .inr ⟨k, hk, .inl ((hext k).mpr (.inl hout)), .refl⟩
        · cases hsymj : H.isSymbolTable j with
          | true => exact .inr ⟨k, hk, .inl ((hext k).mpr (.inr ⟨j, hsymj, hmem⟩)), .refl⟩
          | false =>
            refine .inr ⟨k, hk, .inr ⟨j, fun hp => hj hp.found, ?_⟩, .refl⟩
            rwa [scanned_of_not hsymj]
      | @tail x y _ hedge ih =>
        intro hy
        cases hsymx : H.isSymbolTable x with
        | true => exact .inr ⟨y, hy, .inl ((hext y).mpr (.inr ⟨x, hsymx, hedge⟩)), .refl⟩
        | false =>
          have hscan : y ∈ H.scanned x := by rwa [scanned_of_not hsymx]
          by_cases hx : H.Part roots x
          · rcases ih hx with hsx | ⟨j, hj, hjheld, hjx⟩
            · exact absurd (hsx.symm.trans hsymx) (by decide)
            · exact .inr ⟨j, hj, hjheld, hjx.tail hscan⟩
          · exact .inr ⟨y, hy, .inr ⟨x, hx, hscan⟩, .refl⟩
    exact hlive (hall hpart)

/-! ## The collection -/

/-- Purple roots in the buffer; all else is black and has no entry. -/
structure Buffered (H : Heap ν) (s : GcState ν) : Prop where
  purple : Purple s
  nodup : s.roots.Nodup
  collectable : ∀ r ∈ s.roots, (H.node r).collectable = true
  address : ∀ m, s.address m = true ↔ m ∈ s.roots
  toFree_eq : s.toFree = []

variable [Fintype ν]

/-- Refcounts equal heap references plus outside references. -/
def Counted (H : Heap ν) (out : ν → Nat) (s : GcState ν) : Prop :=
  ∀ m, s.refcount m = (∑ k, ((H.node k).refs.count m : Int)) + out m

theorem balance_of_counted (hs : ∀ k, (s.color k).counted = true) (m : ν) :
    H.balance s m = s.refcount m - ∑ k, ((H.scanned k).count m : Int) := by
  unfold Heap.balance
  congr 1
  apply Finset.sum_congr rfl
  intro k _
  rw [countedRefs, hs k, if_pos rfl]

theorem sum_scanned_le (m : ν) : (∑ k, ((H.scanned k).count m : Int)) ≤
    ∑ k, ((H.node k).refs.count m : Int) := by
  apply Finset.sum_le_sum
  intro k _
  cases hsym : H.isSymbolTable k with
  | true =>
    rw [scanned_of_isSymbolTable hsym, count_nil]
    exact Int.natCast_nonneg _
  | false => rw [scanned_of_not hsym]

theorem externalOf_balance (hs : ∀ k, (s.color k).counted = true) (hcount : H.Counted out s) :
    H.ExternalOf out (H.balance s) := by
  intro m
  rw [balance_of_counted hs, hcount m]
  have hle := H.sum_scanned_le m
  constructor
  · intro hpos
    by_cases hout : 0 < out m
    · exact .inl hout
    · have hlt : (∑ k, ((H.scanned k).count m : Int)) < ∑ k, ((H.node k).refs.count m : Int) := by
        omega
      obtain ⟨g, -, hg⟩ := Finset.exists_lt_of_sum_lt hlt
      cases hsym : H.isSymbolTable g with
      | true =>
        rw [scanned_of_isSymbolTable hsym, count_nil, Nat.cast_lt, count_pos_iff] at hg
        exact .inr ⟨g, hsym, hg⟩
      | false =>
        rw [scanned_of_not hsym] at hg
        exact absurd hg (lt_irrefl _)
  · rintro (hout | ⟨g, hsym, hmem⟩)
    · omega
    · have hlt : (∑ k, ((H.scanned k).count m : Int)) < ∑ k, ((H.node k).refs.count m : Int) := by
        refine Finset.sum_lt_sum (fun k _ => ?_) ⟨g, Finset.mem_univ g, ?_⟩
        · cases hk : H.isSymbolTable k with
          | true =>
            rw [scanned_of_isSymbolTable hk, count_nil]
            exact Int.natCast_nonneg _
          | false => rw [scanned_of_not hk]
        · rw [scanned_of_isSymbolTable hsym, count_nil, Nat.cast_lt, count_pos_iff]
          exact hmem
      omega

theorem balance_markRoots (h : H.gcMarkRoots fuel s = some s') (hs : NoWhite s) :
    NoWhite s' ∧ ∀ m, H.balance s' m = H.balance s m := by
  refine List.foldlM_invariant
    (I := fun s₁ => NoWhite s₁ ∧ ∀ m, H.balance s₁ m = H.balance s m) ?_ h ⟨hs, fun _ => rfl⟩
  intro s₁ n s₂ _ hs₁ hstep
  split at hstep
  · obtain ⟨hs₂, hbal⟩ := balance_markGrey hstep hs₁.1
    exact ⟨hs₂, fun m => (hbal m).trans (hs₁.2 m)⟩
  · obtain rfl := some.inj hstep
    exact hs₁

theorem balance_collectRoots (h : H.collectRoots fuel s = some s') (hs : H.SymbolTableKept s) :
    ∀ m, H.balance s' m = H.balance s m := by
  refine (List.foldlM_invariant
    (I := fun s₁ => H.SymbolTableKept s₁ ∧ ∀ m, H.balance s₁ m = H.balance s m) ?_ h
    ⟨hs, fun _ => rfl⟩).2
  intro s₁ n s₂ _ hs₁ hstep
  split at hstep
  · obtain ⟨hs₂, hbal⟩ := balance_collectWhite hstep hs₁.1
    exact ⟨hs₂, fun m => (hbal m).trans (hs₁.2 m)⟩
  · obtain rfl := some.inj hstep
    exact hs₁

theorem scanning_of_markRoots (hmark : H.gcMarkRoots fuel s = some s₁) (hs : Purple s)
    (hwhite : NoWhite s) : H.Scanning s.roots (H.balance s) s₁ ∧ NoWhite s₁ := by
  obtain ⟨hwhite₁, hbal⟩ := balance_markRoots hmark hwhite
  have hcolor := markRoots_color hmark hs
  have hblack : ∀ m, s₁.color m = .black → H.Part s.roots m → H.isSymbolTable m = true := by
    intro m hb hpart
    rcases hcolor m with ⟨hg, -, -⟩ | ⟨-, hsym⟩
    · exact absurd (hb.symm.trans hg) (by decide)
    · exact hsym hpart
  refine ⟨⟨fun m => ?_, fun m hm => ?_, fun m hm hb c hc => ?_, fun m hm hb => .inl (hblack m hb hm),
    fun m hw => absurd hw (hwhite₁ m), fun m hm => ?_, hbal⟩, hwhite₁⟩
  · rcases hcolor m with ⟨hg, -, -⟩ | ⟨hb, -⟩
    · rw [hg]
      decide
    · rw [hb]
      decide
  · rcases hcolor m with ⟨-, hpart, -⟩ | ⟨hb, -⟩
    · exact absurd hpart hm
    · exact hb
  · rw [scanned_of_isSymbolTable (hblack m hb hm)] at hc
    cases hc
  · rcases hcolor m with ⟨-, -, hsym⟩ | ⟨hb, -⟩
    · exact absurd (hm.symm.trans hsym) (by decide)
    · exact hb

/-- **Cycle detection is exact.** -/
theorem gcFindGarbage_exact (hbuf : H.Buffered s) (hcount : H.Counted out s)
    (hsym : H.ExecutorHolds out) (hfuel : Fintype.card ν < fuel) :
    ∃ s', H.gcFindGarbage fuel s = some s' ∧ s'.refcount = s.refcount ∧
      (∀ m, s'.color m = .black) ∧ s'.toFree.Nodup ∧
      ∀ m, m ∈ s'.toFree ↔ (H.node m).collectable = true ∧ H.Garbage s.roots out m := by
  obtain ⟨s₁, s₂, s₃, hmark, hscan, hcollect, hfind⟩ := exists_gcFindGarbage (H := H) hfuel s
  have hcounted : ∀ k, (s.color k).counted = true := by
    intro k
    rw [hbuf.purple k]
    split <;> rfl
  have hwhite : NoWhite s := by
    intro k
    rw [hbuf.purple k]
    split <;> decide
  have hextern := externalOf_balance hcounted hcount
  have hext : ∀ m, 0 ≤ H.balance s m := by
    intro m
    rw [balance_of_counted hcounted, hcount m]
    have hle := H.sum_scanned_le m
    omega
  obtain ⟨hscanning, hwhite₁⟩ := scanning_of_markRoots hmark hbuf.purple hwhite
  have hbuf₁ := (marks_markRoots hmark).buffer
  rw [← hbuf₁.roots_eq] at hscanning
  have hscanned := hscanning.scanned hscan hext hwhite₁
  obtain ⟨⟨-, hbuf₂⟩, -⟩ := hscanning.scanRoots hscan hext
  rw [hbuf₁.roots_eq] at hscanned
  have hbuffer := hbuf₁.trans hbuf₂
  -- what is white now is the garbage
  have hgarbage : ∀ m, s₂.color m = .white ↔ H.Garbage s.roots out m := by
    intro m
    rw [garbage_iff hsym hextern]
    constructor
    · intro hw
      have hpart : H.Part s.roots m := by
        by_contra hnot
        exact absurd ((hscanned.outside m hnot).symm.trans hw) (by decide)
      exact ⟨hpart, fun hlive =>
        absurd ((hscanned.black_of_live m hpart hlive).symm.trans hw) (by decide)⟩
    · rintro ⟨hpart, hlive⟩
      cases hcolor : s₂.color m with
      | white => rfl
      | black => exact absurd (hscanned.live m hpart hcolor) hlive
      | grey => exact absurd hcolor (hscanned.noGrey m)
      | purple => exact absurd hcolor (hscanned.noPurple m)
  have hblack₂ : ∀ m, s₂.color m = .white ∨ s₂.color m = .black := by
    intro m
    cases hcolor : s₂.color m with
    | white => exact .inl rfl
    | black => exact .inr rfl
    | grey => exact absurd hcolor (hscanned.noGrey m)
    | purple => exact absurd hcolor (hscanned.noPurple m)
  have hclosed : ∀ k, H.Part s.roots k → s₂.color k = .black → ∀ c ∈ H.scanned k,
      s₂.color c = .black := hscanned.closed
  -- collecting
  have hcol := collects_collectRoots hcollect
  have hexp := explored_collectRoots hcollect
  have hreached : ∀ r ∈ s.roots, ∀ m, Reach H.scanned r m → s₂.color m = .white →
      s₃.color m ≠ .white := by
    intro r hr m hreach
    induction hreach with
    | refl =>
      intro hw
      refine hexp.mem r (mem_filter.mpr ⟨?_, ?_⟩)
      · rwa [hbuffer.roots_eq]
      · rw [hw]
        decide
    | @tail k m hpath hedge ih =>
      intro hw
      rcases hblack₂ k with hkw | hkb
      · rcases hexp.closed k (ih hkw) with hk | hk
        · exact absurd hkw hk
        · exact hk m (scanned_subset hedge)
      · exact absurd ((hclosed k ⟨r, hr, hpath⟩ hkb m hedge).symm.trans hw) (by decide)
  have hblack₃ : ∀ m, s₃.color m = .black := by
    intro m
    rcases hcol.color m with heq | ⟨-, hb⟩
    · rcases hblack₂ m with hw | hb
      · obtain ⟨⟨r, hr, hreach⟩, -⟩ := (garbage_iff hsym hextern).mp ((hgarbage m).mp hw)
        exact absurd (heq.trans hw) (hreached r hr m hreach hw)
      · exact heq.trans hb
    · exact hb
  obtain ⟨new, hroots, hnd, hnew, -⟩ := hcol.roots
  have hfree : (relinkRoots s₃).toFree = new ++ (removeBlack s₂).roots := by
    change s₃.toFree ++ s₃.roots = _
    rw [hcol.toFree_eq, hroots]
    change s₂.toFree ++ _ = _
    rw [hbuffer.toFree_eq, hbuf.toFree_eq, nil_append]
  have hold : ∀ m, m ∈ (removeBlack s₂).roots ↔ m ∈ s.roots ∧ s₂.color m = .white := by
    intro m
    change m ∈ s₂.roots.filter _ ↔ _
    rw [mem_filter, hbuffer.roots_eq, decide_eq_true_eq]
    rcases hblack₂ m with hw | hb
    · simp [hw]
    · simp [hb]
  have haddress : ∀ m, s₂.color m = .white →
      ((removeBlack s₂).address m = false ↔ m ∉ s.roots) := by
    intro m hw
    change (s₂.address m && !decide (s₂.color m = .black ∧ m ∈ s₂.roots)) = false ↔ _
    have hiff := hbuf.address m
    rw [← hbuffer.address_eq] at hiff
    rw [← hiff]
    simp [hw]
  refine ⟨relinkRoots s₃, hfind, ?_, hblack₃, ?_, fun m => ?_⟩
  · -- all references are counted, as they were before
    funext m
    have hkept : H.SymbolTableKept (removeBlack s₂) := by
      intro g hg hw
      exact absurd ((hscanned.symbolTable g hg).symm.trans hw) (by decide)
    have hbal := balance_collectRoots hcollect hkept m
    rw [balance_of_counted (fun k => by rw [hblack₃ k]; rfl)] at hbal
    have hbal₂ : H.balance (removeBlack s₂) m = H.balance s m := hscanned.balance m
    rw [hbal₂, balance_of_counted hcounted] at hbal
    change s₃.refcount m = s.refcount m
    omega
  · rw [hfree]
    refine List.Nodup.append hnd ?_ fun m hm hm' => ?_
    · change (s₂.roots.filter _).Nodup
      rw [hbuffer.roots_eq]
      exact hbuf.nodup.filter _
    · obtain ⟨-, ha, hw, -⟩ := (hnew m).mp hm
      exact (haddress m hw).mp ha ((hold m).mp hm').1
  · rw [hfree, mem_append, hnew, hold, ← hgarbage]
    constructor
    · rintro (⟨hc, -, hw, -⟩ | ⟨hr, hw⟩)
      · exact ⟨hc, hw⟩
      · exact ⟨hbuf.collectable m hr, hw⟩
    · rintro ⟨hc, hw⟩
      by_cases hr : m ∈ s.roots
      · exact .inr ⟨hr, hw⟩
      · exact .inl ⟨hc, (haddress m hw).mpr hr, hw, hblack₃ m⟩

/-- Two objects that hold each other, and an array that holds itself and a string. -/
def cyclicHeap : Heap (Fin 4) where
  node n :=
    match n with
    | 0 => .object [1] true
    | 1 => .object [0] false
    | 2 => .array [2, 3]
    | 3 => .leaf
  symbolTable := none

/-- Both are possible roots; the array is also held by a variable. -/
def cyclicState : GcState (Fin 4) where
  refcount n := if n = 2 then 2 else 1
  color n := if n = 0 ∨ n = 2 then .purple else .black
  address n := n = 0 ∨ n = 2
  roots := [0, 2]
  toFree := []
  flags := false

theorem gcFindGarbage_exact_cyclicHeap :
    ∃ s', cyclicHeap.gcFindGarbage 5 cyclicState = some s' ∧
      s'.refcount = cyclicState.refcount ∧ (∀ m, s'.color m = .black) ∧ s'.toFree.Nodup ∧
      ∀ m, m ∈ s'.toFree ↔ (cyclicHeap.node m).collectable = true ∧
        cyclicHeap.Garbage [0, 2] (fun n => if n = 2 then 1 else 0) m :=
  gcFindGarbage_exact ⟨by unfold Purple; decide, by decide, by decide, by decide, rfl⟩
    (by unfold Counted; decide) (fun g hg => absurd hg (by revert g; decide)) (by decide)

end Phpce.Gc.Heap
