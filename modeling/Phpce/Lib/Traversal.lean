import Mathlib.Data.Fintype.Card
import Mathlib.Data.Option.Basic
import Mathlib.Logic.Relation

/-!
# Depth-first traversals with side effects

A recursive function that enters a node, does something to each of its children and then calls
itself on the child. Whether a node is entered, and which children are then followed, depends on
the state, so that graphs with cycles are traversed too.

* `visit`, `follow`: the function, on a node and on a list of children. The recursion is bounded by
  `fuel`; `none` when that runs out.
* `visit_rule` packages the induction over a traversal: what holds of the empty list of children,
  of one more child, and of entering a node, holds of each visit.
* `exists_visit`: with a measure that entering a node lowers, there is fuel enough.
* `visit_preorder`: what each step of a traversal may do to the state, all of it may.
* `Explored next A A' ns`: the nodes seen, `A`, have grown to `A'` by those found from `ns` along
  `next`; `explored_visit` gives this of a traversal.
-/

/-- `enter s n` is the state after the node `n` was entered in the state `s` with the children to
follow, `edge s c` what is done for a reference to the child `c` before it is visited. -/
structure Traversal (σ ν : Type*) where
  enter : σ → ν → Option (σ × List ν)
  edge : σ → ν → σ

namespace Traversal

variable {σ ν : Type*}

def visit (T : Traversal σ ν) : (fuel : Nat) → ν → σ → Option σ
  | 0, _, _ => none
  | fuel + 1, n, s =>
      (T.enter s n).bind fun (s, cs) => cs.foldlM (fun s c => visit T fuel c (T.edge s c)) s

def follow (T : Traversal σ ν) (fuel : Nat) (cs : List ν) (s : σ) : Option σ :=
  cs.foldlM (fun s c => T.visit fuel c (T.edge s c)) s

variable {T : Traversal σ ν} {fuel : Nat} {s s' : σ} {n : ν} {cs : List ν}

theorem visit_succ : T.visit (fuel + 1) n s = some s' ↔
    ∃ s₁ cs, T.enter s n = some (s₁, cs) ∧ T.follow fuel cs s₁ = some s' := by
  rw [visit, Option.bind_eq_some_iff]
  constructor
  · rintro ⟨⟨s₁, cs⟩, henter, hfollow⟩
    exact ⟨s₁, cs, henter, hfollow⟩
  · rintro ⟨s₁, cs, henter, hfollow⟩
    exact ⟨(s₁, cs), henter, hfollow⟩

theorem follow_cons {c : ν} : T.follow fuel (c :: cs) s = some s' ↔
    ∃ s₁, T.visit fuel c (T.edge s c) = some s₁ ∧ T.follow fuel cs s₁ = some s' := by
  rw [follow, List.foldlM_cons]
  exact Option.bind_eq_some_iff

theorem visit_rule {R : σ → ν → σ → Prop} {L : σ → List ν → σ → Prop} (hnil : ∀ s, L s [] s)
    (hcons : ∀ s c s₁ cs s₂, R (T.edge s c) c s₁ → L s₁ cs s₂ → L s (c :: cs) s₂)
    (henter : ∀ s n s₁ cs s₂, T.enter s n = some (s₁, cs) → L s₁ cs s₂ → R s n s₂)
    (h : T.visit fuel n s = some s') : R s n s' := by
  -- induction on the fuel, and on the list of children in each node
  induction fuel generalizing n s s' with
  | zero => cases h
  | succ fuel ih =>
    have hlist : ∀ cs s s', T.follow fuel cs s = some s' → L s cs s' := by
      intro cs
      induction cs with
      | nil =>
        intro s s' h
        obtain rfl := Option.some.inj h
        exact hnil s
      | cons c cs ihcs =>
        intro s s' h
        obtain ⟨s₁, hvisit, hrest⟩ := follow_cons.mp h
        exact hcons s c s₁ cs s' (ih hvisit) (ihcs s₁ s' hrest)
    obtain ⟨s₁, cs, hent, hfollow⟩ := visit_succ.mp h
    exact henter s n s₁ cs s' hent (hlist cs s₁ s' hfollow)

theorem exists_visit {μ : σ → Nat} (hedge : ∀ s c, μ (T.edge s c) ≤ μ s)
    (henter : ∀ s n, ∃ s₁ cs, T.enter s n = some (s₁, cs) ∧ μ s₁ ≤ μ s ∧ (cs ≠ [] → μ s₁ < μ s))
    (hfuel : μ s < fuel) (n : ν) : ∃ s', T.visit fuel n s = some s' ∧ μ s' ≤ μ s := by
  -- induction on the fuel, and on the list of children in each node
  induction fuel generalizing n s with
  | zero => exact absurd hfuel (Nat.not_lt_zero _)
  | succ fuel ih =>
    have hlist : ∀ cs s, μ s < fuel → ∃ s', T.follow fuel cs s = some s' ∧ μ s' ≤ μ s := by
      intro cs
      induction cs with
      | nil => exact fun s _ => ⟨s, rfl, Nat.le_refl _⟩
      | cons c cs ihcs =>
        intro s hs
        have hle := hedge s c
        obtain ⟨s₁, hvisit, hle₁⟩ := ih (s := T.edge s c) (by omega) c
        obtain ⟨s₂, hfollow, hle₂⟩ := ihcs s₁ (by omega)
        exact ⟨s₂, follow_cons.mpr ⟨s₁, hvisit, hfollow⟩, by omega⟩
    obtain ⟨s₁, cs, hent, hle, hlt⟩ := henter s n
    cases cs with
    | nil => exact ⟨s₁, visit_succ.mpr ⟨s₁, [], hent, rfl⟩, hle⟩
    | cons c cs =>
      have hlt' := hlt (List.cons_ne_nil c cs)
      obtain ⟨s₂, hfollow, hle₂⟩ := hlist (c :: cs) s₁ (by omega)
      exact ⟨s₂, visit_succ.mpr ⟨s₁, c :: cs, hent, hfollow⟩, by omega⟩

theorem visit_preorder {P : σ → σ → Prop} (hrefl : ∀ s, P s s)
    (htrans : ∀ s₁ s₂ s₃, P s₁ s₂ → P s₂ s₃ → P s₁ s₃) (hedge : ∀ s c, P s (T.edge s c))
    (henter : ∀ s n s₁ cs, T.enter s n = some (s₁, cs) → P s s₁)
    (h : T.visit fuel n s = some s') : P s s' := by
  refine visit_rule (R := fun s _ s' => P s s') (L := fun s _ s' => P s s') hrefl ?_ ?_ h
  · intro s c s₁ cs s₂ hvisit hrest
    exact htrans _ _ _ (htrans _ _ _ (hedge s c) hvisit) hrest
  · intro s n s₁ cs s₂ hent hfollow
    exact htrans _ _ _ (henter s n s₁ cs hent) hfollow

/-! ## What a traversal explores -/

/-- `m` is found from `n` along `next`. -/
def Reach (next : ν → List ν) : ν → ν → Prop :=
  Relation.ReflTransGen fun a b => b ∈ next a

structure Explored (next : ν → List ν) (A A' : ν → Prop) (ns : List ν) : Prop where
  le : ∀ m, A m → A' m
  mem : ∀ n ∈ ns, A' n
  closed : ∀ m, A' m → A m ∨ ∀ c ∈ next m, A' c
  reach : ∀ m, A' m → A m ∨ ∃ n ∈ ns, Reach next n m

variable {next : ν → List ν} {A A' A'' : ν → Prop} {ns ms : List ν}

theorem Explored.nil : Explored next A A [] where
  le _ h := h
  mem _ h := absurd h List.not_mem_nil
  closed _ h := .inl h
  reach _ h := .inl h

theorem Explored.of_mem (h : A n) : Explored next A A [n] where
  le _ h := h
  mem _ hm := List.mem_singleton.mp hm ▸ h
  closed _ h := .inl h
  reach _ h := .inl h

theorem Explored.append (h : Explored next A A' ns) (h' : Explored next A' A'' ms) :
    Explored next A A'' (ns ++ ms) where
  le m hm := h'.le m (h.le m hm)
  mem n hn := by
    rcases List.mem_append.mp hn with hn | hn
    · exact h'.le n (h.mem n hn)
    · exact h'.mem n hn
  closed m hm := by
    rcases h'.closed m hm with hm | hm
    · rcases h.closed m hm with hm | hm
      · exact .inl hm
      · exact .inr fun c hc => h'.le c (hm c hc)
    · exact .inr hm
  reach m hm := by
    rcases h'.reach m hm with hm | ⟨n, hn, hreach⟩
    · rcases h.reach m hm with hm | ⟨n, hn, hreach⟩
      · exact .inl hm
      · exact .inr ⟨n, List.mem_append_left _ hn, hreach⟩
    · exact .inr ⟨n, List.mem_append_right _ hn, hreach⟩

theorem Explored.enter {cs : List ν} (henter : ∀ m, A' m ↔ A m ∨ m = n)
    (hnext : ∀ c ∈ next n, c ∈ cs) (hcs : ∀ c ∈ cs, c ∈ next n ∨ (A' c ∧ next c = []))
    (h : Explored next A' A'' cs) : Explored next A A'' [n] where
  le m hm := h.le m ((henter m).mpr (.inl hm))
  mem m hm := h.le m ((henter m).mpr (.inr (List.mem_singleton.mp hm)))
  closed m hm := by
    rcases h.closed m hm with hm | hm
    · rcases (henter m).mp hm with hm | rfl
      · exact .inl hm
      · exact .inr fun c hc => h.mem c (hnext c hc)
    · exact .inr hm
  reach m hm := by
    have hself : ∀ k, A' k → A k ∨ ∃ j ∈ [n], Reach next j k := by
      intro k hk
      rcases (henter k).mp hk with hk | rfl
      · exact .inl hk
      · exact .inr ⟨k, List.mem_singleton_self k, .refl⟩
    rcases h.reach m hm with hm | ⟨c, hc, hreach⟩
    · exact hself m hm
    · rcases hcs c hc with hc | ⟨hseen, hnone⟩
      · exact .inr ⟨n, List.mem_singleton_self n, .head hc hreach⟩
      · -- the path from such a child has no edges
        rcases hreach.cases_head with rfl | ⟨d, hd, -⟩
        · exact hself c hseen
        · rw [hnone] at hd
          cases hd

theorem Explored.of_reach (h : Explored next A A' ns) (hn : n ∈ ns) {m : ν}
    (hclosed : ∀ k, Reach next n k → A k → ∀ c ∈ next k, A' c) (hreach : Reach next n m) :
    A' m := by
  -- induction on the path
  induction hreach with
  | refl => exact h.mem n hn
  | tail hpath hedge ih =>
    rcases h.closed _ ih with hk | hk
    · exact hclosed _ hpath hk _ hedge
    · exact hk _ hedge

/-- **What a visit explores**, when entering a node either follows no children, or makes the node
a seen one and follows all of its children, and perhaps others that lead nowhere. -/
theorem explored_visit_of {V : σ → ν → Prop} {I : σ → Prop}
    (hedge : ∀ s c, V (T.edge s c) = V s) (hkeep : ∀ s c, I s → I (T.edge s c))
    (henter : ∀ s n s₁ cs, I s → T.enter s n = some (s₁, cs) → I s₁ ∧
      ((cs = [] ∧ Explored next (V s) (V s₁) [n]) ∨
        ((∀ m, V s₁ m ↔ V s m ∨ m = n) ∧ (∀ c ∈ next n, c ∈ cs) ∧
          ∀ c ∈ cs, c ∈ next n ∨ (V s₁ c ∧ next c = []))))
    (h : T.visit fuel n s = some s') (hs : I s) :
    I s' ∧ Explored next (V s) (V s') [n] := by
  refine visit_rule (R := fun s n s' => I s → I s' ∧ Explored next (V s) (V s') [n])
    (L := fun s cs s' => I s → I s' ∧ Explored next (V s) (V s') cs)
    (fun s hs => ⟨hs, .nil⟩) ?_ ?_ h hs
  · intro s c s₁ cs s₂ hvisit hrest hs
    obtain ⟨hs₁, hexp₁⟩ := hvisit (hkeep s c hs)
    obtain ⟨hs₂, hexp₂⟩ := hrest hs₁
    rw [hedge] at hexp₁
    exact ⟨hs₂, hexp₁.append hexp₂⟩
  · intro s n s₁ cs s₂ hent hfollow hs
    obtain ⟨hs₁, hcases⟩ := henter s n s₁ cs hs hent
    obtain ⟨hs₂, hexp₂⟩ := hfollow hs₁
    refine ⟨hs₂, ?_⟩
    rcases hcases with ⟨rfl, hexp⟩ | ⟨hmem, hnext, hcs⟩
    · exact hexp.append hexp₂
    · exact .enter hmem hnext hcs hexp₂

theorem explored_visit {V : σ → ν → Prop} (hedge : ∀ s c, V (T.edge s c) = V s)
    (henter : ∀ s n s₁ cs, T.enter s n = some (s₁, cs) →
      (cs = [] ∧ Explored next (V s) (V s₁) [n]) ∨
        ((∀ m, V s₁ m ↔ V s m ∨ m = n) ∧ (∀ c ∈ next n, c ∈ cs) ∧
          ∀ c ∈ cs, c ∈ next n ∨ (V s₁ c ∧ next c = [])))
    (h : T.visit fuel n s = some s') : Explored next (V s) (V s') [n] :=
  (explored_visit_of (I := fun _ => True) hedge (fun _ _ _ => trivial)
    (fun s n s₁ cs _ hent => ⟨trivial, henter s n s₁ cs hent⟩) h trivial).2

theorem exists_visit_of_seen [Fintype ν] [DecidableEq ν] {V : σ → ν → Prop}
    (hedge : ∀ s c, V (T.edge s c) = V s)
    (henter : ∀ s n, ∃ s₁ cs, T.enter s n = some (s₁, cs) ∧ (∀ m, V s m → V s₁ m) ∧
      (cs ≠ [] → ¬V s n ∧ V s₁ n))
    (hfuel : Fintype.card ν < fuel) (n : ν) (s : σ) : ∃ s', T.visit fuel n s = some s' := by
  classical
  let μ : σ → Nat := fun s => (Finset.univ.filter fun m => ¬V s m).card
  have hμ : μ s ≤ Fintype.card ν := Finset.card_le_univ _
  have hlower : ∀ s n, ∃ s₁ cs, T.enter s n = some (s₁, cs) ∧ μ s₁ ≤ μ s ∧
      (cs ≠ [] → μ s₁ < μ s) := by
    intro s n
    obtain ⟨s₁, cs, hent, hle, hnew⟩ := henter s n
    have hsub : (Finset.univ.filter fun m => ¬V s₁ m) ⊆
        Finset.univ.filter fun m => ¬V s m := by
      intro m hm
      rw [Finset.mem_filter] at hm ⊢
      exact ⟨hm.1, fun h => hm.2 (hle m h)⟩
    refine ⟨s₁, cs, hent, Finset.card_le_card hsub, fun hcs => ?_⟩
    obtain ⟨hns, hseen⟩ := hnew hcs
    apply Finset.card_lt_card
    refine Finset.ssubset_iff_subset_ne.mpr ⟨hsub, fun heq => ?_⟩
    have hmem : n ∈ Finset.univ.filter fun m => ¬V s m :=
      Finset.mem_filter.mpr ⟨Finset.mem_univ n, hns⟩
    rw [← heq] at hmem
    exact (Finset.mem_filter.mp hmem).2 hseen
  have hkeep : ∀ s c, μ (T.edge s c) ≤ μ s := fun s c => by simp only [μ, hedge, Nat.le_refl]
  obtain ⟨s', h, -⟩ := exists_visit hkeep hlower (hμ.trans_lt hfuel) n
  exact ⟨s', h⟩

end Traversal

/-! ## Loops over a list -/

namespace List

variable {σ ν : Type*} {f : σ → ν → Option σ}

theorem foldlM_cons_eq_some {n : ν} {ns : List ν} {s s' : σ} :
    (n :: ns).foldlM f s = some s' ↔ ∃ s₁, f s n = some s₁ ∧ ns.foldlM f s₁ = some s' := by
  rw [foldlM_cons]
  exact Option.bind_eq_some_iff

theorem exists_foldlM (hf : ∀ s n, ∃ s', f s n = some s') (ns : List ν) (s : σ) :
    ∃ s', ns.foldlM f s = some s' := by
  induction ns generalizing s with
  | nil => exact ⟨s, rfl⟩
  | cons n ns ih =>
    obtain ⟨s₁, hs₁⟩ := hf s n
    obtain ⟨s₂, hs₂⟩ := ih s₁
    exact ⟨s₂, foldlM_cons_eq_some.mpr ⟨s₁, hs₁, hs₂⟩⟩

theorem foldlM_invariant {I : σ → Prop} {ns : List ν}
    (hstep : ∀ s n s', n ∈ ns → I s → f s n = some s' → I s') {s s' : σ}
    (h : ns.foldlM f s = some s') (hs : I s) : I s' := by
  induction ns generalizing s with
  | nil =>
    obtain rfl := Option.some.inj h
    exact hs
  | cons n ns ih =>
    obtain ⟨s₁, hf, hrest⟩ := foldlM_cons_eq_some.mp h
    exact ih (fun s m s' hm => hstep s m s' (mem_cons_of_mem n hm)) hrest
      (hstep s n s₁ mem_cons_self hs hf)

theorem explored_foldlM {next : ν → List ν} {V : σ → ν → Prop} {I : σ → Prop} {ns : List ν}
    (hstep : ∀ s n s', n ∈ ns → I s → f s n = some s' →
      I s' ∧ Traversal.Explored next (V s) (V s') [n]) {s s' : σ}
    (h : ns.foldlM f s = some s') (hs : I s) :
    I s' ∧ Traversal.Explored next (V s) (V s') ns := by
  induction ns generalizing s with
  | nil =>
    obtain rfl := Option.some.inj h
    exact ⟨hs, .nil⟩
  | cons n ns ih =>
    obtain ⟨s₁, hf, hrest⟩ := foldlM_cons_eq_some.mp h
    obtain ⟨hs₁, hexp⟩ := hstep s n s₁ mem_cons_self hs hf
    obtain ⟨hs₂, hexp'⟩ := ih (fun s m s' hm => hstep s m s' (mem_cons_of_mem n hm)) hrest hs₁
    exact ⟨hs₂, hexp.append hexp'⟩

end List
