import Mathlib.Data.List.Nodup
import Mathlib.Logic.Function.Basic

/-!
# Doubly linked lists threaded through a pointer memory

`Links α` is the part of a memory that holds the `next` and `prev` fields of cells with
addresses in `α`; a null pointer is `none`.

* `Seg L before xs after`: the cells `xs` are linked one after the other in both
  directions, the first one's `prev` is `before` and the last one's `next` is `after`.
* `seg_append` is the seam: a segment splits at any point.
* `Seg.frame` and `IsDll.frame`: a list reads only the fields of its own cells.
* **The edits**: `IsDll.pushFront`, `IsDll.popFront`, `IsDll.pushBack` and `IsDll.bypass`
  link a cell in at the front, drop the first one, link one in at the back, and unlink one
  from anywhere. Each asks of the new memory only what it must read back, so one lemma
  serves every order of stores. `IsDll.unlink` is `IsDll.bypass` for code that reads the
  neighbours from the fields of the cell.
* `All.onChain`: where every pointer satisfies a condition, so do the cells of a chain.
* `IsDll.onChain_iff`: following `next` from the head meets exactly the cells of the list.
-/

/-- The `next` and `prev` fields of the cells of a memory. -/
structure Links (α : Type*) where
  next : α → Option α
  prev : α → Option α

namespace Links

open List Option

variable {α : Type*}

/-! ## Stores -/

section Stores

variable [DecidableEq α]

def setNext (L : Links α) (x : α) (v : Option α) : Links α :=
  { L with next := Function.update L.next x v }

def setPrev (L : Links α) (x : α) (v : Option α) : Links α :=
  { L with prev := Function.update L.prev x v }

@[simp] theorem setNext_prev (L : Links α) (x : α) (v : Option α) :
    (L.setNext x v).prev = L.prev := rfl

@[simp] theorem setPrev_next (L : Links α) (x : α) (v : Option α) :
    (L.setPrev x v).next = L.next := rfl

@[simp] theorem setNext_next_self (L : Links α) (x : α) (v : Option α) :
    (L.setNext x v).next x = v := Function.update_self ..

@[simp] theorem setPrev_prev_self (L : Links α) (x : α) (v : Option α) :
    (L.setPrev x v).prev x = v := Function.update_self ..

theorem setNext_next_ne (L : Links α) {x y : α} (v : Option α) (h : y ≠ x) :
    (L.setNext x v).next y = L.next y := Function.update_of_ne h ..

theorem setPrev_prev_ne (L : Links α) {x y : α} (v : Option α) (h : y ≠ x) :
    (L.setPrev x v).prev y = L.prev y := Function.update_of_ne h ..

theorem setNext_next (L : Links α) (x y : α) (v : Option α) :
    (L.setNext x v).next y = if y = x then v else L.next y := Function.update_apply ..

theorem setPrev_prev (L : Links α) (x y : α) (v : Option α) :
    (L.setPrev x v).prev y = if y = x then v else L.prev y := Function.update_apply ..

end Stores

/-! ## Segments -/

/-- The cells `xs` form a list segment between `before` and `after`. -/
def Seg (L : Links α) : Option α → List α → Option α → Prop
  | _, [], _ => True
  | before, x :: xs, after =>
      L.prev x = before ∧ L.next x = xs.head?.or after ∧ Seg L (some x) xs after

section Seam

variable {L L' : Links α} {before after : Option α} {xs ys : List α} {x : α}

@[simp] theorem seg_nil : Seg L before [] after := trivial

theorem seg_cons : Seg L before (x :: xs) after ↔
    L.prev x = before ∧ L.next x = xs.head?.or after ∧ Seg L (some x) xs after := Iff.rfl

theorem seg_append : Seg L before (xs ++ ys) after ↔
    Seg L before xs (ys.head?.or after) ∧ Seg L (xs.getLast?.or before) ys after := by
  -- induction on the front
  induction xs generalizing before with
  | nil => simp
  | cons x xs ih =>
    rw [cons_append, seg_cons, seg_cons, ih, List.head?_append, Option.or_assoc]
    have hlast : (x :: xs).getLast?.or before = xs.getLast?.or (some x) := by
      cases xs <;> simp [getLast?_cons]
    rw [hlast]
    tauto

theorem seg_concat : Seg L before (xs ++ [x]) after ↔
    Seg L before xs (some x) ∧ L.prev x = xs.getLast?.or before ∧ L.next x = after := by
  rw [seg_append]
  simp [seg_cons]

theorem Seg.frame (h : Seg L before xs after)
    (hnext : ∀ x ∈ xs, L'.next x = L.next x) (hprev : ∀ x ∈ xs, L'.prev x = L.prev x) :
    Seg L' before xs after := by
  induction xs generalizing before with
  | nil => trivial
  | cons x xs ih =>
    obtain ⟨hp, hn, hrest⟩ := h
    refine ⟨(hprev x (by simp)).trans hp, (hnext x (by simp)).trans hn, ?_⟩
    exact ih hrest (fun y hy => hnext y (mem_cons_of_mem x hy))
      (fun y hy => hprev y (mem_cons_of_mem x hy))

end Seam

/-! ## A whole list and its head pointer -/

/-- The chain from `head` is the doubly linked list `xs`: no cell twice, the first `prev` and
the last `next` null, neighbours linked both ways. -/
structure IsDll (L : Links α) (head : Option α) (xs : List α) : Prop where
  nodup : xs.Nodup
  head_eq : head = xs.head?
  seg : Seg L none xs none

section Edits

variable {L L' : Links α} {head : Option α} {xs as bs : List α} {x : α}

theorem isDll_nil_iff : IsDll L head [] ↔ head = none :=
  ⟨IsDll.head_eq, fun h => ⟨nodup_nil, h, trivial⟩⟩

theorem IsDll.frame (h : IsDll L head xs)
    (hnext : ∀ x ∈ xs, L'.next x = L.next x) (hprev : ∀ x ∈ xs, L'.prev x = L.prev x) :
    IsDll L' head xs :=
  ⟨h.nodup, h.head_eq, h.seg.frame hnext hprev⟩

theorem IsDll.links_at (h : IsDll L head (as ++ x :: bs)) :
    L.prev x = as.getLast? ∧ L.next x = bs.head? := by
  obtain ⟨-, hprev, hnext, -⟩ := seg_append.mp h.seg
  rw [or_none] at hprev hnext
  exact ⟨hprev, hnext⟩

theorem IsDll.next_iff_prev (h : IsDll L head xs) {a b : α} (ha : a ∈ xs) (hb : b ∈ xs) :
    L.next a = some b ↔ L.prev b = some a := by
  obtain ⟨as, as', rfl⟩ := append_of_mem ha
  have hnd := h.nodup
  obtain ⟨-, hafter⟩ := seg_append.mp h.seg
  obtain ⟨-, hnext, hrest⟩ := hafter
  constructor
  · intro hab
    cases as' with
    | nil => simp [hnext] at hab
    | cons c cs =>
      obtain rfl : c = b := by simpa [hnext] using hab
      exact hrest.1
  · intro hba
    -- split the list at `b`: its `prev` is the cell before it, which can only be `a`
    obtain ⟨bs, bs', heq⟩ := append_of_mem hb
    have hsegb := h.seg
    rw [heq] at hsegb hnd
    obtain ⟨hfront, hprev, -⟩ := seg_append.mp hsegb
    rw [hba] at hprev
    rcases eq_nil_or_concat bs with rfl | ⟨cs, c, rfl⟩
    · simp at hprev
    · obtain rfl : a = c := by simpa using hprev
      simpa using (seg_concat.mp (by simpa using hfront)).2.2

theorem IsDll.pushFront (h : IsDll L head xs) (hx : x ∉ xs) (hprev : L'.prev x = none)
    (hnext : L'.next x = head) (hhead : ∀ y ∈ head, L'.prev y = some x)
    (hn : ∀ y ∈ xs, L'.next y = L.next y)
    (hp : ∀ y ∈ xs, head ≠ some y → L'.prev y = L.prev y) : IsDll L' (some x) (x :: xs) := by
  refine ⟨nodup_cons.mpr ⟨hx, h.nodup⟩, rfl, hprev, ?_, ?_⟩
  · rw [hnext, h.head_eq, or_none]
  · cases xs with
    | nil => trivial
    | cons y ys =>
      have hnd := nodup_cons.mp h.nodup
      obtain ⟨-, hy, hys⟩ := h.seg
      refine ⟨hhead y h.head_eq, (hn y (by simp)).trans hy, ?_⟩
      refine hys.frame (fun z hz => hn z (mem_cons_of_mem y hz)) fun z hz => ?_
      refine hp z (mem_cons_of_mem y hz) fun e => hnd.1 ?_
      rw [h.head_eq] at e
      simp only [List.head?_cons, some.injEq] at e
      exact e ▸ hz

theorem IsDll.popFront (h : IsDll L head (x :: xs)) (hhead : ∀ y ∈ xs.head?, L'.prev y = none)
    (hn : ∀ y ∈ xs, L'.next y = L.next y)
    (hp : ∀ y ∈ xs, xs.head? ≠ some y → L'.prev y = L.prev y) : IsDll L' xs.head? xs := by
  obtain ⟨-, hnd⟩ := nodup_cons.mp h.nodup
  refine ⟨hnd, rfl, ?_⟩
  obtain ⟨-, -, hrest⟩ := h.seg
  cases xs with
  | nil => trivial
  | cons y ys =>
    obtain ⟨-, hy, hys⟩ := hrest
    refine ⟨hhead y rfl, (hn y (by simp)).trans hy, ?_⟩
    refine hys.frame (fun z hz => hn z (mem_cons_of_mem y hz)) fun z hz => ?_
    refine hp z (mem_cons_of_mem y hz) fun e => (nodup_cons.mp hnd).1 ?_
    simp only [List.head?_cons, some.injEq] at e
    exact e ▸ hz

theorem IsDll.pushBack (h : IsDll L head xs) (hx : x ∉ xs) (hnext : L'.next x = none)
    (hprev : L'.prev x = xs.getLast?) (hlast : ∀ e ∈ xs.getLast?, L'.next e = some x)
    (hp : ∀ y ∈ xs, L'.prev y = L.prev y)
    (hn : ∀ y ∈ xs, xs.getLast? ≠ some y → L'.next y = L.next y) :
    IsDll L' (head.or (some x)) (xs ++ [x]) := by
  refine ⟨?_, ?_, ?_⟩
  · rw [nodup_append]
    refine ⟨h.nodup, by simp, ?_⟩
    rintro a ha b hb rfl
    simp only [mem_singleton] at hb
    exact hx (hb ▸ ha)
  · rw [h.head_eq, List.head?_append]
    rfl
  · rw [seg_concat]
    refine ⟨?_, by rw [hprev, or_none], hnext⟩
    rcases eq_nil_or_concat xs with rfl | ⟨ys, e, rfl⟩
    · trivial
    · rw [concat_eq_append] at *
      have hnd : e ∉ ys := by
        have := h.nodup
        rw [nodup_append] at this
        intro he
        exact this.2.2 e he e (by simp) rfl
      obtain ⟨hys, hpe, -⟩ := seg_concat.mp h.seg
      refine seg_concat.mpr ⟨?_, (hp e (by simp)).trans hpe, hlast e (by simp)⟩
      refine hys.frame (fun y hy => hn y (by simp [hy]) fun heq => hnd ?_)
        fun y hy => hp y (by simp [hy])
      simp only [getLast?_append, getLast?_singleton, some_or,
        some.injEq] at heq
      exact heq ▸ hy

theorem IsDll.bypass (h : IsDll L head (as ++ x :: bs))
    (hleft : ∀ p ∈ as.getLast?, L'.next p = bs.head?)
    (hright : ∀ n ∈ bs.head?, L'.prev n = as.getLast?)
    (hn : ∀ y ∈ as ++ bs, as.getLast? ≠ some y → L'.next y = L.next y)
    (hp : ∀ y ∈ as ++ bs, bs.head? ≠ some y → L'.prev y = L.prev y) :
    IsDll L' (as ++ bs).head? (as ++ bs) := by
  have hnd : (as ++ bs).Nodup :=
    h.nodup.sublist ((Sublist.refl as).append (sublist_cons_self x bs))
  obtain ⟨hndas, hndbs, hdisj⟩ := nodup_append.mp hnd
  obtain ⟨has, -, -, hbs⟩ := seg_append.mp h.seg
  refine ⟨hnd, rfl, seg_append.mpr ⟨?_, ?_⟩⟩
  · rcases eq_nil_or_concat as with rfl | ⟨cs, p, rfl⟩
    · trivial
    · rw [concat_eq_append] at *
      have hpcs : p ∉ cs := fun hm =>
        (nodup_append.mp hndas).2.2 p hm p (by simp) rfl
      obtain ⟨hcs, hpp, -⟩ := seg_concat.mp has
      have hpbs : bs.head? ≠ some p := fun e =>
        hdisj p (by simp) p (mem_of_head? e) rfl
      refine seg_concat.mpr ⟨?_, (hp p (by simp) hpbs).trans hpp, ?_⟩
      · refine hcs.frame (fun y hy => hn y (by simp [hy]) fun heq => hpcs ?_)
          fun y hy => hp y (by simp [hy]) fun e => ?_
        · simp only [getLast?_append, getLast?_singleton, some_or,
            some.injEq] at heq
          exact heq ▸ hy
        · exact hdisj y (by simp [hy]) y (mem_of_head? e) rfl
      · rw [hleft p (by simp), or_none]
  · cases bs with
    | nil => trivial
    | cons n ns =>
      obtain ⟨hnns, -⟩ := nodup_cons.mp hndbs
      obtain ⟨-, hnn, hns⟩ := hbs
      have hlast : ∀ y ∈ n :: ns, as.getLast? ≠ some y := fun y hy e =>
        hdisj y (mem_of_getLast? e) y hy rfl
      refine ⟨by rw [hright n rfl, or_none],
        (hn n (by simp) (hlast n (by simp))).trans hnn, ?_⟩
      refine hns.frame (fun y hy => hn y (by simp [hy]) (hlast y (mem_cons_of_mem n hy)))
        fun y hy => hp y (by simp [hy]) fun e => hnns ?_
      simp only [List.head?_cons, some.injEq] at e
      exact e ▸ hy

theorem IsDll.unlink [DecidableEq α] (h : IsDll L head (as ++ x :: bs)) {head' : Option α}
    (hhead : head' = if L.prev x = none then L.next x else head)
    (hnext : ∀ y ∈ as ++ bs, L'.next y = if L.prev x = some y then L.next x else L.next y)
    (hprev : ∀ y ∈ as ++ bs, L'.prev y = if L.next x = some y then L.prev x else L.prev y) :
    IsDll L' head' (as ++ bs) := by
  obtain ⟨hx, hx'⟩ := h.links_at
  rw [hx, hx'] at hhead hnext hprev
  have hfirst : head' = (as ++ bs).head? := by
    rw [hhead, h.head_eq]
    cases as with
    | nil => rfl
    | cons a as =>
      rw [if_neg (by simp)]
      rfl
  rw [hfirst]
  apply h.bypass
  · intro p hp
    rw [hnext p (mem_append_left _ (mem_of_getLast? hp))]
    exact if_pos hp
  · intro n hn
    rw [hprev n (mem_append_right _ (mem_of_head? hn))]
    exact if_pos hn
  · intro y hy hne
    rw [hnext y hy, if_neg hne]
  · intro y hy hne
    rw [hprev y hy, if_neg hne]

end Edits

/-! ## Following the chain -/

section Walk

def walk (L : Links α) : Nat → Option α → Option α
  | 0, start => start
  | n + 1, start => start.bind fun x => L.walk n (L.next x)

/-- The cell `c` lies on the chain from `start`. -/
def OnChain (L : Links α) (start : Option α) (c : α) : Prop :=
  ∃ n, L.walk n start = some c

theorem not_onChain_none (L : Links α) (c : α) : ¬L.OnChain none c := by
  rintro ⟨n, hn⟩
  cases n with
  | zero => simp [walk] at hn
  | succ n => simp [walk] at hn

theorem onChain_some {L : Links α} {x c : α} :
    L.OnChain (some x) c ↔ c = x ∨ L.OnChain (L.next x) c := by
  constructor
  · rintro ⟨n, hn⟩
    cases n with
    | zero => exact Or.inl (by simpa [walk] using hn.symm)
    | succ n => exact Or.inr ⟨n, by simpa [walk] using hn⟩
  · rintro (rfl | ⟨n, hn⟩)
    · exact ⟨0, rfl⟩
    · exact ⟨n + 1, by simpa [walk] using hn⟩

theorem Seg.onChain_iff {L : Links α} {before : Option α} {xs : List α}
    (h : Seg L before xs none) {c : α} : L.OnChain xs.head? c ↔ c ∈ xs := by
  induction xs generalizing before with
  | nil => simpa using L.not_onChain_none c
  | cons x xs ih =>
    obtain ⟨-, hnext, hrest⟩ := h
    rw [or_none] at hnext
    rw [List.head?_cons, onChain_some, hnext, ih hrest, mem_cons]

theorem IsDll.onChain_iff {L : Links α} {head : Option α} {xs : List α} (h : IsDll L head xs)
    {c : α} : L.OnChain head c ↔ c ∈ xs := by
  rw [h.head_eq]
  exact h.seg.onChain_iff

end Walk

/-! ## A condition on all pointers -/

section All

variable {p : α → Prop} {L : Links α} {x : α} {v : Option α}

/-- Every pointer in the fields satisfies `p`. -/
structure All (p : α → Prop) (L : Links α) : Prop where
  next : ∀ x, ∀ y ∈ L.next x, p y
  prev : ∀ x, ∀ y ∈ L.prev x, p y

theorem All.setNext [DecidableEq α] (h : L.All p) (hv : ∀ y ∈ v, p y) : (L.setNext x v).All p where
  next y z hz := by
    by_cases hy : y = x
    · rw [hy, setNext_next_self] at hz
      exact hv z hz
    · rw [setNext_next_ne L v hy] at hz
      exact h.next y z hz
  prev := h.prev

theorem All.setPrev [DecidableEq α] (h : L.All p) (hv : ∀ y ∈ v, p y) : (L.setPrev x v).All p where
  next := h.next
  prev y z hz := by
    by_cases hy : y = x
    · rw [hy, setPrev_prev_self] at hz
      exact hv z hz
    · rw [setPrev_prev_ne L v hy] at hz
      exact h.prev y z hz

theorem All.onChain (h : L.All p) {head : Option α} (hhead : ∀ y ∈ head, p y) {c : α}
    (hc : L.OnChain head c) : p c := by
  obtain ⟨n, hn⟩ := hc
  -- induction on the length of the way
  induction n generalizing head with
  | zero => exact hhead c hn
  | succ n ih =>
    cases head with
    | none => cases hn
    | some x => exact ih (h.next x) hn

end All

end Links
