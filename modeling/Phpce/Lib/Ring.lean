import Mathlib.Data.List.Basic

/-!
# A ring buffer of the latest values

`queue ring pos` is what a ring buffer holds whose next place is `pos`, the oldest value first.

* `queue_set`: a value that is put into the next place takes the place of the oldest one.
* `Latest ring pos zero values`: the buffer holds the latest of `values`, which come with the latest
  one first, and `zero` where there have not been enough of them; `Latest.set` is its step.
* `forall_take_iff_le_length_filter`: where a property holds of the values up to some age, the first
  `n` have it as soon as any `n` of them have.
-/

namespace Ring

open List

variable {α : Type*} {ring values : List α} {pos : Nat} {a zero : α}

def queue (ring : List α) (pos : Nat) : List α := ring.drop pos ++ ring.take pos

/-- The place after `pos`. -/
def next (ring : List α) (pos : Nat) : Nat := if pos + 1 = ring.length then 0 else pos + 1

theorem next_lt (h : pos < ring.length) : next ring pos < ring.length := by
  unfold next
  split <;> omega

theorem queue_set (h : pos < ring.length) (a : α) :
    queue (ring.set pos a) (next ring pos) = (queue ring pos).tail ++ [a] := by
  have hfront : (ring.set pos a).take pos = ring.take pos := take_set_of_le (Nat.le_refl pos)
  have hback : (ring.set pos a).drop (pos + 1) = ring.drop (pos + 1) :=
    drop_set_of_lt (Nat.lt_succ_self pos)
  have hat : (ring.set pos a).take (pos + 1) = ring.take pos ++ [a] := by
    rw [take_succ_eq_append_getElem (by rwa [length_set]), hfront,
      getElem_set_self]
  have hqueue : (queue ring pos).tail = ring.drop (pos + 1) ++ ring.take pos := by
    rw [queue, drop_eq_getElem_cons h, cons_append, tail_cons]
  rw [hqueue]
  unfold next
  split
  · rename_i hlast
    have hall : (ring.set pos a).take (pos + 1) = ring.set pos a :=
      take_of_length_le (by rw [length_set]; omega)
    rw [queue, drop_zero, take_zero, append_nil, drop_of_length_le (by omega),
      nil_append, ← hat, hall]
  · rw [queue, hback, hat, append_assoc]

/-- The buffer holds the latest of `values`, the latest one first. -/
structure Latest (ring : List α) (pos : Nat) (zero : α) (values : List α) : Prop where
  pos_lt : pos < ring.length
  queue_eq : (queue ring pos).reverse =
    (values ++ List.replicate ring.length zero).take ring.length

theorem latest_replicate {n : Nat} (h : 0 < n) (zero : α) :
    Latest (List.replicate n zero) 0 zero [] where
  pos_lt := by rwa [length_replicate]
  queue_eq := by
    rw [queue, drop_zero, take_zero, append_nil, reverse_replicate,
      nil_append, length_replicate, take_replicate, Nat.min_self]

theorem Latest.set (h : Latest ring pos zero values) (a : α) :
    Latest (ring.set pos a) (next ring pos) zero (a :: values) := by
  have hlen : (ring.set pos a).length = ring.length := length_set
  refine ⟨by rw [hlen]; exact next_lt h.pos_lt, ?_⟩
  have hdrop : (queue ring pos).tail.reverse =
      ((values ++ List.replicate ring.length zero).take ring.length).dropLast := by
    rw [← h.queue_eq, dropLast_reverse]
  obtain ⟨n, hn⟩ := Nat.exists_eq_add_of_lt h.pos_lt
  rw [queue_set h.pos_lt, reverse_append, hdrop, hlen, hn, reverse_singleton,
    singleton_append, cons_append, take_succ_cons, dropLast_eq_take,
    take_take, length_take]
  congr 2
  rw [length_append, length_replicate]
  omega

theorem Latest.forall_iff (h : Latest ring pos zero values) {p : α → Prop} :
    (∀ a ∈ ring, p a) ↔
      ∀ a ∈ (values ++ List.replicate ring.length zero).take ring.length, p a := by
  rw [← h.queue_eq]
  have hmem : ∀ a, a ∈ (queue ring pos).reverse ↔ a ∈ ring := by
    intro a
    rw [mem_reverse, queue, mem_append, or_comm, ← mem_append,
      take_append_drop]
  simp only [hmem]

/-! ## Counting -/

theorem forall_take_iff_le_length_filter {p : α → Bool} {n : Nat}
    (hp : values.Pairwise fun a b => p b = true → p a = true) (hn : n ≤ values.length) :
    (∀ a ∈ values.take n, p a = true) ↔ n ≤ (values.filter p).length := by
  -- induction on the values
  induction values generalizing n with
  | nil =>
    obtain rfl : n = 0 := Nat.le_zero.mp hn
    simp
  | cons a values ih =>
    obtain ⟨ha, hrest⟩ := pairwise_cons.mp hp
    cases n with
    | zero => simp
    | succ n =>
      rw [take_succ_cons, forall_mem_cons]
      cases hpa : p a with
      | true =>
        rw [filter_cons_of_pos hpa, length_cons, Nat.succ_le_succ_iff,
          ← ih hrest (Nat.le_of_succ_le_succ hn)]
        exact and_iff_right rfl
      | false =>
        have hnone : values.filter p = [] := by
          rw [filter_eq_nil_iff]
          intro b hb hpb
          rw [ha b hb hpb] at hpa
          cases hpa
        rw [filter_cons_of_neg (by rw [hpa]; exact Bool.false_ne_true), hnone]
        constructor
        · rintro ⟨hfalse, _⟩
          cases hfalse
        · intro hle
          cases hle

end Ring
