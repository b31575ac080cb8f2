import Mathlib.Logic.Relation
import Phpce.Lib.Buffer

/-!
# Decoding a text in its own memory

Two cursors walk over one memory: `data` reads, `dest` writes what has been decoded.

* `reaches_inv`: the writing cursor stays behind the reading one, and reading stays inside the text.
* `run_flatMap`: a text that was encoded cell by cell is decoded to what was encoded, where the
  decoder undoes the code of one cell.
* `run_eq`: a text is overwritten with what a decoder makes of it.
-/

open Buffer List

/-- `len` is the number of cells still to be read. -/
structure InPlace (α : Type*) where
  mem : Nat → α
  data : Nat
  dest : Nat
  len : Nat

namespace InPlace

variable {α : Type*}

/-- What one round stores, and how many cells it reads beyond the one at the cursor. It is given the
memory, the cursor, and the number of cells behind it. -/
abbrev Decoder (α : Type*) := (Nat → α) → Nat → Nat → α × Nat

def start (mem : Nat → α) (len : Nat) : InPlace α := ⟨mem, 0, 0, len⟩

def step (decode : Decoder α) (d : InPlace α) : InPlace α :=
  let cell := decode d.mem d.data (d.len - 1)
  { mem := store d.mem d.dest [cell.1]
    data := d.data + cell.2 + 1
    dest := d.dest + 1
    len := d.len - 1 - cell.2 }

def run (decode : Decoder α) (d : InPlace α) : InPlace α :=
  if d.len = 0 then d
  else run decode (d.step decode)
  termination_by d.len
  decreasing_by
    simp only [step]
    omega

def Reaches (decode : Decoder α) : InPlace α → InPlace α → Prop :=
  Relation.ReflTransGen fun d d' => d.len ≠ 0 ∧ d' = d.step decode

variable {decode : Decoder α} {d d' : InPlace α}

theorem run_of_len_eq_zero (h : d.len = 0) : d.run decode = d := by
  rw [run, if_pos h]

theorem run_of_len_ne_zero (h : d.len ≠ 0) : d.run decode = (d.step decode).run decode := by
  rw [run, if_neg h]

theorem reaches_run (decode : Decoder α) (d : InPlace α) : Reaches decode d (d.run decode) := by
  -- induction on the rounds
  fun_induction run decode d with
  | case1 => exact .refl
  | case2 d hlen ih => exact .head ⟨hlen, rfl⟩ ih

theorem len_run (decode : Decoder α) (d : InPlace α) : (d.run decode).len = 0 := by
  fun_induction run decode d with
  | case1 d hlen => exact hlen
  | case2 d hlen ih => exact ih

/-- The decoder reads nothing behind the end of the text. -/
def Inside (decode : Decoder α) : Prop := ∀ mem data len, (decode mem data len).2 ≤ len

/-- **The cursors.** Nothing is written behind the cell that is being read, and the text ends where
it ended at the start. -/
theorem reaches_inv (hinside : Inside decode) (h : Reaches decode d d') (hle : d.dest ≤ d.data) :
    d'.dest ≤ d'.data ∧ d'.data + d'.len = d.data + d.len := by
  induction h with
  | refl => exact ⟨hle, rfl⟩
  | @tail e f _ hstep ih =>
    obtain ⟨hlen, rfl⟩ := hstep
    obtain ⟨hdest, hend⟩ := ih
    have hskip := hinside e.mem e.data (e.len - 1)
    constructor
    · show e.dest + 1 ≤ e.data + (decode e.mem e.data (e.len - 1)).2 + 1
      omega
    · show e.data + (decode e.mem e.data (e.len - 1)).2 + 1
          + (e.len - 1 - (decode e.mem e.data (e.len - 1)).2) = d.data + d.len
      omega

variable {encode : α → List α}

/-- Where the code of a cell stands at the cursor, the decoder reads it and gives the cell. -/
structure Undoes (decode : Decoder α) (encode : α → List α) : Prop where
  nonempty : ∀ c, encode c ≠ []
  decode_eq : ∀ c mem data len, slice mem data (encode c).length = encode c →
    (encode c).length ≤ len + 1 → decode mem data len = (c, (encode c).length - 1)

theorem run_flatMap (hundoes : Undoes decode encode) (s : List α) (hle : d.dest ≤ d.data)
    (htext : slice d.mem d.data d.len = s.flatMap encode) :
    slice (d.run decode).mem 0 (d.run decode).dest = slice d.mem 0 d.dest ++ s := by
  -- induction on the cells that are still to be decoded
  induction s generalizing d with
  | nil =>
    have hlen : d.len = 0 := by
      rw [← @length_slice _ d.mem d.data d.len, htext]
      rfl
    rw [run_of_len_eq_zero hlen, append_nil]
  | cons c s ih =>
    have hpos : 0 < (encode c).length := length_pos_iff.mpr (hundoes.nonempty c)
    have hlen : d.len = (encode c).length + (s.flatMap encode).length := by
      rw [← @length_slice _ d.mem d.data d.len, htext, flatMap_cons,
        length_append]
    rw [flatMap_cons, hlen, slice_add] at htext
    obtain ⟨hcode, hrest⟩ := List.append_inj htext length_slice
    have hdecode := hundoes.decode_eq c d.mem d.data (d.len - 1) hcode (by omega)
    -- the round stores `c`, at or before the cell it read
    have hstep : d.step decode =
        ⟨store d.mem d.dest [c], d.data + (encode c).length, d.dest + 1,
          (s.flatMap encode).length⟩ := by
      rw [step, hdecode]
      congr 1 <;> simp only [] <;> omega
    rw [run_of_len_ne_zero (by omega), hstep, ih]
    · rw [show slice (store d.mem d.dest [c]) 0 (d.dest + 1) = slice d.mem 0 d.dest ++ [c] from by
        simpa using slice_store_append d.mem 0 d.dest [c]]
      rw [append_assoc, singleton_append]
    · show d.dest + 1 ≤ d.data + (encode c).length
      omega
    · have hbehind : d.dest + [c].length ≤ d.data + (encode c).length := by
        rw [length_singleton]
        omega
      exact (slice_store_after hbehind).trans hrest

/-- What a decoder reads depends on the text alone, and `text` is what it makes of it. -/
structure Reads (decode : Decoder α) (text : List α → List α) : Prop where
  nil : text [] = []
  cons : ∀ mem data c s, slice mem data (s.length + 1) = c :: s →
    text (c :: s) =
      (decode mem data s.length).1 :: text (s.drop (decode mem data s.length).2)

theorem run_eq {text : List α → List α} (hreads : Reads decode text) (s : List α)
    (hle : d.dest ≤ d.data) (htext : slice d.mem d.data d.len = s) :
    (d.run decode).mem = store d.mem d.dest (text s) ∧
      (d.run decode).dest = d.dest + (text s).length := by
  fun_induction run decode d generalizing s with
  | case1 d hlen =>
    rw [hlen, slice_zero] at htext
    rw [← htext, hreads.nil, store_nil]
    exact ⟨rfl, rfl⟩
  | case2 d hlen ih =>
    obtain ⟨n, hn⟩ := Nat.exists_eq_succ_of_ne_zero hlen
    rw [hn, slice_succ] at htext
    obtain ⟨t, ht⟩ : ∃ t, slice d.mem (d.data + 1) n = t := ⟨_, rfl⟩
    have hlength : t.length = n := by rw [← ht, length_slice]
    rw [ht] at htext
    subst htext hlength
    have hcons := hreads.cons d.mem d.data (d.mem d.data) t (by rw [slice_succ, ht])
    obtain ⟨cell, hcell⟩ : ∃ cell, decode d.mem d.data t.length = cell := ⟨_, rfl⟩
    have hstep : d.step decode =
        ⟨store d.mem d.dest [cell.1], d.data + cell.2 + 1, d.dest + 1, t.length - cell.2⟩ := by
      rw [step, hn, Nat.succ_sub_one, hcell]
    rw [hstep] at ih ⊢
    -- the rest of the text is not touched by the cell that is stored
    have hrest : slice (store d.mem d.dest [cell.1]) (d.data + cell.2 + 1) (t.length - cell.2) =
        t.drop cell.2 := by
      have hbehind : d.dest + [cell.1].length ≤ d.data + cell.2 + 1 := by
        rw [length_singleton]
        omega
      have hdrop := drop_slice d.mem (d.data + 1) t.length cell.2
      rw [slice_store_after hbehind, Nat.add_right_comm, ← hdrop, ht]
    have hle' : d.dest + 1 ≤ d.data + cell.2 + 1 := by omega
    obtain ⟨hmem, hdest⟩ := ih (t.drop cell.2) hle' hrest
    rw [hmem, hdest, hcons, hcell, length_cons]
    refine ⟨(store_append d.mem d.dest [cell.1] (text (t.drop cell.2))).symm, ?_⟩
    dsimp only
    omega

end InPlace
