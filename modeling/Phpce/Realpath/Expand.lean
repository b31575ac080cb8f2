import Mathlib.Data.List.Flatten
import Phpce.Lib.Buffer
import Phpce.Lib.Bytes
import Phpce.Lib.Lexical
import Phpce.Realpath.Basic

/-!
# Expanding a path in place

`virtual_file_ex` and `tsrm_realpath_r` with `CWD_EXPAND`, on the buffer that the recursive calls
share, for absolute and relative paths. `CWD_EXPAND` asks neither the cache nor the file system, and
`is_dir`, `ll`, `t` and `link_is_dir` are not read.

* `tsrmRealpathR_spec`: a call leaves the normal form of its part of the buffer, and all behind it
  as it was.
* **`virtualFileEx_expand`**: the path is expanded to its lexical normal form, in which expanding
  again changes nothing.
-/

namespace Phpce.Realpath.Expand

open Buffer Lexical List Option

abbrev Memory := Nat → UInt8

/-- `i`: from `len` back to the place behind a slash. -/
def nameStart (path : Memory) (start : Nat) : (i : Nat) → Nat
  | 0 => 0
  | i + 1 => if start < i + 1 ∧ path i ≠ slash then nameStart path start i else i + 1

/-- `j`: back to a slash, or to `start`. -/
def backToSlash (path : Memory) (start : Nat) : (j : Nat) → Nat
  | 0 => 0
  | j + 1 => if start < j + 1 ∧ path (j + 1) ≠ slash then backToSlash path start j else j + 1

/-- What `..` does to the directory before it, which ends at `j`. -/
def cancel (start : Nat) (path : Memory) (j : Nat) : Memory × Nat :=
  if start < j then
    let j := backToSlash path start (j - 1)
    -- leading '..' must not be removed in case of relative path
    if start = 0 ∧ j = 0 ∧ path 0 = dot ∧ path 1 = dot ∧ path 2 = slash then
      (store path 3 [dot, dot, slash], 5)
    else if start = 0 ∧ 0 < j ∧ path (j + 1) = dot ∧ path (j + 2) = dot ∧ path (j + 3) = slash then
      (store path (j + 4) [dot, dot, slash], j + 6)
    else (path, j)
  else if start = 0 ∧ j = 0 then (store path 0 [dot, dot, slash], 2)
  else (path, j)

theorem nameStart_le (path : Memory) (start i : Nat) : nameStart path start i ≤ i := by
  induction i with
  | zero => exact Nat.le_refl 0
  | succ i ih =>
    rw [nameStart]
    split
    · exact Nat.le_succ_of_le ih
    · exact Nat.le_refl _

/-- The buffer and the new length, which is `none` for -1. Where `i - 1` is -1 in the source it is
0 here; both are not above `start`. -/
def tsrmRealpathR (start : Nat) (path : Memory) (len : Nat) : Memory × Option Nat :=
  if len ≤ start then (path, some start)
  else
    let i := nameStart path start len
    if i = len ∨ i + 1 = len ∧ path i = dot then
      -- remove double slashes and '.'
      tsrmRealpathR start path (i - 1)
    else if i + 2 = len ∧ path i = dot ∧ path (i + 1) = dot then
      -- remove '..' and previous directory
      if i - 1 ≤ start then (path, some (if start ≠ 0 then start else len))
      else
        match tsrmRealpathR start path (i - 1) with
        | (path, none) => (path, none)
        | (path, some j) =>
            let (path, j) := cancel start path j
            (path, some j)
    else
      let tmp := store path len [0]
      match
        if i - 1 ≤ start then (tmp, some start)
        else
          match tsrmRealpathR start tmp (i - 1) with
          | (path, none) => (path, none)
          | (path, some j) =>
              if start < j then (store path j [slash], some (j + 1)) else (path, some j) with
      | (path, none) => (path, none)
      | (path, some j) =>
          if j + (len - i) ≥ MAXPATHLEN - 1 then (path, none)
          else (store path j (slice tmp i (len - i + 1)), some (j + (len - i)))
termination_by len
decreasing_by
  all_goals
    have := nameStart_le path start len
    omega

/-- The part of `virtual_file_ex` that fills `resolved_path`, which holds `garbage` before:
`start`, the buffer and `path_length`; `none` where the path does not fit. -/
def joinPath (garbage : Memory) (cwd path : Bytes) : Option (Nat × Memory × Nat) :=
  if path.length = 0 ∨ path.length ≥ MAXPATHLEN - 1 then none
  else if path.head? = some slash then some (1, store garbage 0 (path ++ [0]), path.length)
  else if cwd.length = 0 then some (0, store garbage 0 (path ++ [0]), path.length)
  else if path.length + cwd.length + 1 ≥ MAXPATHLEN - 1 then none
  else if cwd.getLast? = some slash then
    some (1, store garbage 0 (cwd ++ (path ++ [0])), path.length + cwd.length)
  else some (1, store garbage 0 (cwd ++ slash :: (path ++ [0])), path.length + cwd.length + 1)

/-- The new `state->cwd`, which `verify_path` may refuse. -/
def settle (cwd : Bytes) (verifyPath : Option (Bytes → Bool)) (newCwd : Bytes) : Int × Bytes :=
  match verifyPath with
  | some verifyPath => if verifyPath newCwd then (1, cwd) else (0, newCwd)
  | none => (0, newCwd)

/-- `virtual_file_ex` with `CWD_EXPAND`: what it returns, and `state->cwd`. -/
def virtualFileEx (garbage : Memory) (cwd path : Bytes) (verifyPath : Option (Bytes → Bool)) :
    Int × Bytes :=
  match joinPath garbage cwd path with
  | none => (1, cwd)
  | some (start, resolved, pathLength) =>
      let addSlash := resolved (pathLength - 1) = slash
      match tsrmRealpathR start resolved pathLength with
      | (_, none) => (1, cwd)
      | (resolved, some pathLength) =>
          let (resolved, pathLength) :=
            if start = 0 ∧ pathLength = 0 then (store resolved 0 [dot], 1)
            else (resolved, pathLength)
          if addSlash ∧ pathLength ≠ 0 ∧ resolved (pathLength - 1) ≠ slash ∧
              pathLength ≥ MAXPATHLEN - 1 then (-1, cwd)
          else
            let (resolved, pathLength) :=
              if addSlash ∧ pathLength ≠ 0 ∧ resolved (pathLength - 1) ≠ slash then
                (store resolved pathLength [slash], pathLength + 1)
              else (resolved, pathLength)
            settle cwd verifyPath (slice resolved 0 pathLength)

/-! ## The normal form -/

def dotdot : Bytes := [dot, dot]

def kind (s : Bytes) : Kind :=
  if s = [] ∨ s = [dot] then .skip else if s = dotdot then .up else .name

/-- The segments of a path in normal form. Those `..` that have nothing to cancel are kept at the
front of a relative path. -/
def normalSegments (relative : Bool) (text : Bytes) : List Bytes :=
  normalise kind relative (text.splitOn slash)

def joinSegments (segments : List Bytes) : Bytes := [slash].intercalate segments

variable {path : Memory} {start len i j m n : Nat} {text pre name : Bytes} {relative : Bool}
  {segments init : List Bytes}

theorem kind_eq_up {s : Bytes} (h : kind s = .up) : s = dotdot := by
  unfold kind at h
  split at h
  · cases h
  · split at h
    · assumption
    · cases h

theorem splitOn_append (hname : slash ∉ name) :
    (pre ++ slash :: name).splitOn slash = pre.splitOn slash ++ [name] := by
  rw [splitOn_append_cons_self, splitOn_eq_singleton hname]

theorem normalSegments_append (hname : slash ∉ name) :
    normalSegments relative (pre ++ slash :: name) =
      normalise kind relative (pre.splitOn slash ++ [name]) := by
  rw [normalSegments, splitOn_append hname]

theorem not_slash_of_mem_splitOn (text : Bytes) : ∀ s ∈ text.splitOn slash, slash ∉ s := by
  -- induction on the text
  induction text with
  | nil =>
    intro s hs
    rw [mem_singleton.mp hs]
    exact not_mem_nil
  | cons c text ih =>
    rw [splitOn_cons_eq_if_modifyHead]
    split
    · intro s hs
      rcases mem_cons.mp hs with rfl | hs
      · exact not_mem_nil
      · exact ih s hs
    · rename_i hc
      cases hsplit : text.splitOn slash with
      | nil => exact absurd hsplit (splitOn_ne_nil _ _)
      | cons head rest =>
        rw [hsplit] at ih
        intro s hs
        rcases mem_cons.mp hs with rfl | hs
        · rw [mem_cons, not_or]
          exact ⟨fun h => hc (beq_iff_eq.mpr h.symm), ih head mem_cons_self⟩
        · exact ih s (mem_cons_of_mem _ hs)

theorem not_slash_of_mem {s : Bytes} (h : s ∈ normalSegments relative text) : slash ∉ s :=
  not_slash_of_mem_splitOn text s ((normalise_sublist kind relative _).subset h)

theorem ne_nil_of_mem {s : Bytes} (h : s ∈ normalSegments relative text) : s ≠ [] := by
  rintro rfl
  exact kind_ne_skip_of_mem_normalise h (if_pos (.inl rfl))

theorem joinSegments_append (hinit : init ≠ []) (s : Bytes) :
    joinSegments (init ++ [s]) = joinSegments init ++ slash :: s := by
  -- induction on the segments before
  induction init with
  | nil => exact absurd rfl hinit
  | cons t init ih =>
    unfold joinSegments at ih ⊢
    rw [cons_append, intercalate_cons_of_ne_nil
      (append_ne_nil_of_right_ne_nil _ (cons_ne_nil _ _))]
    by_cases hnil : init = []
    · subst hnil
      rw [nil_append, intercalate_singleton, intercalate_singleton,
        append_assoc]
      rfl
    · rw [intercalate_cons_of_ne_nil hnil, ih hnil, append_assoc, append_assoc,
        append_assoc]

theorem joinSegments_singleton (s : Bytes) : joinSegments [s] = s := intercalate_singleton

theorem joinSegments_eq_nil (hne : ∀ s ∈ segments, s ≠ []) (h : joinSegments segments = []) :
    segments = [] := by
  rcases eq_nil_or_concat segments with hnil | ⟨init, s, rfl⟩
  · exact hnil
  · rw [concat_eq_append] at h hne
    exfalso
    by_cases hinit : init = []
    · subst hinit
      rw [nil_append, joinSegments_singleton] at h
      exact hne s (mem_append_right _ mem_cons_self) h
    · rw [joinSegments_append hinit] at h
      exact append_ne_nil_of_right_ne_nil _ (cons_ne_nil _ _) h

/-! ## The scans -/

theorem mem_slice (mem : Memory) (pos : Nat) {k n : Nat} (h : k < n) :
    mem (pos + k) ∈ slice mem pos n :=
  List.mem_map.mpr ⟨k, mem_range.mpr h, rfl⟩

theorem nameStart_spec (path : Memory) (h : start ≤ len) :
    start ≤ nameStart path start len ∧
    slash ∉ slice path (nameStart path start len) (len - nameStart path start len) ∧
    (nameStart path start len = start ∨
      start < nameStart path start len ∧ path (nameStart path start len - 1) = slash) := by
  -- induction on the way back
  induction len with
  | zero => exact ⟨h, not_mem_nil, .inl (Nat.le_zero.mp h).symm⟩
  | succ len ih =>
    rw [nameStart]
    split
    · rename_i hgo
      obtain ⟨hle, hno, hend⟩ := ih (by omega)
      refine ⟨hle, ?_, hend⟩
      have hle' := nameStart_le path start len
      rw [Nat.sub_add_comm hle', slice_add, mem_append, not_or]
      refine ⟨hno, ?_⟩
      rw [Nat.add_sub_cancel' hle']
      exact fun hmem => hgo.2 (mem_singleton.mp hmem).symm
    · rename_i hstop
      rw [Nat.sub_self]
      refine ⟨h, not_mem_nil, ?_⟩
      rcases Nat.eq_or_lt_of_le h with heq | hlt
      · exact .inl heq.symm
      · refine .inr ⟨hlt, ?_⟩
        by_contra hne
        exact hstop ⟨hlt, hne⟩

theorem backToSlash_eq (hle : m ≤ j) (hno : ∀ k, m < k → k ≤ j → path k ≠ slash)
    (hend : m = start ∨ start < m ∧ path m = slash) : backToSlash path start j = m := by
  -- induction on the way back
  induction j with
  | zero => exact (Nat.le_zero.mp hle).symm
  | succ j ih =>
    rw [backToSlash]
    rcases Nat.eq_or_lt_of_le hle with rfl | hlt
    · refine if_neg fun h => ?_
      rcases hend with rfl | ⟨-, hslash⟩
      · exact Nat.lt_irrefl _ h.1
      · exact h.2 hslash
    · have hstart : start ≤ m := by
        rcases hend with rfl | ⟨hlt', -⟩
        · exact Nat.le_refl _
        · exact hlt'.le
      rw [if_pos ⟨by omega, hno (j + 1) hlt (Nat.le_refl _)⟩]
      exact ih (Nat.le_of_lt_succ hlt) fun k hk hkj => hno k hk (Nat.le_succ_of_le hkj)

/-! ## What one call leaves -/

/-- The buffer holds the segments from `start` on, and is as it was behind `len`. Behind a `..` at
the end stands a slash, which the next one looks at. -/
structure Expanded (start len : Nat) (path : Memory) (segments : List Bytes) (path' : Memory)
    (j : Nat) : Prop where
  end_eq : j = start + (joinSegments segments).length
  slice_eq : slice path' start (joinSegments segments).length = joinSegments segments
  before : ∀ k < start, path' k = path k
  behind : ∀ k, len < k → path' k = path k
  le : j ≤ max start len
  slash_behind : start = 0 → path len = slash → ∀ init, segments = init ++ [dotdot] →
    path' j = slash

variable {path' : Memory} {top : Bytes}

theorem append_singleton_ne_nil (init : List Bytes) (top : Bytes) : init ++ [top] ≠ [] :=
  append_ne_nil_of_right_ne_nil _ (cons_ne_nil _ _)

theorem expanded_nil : Expanded start len path [] path start where
  end_eq := rfl
  slice_eq := rfl
  before _ _ := rfl
  behind _ _ := rfl
  le := Nat.le_max_left _ _
  slash_behind _ _ init hinit := absurd hinit.symm (append_singleton_ne_nil init dotdot)

theorem Expanded.of_le {len' : Nat} (h : Expanded start len' path segments path' j)
    (hle : len' ≤ len) (hslash : segments ≠ [] → path len' = slash) :
    Expanded start len path segments path' j where
  end_eq := h.end_eq
  slice_eq := h.slice_eq
  before := h.before
  behind k hk := h.behind k (Nat.lt_of_le_of_lt hle hk)
  le := by
    have := h.le
    omega
  slash_behind hzero _ init hinit := h.slash_behind hzero
    (hslash (by rw [hinit]; exact append_singleton_ne_nil init dotdot)) init hinit

theorem Expanded.of_store (h : Expanded start len (store path len [0]) segments path' j)
    (hstart : start ≤ len) (hlast : ∀ init, segments ≠ init ++ [dotdot]) :
    Expanded start len path segments path' j where
  end_eq := h.end_eq
  slice_eq := h.slice_eq
  before k hk := (h.before k hk).trans (store_before (by omega))
  behind k hk := (h.behind k hk).trans (store_after hk)
  le := h.le
  slash_behind _ _ init hinit := absurd hinit (hlast init)

/-- The segments before the last one, and the last one from `n` on. -/
structure LastSegment (start : Nat) (path' : Memory) (init : List Bytes) (top : Bytes) (n j : Nat) :
    Prop where
  init_eq : slice path' start (joinSegments init).length = joinSegments init
  top_eq : slice path' n top.length = top
  end_eq : j = n + top.length
  begin_eq : init = [] ∧ n = start ∨ init ≠ [] ∧ n = start + (joinSegments init).length + 1 ∧
    path' (start + (joinSegments init).length) = slash

theorem Expanded.lastSegment (h : Expanded start len path (init ++ [top]) path' j) :
    ∃ n, LastSegment start path' init top n j := by
  have hend := h.end_eq
  have hslice := h.slice_eq
  by_cases hinit : init = []
  · subst hinit
    rw [nil_append, joinSegments_singleton] at hend hslice
    exact ⟨start, rfl, hslice, hend, .inl ⟨rfl, rfl⟩⟩
  · rw [joinSegments_append hinit] at hend hslice
    rw [length_append, length_cons] at hend hslice
    rw [slice_add] at hslice
    obtain ⟨hfront, hback⟩ := List.append_inj hslice length_slice
    rw [slice_succ] at hback
    exact ⟨_, hfront, tail_eq_of_cons_eq hback, by omega,
      .inr ⟨hinit, rfl, head_eq_of_cons_eq hback⟩⟩

theorem LastSegment.backToSlash (h : LastSegment start path' init top n j) (hne : top ≠ [])
    (hinit : ∀ s ∈ init, s ≠ []) (hslash : slash ∉ top) :
    start < j ∧ backToSlash path' start (j - 1) = start + (joinSegments init).length := by
  have hlen := length_pos_iff.mpr hne
  have hend := h.end_eq
  have hno : ∀ k, n ≤ k → k ≤ j - 1 → path' k ≠ slash := by
    intro k hk hkj heq
    have hmem := mem_slice path' n (show k - n < top.length by omega)
    rw [Nat.add_sub_cancel' hk, h.top_eq, heq] at hmem
    exact hslash hmem
  rcases h.begin_eq with ⟨rfl, rfl⟩ | ⟨hne', rfl, hsl⟩
  · exact ⟨by omega, backToSlash_eq (by show n + 0 ≤ j - 1; omega)
      (fun k hk hkj => hno k hk.le hkj) (.inl rfl)⟩
  · have hpos : 0 < (joinSegments init).length :=
      length_pos_iff.mpr fun hnil => hne' (joinSegments_eq_nil hinit hnil)
    exact ⟨by omega, backToSlash_eq (by omega) (fun k hk hkj => hno k hk hkj)
      (.inr ⟨by omega, hsl⟩)⟩

theorem not_dotdot_of_name {mem : Memory} (hname : kind top = .name) (hslash : slash ∉ top)
    (htop : slice mem n top.length = top) :
    ¬(mem n = dot ∧ mem (n + 1) = dot ∧ mem (n + 2) = slash) := by
  rintro ⟨h0, h1, h2⟩
  have hno : ∀ s, kind s ≠ .name → top ≠ s := fun s hs heq => hs (heq ▸ hname)
  rcases Nat.lt_or_ge 2 top.length with hlong | hshort
  · have hmem := mem_slice mem n hlong
    rw [htop, h2] at hmem
    exact hslash hmem
  · obtain hlen | hlen | hlen : top.length = 0 ∨ top.length = 1 ∨ top.length = 2 := by omega
    · exact hno [] (by decide) (length_eq_zero_iff.mp hlen)
    · rw [hlen] at htop
      refine hno [dot] (by decide) ?_
      rw [← htop, slice_succ, h0]
      rfl
    · rw [hlen] at htop
      refine hno dotdot (by decide) ?_
      rw [← htop, slice_succ, slice_succ, h0, h1]
      rfl

theorem dotdot_of_slice {mem : Memory} (htop : slice mem n 2 = dotdot) :
    mem n = dot ∧ mem (n + 1) = dot := by
  rw [slice_succ, slice_succ] at htop
  have htail := tail_eq_of_cons_eq htop
  exact ⟨head_eq_of_cons_eq htop, head_eq_of_cons_eq htail⟩

theorem cancel_start (start : Nat) (path' : Memory) :
    cancel start path' start =
      if start = 0 then (store path' 0 [dot, dot, slash], 2) else (path', start) := by
  unfold cancel
  rw [if_neg (Nat.lt_irrefl start)]
  simp only [and_self]

theorem cancel_name (h : LastSegment start path' init top n j) (hne : top ≠ [])
    (hinit : ∀ s ∈ init, s ≠ []) (hslash : slash ∉ top) (hname : kind top = .name) :
    cancel start path' j = (path', start + (joinSegments init).length) := by
  obtain ⟨hlt, hback⟩ := h.backToSlash hne hinit hslash
  have hno := not_dotdot_of_name hname hslash h.top_eq
  unfold cancel
  rw [if_pos hlt]
  dsimp only
  rw [hback, if_neg, if_neg]
  · rintro ⟨rfl, hpos, h1, h2, h3⟩
    rcases h.begin_eq with ⟨rfl, -⟩ | ⟨-, rfl, -⟩
    · exact absurd hpos (Nat.lt_irrefl 0)
    · exact hno ⟨h1, h2, h3⟩
  · rintro ⟨rfl, hzero, h1, h2, h3⟩
    rcases h.begin_eq with ⟨-, rfl⟩ | ⟨hne', -⟩
    · exact hno ⟨h1, h2, h3⟩
    · refine hne' (joinSegments_eq_nil hinit (length_eq_zero_iff.mp ?_))
      omega

theorem cancel_dotdot (h : LastSegment 0 path' init dotdot n j) (hinit : ∀ s ∈ init, s ≠ [])
    (hend : path' j = slash) :
    cancel 0 path' j = (store path' (j + 1) [dot, dot, slash], j + 3) := by
  have hj : j = n + 2 := h.end_eq
  obtain ⟨hlt, hback⟩ := h.backToSlash (by decide) hinit (by decide)
  obtain ⟨h0, h1⟩ := dotdot_of_slice h.top_eq
  rw [hj] at hend
  unfold cancel
  rw [if_pos hlt]
  dsimp only
  rw [hback]
  rcases h.begin_eq with ⟨rfl, rfl⟩ | ⟨hne, rfl, -⟩
  · subst hj
    rw [if_pos ⟨rfl, rfl, h0, h1, hend⟩]
  · have hpos : 0 < (joinSegments init).length :=
      length_pos_iff.mpr fun hnil => hne (joinSegments_eq_nil hinit hnil)
    subst hj
    rw [if_neg (by omega), if_pos ⟨rfl, by omega, h0, h1, hend⟩]

theorem Expanded.cancel (h : Expanded start m path (normalSegments relative pre) path' j)
    (hrel : relative = decide (start = 0)) (hstart : start ≤ m) (hslash : path m = slash) :
    Expanded start (m + 3) path (normalSegments relative (pre ++ slash :: dotdot))
      (cancel start path' j).1 (cancel start path' j).2 := by
  have hsegs : normalSegments relative (pre ++ slash :: dotdot) =
      normalise kind relative (pre.splitOn slash ++ [dotdot]) := by
    exact normalSegments_append (by decide)
  have hle := h.le
  rw [Nat.max_eq_right hstart] at hle
  have hbehind : ∀ k, m + 3 < k → path' k = path k := fun k hk => h.behind k (by omega)
  rcases (normal_normalise kind relative (pre.splitOn slash)).cases with
    hnil | ⟨init, top, happ, htop, -⟩ | ⟨init, top, happ, htop, hkeep, -⟩
  · -- nothing to cancel
    have hj : j = start := by
      have := h.end_eq
      rwa [normalSegments, hnil] at this
    rw [hsegs, normalise_up_of_nil (s := dotdot) (by decide) hnil, hj, cancel_start]
    by_cases hzero : start = 0
    · subst hzero
      rw [if_pos rfl, if_pos (hrel.trans (decide_eq_true rfl))]
      exact
        { end_eq := rfl
          slice_eq := by
            show slice (store path' 0 [dot, dot, slash]) 0 2 = dotdot
            exact slice_store_take path' 0 (by decide)
          before := fun k hk => absurd hk (Nat.not_lt_zero k)
          behind := fun k hk => by
            show store path' 0 [dot, dot, slash] k = _
            rw [store_after (show 0 + 3 ≤ k by omega)]
            exact hbehind k hk
          le := by show 2 ≤ max 0 (m + 3); omega
          slash_behind := fun _ _ _ _ => by
            show store path' 0 [dot, dot, slash] (0 + 2) = _
            exact store_at (show 2 < 3 by decide) }
    · rw [if_neg hzero, if_neg (by rw [hrel, decide_eq_false hzero]; decide)]
      exact
        { end_eq := rfl
          slice_eq := rfl
          before := h.before
          behind := hbehind
          le := Nat.le_max_left _ _
          slash_behind := fun hzero' => absurd hzero' hzero }
  · -- the last name is cancelled
    rw [hsegs, normalise_up_of_name (by decide) happ htop]
    have hmem : ∀ s ∈ init ++ [top], s ∈ normalSegments relative pre := fun s hs => by
      rwa [normalSegments, happ]
    rw [normalSegments, happ] at h
    obtain ⟨n, hlast⟩ := h.lastSegment
    have hinit : ∀ s ∈ init, s ≠ [] :=
      fun s hs => ne_nil_of_mem (hmem s (mem_append_left _ hs))
    have htopmem := hmem top (mem_append_right _ mem_cons_self)
    rw [cancel_name hlast (ne_nil_of_mem htopmem) hinit (not_slash_of_mem htopmem) htop]
    exact
      { end_eq := rfl
        slice_eq := hlast.init_eq
        before := h.before
        behind := hbehind
        le := by
          have := hlast.end_eq
          rcases hlast.begin_eq with ⟨rfl, rfl⟩ | ⟨-, rfl, -⟩
          · exact Nat.le_max_left _ _
          · omega
        slash_behind := fun _ _ init' hinit' => by
          rcases hlast.begin_eq with ⟨rfl, -⟩ | ⟨-, -, hsl⟩
          · exact absurd hinit'.symm (append_singleton_ne_nil init' dotdot)
          · exact hsl }
  · -- one more `..` is kept
    obtain rfl := kind_eq_up htop
    obtain rfl : start = 0 := of_decide_eq_true (hrel ▸ hkeep)
    rw [hsegs, normalise_up_of_up (by decide) happ htop]
    have hinit : ∀ s ∈ init, s ≠ [] := fun s hs => by
      have hmem : s ∈ normalSegments relative pre := by
        rw [normalSegments, happ]
        exact mem_append_left _ hs
      exact ne_nil_of_mem hmem
    rw [normalSegments, happ] at h
    obtain ⟨n, hlast⟩ := h.lastSegment
    have hend := h.slash_behind rfl hslash init rfl
    rw [cancel_dotdot hlast hinit hend]
    have hj := h.end_eq
    rw [Nat.zero_add] at hj
    have hjoin : joinSegments (init ++ [dotdot] ++ [dotdot]) =
        joinSegments (init ++ [dotdot]) ++ slash :: dotdot :=
      joinSegments_append (append_singleton_ne_nil init dotdot) dotdot
    have hlen : (joinSegments (init ++ [dotdot] ++ [dotdot])).length = j + 3 := by
      rw [hjoin, length_append, ← hj]
      rfl
    exact
      { end_eq := by show j + 3 = _; rw [hlen, Nat.zero_add]
        slice_eq := by
          show slice (store path' (j + 1) [dot, dot, slash]) 0 _ = _
          have hmid : slice (store path' (j + 1) [dot, dot, slash]) (0 + j) 3 =
              slash :: dotdot := by
            rw [slice_succ, Nat.zero_add, store_before (Nat.lt_succ_self j), hend]
            exact congrArg (slash :: ·) (slice_store_take path' (j + 1) (by decide))
          rw [hlen, hjoin, slice_add, hmid, slice_store_before (by omega), hj, h.slice_eq]
        before := fun k hk => absurd hk (Nat.not_lt_zero k)
        behind := fun k hk => by
          show store path' (j + 1) [dot, dot, slash] k = _
          rw [store_after (show j + 1 + 3 ≤ k by omega)]
          exact hbehind k hk
        le := by show j + 3 ≤ max 0 (m + 3); omega
        slash_behind := fun _ _ _ _ => by
          show store path' (j + 1) [dot, dot, slash] (j + 1 + 2) = _
          exact store_at (show 2 < 3 by decide) }

theorem Expanded.append (h : Expanded start m path (normalSegments relative pre) path' j)
    (hstart : start ≤ m) (hname : slash ∉ name) (hkind : kind name = .name) :
    Expanded start (m + 1 + name.length) path (normalSegments relative (pre ++ slash :: name))
      (store (if start < j then store path' j [slash] else path')
        (if start < j then j + 1 else j) (name ++ [0]))
      ((if start < j then j + 1 else j) + name.length) := by
  have hsegs : normalSegments relative (pre ++ slash :: name) =
      normalSegments relative pre ++ [name] := by
    rw [normalSegments_append hname, normalise_name hkind]
    rfl
  have hle := h.le
  have hj := h.end_eq
  rw [Nat.max_eq_right hstart] at hle
  have hlast : ∀ init, normalSegments relative pre ++ [name] ≠ init ++ [dotdot] := by
    intro init heq
    have := (append_inj' heq rfl).2
    rw [head_eq_of_cons_eq this] at hkind
    cases hkind
  rw [hsegs]
  by_cases hnil : normalSegments relative pre = []
  · rw [hnil] at hj hlast ⊢
    obtain rfl : j = start := hj
    rw [nil_append, if_neg (Nat.lt_irrefl j), if_neg (Nat.lt_irrefl j)]
    exact
      { end_eq := by rw [joinSegments_singleton]
        slice_eq := by
          rw [joinSegments_singleton, slice_store_take path' j (by simp), take_left]
        before := fun k hk => (store_before hk).trans (h.before k hk)
        behind := fun k hk => by
          rw [store_after (by rw [length_append, length_singleton]; omega)]
          exact h.behind k (by omega)
        le := by omega
        slash_behind := fun _ _ init hinit => absurd hinit (hlast init) }
  · have hpos : 0 < (joinSegments (normalSegments relative pre)).length :=
      length_pos_iff.mpr fun heq =>
        hnil (joinSegments_eq_nil (fun s hs => ne_nil_of_mem hs) heq)
    rw [if_pos (by omega), if_pos (by omega)]
    have hjoin := joinSegments_append hnil name
    have hlen : (joinSegments (normalSegments relative pre ++ [name])).length =
        j - start + (1 + name.length) := by
      rw [hjoin, length_append, length_cons]
      omega
    exact
      { end_eq := by omega
        slice_eq := by
          have hsep : store (store path' j [slash]) (j + 1) (name ++ [0]) j = slash := by
            rw [store_before (Nat.lt_succ_self j)]
            show store path' j [slash] (j + 0) = slash
            exact store_at (show 0 < 1 by decide)
          rw [hlen, hjoin, slice_add, Nat.add_sub_cancel' (show start ≤ j by omega), slice_add,
            slice_store_before (by omega), slice_store_before (by omega),
            show j - start = (joinSegments (normalSegments relative pre)).length by omega,
            h.slice_eq, slice_store_take _ _ (by simp), take_left, slice_succ, hsep]
          rfl
        before := fun k hk => by
          rw [store_before (by omega), store_before (by omega)]
          exact h.before k hk
        behind := fun k hk => by
          rw [store_after (by rw [length_append, length_singleton]; omega),
            store_after (by rw [length_singleton]; omega)]
          exact h.behind k (by omega)
        le := by omega
        slash_behind := fun _ _ init hinit => absurd hinit (hlast init) }

theorem expanded_name (hlen : start + name.length ≤ len) (hkind : kind name = .name) :
    Expanded start len path [name] (store (store path len [0]) start (name ++ [0]))
      (start + name.length) where
  end_eq := by rw [joinSegments_singleton]
  slice_eq := by
    rw [joinSegments_singleton, slice_store_take _ start (by simp), take_left]
  before k hk := by rw [store_before hk, store_before (by omega)]
  behind k hk := by
    rw [store_after (by rw [length_append, length_singleton]; omega), store_after hk]
  le := by omega
  slash_behind _ _ init hinit := by
    have hend : ([] : List Bytes) ++ [name] = init ++ [dotdot] := hinit
    rw [head_eq_of_cons_eq (append_inj' hend rfl).2] at hkind
    cases hkind

theorem slice_cases (path : Memory) (hstart : start ≤ i) (hlen : i ≤ len)
    (h : i = start ∨ start < i ∧ path (i - 1) = slash) :
    i = start ∧ slice path start (len - start) = slice path i (len - i) ∨
    start < i ∧ path (i - 1) = slash ∧ slice path start (len - start) =
      slice path start (i - 1 - start) ++ slash :: slice path i (len - i) := by
  rcases h with rfl | ⟨hlt, hslash⟩
  · exact .inl ⟨rfl, rfl⟩
  · refine .inr ⟨hlt, hslash, ?_⟩
    rw [show len - start = i - 1 - start + (1 + (len - i)) by omega, slice_add, Nat.add_comm 1,
      slice_succ, Nat.add_sub_cancel' (show start ≤ i - 1 by omega), hslash,
      Nat.sub_add_cancel (show 1 ≤ i by omega)]

theorem normalSegments_singleton (hname : slash ∉ name) :
    normalSegments relative name = normalise kind relative ([] ++ [name]) := by
  rw [normalSegments, splitOn_eq_singleton hname]
  rfl

theorem expanded_first_dotdot (hstart : start ≤ 1) (hrel : start = 0 → path 0 ≠ slash)
    (hname : slice path i (i + 2 - i) = dotdot) (hfirst : i - 1 ≤ start)
    (htext : i = start ∧ slice path start (i + 2 - start) = dotdot ∨
      start < i ∧ path (i - 1) = slash ∧ slice path start (i + 2 - start) =
        slice path start (i - 1 - start) ++ slash :: dotdot) :
    Expanded start (i + 2) path
      (normalSegments (start = 0) (slice path start (i + 2 - start))) path
      (if start ≠ 0 then start else i + 2) := by
  by_cases hzero : start = 0
  · subst hzero
    rw [if_neg (fun h => h rfl)]
    rcases htext with ⟨rfl, htext⟩ | ⟨hlt, hslash, -⟩
    · rw [htext]
      exact
        { end_eq := rfl
          slice_eq := hname
          before := fun _ _ => rfl
          behind := fun _ _ => rfl
          le := Nat.le_refl _
          slash_behind := fun _ hslash _ _ => hslash }
    · rw [show i - 1 = 0 by omega] at hslash
      exact absurd hslash (hrel rfl)
  · rw [if_pos hzero]
    have hnil : normalSegments (decide (start = 0)) (slice path start (i + 2 - start)) = [] := by
      rw [decide_eq_false hzero]
      rcases htext with ⟨-, htext⟩ | ⟨-, -, htext⟩
      · rw [htext]
        rfl
      · rw [htext, Nat.sub_eq_zero_of_le hfirst]
        rfl
    rw [hnil]
    exact expanded_nil

theorem kind_slice (hlen : i ≤ len) (hskip : ¬(i = len ∨ i + 1 = len ∧ path i = dot))
    (hdots : ¬(i + 2 = len ∧ path i = dot ∧ path (i + 1) = dot)) :
    kind (slice path i (len - i)) = .name := by
  obtain ⟨n, rfl⟩ := Nat.exists_eq_add_of_le hlen
  rw [Nat.add_sub_cancel_left]
  unfold kind
  rw [if_neg, if_neg]
  · intro heq
    have hn : n = 2 := by
      have := congrArg List.length heq
      rwa [length_slice] at this
    subst hn
    exact hdots ⟨rfl, dotdot_of_slice heq⟩
  · rintro (heq | heq)
    · have hn : n = 0 := by
        have := congrArg List.length heq
        rwa [length_slice] at this
      exact hskip (.inl (by omega))
    · have hn : n = 1 := by
        have := congrArg List.length heq
        rwa [length_slice] at this
      subst hn
      exact hskip (.inr ⟨rfl, head_eq_of_cons_eq heq⟩)

/-- **What a call leaves**: the normal form of what stands from `start` to `len`. -/
theorem tsrmRealpathR_spec (hstart : start ≤ 1) (hrel : start = 0 → path 0 ≠ slash)
    (hmax : len + 1 < MAXPATHLEN) :
    ∃ path' j, tsrmRealpathR start path len = (path', some j) ∧
      Expanded start len path (normalSegments (start = 0) (slice path start (len - start)))
        path' j := by
  -- induction on `len`: the recursive calls are for the part before the last slash
  induction len using Nat.strong_induction_on generalizing path with
  | _ len ih =>
    rw [tsrmRealpathR]
    by_cases hdone : len ≤ start
    · rw [if_pos hdone, Nat.sub_eq_zero_of_le hdone]
      exact ⟨path, start, rfl, expanded_nil⟩
    rw [if_neg hdone]
    have hle := nameStart_le path start len
    obtain ⟨hge, hno, hend⟩ := nameStart_spec path (show start ≤ len by omega)
    obtain ⟨i, hi⟩ : ∃ i, i = nameStart path start len := ⟨_, rfl⟩
    rw [← hi] at hle hge hno hend ⊢
    dsimp only
    have htext := slice_cases path hge hle hend
    by_cases hskip : i = len ∨ i + 1 = len ∧ path i = dot
    · -- double slashes and '.'
      rw [if_pos hskip]
      have hkind : kind (slice path i (len - i)) = .skip := by
        rcases hskip with rfl | ⟨rfl, hdot⟩
        · rw [Nat.sub_self]
          rfl
        · rw [Nat.add_sub_cancel_left, slice_succ, hdot]
          rfl
      obtain ⟨path', j, hcall, hexp⟩ := ih (i - 1) (by omega) hrel (by omega)
      refine ⟨path', j, hcall, ?_⟩
      rcases htext with ⟨rfl, htext⟩ | ⟨hlt, hslash, htext⟩
      · rw [Nat.sub_eq_zero_of_le (Nat.sub_le i 1), slice_zero] at hexp
        rw [htext, normalSegments_singleton hno, normalise_skip hkind]
        exact hexp.of_le (by omega) fun hne => absurd rfl hne
      · rw [htext, normalSegments_append hno, normalise_skip hkind]
        exact hexp.of_le (by omega) fun _ => hslash
    rw [if_neg hskip]
    by_cases hdots : i + 2 = len ∧ path i = dot ∧ path (i + 1) = dot
    · -- '..' and the previous directory
      obtain ⟨rfl, hdot, hdot'⟩ := hdots
      rw [if_pos ⟨rfl, hdot, hdot'⟩]
      have hname : slice path i (i + 2 - i) = dotdot := by
        rw [Nat.add_sub_cancel_left, slice_succ, slice_succ, hdot, hdot']
        rfl
      rw [hname] at htext
      by_cases hfirst : i - 1 ≤ start
      · rw [if_pos hfirst]
        exact ⟨_, _, rfl, expanded_first_dotdot hstart hrel hname hfirst htext⟩
      · rw [if_neg hfirst]
        obtain ⟨path', j, hcall, hexp⟩ := ih (i - 1) (by omega) hrel (by omega)
        rw [hcall]
        rcases htext with ⟨rfl, -⟩ | ⟨hlt, hslash, htext⟩
        · omega
        · have hcancel := hexp.cancel rfl (by omega) hslash
          rw [show i - 1 + 3 = i + 2 by omega, ← htext] at hcancel
          exact ⟨_, _, rfl, hcancel⟩
    rw [if_neg hdots]
    -- a name
    have hkind : kind (slice path i (len - i)) = .name := kind_slice hle hskip hdots
    have htmp : slice (store path len [0]) i (len - i + 1) = slice path i (len - i) ++ [0] := by
      rw [slice_add, slice_store_before (by omega), Nat.add_sub_cancel' hle]
      exact congrArg _ (slice_store_self path len [0])
    have hlen : (slice path i (len - i)).length = len - i := length_slice
    rw [htmp]
    by_cases hfirst : i - 1 ≤ start
    · rw [if_pos hfirst]
      dsimp only
      rw [if_neg (by omega)]
      have hsegs : normalSegments (decide (start = 0)) (slice path start (len - start)) =
          [slice path i (len - i)] := by
        rcases htext with ⟨-, htext⟩ | ⟨-, -, htext⟩
        · rw [htext, normalSegments_singleton hno, normalise_name hkind]
          rfl
        · rw [htext, Nat.sub_eq_zero_of_le hfirst, slice_zero, normalSegments_append hno,
            normalise_name hkind]
          rfl
      rw [hsegs]
      have hexp : Expanded start len path [slice path i (len - i)] _ _ :=
        expanded_name (by omega) hkind
      rw [hlen] at hexp
      exact ⟨_, _, rfl, hexp⟩
    · rw [if_neg hfirst]
      have hrel' : start = 0 → store path len [0] 0 ≠ slash := fun hzero => by
        rw [store_before (by omega)]
        exact hrel hzero
      obtain ⟨path', j, hcall, hexp⟩ := ih (i - 1) (by omega) hrel' (by omega)
      rw [hcall]
      dsimp only
      rcases htext with ⟨rfl, -⟩ | ⟨hlt, hslash, htext⟩
      · omega
      rw [slice_store_before (by omega)] at hexp
      have happend := hexp.append (by omega) hno hkind
      rw [hlen, show i - 1 + 1 + (len - i) = len by omega, ← htext] at happend
      have hsegs : ∀ init,
          normalSegments (decide (start = 0)) (slice path start (len - start)) ≠
            init ++ [dotdot] := by
        intro init heq
        rw [htext, normalSegments_append hno, normalise_name hkind] at heq
        rw [head_eq_of_cons_eq (append_inj' heq rfl).2] at hkind
        cases hkind
      have hdone := happend.of_store (by omega) hsegs
      have hle' := hdone.le
      by_cases hlt : start < j
      · rw [if_pos hlt, if_pos hlt] at hdone
        rw [if_pos hlt] at hle' ⊢
        dsimp only
        rw [if_neg (by omega)]
        exact ⟨_, _, rfl, hdone⟩
      · rw [if_neg hlt, if_neg hlt] at hdone
        rw [if_neg hlt] at hle' ⊢
        dsimp only
        rw [if_neg (by omega)]
        exact ⟨_, _, rfl, hdone⟩

/-! ## The whole path -/

def joined (cwd path : Bytes) : Bytes :=
  if path.head? = some slash ∨ cwd = [] then path
  else if cwd.getLast? = some slash then cwd ++ path
  else cwd ++ slash :: path

/-- The segments of a path in normal form, behind the root of an absolute one. -/
def normalBody (text : Bytes) : Bytes :=
  let absolute : Bool := text.head? = some slash
  let body := (if absolute then [slash] else []) ++ joinSegments (normalSegments (!absolute) text)
  if body = [] then [dot] else body

/-- The lexical normal form of a path. It ends in a slash where the path does; the root is only its
slash. -/
def expansion (text : Bytes) : Bytes :=
  if text.getLast? = some slash ∧ (normalBody text).getLast? ≠ some slash then
    normalBody text ++ [slash]
  else normalBody text

example : expansion (Bytes.ascii "/a/./b//../c/") = Bytes.ascii "/a/c/" := by decide
example : expansion (Bytes.ascii "a/../../b/..") = Bytes.ascii ".." := by decide

/-! ## It does not get longer -/

theorem joinSegments_append_slash (hne : segments ≠ []) :
    joinSegments segments ++ [slash] = segments.flatMap (· ++ [slash]) := by
  -- induction from the last segment back
  induction segments using List.reverseRecOn with
  | nil => exact absurd rfl hne
  | append_singleton init top ih =>
    by_cases hinit : init = []
    · subst hinit
      rw [nil_append, joinSegments_singleton, flatMap_singleton]
    · rw [joinSegments_append hinit, flatMap_append, ← ih hinit, flatMap_singleton,
        append_assoc, append_assoc]
      rfl

theorem length_joinSegments_le (relative : Bool) (text : Bytes) :
    (joinSegments (normalSegments relative text)).length ≤ text.length := by
  by_cases hnil : normalSegments relative text = []
  · rw [hnil]
    exact Nat.zero_le _
  · have htext : joinSegments (text.splitOn slash) = text := intercalate_splitOn slash
    have hsub := ((normalise_sublist kind relative (text.splitOn slash)).flatMap
      (· ++ [slash])).length_le
    rw [← joinSegments_append_slash (splitOn_ne_nil slash text), htext] at hsub
    rw [normalSegments] at hnil ⊢
    rw [← joinSegments_append_slash hnil, length_append, length_append] at hsub
    exact Nat.le_of_add_le_add_right hsub

theorem normalSegments_append_slash (relative : Bool) (text : Bytes) :
    normalSegments relative (text ++ [slash]) = normalSegments relative text := by
  rw [normalSegments_append not_mem_nil, normalise_skip rfl]
  rfl

theorem normalSegments_cons_slash (relative : Bool) (text : Bytes) :
    normalSegments relative (slash :: text) = normalSegments relative text := by
  have hsplit := splitOn_append_cons_self (a := slash) [] text
  rw [nil_append] at hsplit
  rw [normalSegments, hsplit, splitOn_nil]
  exact normalise_cons_skip rfl

theorem normalBody_absolute (text : Bytes) :
    normalBody (slash :: text) = slash :: joinSegments (normalSegments false text) := by
  show (if slash :: joinSegments (normalSegments false (slash :: text)) = [] then [dot]
    else slash :: joinSegments (normalSegments false (slash :: text))) = _
  rw [if_neg (cons_ne_nil _ _), normalSegments_cons_slash]

theorem normalBody_relative (h : text.head? ≠ some slash) :
    normalBody text = if normalSegments true text = [] then [dot]
      else joinSegments (normalSegments true text) := by
  unfold normalBody
  rw [decide_eq_false h]
  show (if joinSegments (normalSegments true text) = [] then _
    else joinSegments (normalSegments true text)) = _
  by_cases hnil : normalSegments true text = []
  · rw [if_pos hnil, hnil]
    rfl
  · rw [if_neg hnil, if_neg]
    exact fun heq => hnil (joinSegments_eq_nil (fun s hs => ne_nil_of_mem hs) heq)

theorem length_expansion_le (hne : text ≠ []) : (expansion text).length ≤ text.length := by
  unfold expansion
  split
  · rename_i hadd
    obtain ⟨front, rfl⟩ := List.getLast?_eq_some_iff.mp hadd.1
    rw [length_append, length_append]
    refine Nat.add_le_add_right ?_ 1
    cases front with
    | nil => exact absurd rfl hadd.2
    | cons c front =>
      by_cases hc : c = slash
      · subst hc
        rw [cons_append, normalBody_absolute, normalSegments_append_slash]
        exact Nat.succ_le_succ (length_joinSegments_le false front)
      · have hhead : (c :: front ++ [slash]).head? ≠ some slash := fun h => hc (some.inj h)
        rw [normalBody_relative hhead, normalSegments_append_slash]
        split
        · exact Nat.succ_le_succ (Nat.zero_le _)
        · exact length_joinSegments_le true (c :: front)
  · cases text with
    | nil => exact absurd rfl hne
    | cons c text =>
      by_cases hc : c = slash
      · subst hc
        rw [normalBody_absolute]
        exact Nat.succ_le_succ (length_joinSegments_le false text)
      · have hhead : (c :: text).head? ≠ some slash := fun h => hc (some.inj h)
        rw [normalBody_relative hhead]
        split
        · exact Nat.succ_le_succ (Nat.zero_le _)
        · exact length_joinSegments_le true (c :: text)

/-! ## Expanding again -/

theorem normalSegments_joinSegments (relative : Bool) (text : Bytes) :
    normalSegments relative (joinSegments (normalSegments relative text)) =
      normalSegments relative text := by
  by_cases hnil : normalSegments relative text = []
  · rw [hnil]
    rfl
  · have hsplit : (joinSegments (normalSegments relative text)).splitOn slash =
        normalSegments relative text :=
      splitOn_intercalate slash (fun s hs => not_slash_of_mem hs) hnil
    conv_lhs => rw [normalSegments, hsplit]
    exact normalise_of_normal (normal_normalise kind relative _)

theorem head?_joinSegments_ne (relative : Bool) (text : Bytes) :
    (joinSegments (normalSegments relative text)).head? ≠ some slash := by
  cases hsegs : normalSegments relative text with
  | nil => exact fun h => by cases h
  | cons s rest =>
    have hs : s ∈ normalSegments relative text := hsegs ▸ mem_cons_self
    obtain ⟨c, s', rfl⟩ := exists_cons_of_ne_nil (ne_nil_of_mem hs)
    have hhead : (joinSegments ((c :: s') :: rest)).head? = some c := by
      unfold joinSegments
      by_cases hrest : rest = []
      · subst hrest
        rw [intercalate_singleton]
        rfl
      · rw [intercalate_cons_of_ne_nil hrest]
        rfl
    rw [hhead]
    intro heq
    exact not_slash_of_mem hs (some.inj heq ▸ mem_cons_self)

theorem normalBody_ne_nil (text : Bytes) : normalBody text ≠ [] := by
  unfold normalBody
  extract_lets absolute body
  split
  · exact cons_ne_nil _ _
  · assumption

theorem normalBody_normalBody (text suffix : Bytes)
    (hsuffix : suffix = [] ∨ suffix = [slash]) :
    normalBody (normalBody text ++ suffix) = normalBody text := by
  have hdrop : ∀ relative text, normalSegments relative (text ++ suffix) =
      normalSegments relative text := by
    intro relative text
    rcases hsuffix with rfl | rfl
    · rw [append_nil]
    · exact normalSegments_append_slash relative text
  by_cases habs : text.head? = some slash
  · obtain ⟨text, rfl⟩ : ∃ t, text = slash :: t := by
      cases text with
      | nil => cases habs
      | cons c t => exact ⟨t, by rw [some.inj habs]⟩
    rw [normalBody_absolute, cons_append, normalBody_absolute, hdrop,
      normalSegments_joinSegments]
  · have hbody := normalBody_relative habs
    have hhead : (normalBody text ++ suffix).head? ≠ some slash := by
      obtain ⟨c, body, hcons⟩ := exists_cons_of_ne_nil (normalBody_ne_nil text)
      have hc : (normalBody text).head? ≠ some slash := by
        rw [hbody]
        split
        · decide
        · exact head?_joinSegments_ne true text
      rw [hcons] at hc ⊢
      exact hc
    have hsegs : normalSegments true (normalBody text) = normalSegments true text := by
      rw [hbody]
      split
      · rename_i hnil
        rw [hnil]
        rfl
      · exact normalSegments_joinSegments true text
    rw [normalBody_relative hhead, hdrop, hsegs, ← hbody]

theorem expansion_expansion (text : Bytes) : expansion (expansion text) = expansion text := by
  by_cases hadd : text.getLast? = some slash ∧ (normalBody text).getLast? ≠ some slash
  · have heq : expansion text = normalBody text ++ [slash] := if_pos hadd
    rw [heq]
    unfold expansion
    rw [normalBody_normalBody text [slash] (.inr rfl), if_pos ⟨List.getLast?_concat, hadd.2⟩]
  · have heq : expansion text = normalBody text := if_neg hadd
    have hbody := normalBody_normalBody text [] (.inl rfl)
    rw [append_nil] at hbody
    rw [heq]
    unfold expansion
    rw [hbody, if_neg fun h => h.2 h.1]

/-! ## The function -/

/-- The path and the working directory fit into `resolved_path`, by the tests of the code. -/
def FitsBuffer (cwd path : Bytes) : Prop :=
  path.length + 1 < MAXPATHLEN ∧
  (path.head? ≠ some slash → cwd ≠ [] → path.length + cwd.length + 2 < MAXPATHLEN)

theorem getLast?_slice (mem : Memory) (n : Nat) :
    (slice mem 0 (n + 1)).getLast? = some (mem n) := by
  rw [slice_add, Nat.zero_add]
  exact List.getLast?_concat

def body (start : Nat) (first : UInt8) (segments : List Bytes) : Bytes :=
  let body := (if start = 0 then [] else [first]) ++ joinSegments segments
  if body = [] then [dot] else body

theorem exists_body (h : Expanded start len path segments path' j) (hstart : start ≤ 1) :
    ∃ mem n, (if start = 0 ∧ j = 0 then (store path' 0 [dot], 1) else (path', j)) = (mem, n + 1) ∧
      slice mem 0 (n + 1) = body start (path 0) segments ∧ n + 1 ≤ max 1 len := by
  have hend := h.end_eq
  have hle := h.le
  have hslice : slice path' 0 j =
      (if start = 0 then [] else [path 0]) ++ joinSegments segments := by
    by_cases hzero : start = 0
    · subst hzero
      rw [if_pos rfl, hend, Nat.zero_add]
      exact h.slice_eq
    · obtain rfl : start = 1 := by omega
      rw [if_neg hzero, hend, slice_add, h.slice_eq, slice_succ, h.before 0 Nat.one_pos]
      rfl
  unfold body
  rw [← hslice]
  dsimp only
  by_cases hnil : j = 0
  · have hzero : start = 0 := by omega
    rw [if_pos ⟨hzero, hnil⟩, hnil, if_pos slice_zero]
    exact ⟨_, 0, rfl, slice_store_self path' 0 [dot], Nat.le_max_left _ _⟩
  · obtain ⟨n, rfl⟩ := Nat.exists_eq_succ_of_ne_zero hnil
    rw [if_neg fun h => hnil h.2, if_neg]
    · exact ⟨_, n, rfl, rfl, by omega⟩
    · intro heq
      have := congrArg List.length heq
      rw [length_slice] at this
      exact hnil this

theorem virtualFileEx_eq {garbage resolved : Memory} {cwd path : Bytes}
    (verifyPath : Option (Bytes → Bool))
    (hjoin : joinPath garbage cwd path = some (start, resolved, len)) (hstart : start ≤ 1)
    (hrel : start = 0 → resolved 0 ≠ slash) (hmax : len + 1 < MAXPATHLEN) :
    virtualFileEx garbage cwd path verifyPath = settle cwd verifyPath
      (let body := body start (resolved 0)
        (normalSegments (start = 0) (slice resolved start (len - start)))
      if resolved (len - 1) = slash ∧ body.getLast? ≠ some slash then body ++ [slash]
      else body) := by
  obtain ⟨path', j, hcall, hexp⟩ := tsrmRealpathR_spec hstart hrel hmax
  obtain ⟨mem, n, hmem, hbody, hn⟩ := exists_body hexp hstart
  have hmax' : ¬n + 1 ≥ MAXPATHLEN - 1 := by
    have : MAXPATHLEN = 4096 := rfl
    omega
  have hlast : (body start (resolved 0) (normalSegments (decide (start = 0))
      (slice resolved start (len - start)))).getLast? = some (mem n) := by
    rw [← hbody, getLast?_slice]
  unfold virtualFileEx
  rw [hjoin]
  dsimp only
  rw [hcall]
  dsimp only
  rw [hmem, hlast]
  dsimp only
  rw [if_neg fun h => hmax' h.2.2.2, ← hbody]
  have hcond : resolved (len - 1) = slash ∧ n + 1 ≠ 0 ∧ mem (n + 1 - 1) ≠ slash ↔
      resolved (len - 1) = slash ∧ some (mem n) ≠ some slash := by
    rw [Nat.add_sub_cancel]
    exact ⟨fun h => ⟨h.1, fun heq => h.2.2 (some.inj heq)⟩,
      fun h => ⟨h.1, Nat.succ_ne_zero n, fun heq => h.2 (congrArg some heq)⟩⟩
  by_cases hadd : resolved (len - 1) = slash ∧ some (mem n) ≠ some slash
  · have happend := slice_store_append mem 0 (n + 1) [slash]
    rw [Nat.zero_add] at happend
    rw [if_pos (hcond.mpr hadd), if_pos hadd, ← happend]
    rfl
  · rw [if_neg (mt hcond.mp hadd), if_neg hadd]

theorem joined_ne_nil {cwd path : Bytes} (hne : path ≠ []) : joined cwd path ≠ [] := by
  unfold joined
  split
  · exact hne
  · split
    · exact append_ne_nil_of_right_ne_nil _ hne
    · exact append_ne_nil_of_right_ne_nil _ (cons_ne_nil _ _)

theorem joined_eq {cwd path : Bytes} (habs : path.head? ≠ some slash) (hcwd : cwd ≠ []) :
    joined cwd path =
      if cwd.getLast? = some slash then cwd ++ path else cwd ++ slash :: path :=
  if_neg fun h => h.elim habs hcwd

theorem joinPath_eq (garbage : Memory) {cwd path : Bytes} (hne : path ≠ [])
    (hfits : FitsBuffer cwd path) :
    joinPath garbage cwd path = some (if path.head? ≠ some slash ∧ cwd = [] then 0 else 1,
      store garbage 0 (joined cwd path ++ [0]), (joined cwd path).length) ∧
    (joined cwd path).length + 1 < MAXPATHLEN := by
  obtain ⟨hpath, hcwd⟩ := hfits
  have hpos := length_pos_iff.mpr hne
  have hmax : ¬(path.length = 0 ∨ path.length ≥ MAXPATHLEN - 1) := by omega
  unfold joinPath
  rw [if_neg hmax]
  by_cases habs : path.head? = some slash
  · rw [if_pos habs, show joined cwd path = path from if_pos (.inl habs), if_neg fun h => h.1 habs]
    exact ⟨rfl, hpath⟩
  rw [if_neg habs]
  by_cases hnil : cwd = []
  · rw [if_pos (length_eq_zero_iff.mpr hnil),
      show joined cwd path = path from if_pos (.inr hnil), if_pos ⟨habs, hnil⟩]
    exact ⟨rfl, hpath⟩
  have hfit := hcwd habs hnil
  have hstart : (if path.head? ≠ some slash ∧ cwd = [] then 0 else 1) = 1 :=
    if_neg fun h => hnil h.2
  rw [if_neg (mt length_eq_zero_iff.mp hnil), if_neg (by omega), joined_eq habs hnil, hstart]
  by_cases hslash : cwd.getLast? = some slash
  · rw [if_pos hslash, if_pos hslash, append_assoc, length_append, Nat.add_comm]
    exact ⟨rfl, by omega⟩
  · rw [if_neg hslash, if_neg hslash, append_assoc, length_append, length_cons,
      show path.length + cwd.length + 1 = cwd.length + (path.length + 1) by omega]
    exact ⟨rfl, by omega⟩

theorem joined_head? (path : Bytes) {cwd : Bytes} (hcwd : cwd = [] ∨ cwd.head? = some slash) :
    (joined cwd path).head? = some slash ↔ ¬(path.head? ≠ some slash ∧ cwd = []) := by
  by_cases habs : path.head? = some slash
  · rw [show joined cwd path = path from if_pos (.inl habs)]
    exact iff_of_true habs fun h => h.1 habs
  by_cases hnil : cwd = []
  · rw [show joined cwd path = path from if_pos (.inr hnil)]
    exact iff_of_false habs fun h => h ⟨habs, hnil⟩
  · rw [joined_eq habs hnil]
    obtain ⟨c, cwd, rfl⟩ := exists_cons_of_ne_nil hnil
    have hc : c = slash := some.inj (hcwd.resolve_left hnil)
    rw [hc]
    refine iff_of_true ?_ fun h => cons_ne_nil _ _ h.2
    split <;> rfl

theorem virtualFileEx_expansion (garbage : Memory) {cwd path : Bytes}
    (verifyPath : Option (Bytes → Bool)) (hne : path ≠ [])
    (hcwd : cwd = [] ∨ cwd.head? = some slash) (hfits : FitsBuffer cwd path) :
    virtualFileEx garbage cwd path verifyPath =
      settle cwd verifyPath (expansion (joined cwd path)) := by
  obtain ⟨hjoin, hmax⟩ := joinPath_eq garbage hne hfits
  have hhead := joined_head? path hcwd
  have hne' : joined cwd path ≠ [] := joined_ne_nil hne
  obtain ⟨text, htext⟩ : ∃ text, text = joined cwd path := ⟨_, rfl⟩
  rw [← htext] at hjoin hmax hhead hne' ⊢
  have hslice : slice (store garbage 0 (text ++ [0])) 0 text.length = text := by
    rw [slice_store_take _ 0 (by simp), take_left]
  obtain ⟨n, hn⟩ := Nat.exists_eq_succ_of_ne_zero (mt length_eq_zero_iff.mp hne')
  have hlast : text.getLast? = some (store garbage 0 (text ++ [0]) (text.length - 1)) := by
    have := getLast?_slice (store garbage 0 (text ++ [0])) n
    rw [← Nat.succ_eq_add_one, ← hn, hslice] at this
    rw [this, hn]
    rfl
  have hfirst : text.head? = some (store garbage 0 (text ++ [0]) 0) := by
    have := congrArg List.head? hslice
    rw [hn, slice_succ] at this
    exact this.symm
  have hend : text.getLast? = some slash ↔
      store garbage 0 (text ++ [0]) (text.length - 1) = slash := by
    rw [hlast, Option.some_inj]
  unfold expansion
  by_cases hrel : path.head? ≠ some slash ∧ cwd = []
  · have hhead' : text.head? ≠ some slash := fun h => hhead.mp h hrel
    rw [if_pos hrel] at hjoin
    rw [virtualFileEx_eq verifyPath hjoin (Nat.zero_le 1)
      (fun _ h => hhead' (hfirst.trans (congrArg some h))) hmax]
    have hbody : body 0 (store garbage 0 (text ++ [0]) 0) (normalSegments true text) =
        normalBody text := by
      unfold normalBody
      rw [decide_eq_false hhead']
      rfl
    simp only [hend, Nat.sub_zero, hslice, decide_true, hbody]
  · have hhead' := hhead.mpr hrel
    rw [if_neg hrel] at hjoin
    rw [virtualFileEx_eq verifyPath hjoin (Nat.le_refl 1) (fun h => absurd h Nat.one_ne_zero) hmax]
    have hbyte := some.inj (hfirst.symm.trans hhead')
    obtain ⟨tail, rfl⟩ : ∃ tail, text = slash :: tail := by
      obtain ⟨c, tail, rfl⟩ := exists_cons_of_ne_nil hne'
      exact ⟨tail, by rw [some.inj hhead']⟩
    have htail : slice (store garbage 0 (slash :: tail ++ [0])) 1 tail.length = tail := by
      rw [length_cons, slice_succ] at hslice
      exact tail_eq_of_cons_eq hslice
    have hbody : body 1 slash (normalSegments false tail) = normalBody (slash :: tail) := by
      rw [normalBody_absolute]
      rfl
    simp only [hend, hbyte, length_cons, Nat.add_sub_cancel, htail, hbody,
      show decide (1 = 0) = false from rfl]

/-! ## The slash at the end -/

theorem getLast?_joinSegments_ne (relative : Bool) (text : Bytes) :
    (joinSegments (normalSegments relative text)).getLast? ≠ some slash := by
  rcases eq_nil_or_concat (normalSegments relative text) with hnil | ⟨init, top, hsegs⟩
  · rw [hnil]
    exact fun h => by cases h
  · rw [concat_eq_append] at hsegs
    have htop : top ∈ normalSegments relative text :=
      hsegs ▸ mem_append_right _ mem_cons_self
    have hlast : (joinSegments (init ++ [top])).getLast? = top.getLast? := by
      by_cases hinit : init = []
      · subst hinit
        rw [nil_append, joinSegments_singleton]
      · rw [joinSegments_append hinit, List.getLast?_append_of_ne_nil _ (cons_ne_nil _ _),
          List.getLast?_cons_of_ne_nil (ne_nil_of_mem htop)]
    rw [hsegs, hlast]
    exact fun h => not_slash_of_mem htop (mem_of_getLast? h)

theorem normalBody_eq_root (h : (normalBody text).getLast? = some slash) :
    normalBody text = [slash] := by
  by_cases habs : text.head? = some slash
  · obtain ⟨text, rfl⟩ : ∃ t, text = slash :: t := by
      cases text with
      | nil => cases habs
      | cons c t => exact ⟨t, by rw [some.inj habs]⟩
    rw [normalBody_absolute] at h ⊢
    by_cases hnil : joinSegments (normalSegments false text) = []
    · rw [hnil]
    · rw [List.getLast?_cons_of_ne_nil hnil] at h
      exact absurd h (getLast?_joinSegments_ne false text)
  · rw [normalBody_relative habs] at h
    split at h
    · exact absurd h (by decide)
    · exact absurd h (getLast?_joinSegments_ne true text)

theorem getLast?_expansion (h : expansion text ≠ [slash]) :
    (expansion text).getLast? = some slash ↔ text.getLast? = some slash := by
  unfold expansion at h ⊢
  split
  · rename_i hadd
    exact iff_of_true List.getLast?_concat hadd.1
  · rename_i hadd
    rw [if_neg hadd] at h
    have hbody : (normalBody text).getLast? ≠ some slash :=
      fun hlast => h (normalBody_eq_root hlast)
    exact iff_of_false hbody fun hlast => hadd ⟨hlast, hbody⟩

theorem getLast?_joined {cwd path : Bytes} (hne : path ≠ []) :
    (joined cwd path).getLast? = path.getLast? := by
  unfold joined
  split
  · rfl
  · split
    · exact List.getLast?_append_of_ne_nil _ hne
    · rw [List.getLast?_append_of_ne_nil _ (cons_ne_nil _ _), List.getLast?_cons_of_ne_nil hne]

theorem head?_expansion (text : Bytes) :
    (expansion text).head? = some slash ↔ text.head? = some slash := by
  have hhead : (expansion text).head? = (normalBody text).head? := by
    obtain ⟨c, body, hbody⟩ := exists_cons_of_ne_nil (normalBody_ne_nil text)
    unfold expansion
    rw [hbody]
    split <;> rfl
  rw [hhead]
  by_cases habs : text.head? = some slash
  · obtain ⟨text, rfl⟩ : ∃ t, text = slash :: t := by
      cases text with
      | nil => cases habs
      | cons c t => exact ⟨t, by rw [some.inj habs]⟩
    rw [normalBody_absolute]
    exact iff_of_true rfl habs
  · rw [normalBody_relative habs]
    refine iff_of_false ?_ habs
    split
    · decide
    · exact head?_joinSegments_ne true text

/-- **Expanding a path**: it becomes the lexical normal form of the path behind the working
directory, with a slash at its end exactly when the path has one; expanding that again changes
nothing; and no call writes behind its own part of the buffer, where the callers have theirs. -/
theorem virtualFileEx_expand (garbage : Memory) {cwd path : Bytes}
    (verifyPath : Option (Bytes → Bool)) (hne : path ≠ [])
    (hcwd : cwd = [] ∨ cwd.head? = some slash) (hfits : FitsBuffer cwd path) :
    virtualFileEx garbage cwd path verifyPath =
      settle cwd verifyPath (expansion (joined cwd path)) ∧
    (expansion (joined cwd path) ≠ [slash] →
      ((expansion (joined cwd path)).getLast? = some slash ↔ path.getLast? = some slash)) ∧
    virtualFileEx garbage cwd (expansion (joined cwd path)) verifyPath =
      settle cwd verifyPath (expansion (joined cwd path)) ∧
    ∀ start mem len, start ≤ 1 → (start = 0 → mem 0 ≠ slash) → len + 1 < MAXPATHLEN →
      ∀ k, len < k → (tsrmRealpathR start mem len).1 k = mem k := by
  refine ⟨virtualFileEx_expansion garbage verifyPath hne hcwd hfits, fun hroot => ?_, ?_, ?_⟩
  · rw [getLast?_expansion hroot, getLast?_joined hne]
  · have hne' : joined cwd path ≠ [] := joined_ne_nil hne
    have hexp : expansion (joined cwd path) ≠ [] := by
      unfold expansion
      split
      · exact append_ne_nil_of_right_ne_nil _ (cons_ne_nil _ _)
      · exact normalBody_ne_nil _
    have hlen := length_expansion_le hne'
    have hmax := (joinPath_eq garbage hne hfits).2
    have habs : (expansion (joined cwd path)).head? = some slash ∨ cwd = [] := by
      rw [head?_expansion, joined_head? path hcwd]
      tauto
    have hagain : joined cwd (expansion (joined cwd path)) = expansion (joined cwd path) :=
      if_pos habs
    rw [virtualFileEx_expansion garbage verifyPath hexp hcwd
      ⟨by omega, fun hrel hcwd' => absurd (habs.resolve_left hrel) hcwd'⟩, hagain,
      expansion_expansion]
  · intro start mem len hstart hrel hmax k hk
    obtain ⟨mem', j, hcall, hexpanded⟩ := tsrmRealpathR_spec hstart hrel hmax
    rw [hcall]
    exact hexpanded.behind k hk

theorem virtualFileEx_expand_etc :
    virtualFileEx (fun _ => 0) (Bytes.ascii "/var/www") (Bytes.ascii "../../etc//x/.") none =
      settle (Bytes.ascii "/var/www") none
        (expansion (joined (Bytes.ascii "/var/www") (Bytes.ascii "../../etc//x/."))) :=
  (virtualFileEx_expand (fun _ => 0) none (by decide) (.inr (by decide))
    ⟨by decide, fun _ _ => by decide⟩).1

/-! ## One directory after the other -/

theorem normalSegments_congr {text' : Bytes}
    (h : normalSegments relative text = normalSegments relative text') (b : Bytes) :
    normalSegments relative (text ++ slash :: b) =
      normalSegments relative (text' ++ slash :: b) := by
  have hstack := reverse_injective h
  rw [normalSegments, normalSegments, splitOn_append_cons_self, splitOn_append_cons_self, normalise,
    normalise, foldl_append, foldl_append, hstack]

theorem normalSegments_expansion (habs : text.head? = some slash) :
    normalSegments false (expansion text) = normalSegments false text := by
  obtain ⟨t, rfl⟩ := head?_eq_some_iff.mp habs
  have hbody : normalSegments false (normalBody (slash :: t)) =
      normalSegments false (slash :: t) := by
    rw [normalBody_absolute, normalSegments_cons_slash, normalSegments_joinSegments,
      normalSegments_cons_slash]
  unfold expansion
  split
  · rw [normalSegments_append_slash, hbody]
  · exact hbody

theorem expansion_congr {text' : Bytes} (habs : text.head? = some slash)
    (habs' : text'.head? = some slash) (hlast : text.getLast? = text'.getLast?)
    (h : normalSegments false text = normalSegments false text') :
    expansion text = expansion text' := by
  obtain ⟨t, rfl⟩ := head?_eq_some_iff.mp habs
  obtain ⟨t', rfl⟩ := head?_eq_some_iff.mp habs'
  rw [normalSegments_cons_slash, normalSegments_cons_slash] at h
  rw [expansion, expansion, hlast, normalBody_absolute, normalBody_absolute, h]

theorem joined_append {cwd a b : Bytes} (ha : a ≠ []) :
    joined cwd (a ++ slash :: b) = joined cwd a ++ slash :: b := by
  rw [joined, joined, head?_append_of_ne_nil _ ha]
  split
  · rfl
  · split <;> simp

theorem expansion_joined_expansion {b : Bytes} (habs : text.head? = some slash) (hb : b ≠ [])
    (hrel : b.head? ≠ some slash) :
    expansion (joined (expansion text) b) = expansion (text ++ slash :: b) := by
  have hhead := (head?_expansion text).mpr habs
  have hne : expansion text ≠ [] := by
    rintro h
    rw [h] at hhead
    cases hhead
  have hjoin : normalSegments false (joined (expansion text) b) =
      normalSegments false (expansion text ++ slash :: b) := by
    rw [joined_eq hrel hne]
    split
    next hlast =>
      obtain ⟨init, hinit⟩ := getLast?_eq_some_iff.mp hlast
      rw [hinit, append_assoc]
      exact normalSegments_congr (normalSegments_append_slash false init).symm b
    next => rfl
  refine expansion_congr ?_ (by rw [head?_append, habs]; rfl) ?_
    (hjoin.trans (normalSegments_congr (normalSegments_expansion habs) b))
  · rw [joined_head? b (.inr hhead)]
    exact fun h => hne h.2
  · rw [getLast?_joined hb, getLast?_append_of_ne_nil _ (cons_ne_nil _ _),
      getLast?_cons_of_ne_nil hb]

theorem FitsBuffer.append {cwd a b : Bytes} (ha : a ≠ []) (h : FitsBuffer cwd (a ++ slash :: b)) :
    FitsBuffer cwd a ∧ FitsBuffer (expansion (joined cwd a)) b := by
  have hle : (expansion (joined cwd a)).length ≤ (joined cwd a).length :=
    length_expansion_le (joined_ne_nil ha)
  have hlen : (a ++ slash :: b).length = a.length + b.length + 1 := by
    rw [length_append, length_cons]
    omega
  obtain ⟨hpath, hboth⟩ := h
  rw [head?_append_of_ne_nil _ ha] at hboth
  refine ⟨⟨by omega, fun hrel hcwd => ?_⟩, by omega, fun _ _ => ?_⟩
  · have := hboth hrel hcwd
    omega
  · have hjoined : (joined cwd a).length + b.length + 2 < MAXPATHLEN := by
      unfold joined
      split
      next => omega
      next hrel =>
        obtain ⟨hrel, hcwd⟩ := not_or.mp hrel
        have := hboth hrel hcwd
        split <;> simp only [length_append, length_cons] <;> omega
    omega

/-- **Changing directories one after the other** is changing to the joined path. -/
theorem foldl_virtualFileEx (garbage : Memory) {cwd : Bytes} {bs : List Bytes}
    (hcwd : cwd.head? = some slash) (hne : bs ≠ []) (hbs : ∀ b ∈ bs, b ≠ [] ∧ b.head? ≠ some slash)
    (hfits : FitsBuffer cwd (joinSegments bs)) :
    bs.foldl (fun cwd b => (virtualFileEx garbage cwd b none).2) cwd =
      (virtualFileEx garbage cwd (joinSegments bs) none).2 := by
  -- induction on the changes, the last one last
  induction bs using reverseRecOn with
  | nil => exact absurd rfl hne
  | append_singleton init b ih =>
    obtain ⟨hb, hrel⟩ := hbs b (mem_append_right _ mem_cons_self)
    rw [foldl_append, foldl_cons, foldl_nil]
    by_cases hinit : init = []
    · rw [hinit, nil_append, joinSegments_singleton]
      rfl
    rw [joinSegments_append hinit] at hfits ⊢
    have hjoin : joinSegments init ≠ [] := fun h =>
      hinit (joinSegments_eq_nil (fun s hs => (hbs s (mem_append_left _ hs)).1) h)
    obtain ⟨hfirst, hsecond⟩ := hfits.append hjoin
    have habs : (joined cwd (joinSegments init)).head? = some slash := by
      rw [joined_head? _ (.inr hcwd)]
      rintro ⟨-, rfl⟩
      cases hcwd
    rw [ih hinit (fun s hs => hbs s (mem_append_left _ hs)) hfirst,
      virtualFileEx_expansion garbage none hjoin (.inr hcwd) hfirst]
    show (virtualFileEx garbage (expansion (joined cwd (joinSegments init))) b none).2 = _
    rw [virtualFileEx_expansion garbage none hb (.inr ((head?_expansion _).mpr habs)) hsecond,
      virtualFileEx_expansion garbage none (append_ne_nil_of_left_ne_nil hjoin _) (.inr hcwd) hfits,
      joined_append hjoin]
    exact expansion_joined_expansion habs hb hrel

theorem foldl_virtualFileEx_up :
    [Bytes.ascii "a/b", Bytes.ascii "../c"].foldl
        (fun cwd b => (virtualFileEx (fun _ => 0) cwd b none).2) (Bytes.ascii "/w") =
      (virtualFileEx (fun _ => 0) (Bytes.ascii "/w") (Bytes.ascii "a/b/../c") none).2 :=
  foldl_virtualFileEx _ (by decide) (by decide) (by decide) ⟨by decide, fun _ _ => by decide⟩

/-! ## Where it is not expanded so -/

/-- A path of `MAXPATHLEN - 1` bytes is refused; a working directory that is not absolute loses a
slash; and the root ends in a slash where the path does not. -/
theorem not_expand :
    (¬∀ (garbage : Memory) (cwd path : Bytes), path ≠ [] → path.length < MAXPATHLEN →
      virtualFileEx garbage cwd path none = (0, expansion (joined cwd path))) ∧
    virtualFileEx (fun _ => 0) (Bytes.ascii "a") (Bytes.ascii "b") none = (0, Bytes.ascii "ab") ∧
    virtualFileEx (fun _ => 0) [] (Bytes.ascii "/..") none = (0, [slash]) := by
  refine ⟨fun h => ?_, ?_, ?_⟩
  · have hlen : (List.replicate 4095 dot).length = 4095 := length_replicate
    have hcall := h (fun _ => 0) [] (List.replicate 4095 dot)
      (fun hnil => by rw [hnil] at hlen; cases hlen) (by rw [hlen]; decide)
    unfold virtualFileEx joinPath at hcall
    rw [hlen, if_pos (.inr (by decide))] at hcall
    cases hcall
  · obtain ⟨hjoin, hmax⟩ := joinPath_eq (fun _ => 0) (show Bytes.ascii "b" ≠ [] by decide)
      (show FitsBuffer (Bytes.ascii "a") (Bytes.ascii "b") from
        ⟨by decide, fun _ _ => by decide⟩)
    rw [if_neg (by decide)] at hjoin
    rw [virtualFileEx_eq none hjoin (Nat.le_refl 1) (fun h => absurd h Nat.one_ne_zero) hmax]
    decide
  · rw [virtualFileEx_expansion (fun _ => 0) none (by decide) (.inl rfl)
      ⟨by decide, fun _ h => absurd rfl h⟩]
    decide

end Phpce.Realpath.Expand
