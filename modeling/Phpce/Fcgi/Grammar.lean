import Phpce.Lib.Buffer
import Phpce.Fcgi.Params

/-!
# What `fcgi_get_params` accepts

The loop of `fcgi_get_params` over a buffer, with the offsets that it reads and the sums of lengths
that it compares. It is accepted what the grammar of name-value pairs allows, but for three kinds of
blocks.

* **`exact_iff`** — the blocks on which the loop stays in the buffer and accepts exactly the
  grammar.
-/

namespace Phpce

namespace Fcgi

open Bytes Buffer List

/-! ## The loop -/

/-- What the loop does: its result, the environment it leaves, the offsets it reads, and the sums of
a name length and a value length, before they are cut to 32 bits. -/
structure ParamsScan where
  ok : Bool
  env : Env
  reads : List Nat
  sums : List Nat

/-- A length at `p`, where the cursor is then, and the offsets read; `none` is `return 0`. -/
def readLengthAt (buf : Nat → UInt8) (fin p : Nat) : Option (Nat × Nat) × List Nat :=
  let b := buf p
  if b < 128 then (some (b.toNat, p + 1), [p])
  else if fin ≤ p + 1 + 3 then (none, [p])
  else
    (some ((b.toNat &&& 0x7f) <<< 24 ||| (buf (p + 1)).toNat <<< 16 |||
      (buf (p + 2)).toNat <<< 8 ||| (buf (p + 3)).toNat, p + 4), [p, p + 1, p + 2, p + 3])

/-- What `FCGI_HASH_FUNC` reads of a name at `p`. -/
def hashReads (p len : Nat) : List Nat :=
  if len < 3 then [] else [p + 3, p + (len - 2), p + (len - 1)]

theorem readLengthAt_lt {buf : Nat → UInt8} {fin p len p' : Nat} {reads : List Nat}
    (h : readLengthAt buf fin p = (some (len, p'), reads)) : p < p' := by
  rw [readLengthAt] at h
  split at h
  · cases h
    exact Nat.lt_succ_self p
  · split at h
    · cases h
    · cases h
      exact Nat.lt_add_of_pos_right (by decide)

/-- `fcgi_get_params(req, p, end)` -/
def scanParams (buf : Nat → UInt8) (fin p : Nat) (env : Env) : ParamsScan :=
  if _hp : p < fin then
    match _hname : readLengthAt buf fin p with
    | (none, reads) => ⟨false, env, reads, []⟩
    | (some (nameLen, p₁), reads) =>
      if fin ≤ p₁ then ⟨false, env, reads, []⟩
      else
        match _hval : readLengthAt buf fin p₁ with
        | (none, reads₁) => ⟨false, env, reads ++ reads₁, []⟩
        | (some (valLen, p₂), reads₁) =>
          let sum := (nameLen + valLen) % 0x100000000
          if (fin - p₂) % 0x100000000 < sum then
            ⟨false, env, reads ++ reads₁, [nameLen + valLen]⟩
          else
            let name := slice buf p₂ nameLen
            let next := scanParams buf fin (p₂ + sum)
              (fcgiHashSet env (fcgiHashFunc name (buf (p₂ + nameLen))) name
                (slice buf (p₂ + nameLen) valLen))
            { next with
              reads := reads ++ reads₁ ++ hashReads p₂ nameLen ++
                List.range' p₂ (nameLen + valLen) ++ next.reads
              sums := (nameLen + valLen) :: next.sums }
  else ⟨true, env, [], []⟩
  termination_by fin - p
  decreasing_by
    have hname := readLengthAt_lt _hname
    have hval := readLengthAt_lt _hval
    omega

theorem scanParams_of_lt {buf : Nat → UInt8} {fin p : Nat} (hp : p < fin) (env : Env) :
    scanParams buf fin p env =
      match readLengthAt buf fin p with
      | (none, reads) => ⟨false, env, reads, []⟩
      | (some (nameLen, p₁), reads) =>
        if fin ≤ p₁ then ⟨false, env, reads, []⟩
        else
          match readLengthAt buf fin p₁ with
          | (none, reads₁) => ⟨false, env, reads ++ reads₁, []⟩
          | (some (valLen, p₂), reads₁) =>
            let sum := (nameLen + valLen) % 0x100000000
            if (fin - p₂) % 0x100000000 < sum then
              ⟨false, env, reads ++ reads₁, [nameLen + valLen]⟩
            else
              let name := slice buf p₂ nameLen
              let next := scanParams buf fin (p₂ + sum)
                (fcgiHashSet env (fcgiHashFunc name (buf (p₂ + nameLen))) name
                  (slice buf (p₂ + nameLen) valLen))
              { next with
                reads := reads ++ reads₁ ++ hashReads p₂ nameLen ++
                  List.range' p₂ (nameLen + valLen) ++ next.reads
                sums := (nameLen + valLen) :: next.sums } := by
  conv_lhs => rw [scanParams, dif_pos hp]
  rcases readLengthAt buf fin p with ⟨- | ⟨nameLen, p₁⟩, reads⟩
  · rfl
  · dsimp only
    split
    · rfl
    · rcases readLengthAt buf fin p₁ with ⟨- | ⟨valLen, p₂⟩, reads₁⟩ <;> rfl

/-! ## Decoding -/

/-- A length that a block starts with: its form, and what stands behind it. -/
def decodeLength : Bytes → Option (Bool × Nat × Bytes)
  | [] => none
  | b :: r =>
    if b < 128 then some (false, b.toNat, r)
    else
      match r with
      | b₂ :: b₁ :: b₀ :: q => some (true, fourBytes b b₂ b₁ b₀, q)
      | _ => none

theorem decodeLength_encode {long : Bool} {n : Nat} (hn : n < if long then 0x80000000 else 128)
    (q : Bytes) : decodeLength (encodeLength long n ++ q) = some (long, n, q) := by
  cases long with
  | false =>
    obtain ⟨hbyte, hshort⟩ := ofNat_lt_of_short (show n < 128 by simpa using hn)
    simp [encodeLength, decodeLength, hshort, hbyte]
  | true =>
    have hn' : n < 0x80000000 := by simpa using hn
    have hlong := not_ofNat_lt_of_long hn'
    rw [encodeLength, if_pos rfl]
    simp only [cons_append, nil_append, decodeLength, hlong, if_false,
      fourBytes_ofNat hn']

theorem eq_encodeLength {b q : Bytes} {long : Bool} {n : Nat}
    (h : decodeLength b = some (long, n, q)) :
    (n < if long then 0x80000000 else 128) ∧ b = encodeLength long n ++ q := by
  have hofNat : ∀ (c : UInt8) (m : Nat), m % 0x100 = c.toNat → UInt8.ofNat m = c :=
    fun c m hm => UInt8.toNat_inj.mp hm
  cases b with
  | nil => cases h
  | cons b r =>
    by_cases hshort : b < 128
    · have hdecode : decodeLength (b :: r) = some (false, b.toNat, r) := by
        simp [decodeLength, hshort]
      rw [hdecode] at h
      cases h
      exact ⟨UInt8.lt_iff_toNat_lt.mp hshort, by simp [encodeLength]⟩
    · have htop : 128 ≤ b.toNat := UInt8.le_iff_toNat_le.mp (UInt8.not_lt.mp hshort)
      have hlt := b.toNat_lt
      rcases r with - | ⟨b₂, - | ⟨b₁, - | ⟨b₀, q⟩⟩⟩
      all_goals simp only [decodeLength, hshort, if_false] at h
      · cases h
      · cases h
      · cases h
      · cases h
        have hlt₂ := b₂.toNat_lt
        have hlt₁ := b₁.toNat_lt
        have hlt₀ := b₀.toNat_lt
        refine ⟨by rw [fourBytes_eq, if_pos rfl]; omega, ?_⟩
        rw [encodeLength, if_pos rfl, fourBytes_eq, hofNat b _ (by omega), hofNat b₂ _ (by omega),
          hofNat b₁ _ (by omega), hofNat b₀ _ (by omega)]
        rfl

theorem exists_pair {b q q' : Bytes} {long long' : Bool} {n m : Nat}
    (h : decodeLength b = some (long, n, q)) (h' : decodeLength q = some (long', m, q'))
    (hlen : n + m ≤ q'.length) :
    ∃ (pr : NameValuePair) (tail : Bytes), b = pr.encode ++ tail ∧ pr.longValue = long' ∧
      pr.name ++ (pr.value ++ tail) = q' := by
  obtain ⟨hn, rfl⟩ := eq_encodeLength h
  obtain ⟨hm, rfl⟩ := eq_encodeLength h'
  have hname : (q'.take n).length = n := length_take_of_le (by omega)
  have hvalue : ((q'.drop n).take m).length = m :=
    length_take_of_le (by rw [length_drop]; omega)
  have hsplit : q'.take n ++ ((q'.drop n).take m ++ q'.drop (n + m)) = q' := by
    rw [← drop_drop, take_append_drop, take_append_drop]
  refine ⟨⟨q'.take n, (q'.drop n).take m, long, long', by rwa [hname], by rwa [hvalue]⟩,
    q'.drop (n + m), ?_, rfl, hsplit⟩
  simp only [NameValuePair.encode, append_assoc, hsplit, hname, hvalue]

theorem NameValuePair.sum_lt (pr : NameValuePair) :
    pr.name.length + pr.value.length < 0x100000000 := by
  have hname := pr.name_length
  have hvalue := pr.value_length
  split at hname <;> split at hvalue <;> omega

section Cursor

variable {buf : Nat → UInt8} {fin p n : Nat} {q : Bytes} {long : Bool}

/-- What stands before `fin`. -/
def rest (buf : Nat → UInt8) (fin p : Nat) : Bytes := slice buf p (fin - p)

theorem length_rest : (rest buf fin p).length = fin - p := length_slice

theorem rest_add {k : Nat} (h : p + k ≤ fin) :
    rest buf fin p = slice buf p k ++ rest buf fin (p + k) := by
  rw [rest, rest, ← slice_add]
  congr 1
  omega

theorem rest_eq_nil_iff : rest buf fin p = [] ↔ fin ≤ p := by
  rw [← length_eq_zero_iff, length_rest]
  exact Nat.sub_eq_zero_iff_le

theorem readLengthAt_some (hp : p < fin) (h : decodeLength (rest buf fin p) = some (long, n, q))
    (hq : ¬(long = true ∧ q = [])) :
    ∃ p' reads, readLengthAt buf fin p = (some (n, p'), reads) ∧ p < p' ∧ p' ≤ fin ∧
      rest buf fin p' = q ∧ ∀ r ∈ reads, r < fin := by
  rw [rest_add (k := 1) hp, slice_succ, slice_zero, cons_append, nil_append] at h
  by_cases hshort : buf p < 128
  · simp only [decodeLength, hshort, if_true, Option.some.injEq, Prod.mk.injEq] at h
    obtain ⟨rfl, rfl, rfl⟩ := h
    refine ⟨p + 1, [p], ?_, Nat.lt_succ_self p, hp, rfl, ?_⟩
    · rw [readLengthAt, if_pos hshort]
    · simpa using hp
  · by_cases hroom : p + 4 ≤ fin
    · have hfour : rest buf fin (p + 1) = slice buf (p + 1) 3 ++ rest buf fin (p + 1 + 3) :=
        rest_add hroom
      rw [slice_succ, slice_succ, slice_succ, slice_zero] at hfour
      rw [hfour] at h
      simp only [decodeLength, hshort, if_false, cons_append, nil_append,
        Option.some.injEq, Prod.mk.injEq] at h
      obtain ⟨rfl, rfl, rfl⟩ := h
      have hlt : p + 4 < fin := by
        by_contra hge
        exact hq ⟨rfl, rest_eq_nil_iff.mpr (Nat.not_lt.mp hge)⟩
      refine ⟨p + 4, [p, p + 1, p + 2, p + 3], ?_, Nat.lt_add_of_pos_right (by decide), hroom, rfl,
        ?_⟩
      · rw [readLengthAt, if_neg hshort, if_neg (Nat.not_le.mpr hlt)]
        rfl
      · intro r hr
        simp only [mem_cons, not_mem_nil, or_false] at hr
        omega
    · have hfew : (rest buf fin (p + 1)).length < 3 := by
        rw [length_rest]
        omega
      simp only [decodeLength, hshort, if_false] at h
      split at h
      · rename_i hcons
        rw [hcons, length_cons, length_cons, length_cons] at hfew
        omega
      · cases h

theorem readLengthAt_none (hp : p < fin)
    (h : ∀ long n q, decodeLength (rest buf fin p) = some (long, n, q) → long = true ∧ q = []) :
    readLengthAt buf fin p = (none, [p]) := by
  rw [rest_add (k := 1) hp, slice_succ, slice_zero, cons_append, nil_append] at h
  by_cases hshort : buf p < 128
  · have hdecode := h false (buf p).toNat (rest buf fin (p + 1)) (by simp [decodeLength, hshort])
    exact absurd hdecode.1 (by decide)
  · by_cases hroom : fin ≤ p + 4
    · rw [readLengthAt, if_neg hshort, if_pos hroom]
    · have hfour : rest buf fin (p + 1) = slice buf (p + 1) 3 ++ rest buf fin (p + 1 + 3) :=
        rest_add (by omega)
      rw [slice_succ, slice_succ, slice_succ, slice_zero] at hfour
      have hdecode := h true (fourBytes (buf p) (buf (p + 1)) (buf (p + 2)) (buf (p + 3)))
        (rest buf fin (p + 4)) (by simp [decodeLength, hshort, hfour])
      exact absurd (rest_eq_nil_iff.mp hdecode.2) hroom

theorem lt_of_rest_eq_encode {pr : NameValuePair} {tail : Bytes}
    (h : rest buf fin p = pr.encode ++ tail) : p < fin := by
  have hlen := congrArg List.length h
  have hpos := encode_ne_nil pr
  rw [length_rest, length_append] at hlen
  omega

theorem scanParams_encode {pr : NameValuePair} {tail : Bytes}
    (h : rest buf fin p = pr.encode ++ tail)
    (hback : ¬(pr.longValue = true ∧ pr.name ++ (pr.value ++ tail) = [])) (env : Env) :
    ∃ p₂ reads, p < p₂ ∧ fin = p₂ + (pr.name.length + pr.value.length + tail.length) ∧
      rest buf fin (p₂ + pr.name.length) = pr.value ++ tail ∧
      rest buf fin (p₂ + (pr.name.length + pr.value.length)) = tail ∧ (∀ r ∈ reads, r < fin) ∧
      scanParams buf fin p env =
        let sum := pr.name.length + pr.value.length
        if (fin - p₂) % 0x100000000 < sum then ⟨false, env, reads, [sum]⟩
        else
          let next := scanParams buf fin (p₂ + sum)
            (fcgiHashSet env (fcgiHashFunc pr.name (buf (p₂ + pr.name.length))) pr.name pr.value)
          { next with
            reads := reads ++ hashReads p₂ pr.name.length ++ List.range' p₂ sum ++ next.reads
            sums := sum :: next.sums } := by
  have hp := lt_of_rest_eq_encode h
  rw [NameValuePair.encode, append_assoc, append_assoc, append_assoc] at h
  have hvalue :
      encodeLength pr.longValue pr.value.length ++ (pr.name ++ (pr.value ++ tail)) ≠ [] := by
    rw [encodeLength]
    split <;> exact cons_ne_nil _ _
  obtain ⟨p₁, reads, hread, hp₁, -, hrest₁, hreads⟩ := readLengthAt_some hp
    (h ▸ decodeLength_encode pr.name_length _) fun hq => hvalue hq.2
  have hlt₁ : p₁ < fin := by
    by_contra hge
    exact hvalue (hrest₁ ▸ rest_eq_nil_iff.mpr (Nat.not_lt.mp hge))
  obtain ⟨p₂, reads₁, hread₁, hp₂, hle₂, hrest₂, hreads₁⟩ := readLengthAt_some hlt₁
    (hrest₁ ▸ decodeLength_encode pr.value_length _) hback
  have hlen := congrArg List.length hrest₂
  rw [length_rest, length_append, length_append] at hlen
  have hsplit : rest buf fin p₂ = slice buf p₂ (pr.name.length + pr.value.length) ++
      rest buf fin (p₂ + (pr.name.length + pr.value.length)) := rest_add (by omega)
  rw [hrest₂, slice_add, append_assoc] at hsplit
  obtain ⟨hn, hsplit⟩ := List.append_inj hsplit (by rw [length_slice])
  obtain ⟨hv, htail⟩ := List.append_inj hsplit (by rw [length_slice])
  have hbehind : rest buf fin p₂ = slice buf p₂ pr.name.length ++
      rest buf fin (p₂ + pr.name.length) := rest_add (by omega)
  rw [hrest₂] at hbehind
  have hbehind := (List.append_inj hbehind (by rw [length_slice])).2
  have hsum : (pr.name.length + pr.value.length) % 0x100000000 =
      pr.name.length + pr.value.length := Nat.mod_eq_of_lt pr.sum_lt
  refine ⟨p₂, reads ++ reads₁, Nat.lt_trans hp₁ hp₂, by omega, hbehind.symm, htail.symm, ?_, ?_⟩
  · intro r hr
    exact (mem_append.mp hr).elim (hreads r) (hreads₁ r)
  · rw [scanParams_of_lt hp, hread]
    simp only [Nat.not_le.mpr hlt₁, if_false, hread₁, hsum, ← hn, ← hv]

theorem scanParams_refused (hp : p < fin)
    (h : ∀ (pr : NameValuePair) tail, rest buf fin p = pr.encode ++ tail →
      pr.longValue = true ∧ pr.name ++ (pr.value ++ tail) = []) (env : Env) :
    (scanParams buf fin p env).ok = false ∧ (scanParams buf fin p env).env = env ∧
      (∀ r ∈ (scanParams buf fin p env).reads, r < fin) ∧
        ∀ s ∈ (scanParams buf fin p env).sums, s < 0x100000000 := by
  have hone : ∀ {p : Nat}, p < fin → ∀ r ∈ [p], r < fin := fun hp r hr =>
    (mem_singleton.mp hr) ▸ hp
  by_cases hlen : ∀ long n q,
      decodeLength (rest buf fin p) = some (long, n, q) → long = true ∧ q = []
  · rw [scanParams_of_lt hp, readLengthAt_none hp hlen]
    exact ⟨rfl, rfl, hone hp, by simp⟩
  · push Not at hlen
    obtain ⟨long, n, q, hdecode, hq⟩ := hlen
    obtain ⟨p₁, reads, hread, hp₁, -, hrest₁, hreads⟩ :=
      readLengthAt_some hp hdecode fun hback => hq hback.1 hback.2
    rw [scanParams_of_lt hp, hread]
    by_cases hlt₁ : p₁ < fin
    · simp only [Nat.not_le.mpr hlt₁, if_false]
      by_cases hlen₁ : ∀ long m q',
          decodeLength (rest buf fin p₁) = some (long, m, q') → long = true ∧ q' = []
      · rw [readLengthAt_none hlt₁ hlen₁]
        refine ⟨rfl, rfl, fun r hr => ?_, by simp⟩
        exact (mem_append.mp hr).elim (hreads r) (hone hlt₁ r)
      · push Not at hlen₁
        obtain ⟨long₁, m, q', hdecode₁, hq'⟩ := hlen₁
        obtain ⟨p₂, reads₁, hread₁, hp₂, hle₂, hrest₂, hreads₁⟩ :=
          readLengthAt_some hlt₁ hdecode₁ fun hback => hq' hback.1 hback.2
        have hn := (eq_encodeLength hdecode).1
        have hm := (eq_encodeLength hdecode₁).1
        -- what is left is too short for the name and the value
        have hshort : fin - p₂ < n + m := by
          by_contra hge
          obtain ⟨pr, tail, hpair, hlong, hnil⟩ := exists_pair hdecode (hrest₁ ▸ hdecode₁)
            (by rw [← hrest₂, length_rest]; omega)
          obtain ⟨hlong', hnil'⟩ := h pr tail hpair
          exact hq' (hlong ▸ hlong') (hnil.symm.trans hnil')
        have hsum : n + m < 0x100000000 := by
          split at hn <;> split at hm <;> omega
        have hmod : (fin - p₂) % 0x100000000 < n + m := Nat.lt_of_le_of_lt (Nat.mod_le _ _) hshort
        rw [hread₁]
        simp only [Nat.mod_eq_of_lt hsum, hmod, if_true]
        refine ⟨trivial, trivial, fun r hr => ?_, by simpa using hsum⟩
        exact (mem_append.mp hr).elim (hreads r) (hreads₁ r)
    · simp only [Nat.not_lt.mp hlt₁, if_true]
      exact ⟨trivial, trivial, hreads, by simp⟩

/-! ## What is accepted -/

theorem encode_append_inj {pr pr' : NameValuePair} {t t' : Bytes}
    (h : pr.encode ++ t = pr'.encode ++ t') : pr = pr' ∧ t = t' := by
  simp only [NameValuePair.encode, append_assoc] at h
  have hname := decodeLength_encode pr.name_length
    (encodeLength pr.longValue pr.value.length ++ (pr.name ++ (pr.value ++ t)))
  rw [h, decodeLength_encode pr'.name_length] at hname
  obtain ⟨hlong, hlen, hvalues⟩ : pr'.longName = pr.longName ∧ pr'.name.length = pr.name.length ∧
      _ = _ := by simpa using hname
  have hvalue := decodeLength_encode pr.value_length (pr.name ++ (pr.value ++ t))
  rw [← hvalues, decodeLength_encode pr'.value_length] at hvalue
  obtain ⟨hlong', hlen', hbehind⟩ : pr'.longValue = pr.longValue ∧
      pr'.value.length = pr.value.length ∧ _ = _ := by simpa using hvalue
  obtain ⟨hn, hrest⟩ := List.append_inj hbehind hlen
  obtain ⟨hv, ht⟩ := List.append_inj hrest hlen'
  cases pr
  cases pr'
  subst hn hv hlong hlong'
  exact ⟨rfl, ht.symm⟩

/-- The blocks that the loop does not treat as the grammar has it: the last pair is empty and its
value length takes four bytes, so that it is refused; the last pair has a name of three bytes and no
value, so that the byte behind the block is read; or what stands behind the lengths of a pair is too
long for 32 bits, and what these say is shorter than the pair. -/
def Misread : List NameValuePair → Prop
  | [] => False
  | pr :: ps =>
    let behind := pr.name ++ (pr.value ++ encodeParams ps)
    (pr.longValue = true ∧ behind = []) ∨ (pr.name.length = 3 ∧ pr.value ++ encodeParams ps = []) ∨
      behind.length % 0x100000000 < pr.name.length + pr.value.length ∨ Misread ps

theorem pairReads_lt {p₂ m k : Nat} {reads reads' : List Nat} (hfin : fin = p₂ + (n + m + k))
    (hreads : ∀ r ∈ reads, r < fin) :
    (∀ r ∈ reads ++ hashReads p₂ n ++ List.range' p₂ (n + m) ++ reads', r < fin) ↔
      ¬(n = 3 ∧ m + k = 0) ∧ ∀ r ∈ reads', r < fin := by
  have hhash : (∀ r ∈ hashReads p₂ n, r < fin) ↔ ¬(n = 3 ∧ m + k = 0) := by
    rw [hashReads]
    split
    · rename_i hshort
      exact ⟨fun _ h => by omega, fun _ r hr => by cases hr⟩
    · simp only [mem_cons, not_mem_nil, or_false, forall_eq_or_imp, forall_eq]
      omega
  have hrange : ∀ r ∈ List.range' p₂ (n + m), r < fin := fun r hr => by
    have := (List.mem_range'_1.mp hr).2
    omega
  rw [← hhash]
  simp only [mem_append, or_imp, forall_and]
  exact ⟨fun h => ⟨h.1.1.2, h.2⟩, fun h => ⟨⟨⟨hreads, h.1⟩, hrange⟩, h.2⟩⟩

theorem scanParams_encodeParams (ps : List NameValuePair) (h : rest buf fin p = encodeParams ps)
    (env : Env) :
    ((scanParams buf fin p env).ok = true ∧ (∀ r ∈ (scanParams buf fin p env).reads, r < fin) ↔
      ¬Misread ps) ∧ ∀ s ∈ (scanParams buf fin p env).sums, s < 0x100000000 := by
  -- induction on the pairs
  induction ps generalizing p env with
  | nil =>
    have hfin : ¬p < fin := Nat.not_lt.mpr (rest_eq_nil_iff.mp h)
    rw [scanParams, dif_neg hfin]
    simp [Misread]
  | cons pr ps ih =>
    have hcons : rest buf fin p = pr.encode ++ encodeParams ps := h.trans flatMap_cons
    by_cases hback : pr.longValue = true ∧ pr.name ++ (pr.value ++ encodeParams ps) = []
    · obtain ⟨hok, -, -, hsums⟩ := scanParams_refused (lt_of_rest_eq_encode hcons)
        (fun pr' tail' h' => by
          obtain ⟨rfl, rfl⟩ := encode_append_inj (h'.symm.trans hcons)
          exact hback) env
      refine ⟨?_, hsums⟩
      rw [hok]
      exact ⟨fun h => absurd h.1 (by decide), fun h => absurd (.inl hback) h⟩
    · obtain ⟨p₂, reads, hp₂, hfin, -, hnext, hreads, hscan⟩ := scanParams_encode hcons hback env
      have hlen : (pr.name ++ (pr.value ++ encodeParams ps)).length = fin - p₂ := by
        rw [length_append, length_append]
        omega
      have hthree : pr.value ++ encodeParams ps = [] ↔
          pr.value.length + (encodeParams ps).length = 0 := by
        rw [← length_eq_zero_iff, length_append]
      rw [hscan, Misread, hlen, hthree]
      dsimp only
      by_cases hcut : (fin - p₂) % 0x100000000 < pr.name.length + pr.value.length
      · rw [if_pos hcut]
        refine ⟨⟨fun h => absurd h.1 Bool.false_ne_true,
            fun h => absurd (.inr (.inr (.inl hcut))) h⟩,
          fun s hs => ?_⟩
        rw [mem_singleton.mp hs]
        exact pr.sum_lt
      · rw [if_neg hcut]
        obtain ⟨hiff, hsums⟩ := ih hnext
          (fcgiHashSet env (fcgiHashFunc pr.name (buf (p₂ + pr.name.length))) pr.name pr.value)
        refine ⟨?_, fun s hs => ?_⟩
        · simp only [hback, hcut, false_or, not_or, ← hiff, pairReads_lt hfin hreads]
          exact and_left_comm
        · rcases mem_cons.mp hs with rfl | hs
          · exact pr.sum_lt
          · exact hsums s hs

theorem scanParams_invalid (h : ¬∃ ps, rest buf fin p = encodeParams ps) (env : Env) :
    (scanParams buf fin p env).ok = false ∧ (∀ r ∈ (scanParams buf fin p env).reads, r < fin) ∧
      ∀ s ∈ (scanParams buf fin p env).sums, s < 0x100000000 := by
  -- induction on what is left
  induction hn : fin - p using Nat.strong_induction_on generalizing p env with
  | h n ih =>
    subst hn
    have hp : p < fin := by
      by_contra hge
      exact h ⟨[], rest_eq_nil_iff.mpr (Nat.not_lt.mp hge)⟩
    by_cases hpair : ∃ (pr : NameValuePair) (tail : Bytes), rest buf fin p = pr.encode ++ tail ∧
        ¬(pr.longValue = true ∧ pr.name ++ (pr.value ++ tail) = [])
    · obtain ⟨pr, tail, hcons, hback⟩ := hpair
      obtain ⟨p₂, reads, hp₂, hfin, -, hnext, hreads, hscan⟩ := scanParams_encode hcons hback env
      have htail : ¬∃ ps, tail = encodeParams ps := fun ⟨ps, hps⟩ =>
        h ⟨pr :: ps, by rw [hcons, hps]; exact flatMap_cons.symm⟩
      have hne : 0 < tail.length := length_pos_iff.mpr fun hnil => htail ⟨[], hnil⟩
      rw [hscan]
      dsimp only
      split
      · refine ⟨rfl, hreads, fun s hs => ?_⟩
        rw [mem_singleton.mp hs]
        exact pr.sum_lt
      · obtain ⟨hok, hinside, hsums⟩ := ih (fin - (p₂ + (pr.name.length + pr.value.length)))
          (by omega) (hnext ▸ htail)
          (fcgiHashSet env (fcgiHashFunc pr.name (buf (p₂ + pr.name.length))) pr.name pr.value) rfl
        refine ⟨hok, (pairReads_lt hfin hreads).mpr ⟨by omega, hinside⟩, fun s hs => ?_⟩
        rcases mem_cons.mp hs with rfl | hs
        · exact pr.sum_lt
        · exact hsums s hs
    · push Not at hpair
      obtain ⟨hok, -, hinside, hsums⟩ :=
        scanParams_refused hp (fun pr tail h => hpair pr tail h) env
      exact ⟨hok, hinside, hsums⟩

/-- What the loop is to do: it reads nothing at the end of the buffer or behind it, accepts exactly
the concatenations of pairs, and compares no sum that does not fit into 32 bits. -/
structure Exact (buf : Nat → UInt8) (fin : Nat) (env : Env) : Prop where
  inside : ∀ r ∈ (scanParams buf fin 0 env).reads, r < fin
  accepts : (scanParams buf fin 0 env).ok = true ↔ ∃ ps, slice buf 0 fin = encodeParams ps
  noWrap : ∀ s ∈ (scanParams buf fin 0 env).sums, s < 0x100000000

/-- **What `fcgi_get_params` accepts.** The loop does what it is to do on every buffer that is not
one of the blocks `Misread` describes. -/
theorem exact_iff (buf : Nat → UInt8) (fin : Nat) (env : Env) :
    Exact buf fin env ↔ ¬∃ ps, slice buf 0 fin = encodeParams ps ∧ Misread ps := by
  have hrest : rest buf fin 0 = slice buf 0 fin := rfl
  by_cases hvalid : ∃ ps, slice buf 0 fin = encodeParams ps
  · obtain ⟨ps, hps⟩ := hvalid
    obtain ⟨hiff, hsums⟩ := scanParams_encodeParams ps (hrest.trans hps) env
    constructor
    · rintro h ⟨ps', hps', hmisread⟩
      have hiff' := (scanParams_encodeParams ps' (hrest.trans hps') env).1
      exact hiff'.mp ⟨h.accepts.mpr ⟨ps, hps⟩, h.inside⟩ hmisread
    · intro h
      obtain ⟨hok, hinside⟩ := hiff.mpr fun hmisread => h ⟨ps, hps, hmisread⟩
      exact ⟨hinside, ⟨fun _ => ⟨ps, hps⟩, fun _ => hok⟩, hsums⟩
  · obtain ⟨hok, hinside, hsums⟩ := scanParams_invalid (hrest ▸ hvalid) env
    refine ⟨fun _ ⟨ps, hps, _⟩ => hvalid ⟨ps, hps⟩, fun _ => ⟨hinside, ?_, hsums⟩⟩
    exact ⟨fun h => absurd (hok.symm.trans h) Bool.false_ne_true, fun h => absurd h hvalid⟩

end Cursor

/-- An empty pair whose value length takes four bytes. -/
def emptyLongPair : Bytes := [0, 0x80, 0, 0, 0]

theorem not_exact_emptyLongPair :
    (∃ ps, slice (fun i => emptyLongPair.getD i 0) 0 5 = encodeParams ps) ∧
      (scanParams (fun i => emptyLongPair.getD i 0) 5 0 []).ok = false ∧
      ¬Exact (fun i => emptyLongPair.getD i 0) 5 [] := by
  have hblock : slice (fun i => emptyLongPair.getD i 0) 0 5 =
      encodeParams [⟨[], [], false, true, by decide, by decide⟩] := by decide
  have hok : (scanParams (fun i => emptyLongPair.getD i 0) 5 0 []).ok = false := by
    rw [scanParams_of_lt (by decide)]
    rfl
  refine ⟨⟨_, hblock⟩, hok, fun h => ?_⟩
  rw [h.accepts.mpr ⟨_, hblock⟩] at hok
  cases hok

end Fcgi

end Phpce
