import Mathlib.Data.List.Find
import Mathlib.Data.List.GetD
import Mathlib.Data.List.Nodup
import Phpce.Fcgi.Request

/-!
# Parameters read back

`fcgi_get_params` stores the pairs of a block under a hash of their names; `fcgi_getenv` looks for a
name under the hash of a NUL-terminated string. `FCGI_HASH_FUNC` reads the byte `var[3]`, which is
the one behind a name of three bytes, and takes its bytes as `unsigned char` in the first function
and as `char` in the second.

* **`fcgiHashFunc_eq_fcgiHashFuncChar_iff`** — the names on which the two hashes agree.
* **`fcgiGetParams_encodeParams`** — what an accepted block leaves in the environment.
* **`readsBack_iff`** — every parameter of a block can be read back exactly where the hashes of all
  its names agree.
-/

namespace Phpce

namespace Fcgi

open Bytes List
open Option hiding or_assoc

/-! ## Names as C strings -/

/-- `(unsigned int)` of a `char`; whether `char` is signed is the platform's choice. -/
def charToUInt (signed : Bool) (c : UInt8) : UInt32 :=
  if signed ∧ 128 ≤ c then c.toUInt32 + 0xffffff00 else c.toUInt32

/-- `FCGI_HASH_FUNC` on the characters of a NUL-terminated name. -/
def fcgiHashFuncChar (signed : Bool) (var : Bytes) : UInt32 :=
  let len := var.length
  if len < 3 then UInt32.ofNat len
  else charToUInt signed ((var ++ [0]).getD 3 0) <<< 2 +
    charToUInt signed (var.getD (len - 2) 0) <<< 4 +
    charToUInt signed (var.getD (len - 1) 0) <<< 2 + UInt32.ofNat len

/-- `fcgi_getenv`. -/
def Env.fcgiGetenv (signed : Bool) (env : Env) (var : Bytes) : Option Bytes :=
  fcgiHashGet (fcgiHashFuncChar signed var) var env

/-- `fcgi_hash_apply`: a deleted bucket is passed over. -/
def fcgiHashApply {α : Type*} (func : Bytes → Bytes → α → α) : Env → α → α
  | [], arg => arg
  | p :: h, arg =>
    match p.val with
    | some val => fcgiHashApply func h (func p.var val arg)
    | none => fcgiHashApply func h arg

/-- `fcgi_loadenv`. -/
def Env.fcgiLoadenv {α : Type*} (env : Env) (func : Bytes → Bytes → α → α) (array : α) : α :=
  fcgiHashApply func env array

/-- The names that `fcgi_loadenv` visits, in its order. -/
def Env.visited (env : Env) : List Bytes :=
  env.fcgiLoadenv (fun var _ seen => seen ++ [var]) []

/-! ## Where the two hashes agree -/

/-- The bytes of a name that the hash reads are ASCII where `char` is signed, and a name of three
bytes stands before a NUL. -/
def HashAgrees (signed : Bool) (var : Bytes) (next : UInt8) : Prop :=
  3 ≤ var.length →
    (var.length = 3 → next = 0) ∧
      (signed = true → (var ++ [next]).getD 3 0 < 128 ∧ var.getD (var.length - 2) 0 < 128 ∧
        var.getD (var.length - 1) 0 < 128)

instance (signed : Bool) (var : Bytes) (next : UInt8) : Decidable (HashAgrees signed var next) :=
  inferInstanceAs (Decidable (_ → _ ∧ (_ → _ ∧ _ ∧ _)))

theorem charToUInt_toNat (signed : Bool) (c : UInt8) :
    (charToUInt signed c).toNat =
      if signed ∧ 128 ≤ c then c.toNat + 0xffffff00 else c.toNat := by
  have hc := c.toNat_lt
  rw [charToUInt]
  split
  · rw [UInt32.toNat_add, UInt8.toNat_toUInt32]
    exact Nat.mod_eq_of_lt (show c.toNat + 0xffffff00 < 0x100000000 by omega)
  · rw [UInt8.toNat_toUInt32]

/-- The sum of the hash from three of its summands, the length apart. -/
def hashSum (x y z : UInt32) : UInt32 := x <<< 2 + y <<< 4 + z <<< 2

theorem hashSum_toNat (x y z : UInt32) :
    (hashSum x y z).toNat = (4 * x.toNat + 16 * y.toNat + 4 * z.toNat) % 0x100000000 := by
  have h₂ : (2 : UInt32).toNat % 32 = 2 := by decide
  have h₄ : (4 : UInt32).toNat % 32 = 4 := by decide
  rw [hashSum, UInt32.toNat_add, UInt32.toNat_add, UInt32.toNat_shiftLeft, UInt32.toNat_shiftLeft,
    UInt32.toNat_shiftLeft, h₂, h₄, Nat.shiftLeft_eq, Nat.shiftLeft_eq, Nat.shiftLeft_eq]
  omega

theorem hashSum_charToUInt_iff (signed : Bool) (next c x y z : UInt8)
    (hx : x = next ∧ c = 0 ∨ x = c) :
    hashSum x.toUInt32 y.toUInt32 z.toUInt32 =
        hashSum (charToUInt signed c) (charToUInt signed y) (charToUInt signed z) ↔
      x = c ∧ (signed = true → x < 128 ∧ y < 128 ∧ z < 128) := by
  have hxlt := x.toNat_lt
  have hylt := y.toNat_lt
  have hzlt := z.toNat_lt
  have hclt := c.toNat_lt
  have hc0 : (0 : UInt8).toNat = 0 := rfl
  have h128 : (128 : UInt8).toNat = 128 := rfl
  rw [← UInt32.toNat_inj, hashSum_toNat, hashSum_toNat, charToUInt_toNat, charToUInt_toNat,
    charToUInt_toNat, UInt8.toNat_toUInt32, UInt8.toNat_toUInt32, UInt8.toNat_toUInt32,
    ← UInt8.toNat_inj]
  simp only [UInt8.le_iff_toNat_le, UInt8.lt_iff_toNat_lt, h128]
  cases signed with
  | false =>
    simp only [Bool.false_eq_true, false_and, if_false, false_implies, and_true]
    omega
  | true =>
    rcases hx with ⟨-, rfl⟩ | rfl
    · simp only [true_and, forall_const, hc0]
      split_ifs <;> omega
    · simp only [true_and, forall_const]
      split_ifs <;> omega

/-- **Where the hashes agree.** The hash under which `fcgi_get_params` stores a name is the one that
`fcgi_getenv` looks for. -/
theorem fcgiHashFunc_eq_fcgiHashFuncChar_iff (signed : Bool) (var : Bytes) (next : UInt8) :
    fcgiHashFunc var next = fcgiHashFuncChar signed var ↔ HashAgrees signed var next := by
  rw [fcgiHashFunc, fcgiHashFuncChar, HashAgrees]
  by_cases hshort : var.length < 3
  · rw [if_pos hshort, if_pos hshort]
    exact ⟨fun _ h3 => absurd h3 (by omega), fun _ => rfl⟩
  · rw [if_neg hshort, if_neg hshort, UInt32.add_left_inj]
    have hlen : 3 ≤ var.length := by omega
    have hsum := hashSum_charToUInt_iff signed next ((var ++ [0]).getD 3 0)
      ((var ++ [next]).getD 3 0) (var.getD (var.length - 2) 0) (var.getD (var.length - 1) 0)
    by_cases hthree : var.length = 3
    · have hnext : ∀ b : UInt8, (var ++ [b]).getD 3 0 = b := by
        intro b
        rw [getD_append_right _ _ _ _ (by omega), hthree]
        rfl
      rw [hnext, hnext] at hsum ⊢
      refine (hsum (.inl ⟨rfl, rfl⟩)).trans ⟨fun h _ => ⟨fun _ => h.1, h.2⟩, fun h => ?_⟩
      exact ⟨(h hlen).1 hthree, (h hlen).2⟩
    · have hfourth : ∀ b : UInt8, (var ++ [b]).getD 3 0 = var.getD 3 0 :=
        fun b => getD_append _ _ _ _ (show 3 < var.length by omega)
      rw [hfourth, hfourth] at hsum ⊢
      refine (hsum (.inr rfl)).trans ⟨fun h _ => ⟨fun h3 => absurd h3 hthree, h.2⟩, fun h => ?_⟩
      exact ⟨rfl, (h hlen).2⟩

/-! ## The hash as a map -/

def Bucket.key (p : Bucket) : UInt32 × Bytes := (p.hashValue, p.var)

/-- No bucket is deleted, and no two have one hash value and name. -/
structure Env.Live (env : Env) : Prop where
  live : ∀ p ∈ env, p.val.isSome
  nodup : (env.map Bucket.key).Nodup

section Map

variable {env : Env} {hash : UInt32} {var : Bytes}

theorem Bucket.matches_iff {p : Bucket} (hp : p.val.isSome) :
    p.Matches hash var ↔ p.key = (hash, var) := by
  rw [Bucket.key, Prod.mk.injEq]
  exact ⟨fun h => ⟨h.1, h.2.1⟩, fun h => ⟨h.1, h.2, hp⟩⟩

theorem fcgiHashGet_eq_none_iff (hlive : ∀ p ∈ env, p.val.isSome) :
    fcgiHashGet hash var env = none ↔ (hash, var) ∉ env.map Bucket.key := by
  induction env with
  | nil => exact ⟨fun _ => not_mem_nil, fun _ => rfl⟩
  | cons p env ih =>
    have hp := hlive p mem_cons_self
    rw [fcgiHashGet, map_cons, mem_cons, not_or]
    by_cases hmatch : p.Matches hash var
    · have hkey := (Bucket.matches_iff hp).mp hmatch
      rw [if_pos hmatch, hkey]
      exact ⟨fun h => absurd (h ▸ hp) (by decide), fun h => absurd rfl h.1⟩
    · have hkey : (hash, var) ≠ p.key := fun h => hmatch ((Bucket.matches_iff hp).mpr h.symm)
      rw [if_neg hmatch, ih fun q hq => hlive q (mem_cons_of_mem _ hq)]
      exact ⟨fun h => ⟨hkey, h⟩, fun h => h.2⟩

theorem map_key_modifyBucket (f : Bytes → Option Bytes) (env : Env) :
    (modifyBucket hash var f env).map Bucket.key = env.map Bucket.key := by
  induction env with
  | nil => rfl
  | cons p env ih =>
    rw [modifyBucket]
    split
    · rfl
    · rw [map_cons, map_cons, ih]

theorem modifyBucket_live (hlive : ∀ p ∈ env, p.val.isSome) (val : Bytes) :
    ∀ p ∈ modifyBucket hash var (fun _ => some val) env, p.val.isSome := by
  induction env with
  | nil => exact hlive
  | cons q env ih =>
    have hq := hlive q mem_cons_self
    have htail := fun p hp => hlive p (mem_cons_of_mem q hp)
    rw [modifyBucket]
    split
    · intro p hp
      rcases mem_cons.mp hp with rfl | hp
      · rw [show (q.val.bind fun _ => some val) = some val from by
          rw [bind_eq_some_iff]
          exact ⟨q.val.get hq, (some_get hq).symm, rfl⟩]
        rfl
      · exact htail p hp
    · intro p hp
      rcases mem_cons.mp hp with rfl | hp
      · exact hq
      · exact ih htail p hp

theorem map_key_fcgiHashSet (hlive : ∀ p ∈ env, p.val.isSome) (val : Bytes) :
    (fcgiHashSet env hash var val).map Bucket.key =
      if (hash, var) ∈ env.map Bucket.key then env.map Bucket.key
      else (hash, var) :: env.map Bucket.key := by
  rw [fcgiHashSet]
  cases hget : fcgiHashGet hash var env with
  | some old =>
    have hmem : (hash, var) ∈ env.map Bucket.key := by
      by_contra hmem
      rw [(fcgiHashGet_eq_none_iff hlive).mpr hmem] at hget
      cases hget
    rw [if_pos hmem]
    exact map_key_modifyBucket _ env
  | none => rw [if_neg ((fcgiHashGet_eq_none_iff hlive).mp hget), map_cons, Bucket.key]

theorem Env.Live.fcgiHashSet (h : env.Live) (val : Bytes) :
    Env.Live (fcgiHashSet env hash var val) := by
  refine ⟨?_, ?_⟩
  · rw [Fcgi.fcgiHashSet]
    split
    · exact modifyBucket_live h.live val
    · intro p hp
      rcases mem_cons.mp hp with rfl | hp
      · rfl
      · exact h.live p hp
  · rw [map_key_fcgiHashSet h.live]
    split
    · exact h.nodup
    · exact nodup_cons.mpr ⟨by assumption, h.nodup⟩

theorem fcgiHashApply_visited (env : Env) (hlive : ∀ p ∈ env, p.val.isSome) (seen : List Bytes) :
    fcgiHashApply (fun var _ seen => seen ++ [var]) env seen = seen ++ env.map Bucket.var := by
  induction env generalizing seen with
  | nil => rw [fcgiHashApply, map_nil, append_nil]
  | cons p env ih =>
    obtain ⟨val, hval⟩ := isSome_iff_exists.mp (hlive p mem_cons_self)
    rw [fcgiHashApply, hval, map_cons]
    simp only
    rw [ih (fun q hq => hlive q (mem_cons_of_mem _ hq)), append_assoc,
      singleton_append]

theorem Env.visited_eq (hlive : ∀ p ∈ env, p.val.isSome) : env.visited = env.map Bucket.var := by
  rw [Env.visited, Env.fcgiLoadenv, fcgiHashApply_visited env hlive, nil_append]

theorem count_var_of_hash (env : Env) (hhash : ∀ p ∈ env, p.var = var → p.hashValue = hash) :
    (env.map Bucket.var).count var = (env.map Bucket.key).count (hash, var) := by
  induction env with
  | nil => rfl
  | cons p env ih =>
    have htail := ih fun q hq => hhash q (mem_cons_of_mem _ hq)
    rw [map_cons, map_cons, count_cons, count_cons, htail]
    by_cases hvar : p.var = var
    · have hkey : p.key = (hash, var) := by
        rw [Bucket.key, hhash p mem_cons_self hvar, hvar]
      rw [hvar, hkey, beq_self_eq_true, beq_self_eq_true]
    · have hkey : p.key ≠ (hash, var) := fun h => hvar (Prod.mk.inj h).2
      rw [beq_false_of_ne hvar, beq_false_of_ne hkey]

theorem count_key_add_le {hash' : UInt32} (hne : hash ≠ hash') (var : Bytes) (env : Env) :
    (env.map Bucket.key).count (hash, var) + (env.map Bucket.key).count (hash', var) ≤
      (env.map Bucket.var).count var := by
  induction env with
  | nil => exact Nat.le_refl 0
  | cons p env ih =>
    rw [map_cons, map_cons, count_cons, count_cons, count_cons]
    have hsplit : ((if (p.key == (hash, var)) = true then 1 else 0) +
        (if (p.key == (hash', var)) = true then 1 else 0)) ≤
          if (p.var == var) = true then 1 else 0 := by
      simp only [Bucket.key, beq_iff_eq, Prod.mk.injEq]
      by_cases hvar : p.var = var
      · by_cases hhash : p.hashValue = hash
        · simp [hvar, hhash, hne]
        · simp only [hvar, hhash, and_true, if_false, if_true, Nat.zero_add]
          split <;> decide
      · simp [hvar]
    omega

end Map

/-! ## The pairs of a block -/

/-- A pair as a web server sends it: a length takes four bytes, or one where it is below 128. -/
structure NameValuePair where
  name : Bytes
  value : Bytes
  longName : Bool
  longValue : Bool
  name_length : name.length < if longName then 0x80000000 else 128
  value_length : value.length < if longValue then 0x80000000 else 128

def encodeLength (long : Bool) (n : Nat) : Bytes :=
  if long then
    [UInt8.ofNat (n / 0x1000000 + 128), UInt8.ofNat (n / 0x10000), UInt8.ofNat (n / 0x100),
      UInt8.ofNat n]
  else [UInt8.ofNat n]

def NameValuePair.encode (p : NameValuePair) : Bytes :=
  encodeLength p.longName p.name.length ++
    (encodeLength p.longValue p.value.length ++ (p.name ++ p.value))

def encodeParams (ps : List NameValuePair) : Bytes := ps.flatMap NameValuePair.encode

/-- The pairs of a block that `after` follows in memory, each with the byte behind its name. -/
def withNext (after : UInt8) : List NameValuePair → List (NameValuePair × UInt8)
  | [] => []
  | p :: ps => (p, (p.value ++ encodeParams ps).headD after) :: withNext after ps

def storeParams (qs : List (NameValuePair × UInt8)) (env : Env) : Env :=
  qs.foldl (fun env q =>
    fcgiHashSet env (fcgiHashFunc q.1.name q.2) q.1.name q.1.value) env

theorem shiftLeft_or_eq (a b c d : Nat) (hb : b < 256) (hc : c < 256) (hd : d < 256) :
    a <<< 24 ||| b <<< 16 ||| c <<< 8 ||| d = a * 0x1000000 + b * 0x10000 + c * 0x100 + d := by
  have h8 : ∀ n : Nat, n <<< 8 = n * 0x100 := fun n => Nat.shiftLeft_eq n 8
  have h16 : ∀ n : Nat, n <<< 16 = n * 0x10000 := fun n => Nat.shiftLeft_eq n 16
  have h24 : ∀ n : Nat, n <<< 24 = n * 0x1000000 := fun n => Nat.shiftLeft_eq n 24
  have hcd : c <<< 8 ||| d = c * 0x100 + d := by
    rw [← Nat.shiftLeft_add_eq_or_of_lt hd, h8]
  have hbcd : b <<< 16 ||| (c <<< 8 ||| d) = b * 0x10000 + (c * 0x100 + d) := by
    have hlt : c * 0x100 + d < 0x10000 := by omega
    rw [hcd, ← Nat.shiftLeft_add_eq_or_of_lt hlt, h16]
  have habcd : a <<< 24 ||| (b <<< 16 ||| (c <<< 8 ||| d)) =
      a * 0x1000000 + (b * 0x10000 + (c * 0x100 + d)) := by
    have hlt : b * 0x10000 + (c * 0x100 + d) < 0x1000000 := by omega
    rw [hbcd, ← Nat.shiftLeft_add_eq_or_of_lt hlt, h24]
  rw [Nat.or_assoc, Nat.or_assoc, habcd]
  omega

def fourBytes (b b₂ b₁ b₀ : UInt8) : Nat :=
  (b.toNat &&& 0x7f) <<< 24 ||| b₂.toNat <<< 16 ||| b₁.toNat <<< 8 ||| b₀.toNat

theorem fourBytes_eq (b b₂ b₁ b₀ : UInt8) : fourBytes b b₂ b₁ b₀ =
    b.toNat % 0x80 * 0x1000000 + b₂.toNat * 0x10000 + b₁.toNat * 0x100 + b₀.toNat := by
  rw [fourBytes, shiftLeft_or_eq _ _ _ _ (UInt8.toNat_lt _) (UInt8.toNat_lt _) (UInt8.toNat_lt _),
    Nat.and_two_pow_sub_one_eq_mod _ 7]

theorem fourBytes_ofNat {n : Nat} (hn : n < 0x80000000) :
    fourBytes (UInt8.ofNat (n / 0x1000000 + 128)) (UInt8.ofNat (n / 0x10000))
      (UInt8.ofNat (n / 0x100)) (UInt8.ofNat n) = n := by
  have hbyte : ∀ m : Nat, (UInt8.ofNat m).toNat = m % 0x100 := fun _ => rfl
  rw [fourBytes_eq, hbyte, hbyte, hbyte, hbyte]
  omega

theorem ofNat_lt_of_short {n : Nat} (hn : n < 128) :
    (UInt8.ofNat n).toNat = n ∧ UInt8.ofNat n < 128 := by
  have hbyte : (UInt8.ofNat n).toNat = n := Nat.mod_eq_of_lt (by omega)
  exact ⟨hbyte, by rw [UInt8.lt_iff_toNat_lt, hbyte]; exact hn⟩

theorem not_ofNat_lt_of_long {n : Nat} (hn : n < 0x80000000) :
    ¬UInt8.ofNat (n / 0x1000000 + 128) < 128 := by
  have htop : (UInt8.ofNat (n / 0x1000000 + 128)).toNat = n / 0x1000000 + 128 :=
    Nat.mod_eq_of_lt (by omega)
  rw [UInt8.lt_iff_toNat_lt, htop]
  exact Nat.not_lt.mpr (Nat.le_add_left 128 _)

theorem readLength_encodeLength {long : Bool} {n : Nat} (hn : n < if long then 0x80000000 else 128)
    (q : Bytes) :
    readLength (encodeLength long n ++ q) = if long ∧ q = [] then none else some (n, q) := by
  cases long with
  | false =>
    obtain ⟨hbyte, hshort⟩ := ofNat_lt_of_short (show n < 128 by simpa using hn)
    simp [encodeLength, readLength, hshort, hbyte]
  | true =>
    have hn' : n < 0x80000000 := by simpa using hn
    have hlong := not_ofNat_lt_of_long hn'
    have hvalue := fourBytes_ofNat hn'
    rw [fourBytes] at hvalue
    rw [encodeLength, if_pos rfl]
    simp only [cons_append, nil_append, readLength, hlong, if_false, true_and, hvalue]

theorem encode_ne_nil (p : NameValuePair) : 0 < p.encode.length := by
  have hlength : 0 < (encodeLength p.longName p.name.length).length := by
    rw [encodeLength]
    split <;> exact Nat.succ_pos _
  rw [NameValuePair.encode, length_append]
  omega

/-- **One pair of a block.** It is refused only where nothing stands behind a value length of four
bytes. -/
theorem fcgiGetParams_encode (after : UInt8) (fuel : Nat) (p : NameValuePair) (rest : Bytes)
    (env : Env) :
    fcgiGetParams after (fuel + 1) (p.encode ++ rest) env =
      if p.longValue ∧ p.name ++ p.value ++ rest = [] then (false, env)
      else fcgiGetParams after fuel rest
        (fcgiHashSet env (fcgiHashFunc p.name ((p.value ++ rest).headD after)) p.name p.value) := by
  have hne : ¬p.encode ++ rest = [] := fun h => by
    have hpos := encode_ne_nil p
    rw [(append_eq_nil_iff.mp h).1] at hpos
    exact absurd hpos (Nat.lt_irrefl 0)
  have hshape : p.encode ++ rest = encodeLength p.longName p.name.length ++
      (encodeLength p.longValue p.value.length ++ (p.name ++ p.value ++ rest)) := by
    rw [NameValuePair.encode, append_assoc, append_assoc]
  have hname : ¬(p.longName = true ∧
      encodeLength p.longValue p.value.length ++ (p.name ++ p.value ++ rest) = []) := by
    rintro ⟨-, h⟩
    have hlength := (append_eq_nil_iff.mp h).1
    rw [encodeLength] at hlength
    split at hlength <;> cases hlength
  rw [fcgiGetParams, if_neg hne, hshape, readLength_encodeLength p.name_length, if_neg hname]
  simp only
  rw [readLength_encodeLength p.value_length]
  by_cases hrefused : p.longValue = true ∧ p.name ++ p.value ++ rest = []
  · rw [if_pos hrefused, if_pos hrefused]
  · have hlong : ¬(p.name ++ p.value ++ rest).length < p.name.length + p.value.length := by
      rw [length_append, length_append]
      omega
    have htake : (p.name ++ p.value ++ rest).take p.name.length = p.name := by
      rw [append_assoc, take_left]
    have hdrop : (p.name ++ p.value ++ rest).drop p.name.length = p.value ++ rest := by
      rw [append_assoc, drop_left]
    have hrest : (p.name ++ p.value ++ rest).drop (p.name.length + p.value.length) = rest := by
      rw [← length_append, drop_left]
    rw [if_neg hrefused, if_neg hrefused]
    simp only
    rw [if_neg hlong, htake, hdrop, hrest, take_left, headD_eq_head?_getD]

/-- **What an accepted block leaves**: its pairs are stored one after the other. -/
theorem fcgiGetParams_encodeParams (after : UInt8) (ps : List NameValuePair) (fuel : Nat)
    (hfuel : (encodeParams ps).length ≤ fuel) (env : Env)
    (hok : (fcgiGetParams after fuel (encodeParams ps) env).1 = true) :
    (fcgiGetParams after fuel (encodeParams ps) env).2 = storeParams (withNext after ps) env := by
  -- induction on the pairs
  induction ps generalizing fuel env with
  | nil =>
    cases fuel with
    | zero => rfl
    | succ fuel => rw [encodeParams, flatMap_nil, fcgiGetParams, if_pos rfl]; rfl
  | cons p ps ih =>
    have hhead : encodeParams (p :: ps) = p.encode ++ encodeParams ps := flatMap_cons
    rw [hhead] at hfuel hok ⊢
    rw [length_append] at hfuel
    have hpos := encode_ne_nil p
    obtain ⟨n, rfl⟩ : ∃ n, fuel = n + 1 := ⟨fuel - 1, by omega⟩
    rw [fcgiGetParams_encode] at hok ⊢
    by_cases hrefused : p.longValue = true ∧ p.name ++ p.value ++ encodeParams ps = []
    · rw [if_pos hrefused] at hok
      cases hok
    · rw [if_neg hrefused] at hok ⊢
      rw [ih n (by omega) _ hok, withNext, storeParams, storeParams, foldl_cons]

/-! ## What is stored -/

section Store

variable {qs : List (NameValuePair × UInt8)} {env : Env} {hash : UInt32} {var : Bytes}

def storedKey (q : NameValuePair × UInt8) : UInt32 × Bytes :=
  (fcgiHashFunc q.1.name q.2, q.1.name)

theorem storeParams_live (h : env.Live) (qs : List (NameValuePair × UInt8)) :
    Env.Live (storeParams qs env) := by
  induction qs generalizing env with
  | nil => exact h
  | cons q qs ih => exact ih (h.fcgiHashSet q.1.value)

theorem mem_storeParams (h : env.Live) :
    (hash, var) ∈ (storeParams qs env).map Bucket.key ↔
      (hash, var) ∈ env.map Bucket.key ∨ (hash, var) ∈ qs.map storedKey := by
  induction qs generalizing env with
  | nil => exact ⟨.inl, fun h => h.resolve_right not_mem_nil⟩
  | cons q qs ih =>
    refine (ih (h.fcgiHashSet q.1.value)).trans ?_
    rw [map_key_fcgiHashSet h.live, map_cons, mem_cons, storedKey]
    by_cases hmem : (fcgiHashFunc q.1.name q.2, q.1.name) ∈ env.map Bucket.key
    · rw [if_pos hmem]
      constructor
      · exact fun h => h.imp_right .inr
      · rintro (henv | heq | hqs)
        · exact .inl henv
        · exact .inl (heq ▸ hmem)
        · exact .inr hqs
    · rw [if_neg hmem, mem_cons, or_assoc, or_left_comm]

def lastStored (hash : UInt32) (var : Bytes) (qs : List (NameValuePair × UInt8)) : Option Bytes :=
  (qs.reverse.find? fun q => storedKey q = (hash, var)).map fun q => q.1.value

theorem fcgiHashGet_storeParams (qs : List (NameValuePair × UInt8)) (env : Env) :
    fcgiHashGet hash var (storeParams qs env) =
      (lastStored hash var qs).or (fcgiHashGet hash var env) := by
  induction qs generalizing env with
  | nil => rfl
  | cons q qs ih =>
    refine (ih (fcgiHashSet env (fcgiHashFunc q.1.name q.2) q.1.name q.1.value)).trans ?_
    rw [lastStored, lastStored, reverse_cons, List.find?_append]
    cases hlast : qs.reverse.find? fun q => storedKey q = (hash, var) with
    | some r => rfl
    | none =>
      rw [map_none, none_or, none_or]
      by_cases hkey : storedKey q = (hash, var)
      · obtain ⟨hhash, hvar⟩ := Prod.mk.inj hkey
        rw [List.find?_cons_of_pos (by simpa using hkey), hhash, hvar,
          fcgiHashGet_fcgiHashSet_same]
        rfl
      · have hne : ¬(fcgiHashFunc q.1.name q.2 = hash ∧ q.1.name = var) :=
          fun h => hkey (Prod.ext h.1 h.2)
        rw [List.find?_cons_of_neg (by simpa using hkey), fcgiHashGet_fcgiHashSet_ne hne]
        rfl

end Store

/-! ## Reading back -/

def lastValue (ps : List NameValuePair) (name : Bytes) : Option Bytes :=
  (ps.reverse.find? fun p => p.name = name).map NameValuePair.value

/-- Every name is read back, by `fcgi_getenv` with the value of its last pair and by `fcgi_loadenv`
exactly once. -/
structure ReadsBack (signed : Bool) (ps : List NameValuePair) (env : Env) : Prop where
  getenv : ∀ name, env.fcgiGetenv signed name = lastValue ps name
  visited : ∀ name ∈ ps.map NameValuePair.name, env.visited.count name = 1

theorem map_fst_withNext (after : UInt8) (ps : List NameValuePair) :
    (withNext after ps).map Prod.fst = ps := by
  induction ps with
  | nil => rfl
  | cons p ps ih => rw [withNext, map_cons, ih]

theorem lastValue_ne_none {ps : List NameValuePair} {name : Bytes}
    (h : name ∈ ps.map NameValuePair.name) : lastValue ps name ≠ none := by
  obtain ⟨p, hp, rfl⟩ := List.mem_map.mp h
  rw [lastValue, ne_eq, map_eq_none_iff, List.find?_eq_none]
  exact fun hall => hall p (mem_reverse.mpr hp) (by simp)

theorem lastStored_eq_lastValue {signed : Bool} {after : UInt8} {ps : List NameValuePair}
    (h : ∀ q ∈ withNext after ps, HashAgrees signed q.1.name q.2) (name : Bytes) :
    lastStored (fcgiHashFuncChar signed name) name (withNext after ps) = lastValue ps name := by
  have hfind : ((withNext after ps).reverse.find? fun q =>
      storedKey q = (fcgiHashFuncChar signed name, name)) =
        (withNext after ps).reverse.find? fun q => q.1.name = name := by
    apply List.find?_congr
    intro q hq
    rw [decide_eq_decide, storedKey, Prod.mk.injEq]
    refine ⟨fun hkey => hkey.2, fun hname => ⟨?_, hname⟩⟩
    rw [(fcgiHashFunc_eq_fcgiHashFuncChar_iff signed q.1.name q.2).mpr
      (h q (mem_reverse.mp hq)), hname]
  rw [lastStored, hfind, lastValue, ← map_fst_withNext after ps, ← map_reverse,
    List.find?_map, Option.map_map, map_fst_withNext]
  rfl

theorem hashValue_of_agrees {signed : Bool} {qs : List (NameValuePair × UInt8)}
    (h : ∀ q ∈ qs, HashAgrees signed q.1.name q.2) {p : Bucket} (hp : p ∈ storeParams qs []) :
    p.hashValue = fcgiHashFuncChar signed p.var := by
  have hmem : (p.hashValue, p.var) ∈ (storeParams qs []).map Bucket.key :=
    List.mem_map.mpr ⟨p, hp, rfl⟩
  rcases (mem_storeParams ⟨fun _ h => absurd h not_mem_nil, nodup_nil⟩).mp hmem with
    hnil | hstored
  · exact absurd hnil not_mem_nil
  · obtain ⟨q, hq, hkey⟩ := List.mem_map.mp hstored
    obtain ⟨hhash, hvar⟩ := Prod.mk.inj hkey
    rw [← hhash, ← hvar]
    exact (fcgiHashFunc_eq_fcgiHashFuncChar_iff signed q.1.name q.2).mpr (h q hq)

/-- **When the parameters of a block can be read back**: the hashes agree on every name of it. -/
theorem readsBack_iff (signed : Bool) (after : UInt8) (ps : List NameValuePair)
    (haccepted : (fcgiGetParams after (encodeParams ps).length (encodeParams ps) []).1 = true) :
    ReadsBack signed ps (fcgiGetParams after (encodeParams ps).length (encodeParams ps) []).2 ↔
      ∀ q ∈ withNext after ps, HashAgrees signed q.1.name q.2 := by
  have hempty : Env.Live [] := ⟨fun _ h => absurd h not_mem_nil, nodup_nil⟩
  have hlive := storeParams_live hempty (withNext after ps)
  have hstored : ∀ q ∈ withNext after ps, storedKey q ∈
      (storeParams (withNext after ps) []).map Bucket.key := fun q hq =>
    (mem_storeParams hempty).mpr (.inr (mem_map_of_mem hq))
  rw [fcgiGetParams_encodeParams after ps _ (Nat.le_refl _) [] haccepted]
  constructor
  · intro h q hq
    by_contra hdisagree
    have hne : fcgiHashFuncChar signed q.1.name ≠ fcgiHashFunc q.1.name q.2 := fun heq =>
      hdisagree ((fcgiHashFunc_eq_fcgiHashFuncChar_iff signed q.1.name q.2).mp heq.symm)
    have hname : q.1.name ∈ ps.map NameValuePair.name := by
      rw [← map_fst_withNext after ps, List.map_map]
      exact List.mem_map.mpr ⟨q, hq, rfl⟩
    -- the name is found, so it is also stored under the other hash
    have hfound : (fcgiHashFuncChar signed q.1.name, q.1.name) ∈
        (storeParams (withNext after ps) []).map Bucket.key := by
      by_contra hmissing
      have hnone := (fcgiHashGet_eq_none_iff hlive.live).mpr hmissing
      exact lastValue_ne_none hname ((h.getenv q.1.name).symm.trans hnone)
    have htwice := count_key_add_le hne q.1.name (storeParams (withNext after ps) [])
    have honce := h.visited q.1.name hname
    have hchar := one_le_count_iff.mpr hfound
    have hbyte := one_le_count_iff.mpr (hstored q hq)
    rw [Env.visited_eq hlive.live] at honce
    rw [storedKey] at hbyte
    omega
  · intro h
    refine ⟨fun name => ?_, fun name hname => ?_⟩
    · rw [Env.fcgiGetenv, fcgiHashGet_storeParams, lastStored_eq_lastValue h, fcgiHashGet,
        or_none]
    · rw [← map_fst_withNext after ps, List.map_map] at hname
      obtain ⟨q, hq, rfl⟩ := List.mem_map.mp hname
      have hkey : storedKey q = (fcgiHashFuncChar signed q.1.name, q.1.name) := by
        rw [storedKey, (fcgiHashFunc_eq_fcgiHashFuncChar_iff signed q.1.name q.2).mpr (h q hq)]
      have hhash : ∀ p ∈ storeParams (withNext after ps) [], p.var = q.1.name →
          p.hashValue = fcgiHashFuncChar signed q.1.name :=
        fun p hp hvar => by rw [hashValue_of_agrees h hp, hvar]
      have hcount := count_var_of_hash _ hhash
      rw [Env.visited_eq hlive.live]
      exact hcount.trans (count_eq_one_of_mem hlive.nodup (hkey ▸ hstored q hq))

/-- The pair `ABC=x`. -/
def shortNamePair : NameValuePair := ⟨ascii "ABC", ascii "x", false, false, by decide, by decide⟩

/-- `HTTPS` twice, the second time with lengths of four bytes, and `ABC`. -/
def httpsPairs : List NameValuePair :=
  [⟨ascii "HTTPS", ascii "on", false, false, by decide, by decide⟩,
    ⟨ascii "HTTPS", [], true, true, by decide, by decide⟩, shortNamePair]

theorem readsBack_iff_httpsPairs :
    (fcgiGetParams 0 (encodeParams httpsPairs).length (encodeParams httpsPairs) []).1 = true ∧
      (ReadsBack true httpsPairs
          (fcgiGetParams 0 (encodeParams httpsPairs).length (encodeParams httpsPairs) []).2 ↔
        ∀ q ∈ withNext 0 httpsPairs, HashAgrees true q.1.name q.2) :=
  ⟨by decide, readsBack_iff true 0 httpsPairs (by decide)⟩

/-- A name of three bytes with a value behind it is stored where `fcgi_getenv` does not look. -/
theorem not_readsBack_shortName :
    encodeParams [shortNamePair] = 3 :: 1 :: ascii "ABCx" ∧
      (fcgiGetParams 0 6 (encodeParams [shortNamePair]) []).1 = true ∧
      ¬ReadsBack true [shortNamePair]
        (fcgiGetParams 0 6 (encodeParams [shortNamePair]) []).2 := by
  refine ⟨by decide, by decide, fun h => ?_⟩
  have hlost : Env.fcgiGetenv true
      (fcgiGetParams 0 6 (encodeParams [shortNamePair]) []).2 (ascii "ABC") = none := by decide
  have hvalue : lastValue [shortNamePair] (ascii "ABC") = some (ascii "x") := by decide
  rw [h.getenv (ascii "ABC"), hvalue] at hlost
  cases hlost

end Fcgi

end Phpce
