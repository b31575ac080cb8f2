import Phpce.Lib.Bytes

/-!
# The environment of a FastCGI request

`fcgi_hash` of `main/fastcgi.c`. A chain of the table is the sublist of the live buckets with its
index, and a bucket matches on its hash value, its length and its bytes, so a lookup in the chain is
a lookup in the whole list of buckets.

* **`fcgiGetenv_fcgiPutenv_same`**, **`fcgiGetenv_fcgiPutenv_ne`** — what a `FCGI_PUTENV` does to
  the variables read by `FCGI_GETENV`.
-/

namespace Phpce

namespace Fcgi

open Bytes

/-- `FCGI_HASH_FUNC`. The byte `var[3]` of a name of three bytes is the one that follows it in
memory, `next`. -/
def fcgiHashFunc (var : Bytes) (next : UInt8) : UInt32 :=
  let len := var.length
  if len < 3 then UInt32.ofNat len
  else ((var ++ [next]).getD 3 0).toUInt32 <<< 2 + (var.getD (len - 2) 0).toUInt32 <<< 4 +
    (var.getD (len - 1) 0).toUInt32 <<< 2 + UInt32.ofNat len

/-- `fcgi_hash_bucket`. A deleted bucket has left its chain and has no value. -/
structure Bucket where
  hashValue : UInt32
  var : Bytes
  val : Option Bytes
  deriving DecidableEq, Repr

/-- `fcgi_hash`: its `list`, the newest bucket first. -/
abbrev Env := List Bucket

/-- A bucket of a chain whose hash value, length and name are those looked for. -/
def Bucket.Matches (hash : UInt32) (var : Bytes) (p : Bucket) : Prop :=
  p.hashValue = hash ∧ p.var = var ∧ p.val.isSome

instance (hash : UInt32) (var : Bytes) (p : Bucket) : Decidable (p.Matches hash var) :=
  inferInstanceAs (Decidable (_ ∧ _ ∧ _))

def fcgiHashGet (hash : UInt32) (var : Bytes) : Env → Option Bytes
  | [] => none
  | p :: h => if p.Matches hash var then p.val else fcgiHashGet hash var h

/-- Write to the value of the live bucket of a name, if there is one. -/
def modifyBucket (hash : UInt32) (var : Bytes) (f : Bytes → Option Bytes) : Env → Env
  | [] => []
  | p :: h =>
    if p.Matches hash var then { p with val := p.val.bind f } :: h
    else p :: modifyBucket hash var f h

def fcgiHashSet (h : Env) (hash : UInt32) (var val : Bytes) : Env :=
  match fcgiHashGet hash var h with
  | some _ => modifyBucket hash var (fun _ => some val) h
  | none => ⟨hash, var, some val⟩ :: h

def fcgiHashDel (h : Env) (hash : UInt32) (var : Bytes) : Env :=
  modifyBucket hash var (fun _ => none) h

/-! ## Lookups after a write -/

section Lookup

variable {hash hash' : UInt32} {var var' : Bytes} {f : Bytes → Option Bytes}

theorem fcgiHashGet_modifyBucket_ne (hne : ¬(hash = hash' ∧ var = var')) (h : Env) :
    fcgiHashGet hash' var' (modifyBucket hash var f h) = fcgiHashGet hash' var' h := by
  induction h with
  | nil => rfl
  | cons p h ih =>
    rw [modifyBucket]
    by_cases hp : p.Matches hash var
    · have hnot : ∀ val, ¬(Bucket.mk p.hashValue p.var val).Matches hash' var' :=
        fun val hp' => hne ⟨hp.1.symm.trans hp'.1, hp.2.1.symm.trans hp'.2.1⟩
      rw [if_pos hp, fcgiHashGet, if_neg (hnot _), fcgiHashGet, if_neg (hnot p.val)]
    · rw [if_neg hp, fcgiHashGet, fcgiHashGet, ih]

theorem fcgiHashGet_modifyBucket_some {h : Env} {val val' : Bytes}
    (hget : fcgiHashGet hash var h = some val) (hf : f val = some val') :
    fcgiHashGet hash var (modifyBucket hash var f h) = some val' := by
  induction h with
  | nil => cases hget
  | cons p h ih =>
    rw [fcgiHashGet] at hget
    rw [modifyBucket]
    by_cases hp : p.Matches hash var
    · rw [if_pos hp] at hget
      have hval : p.val.bind f = some val' := by rw [hget, Option.bind_some, hf]
      rw [if_pos hp, fcgiHashGet, if_pos ⟨hp.1, hp.2.1, by rw [hval]; rfl⟩, hval]
    · rw [if_neg hp] at hget
      rw [if_neg hp, fcgiHashGet, if_neg hp, ih hget]

theorem fcgiHashGet_fcgiHashSet_same (h : Env) (val : Bytes) :
    fcgiHashGet hash var (fcgiHashSet h hash var val) = some val := by
  rw [fcgiHashSet]
  cases hget : fcgiHashGet hash var h with
  | some old => exact fcgiHashGet_modifyBucket_some hget rfl
  | none => rw [fcgiHashGet, if_pos ⟨rfl, rfl, rfl⟩]

theorem fcgiHashGet_fcgiHashSet_ne (hne : ¬(hash = hash' ∧ var = var')) (h : Env) (val : Bytes) :
    fcgiHashGet hash' var' (fcgiHashSet h hash var val) = fcgiHashGet hash' var' h := by
  rw [fcgiHashSet]
  cases hget : fcgiHashGet hash var h with
  | some old => exact fcgiHashGet_modifyBucket_ne hne h
  | none => rw [fcgiHashGet, if_neg fun hp => hne ⟨hp.1, hp.2.1⟩]

end Lookup

/-! ## `FCGI_GETENV` and `FCGI_PUTENV` -/

def nameHash (name : String) : UInt32 := fcgiHashFunc (ascii name) 0

/-- The buffer that `FCGI_GETENV` returns a pointer to. -/
def fcgiGetenvBuf (env : Env) (name : String) : Option Bytes :=
  fcgiHashGet (nameHash name) (ascii name) env

def fcgiGetenv (env : Env) (name : String) : Option Bytes := (fcgiGetenvBuf env name).map cstr

/-- `FCGI_PUTENV`; it returns a pointer to its copy of the value. -/
def fcgiPutenv (env : Env) (name : String) : Option Bytes → Env
  | none => fcgiHashDel env (nameHash name) (ascii name)
  | some val => fcgiHashSet env (nameHash name) (ascii name) (cstr val)

/-- A write through the pointer that `FCGI_GETENV` has returned. -/
def fcgiPokeenv (env : Env) (name : String) (val : Bytes) : Env :=
  modifyBucket (nameHash name) (ascii name) (fun _ => some val) env

variable {name name' : String}

theorem fcgiGetenv_fcgiPutenv_same (env : Env) (val : Bytes) :
    fcgiGetenv (fcgiPutenv env name (some val)) name = some (cstr val) := by
  rw [fcgiGetenv, fcgiGetenvBuf, fcgiPutenv, fcgiHashGet_fcgiHashSet_same, Option.map_some, cstr,
    cstr, List.takeWhile_takeWhile]
  simp

theorem fcgiGetenv_fcgiPutenv_ne (hne : ascii name ≠ ascii name') (env : Env)
    (val : Option Bytes) : fcgiGetenv (fcgiPutenv env name val) name' = fcgiGetenv env name' := by
  have hne' : ¬(nameHash name = nameHash name' ∧ ascii name = ascii name') := fun h => hne h.2
  rw [fcgiGetenv, fcgiGetenv, fcgiGetenvBuf, fcgiGetenvBuf]
  cases val with
  | none => rw [fcgiPutenv, fcgiHashDel, fcgiHashGet_modifyBucket_ne hne']
  | some val => rw [fcgiPutenv, fcgiHashGet_fcgiHashSet_ne hne']

theorem fcgiGetenv_fcgiPokeenv_ne (hne : ascii name ≠ ascii name') (env : Env) (val : Bytes) :
    fcgiGetenv (fcgiPokeenv env name val) name' = fcgiGetenv env name' := by
  have hne' : ¬(nameHash name = nameHash name' ∧ ascii name = ascii name') := fun h => hne h.2
  rw [fcgiGetenv, fcgiGetenv, fcgiGetenvBuf, fcgiGetenvBuf, fcgiPokeenv,
    fcgiHashGet_modifyBucket_ne hne']

end Fcgi

end Phpce
