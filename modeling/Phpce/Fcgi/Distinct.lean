import Phpce.Fcgi.Params

/-!
# One bucket for each variable

No two live buckets of the environment have the same hash value and name, however it is written to:
so what is deleted is gone, and what is written is what is read.
-/

namespace Phpce

namespace Fcgi

open Bytes List

/-- A live bucket has its hash value and name for itself. -/
def Env.Distinct (env : Env) : Prop :=
  env.Pairwise fun p q => p.val.isSome → q.val.isSome → p.key ≠ q.key

section Distinct

variable {env : Env} {hash : UInt32} {var : Bytes} {f : Bytes → Option Bytes} {p q : Bucket}

theorem mem_modifyBucket (h : q ∈ modifyBucket hash var f env) :
    ∃ p ∈ env, p.key = q.key ∧ (q.val.isSome → p.val.isSome) := by
  induction env with
  | nil => cases h
  | cons p env ih =>
    rw [modifyBucket] at h
    split at h
    · rename_i hp
      rcases mem_cons.mp h with rfl | h
      · exact ⟨p, mem_cons_self, rfl, fun _ => hp.2.2⟩
      · exact ⟨q, mem_cons_of_mem _ h, rfl, id⟩
    · rcases mem_cons.mp h with rfl | h
      · exact ⟨q, mem_cons_self, rfl, id⟩
      · obtain ⟨p, hp, hkey⟩ := ih h
        exact ⟨p, mem_cons_of_mem _ hp, hkey⟩

theorem Env.Distinct.modifyBucket (h : env.Distinct) :
    Env.Distinct (modifyBucket hash var f env) := by
  induction env with
  | nil => exact h
  | cons p env ih =>
    obtain ⟨hp, hrest⟩ := pairwise_cons.mp h
    rw [Fcgi.modifyBucket]
    split
    · rename_i hmatch
      exact pairwise_cons.mpr ⟨fun q hq _ hlive => hp q hq hmatch.2.2 hlive, hrest⟩
    · refine pairwise_cons.mpr ⟨fun q hq hlive hlive' => ?_, ih hrest⟩
      obtain ⟨p', hp', hkey, hsome⟩ := mem_modifyBucket hq
      exact hkey ▸ hp p' hp' hlive (hsome hlive')

theorem Bucket.Matches.key (h : p.Matches hash var) : p.key = (hash, var) := by
  rw [Bucket.key, h.1, h.2.1]

theorem not_matches_of_get {h : Env} (hget : fcgiHashGet hash var h = none) :
    ∀ p ∈ h, ¬p.Matches hash var := by
  induction h with
  | nil => exact fun p hp => absurd hp not_mem_nil
  | cons p h ih =>
    rw [fcgiHashGet] at hget
    by_cases hp : p.Matches hash var
    · rw [if_pos hp] at hget
      exact absurd hp.2.2 (by simp [hget])
    · rw [if_neg hp] at hget
      exact forall_mem_cons.mpr ⟨hp, ih hget⟩

theorem get_of_not_matches {h : Env} (hnot : ∀ p ∈ h, ¬p.Matches hash var) :
    fcgiHashGet hash var h = none := by
  induction h with
  | nil => rfl
  | cons p h ih =>
    obtain ⟨hp, hnot⟩ := forall_mem_cons.mp hnot
    rw [fcgiHashGet, if_neg hp, ih hnot]

theorem Env.Distinct.fcgiHashSet (h : env.Distinct) (val : Bytes) :
    Env.Distinct (fcgiHashSet env hash var val) := by
  rw [Fcgi.fcgiHashSet]
  cases hget : fcgiHashGet hash var env with
  | some old => exact h.modifyBucket
  | none =>
    refine pairwise_cons.mpr ⟨fun q hq _ hlive hkey => ?_, h⟩
    obtain ⟨hhash, hvar⟩ := Prod.mk.inj hkey
    exact not_matches_of_get hget q hq ⟨hhash.symm, hvar.symm, hlive⟩

theorem Env.Distinct.get_fcgiHashDel (h : env.Distinct) :
    fcgiHashGet hash var (fcgiHashDel env hash var) = none := by
  rw [fcgiHashDel]
  induction env with
  | nil => rfl
  | cons p env ih =>
    obtain ⟨hp, hrest⟩ := pairwise_cons.mp h
    rw [Fcgi.modifyBucket]
    by_cases hmatch : p.Matches hash var
    · have hdead : ∀ q ∈ env, ¬q.Matches hash var := fun q hq hq' =>
        hp q hq hmatch.2.2 hq'.2.2 (hmatch.key.trans hq'.key.symm)
      rw [if_pos hmatch]
      refine get_of_not_matches (forall_mem_cons.mpr ⟨fun hgone => ?_, hdead⟩)
      cases hv : p.val <;> simp [Bucket.Matches, hv] at hgone
    · rw [if_neg hmatch, fcgiHashGet, if_neg hmatch]
      exact ih hrest

variable {name : String}

theorem Env.Distinct.putenv (h : env.Distinct) (name : String) (val : Option Bytes) :
    Env.Distinct (Fcgi.fcgiPutenv env name val) := by
  cases val with
  | none => exact h.modifyBucket
  | some val => exact h.fcgiHashSet _

theorem Env.Distinct.getenv_putenv (h : env.Distinct) (name : String) (val : Option Bytes) :
    Fcgi.fcgiGetenv (Fcgi.fcgiPutenv env name val) name = val.map cstr := by
  cases val with
  | none =>
    rw [Fcgi.fcgiGetenv, fcgiGetenvBuf, Fcgi.fcgiPutenv, h.get_fcgiHashDel, Option.map_none]
  | some val => exact fcgiGetenv_fcgiPutenv_same env val

end Distinct

end Fcgi

end Phpce
