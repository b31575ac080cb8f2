import Mathlib.Data.List.ReduceOption

/-!
# The files of a request

`zend_execute_scripts_coro` compiles and runs the prepended file, the primary script and the
appended file in a loop on the C stack. The first yield of any of them leaves that loop for good
by `longjmp`; `resume_coroutine_context` goes on with the file that yielded, and closes the
request after it.

* **`ran_executeRequest`** — the files a request has run to completion when it is closed.
* **`phpExecuteScriptCoro_toRequestState`** — the shebang branch makes no difference to that.
* **`yields_skip_no_file_iff`** — these are the files that run when no file yields, exactly when
  the first file that yields is, if it runs to its end at all, resumed outside callbacks only and
  not followed by a file that would be compiled and run to completion.
-/

namespace Phpce

namespace Vm

open List

/-! ## Files -/

inductive FileEnd where
  -- It runs to its end
  | completed
  -- `exit`, a fatal error or an uncaught exception
  | bailout
  deriving DecidableEq, Repr

inductive Suspension where
  -- Between the file's own frame and the call are nested VM calls only
  | nested
  -- The call is made below a callback of an internal function, which makes `more` further calls
  -- before it returns
  | callback (more : Nat)
  deriving DecidableEq, Repr

/-- A file handle: whether `zend_compile_file` succeeds, the remote calls the file makes in
order, and how it ends. -/
structure ScriptFile where
  filename : Nat
  compiles : Bool
  suspensions : List Suspension
  ending : FileEnd
  deriving DecidableEq, Repr

def ScriptFile.Completes (f : ScriptFile) : Prop := f.compiles = true ∧ f.ending = .completed

def ScriptFile.withoutYields (f : ScriptFile) : ScriptFile := { f with suspensions := [] }

/-! ## The loop and its continuation -/

/-- Where the loop is left. The lists are the files compiled and run to completion so far. -/
inductive ScriptsResult where
  | success (ran : List Nat)
  | failure (ran : List Nat)
  | bailout (ran : List Nat)
  | yielded (ran : List Nat) (file : ScriptFile) (at_ : Suspension) (later : List Suspension)
  deriving DecidableEq, Repr

/-- `zend_execute_scripts_coro` with `type` = `ZEND_REQUIRE`. A null file handle is skipped; a
file that does not compile ends the loop. -/
def zendExecuteScriptsCoro (ran : List Nat) : List (Option ScriptFile) → ScriptsResult
  | [] => .success ran
  | none :: files => zendExecuteScriptsCoro ran files
  | some file :: files =>
      if file.compiles then
        match file.suspensions, file.ending with
        | suspension :: later, _ => .yielded ran file suspension later
        | [], .completed => zendExecuteScriptsCoro (ran ++ [file.filename]) files
        | [], .bailout => .bailout ran
      else .failure ran

/-- A request: suspended in a file, closed, or gone with a jump into the dead frame of
`php_execute_script_coro`. -/
inductive RequestState where
  | suspended (ran : List Nat) (file : ScriptFile) (at_ : Suspension) (later : List Suspension)
  | closed (ran : List Nat)
  | deadFrame (ran : List Nat)
  deriving DecidableEq, Repr

/-- The files run to completion so far. -/
def RequestState.ran : RequestState → List Nat
  | .suspended ran _ _ _ | .closed ran | .deadFrame ran => ran

/-- What `socket_read_cb` makes of the end of the loop: `zend_try` catches a bailout, and unless
a file yielded the request is closed. -/
def ScriptsResult.toRequestState : ScriptsResult → RequestState
  | .success ran | .failure ran | .bailout ran => .closed ran
  | .yielded ran file suspension later => .suspended ran file suspension later

/-- The branch of `php_execute_script_coro` for a script with a shebang line runs the prepended
file by a call of its own. -/
def phpExecuteScriptCoro (startLineno : Bool) (prepend : Option ScriptFile)
    (primary append : Option ScriptFile) : ScriptsResult :=
  if startLineno && prepend.isSome then
    match zendExecuteScriptsCoro [] [prepend] with
    | .success ran => zendExecuteScriptsCoro ran [primary, append]
    | result => result
  else zendExecuteScriptsCoro [] [prepend, primary, append]

def RequestState.resume : RequestState → RequestState
  | .suspended ran file (.callback (more + 1)) later =>
      .suspended ran file (.callback more) later
  | .suspended ran _ (.callback 0) _ => .closed ran
  | .suspended ran file .nested (suspension :: later) => .suspended ran file suspension later
  | .suspended ran file .nested [] =>
      match file.ending with
      | .completed => .closed (ran ++ [file.filename])
      | .bailout => .deadFrame ran
  | state => state

def RequestState.afterReplies (state : RequestState) : Nat → RequestState
  | 0 => state
  | n + 1 => state.resume.afterReplies n

def RequestState.Settled : RequestState → Prop
  | .suspended _ _ _ _ => False
  | _ => True

/-! ## All replies -/

def resumedFile (ran : List Nat) (file : ScriptFile) (suspensions : List Suspension) :
    RequestState :=
  if ∀ s ∈ suspensions, s = .nested then
    match file.ending with
    | .completed => .closed (ran ++ [file.filename])
    | .bailout => .deadFrame ran
  else .closed ran

theorem afterReplies_settled {state : RequestState} (h : state.Settled) (n : Nat) :
    state.afterReplies n = state := by
  induction n with
  | zero => rfl
  | succ n ih =>
    have hresume : state.resume = state := by
      cases state with
      | suspended _ _ _ _ => exact h.elim
      | closed _ => rfl
      | deadFrame _ => rfl
    rw [RequestState.afterReplies, hresume, ih]

theorem settled_resumedFile (ran : List Nat) (file : ScriptFile) (l : List Suspension) :
    (resumedFile ran file l).Settled := by
  unfold resumedFile
  split
  · cases file.ending <;> trivial
  · trivial

theorem afterReplies_add (state : RequestState) (m n : Nat) :
    state.afterReplies (m + n) = (state.afterReplies m).afterReplies n := by
  induction m generalizing state with
  | zero => rw [Nat.zero_add]; rfl
  | succ m ih =>
    rw [Nat.succ_add]
    exact ih state.resume

theorem afterReplies_callback (ran : List Nat) (file : ScriptFile) (later : List Suspension)
    (more : Nat) :
    (RequestState.suspended ran file (.callback more) later).afterReplies (more + 1) =
      .closed ran := by
  induction more with
  | zero => rfl
  | succ more ih => exact ih

/-- **Once all calls are answered** a suspended file has been resumed to its end, unless one of its
calls was made below a callback. -/
theorem afterReplies_suspended (ran : List Nat) (file : ScriptFile) (suspension : Suspension)
    (later : List Suspension) : ∃ n,
    (RequestState.suspended ran file suspension later).afterReplies n =
      resumedFile ran file (suspension :: later) := by
  -- induction on the calls
  induction later generalizing suspension with
  | nil =>
    cases suspension with
    | callback more => exact ⟨more + 1, by rw [afterReplies_callback]; simp [resumedFile]⟩
    | nested => exact ⟨1, by simp [RequestState.afterReplies, RequestState.resume, resumedFile]⟩
  | cons next later ih =>
    cases suspension with
    | callback more => exact ⟨more + 1, by rw [afterReplies_callback]; simp [resumedFile]⟩
    | nested =>
      obtain ⟨n, hn⟩ := ih next
      refine ⟨n + 1, ?_⟩
      rw [RequestState.afterReplies, RequestState.resume, hn]
      simp [resumedFile]

theorem afterReplies_unique {state : RequestState} {m n : Nat}
    (hm : (state.afterReplies m).Settled) (hn : (state.afterReplies n).Settled) :
    state.afterReplies m = state.afterReplies n := by
  rcases Nat.le_total m n with hle | hle
  · obtain ⟨d, rfl⟩ := Nat.exists_eq_add_of_le hle
    rw [afterReplies_add, afterReplies_settled hm]
  · obtain ⟨d, rfl⟩ := Nat.exists_eq_add_of_le hle
    rw [afterReplies_add, afterReplies_settled hn]

/-! ## What a request has run -/

def executeRequest (files : List (Option ScriptFile)) : RequestState :=
  (zendExecuteScriptsCoro [] files).toRequestState

/-- The files run to completion when the calls are answered: the loop up to the first file that
yields, and that file if it comes back to its own frame. -/
def ranFiles : List ScriptFile → List Nat
  | [] => []
  | file :: files =>
      if file.compiles then
        match file.suspensions, file.ending with
        | [], .completed => file.filename :: ranFiles files
        | _ :: _, .completed =>
            if ∀ s ∈ file.suspensions, s = .nested then [file.filename] else []
        | _, .bailout => []
      else []

theorem zendExecuteScriptsCoro_present (ran : List Nat) (files : List (Option ScriptFile)) :
    zendExecuteScriptsCoro ran files =
      zendExecuteScriptsCoro ran (files.reduceOption.map some) := by
  induction files generalizing ran with
  | nil => rfl
  | cons file files ih =>
    cases file with
    | none => simpa [zendExecuteScriptsCoro] using ih ran
    | some file =>
      simp only [reduceOption_cons_of_some, map_cons, zendExecuteScriptsCoro]
      split
      · split
        · rfl
        · exact ih _
        · rfl
      · rfl

theorem afterReplies_zendExecuteScriptsCoro (ran : List Nat) (files : List ScriptFile) :
    ∃ n, (((zendExecuteScriptsCoro ran (files.map some)).toRequestState).afterReplies n).Settled ∧
      (((zendExecuteScriptsCoro ran (files.map some)).toRequestState).afterReplies n).ran =
        ran ++ ranFiles files := by
  -- induction on the files
  induction files generalizing ran with
  | nil => exact ⟨0, trivial, (append_nil ran).symm⟩
  | cons file files ih =>
    simp only [map_cons, zendExecuteScriptsCoro, ranFiles]
    by_cases hcompiles : file.compiles = true
    · simp only [hcompiles, if_true]
      cases hsusp : file.suspensions with
      | nil =>
        cases hend : file.ending with
        | completed =>
          obtain ⟨n, hsettled, hran⟩ := ih (ran ++ [file.filename])
          exact ⟨n, hsettled, by rw [hran]; simp⟩
        | bailout => exact ⟨0, trivial, (append_nil ran).symm⟩
      | cons suspension later =>
        -- the first file that yields: the rest of the list is not looked at again
        obtain ⟨n, hn⟩ := afterReplies_suspended ran file suspension later
        refine ⟨n, ?_, ?_⟩
        · rw [ScriptsResult.toRequestState, hn]
          exact settled_resumedFile ran file _
        · rw [ScriptsResult.toRequestState, hn, resumedFile]
          by_cases hnested : ∀ s ∈ suspension :: later, s = .nested
          · rw [if_pos hnested]
            cases hend : file.ending with
            | completed => simp only [if_pos hnested, RequestState.ran]
            | bailout => simp [RequestState.ran]
          · rw [if_neg hnested]
            cases hend : file.ending with
            | completed => simp only [if_neg hnested, RequestState.ran, append_nil]
            | bailout => simp [RequestState.ran]
    · simp only [hcompiles, Bool.false_eq_true, if_false]
      exact ⟨0, trivial, (append_nil ran).symm⟩

theorem ran_executeRequest (files : List (Option ScriptFile)) {n : Nat}
    (h : ((executeRequest files).afterReplies n).Settled) :
    ((executeRequest files).afterReplies n).ran = ranFiles files.reduceOption := by
  unfold executeRequest at h ⊢
  rw [zendExecuteScriptsCoro_present] at h ⊢
  obtain ⟨m, hsettled, hran⟩ := afterReplies_zendExecuteScriptsCoro [] files.reduceOption
  rw [afterReplies_unique h hsettled, hran, nil_append]

theorem phpExecuteScriptCoro_toRequestState (startLineno : Bool)
    (prepend primary append : Option ScriptFile) :
    (phpExecuteScriptCoro startLineno prepend primary append).toRequestState =
      executeRequest [prepend, primary, append] := by
  unfold phpExecuteScriptCoro executeRequest
  split
  · cases prepend with
    | none => rfl
    | some file =>
      simp only [zendExecuteScriptsCoro]
      by_cases hcompiles : file.compiles = true
      · simp only [hcompiles, if_true]
        cases hsusp : file.suspensions with
        | nil => cases hend : file.ending <;> rfl
        | cons _ _ => rfl
      · simp only [hcompiles, Bool.false_eq_true, if_false]
  · rfl

/-! ## Skipping no file -/

def plainFiles (files : List ScriptFile) : List Nat :=
  ranFiles (files.map ScriptFile.withoutYields)

theorem plainFiles_cons (file : ScriptFile) (files : List ScriptFile) :
    plainFiles (file :: files) =
      if file.compiles = true ∧ file.ending = .completed then
        file.filename :: plainFiles files
      else [] := by
  unfold plainFiles
  simp only [map_cons, ranFiles, ScriptFile.withoutYields]
  by_cases hcompiles : file.compiles = true
  · cases hend : file.ending with
    | completed => simp [hcompiles]
    | bailout => simp [hcompiles]
  · simp [hcompiles]

theorem plainFiles_eq_nil_iff (files : List ScriptFile) :
    plainFiles files = [] ↔ ∀ next ∈ files.head?, ¬next.Completes := by
  cases files with
  | nil => simp [plainFiles, ranFiles]
  | cons file files =>
    rw [plainFiles_cons]
    simp only [List.head?_cons, Option.mem_def, Option.some.injEq, forall_eq']
    unfold ScriptFile.Completes
    split
    · rename_i h
      simp [h]
    · rename_i h
      simpa using h

/-- The first file that yields, if it would run to its end, makes all its calls outside
callbacks, and no file that would be compiled and run to completion comes next. -/
def LastToRun (files : List ScriptFile) : Prop :=
  ∀ before file after, files = before ++ file :: after →
    (∀ f ∈ before, f.Completes ∧ f.suspensions = []) → file.Completes →
    file.suspensions ≠ [] →
    (∀ s ∈ file.suspensions, s = .nested) ∧ ∀ next ∈ after.head?, ¬next.Completes

theorem lastToRun_cons_of_plain {file : ScriptFile} {files : List ScriptFile}
    (hfile : file.Completes) (hnone : file.suspensions = []) :
    LastToRun (file :: files) ↔ LastToRun files := by
  constructor
  · intro h before f after heq hbefore
    refine h (file :: before) f after (by rw [heq]; rfl) fun g hg => ?_
    rcases mem_cons.mp hg with rfl | hg
    · exact ⟨hfile, hnone⟩
    · exact hbefore g hg
  · intro h before f after heq hbefore
    cases before with
    | nil =>
      obtain ⟨rfl, rfl⟩ : file = f ∧ files = after := by simpa using heq
      exact fun _ hsome => absurd hnone hsome
    | cons g before =>
      obtain ⟨rfl, hrest⟩ : file = g ∧ files = before ++ f :: after := by simpa using heq
      exact h before f after hrest fun g hg => hbefore g (mem_cons_of_mem _ hg)

theorem lastToRun_cons_of_not_completes {file : ScriptFile} {files : List ScriptFile}
    (hfile : ¬file.Completes) : LastToRun (file :: files) := by
  intro before f after heq hbefore hf
  cases before with
  | nil =>
    obtain ⟨rfl, -⟩ : file = f ∧ files = after := by simpa using heq
    exact absurd hf hfile
  | cons g before =>
    obtain ⟨rfl, -⟩ : file = g ∧ files = before ++ f :: after := by simpa using heq
    exact absurd (hbefore file (by simp)).1 hfile

theorem ranFiles_eq_plainFiles_iff (files : List ScriptFile) :
    ranFiles files = plainFiles files ↔ LastToRun files := by
  induction files with
  | nil => simp [ranFiles, plainFiles, LastToRun]
  | cons file files ih =>
    by_cases hfile : file.Completes
    · obtain ⟨hcompiles, hend⟩ := hfile
      rw [plainFiles_cons, if_pos ⟨hcompiles, hend⟩]
      simp only [ranFiles, hcompiles, if_true, hend]
      cases hsusp : file.suspensions with
      | nil =>
        rw [lastToRun_cons_of_plain ⟨hcompiles, hend⟩ hsusp, ← ih]
        simp
      | cons suspension later =>
        -- the first file that yields: what the plain run has after it is skipped
        have hlast : LastToRun (file :: files) ↔
            (∀ s ∈ file.suspensions, s = .nested) ∧
              ∀ next ∈ files.head?, ¬next.Completes := by
          constructor
          · intro h
            exact h [] file files rfl (by simp) ⟨hcompiles, hend⟩ (by simp [hsusp])
          · intro h before f after heq hbefore _ _
            cases before with
            | nil =>
              obtain ⟨rfl, rfl⟩ : file = f ∧ files = after := by simpa using heq
              exact h
            | cons g before =>
              obtain ⟨rfl, -⟩ : file = g ∧ files = before ++ f :: after := by simpa using heq
              have hnil := (hbefore file (by simp)).2
              simp [hsusp] at hnil
        rw [hlast, hsusp, ← plainFiles_eq_nil_iff]
        by_cases hnested : ∀ s ∈ suspension :: later, s = .nested
        · rw [if_pos hnested]
          simp only [List.cons.injEq, true_and]
          exact ⟨fun h => ⟨hnested, h.symm⟩, fun h => h.2.symm⟩
        · rw [if_neg hnested]
          exact iff_of_false (by simp) fun h => hnested h.1
    · refine iff_of_true ?_ (lastToRun_cons_of_not_completes hfile)
      have hplain := hfile
      unfold ScriptFile.Completes at hplain
      rw [plainFiles_cons, if_neg hplain]
      simp only [ranFiles]
      by_cases hcompiles : file.compiles = true
      · have hend : file.ending = .bailout := by
          cases hend : file.ending with
          | completed => exact absurd ⟨hcompiles, hend⟩ hfile
          | bailout => rfl
        simp only [hcompiles, if_true, hend]
      · simp [hcompiles]

/-- After enough replies the request is not suspended any more, and it has then run the files
that it runs when no file yields. -/
def YieldsSkipNoFile (files : List (Option ScriptFile)) : Prop :=
  ∃ n, ((executeRequest files).afterReplies n).Settled ∧
    ((executeRequest files).afterReplies n).ran =
      (executeRequest (files.map (Option.map ScriptFile.withoutYields))).ran

theorem ran_withoutYields (files : List (Option ScriptFile)) :
    (executeRequest (files.map (Option.map ScriptFile.withoutYields))).ran =
      plainFiles files.reduceOption := by
  have hreduce : (files.map (Option.map ScriptFile.withoutYields)).reduceOption =
      files.reduceOption.map ScriptFile.withoutYields := reduceOption_map
  have hsettled : ∀ (fs : List (Option ScriptFile)) (ran : List Nat),
      (zendExecuteScriptsCoro ran
        (fs.map (Option.map ScriptFile.withoutYields))).toRequestState.Settled := by
    intro fs
    induction fs with
    | nil => exact fun ran => trivial
    | cons file fs ih =>
      intro ran
      cases file with
      | none => exact ih ran
      | some file =>
        simp only [map_cons, Option.map_some, zendExecuteScriptsCoro,
          ScriptFile.withoutYields]
        by_cases hcompiles : file.compiles = true
        · cases hend : file.ending with
          | completed => simpa [hcompiles] using ih _
          | bailout => simp [hcompiles, ScriptsResult.toRequestState, RequestState.Settled]
        · simp [hcompiles, ScriptsResult.toRequestState, RequestState.Settled]
  have hran := ran_executeRequest (files.map (Option.map ScriptFile.withoutYields)) (n := 0)
    (hsettled files [])
  rw [hreduce] at hran
  exact hran

theorem yieldsSkipNoFile_iff_lastToRun (files : List (Option ScriptFile)) :
    YieldsSkipNoFile files ↔ LastToRun files.reduceOption := by
  unfold YieldsSkipNoFile
  rw [ran_withoutYields, ← ranFiles_eq_plainFiles_iff]
  constructor
  · rintro ⟨n, hsettled, hran⟩
    rw [← hran, ran_executeRequest files hsettled]
  · intro h
    obtain ⟨n, hsettled, hran⟩ := afterReplies_zendExecuteScriptsCoro [] files.reduceOption
    rw [← zendExecuteScriptsCoro_present] at hsettled hran
    exact ⟨n, hsettled, hran.trans h⟩

/-- **A yield skips no script file** exactly when the first file that yields, if it would run to
its end, makes its calls outside callbacks of internal functions, and is not followed by a file
that would be compiled and run to completion. -/
theorem yields_skip_no_file_iff (files : List (Option ScriptFile)) :
    YieldsSkipNoFile files ↔
      ∀ before file after, files.reduceOption = before ++ file :: after →
        (∀ f ∈ before, f.Completes ∧ f.suspensions = []) → file.Completes →
        file.suspensions ≠ [] →
        (∀ s ∈ file.suspensions, s = .nested) ∧ ∀ next ∈ after.head?, ¬next.Completes :=
  yieldsSkipNoFile_iff_lastToRun files

/-- **A primary script that makes a remote call skips the appended file.** -/
theorem not_yields_skip_no_file : ¬∀ files, YieldsSkipNoFile files := by
  intro h
  have hlast := (yieldsSkipNoFile_iff_lastToRun _).mp
    (h [none, some ⟨1, true, [.nested], .completed⟩, some ⟨2, true, [], .completed⟩])
  obtain ⟨-, hnext⟩ := hlast [] _ _ rfl (by simp) ⟨rfl, rfl⟩ (by simp)
  exact hnext ⟨2, true, [], .completed⟩ rfl ⟨rfl, rfl⟩

end Vm

end Phpce
