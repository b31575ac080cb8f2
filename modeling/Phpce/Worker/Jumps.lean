import Phpce.Worker.Activations

/-!
# Uses of abandoned C stacks

Between two events no function of a request is active, so every pointer into the stack that a
context keeps is to a frame that is gone. The first run of a script sets all of them again. A
resumed one sets `buf_ptr` only: `EG(bailout)` and `old_cwd` stay those of the first run.
-/

namespace Phpce

namespace Activations

open Option Nat
open Function (update update_of_ne update_self)

variable {s s' : Activations} {c : ContextPtr} {r : Nat}

def Holds (pointers : StackPointers) (f : Nat) : Prop :=
  pointers.bufPtr = some f ∨ pointers.reqPtr = some f ∨ pointers.bailout = some f ∨
    pointers.oldCwd = some f

/-- The pointers that `php_execute_script_coro` sets are not null. -/
def Started (pointers : StackPointers) : Prop :=
  (∃ f, pointers.bailout = some f) ∧ ∃ f, pointers.oldCwd = some f

def Bounded (s : Activations) : Prop := ∀ c f, Holds (s.pointers c) f → f < s.stack.next

/-- What holds between two events: no frame is active. -/
structure Resting (s : Activations) : Prop where
  active : s.stack.active = []
  bounded : s.Bounded

theorem Resting.stale (h : s.Resting) {target : Option Nat}
    (htarget : ∀ f, target = some f → Holds (s.pointers c) f) : Stale s.stack.enter target := by
  intro f hf
  refine CStack.Dead.enter ⟨h.bounded c f (htarget f hf), ?_⟩
  rw [h.active]
  exact List.not_mem_nil

theorem bounded_update {stack : CStack} {pointers : StackPointers} {uses : List StackUse}
    (h : s.Bounded) (hnext : s.stack.next ≤ stack.next)
    (hpointers : ∀ f, Holds pointers f → f < stack.next) :
    Bounded ⟨stack, update s.pointers c pointers, uses⟩ := by
  intro c' f hf
  by_cases hc : c' = c
  · subst hc
    exact hpointers f (by simpa using hf)
  · have hold : Holds (s.pointers c') f := by simpa [update_of_ne hc] using hf
    exact Nat.lt_of_lt_of_le (h c' f hold) hnext

/-! ## `php_execute_script_coro` -/

/-- In `s'` the `zend_try` of `php_execute_script_coro` is set up, which was called in `s`. -/
structure InScript (c : ContextPtr) (s s' : Activations) : Prop where
  next : s.stack.next < s'.stack.next
  pointers : s'.pointers = update s.pointers c
    ⟨(s'.pointers c).bufPtr, (s.pointers c).reqPtr, some s.stack.next, some s.stack.next⟩
  stale : Stale s'.stack (s'.pointers c).bufPtr

theorem InScript.bounded_of (h : InScript c s s') (hs : s.Bounded) {stack : CStack}
    {uses : List StackUse} {bailout : Option Nat} (hnext : stack.next = s'.stack.next)
    (hbailout : ∀ f, bailout = some f → f < s'.stack.next) :
    Bounded ⟨stack, update s.pointers c
      ⟨(s'.pointers c).bufPtr, (s.pointers c).reqPtr, bailout, some s.stack.next⟩, uses⟩ := by
  refine bounded_update hs (hnext ▸ Nat.le_of_lt h.next) ?_
  rw [hnext]
  rintro f (hf | hf | hf | hf)
  · exact (h.stale f hf).lt
  · exact Nat.lt_trans (hs c f (.inr (.inl hf))) h.next
  · exact hbailout f hf
  · obtain rfl : s.stack.next = f := some.inj hf
    exact h.next

theorem InScript.bounded (h : InScript c s s') (hs : s.Bounded) : s'.Bounded := by
  have heq : s' = ⟨s'.stack, update s.pointers c
      ⟨(s'.pointers c).bufPtr, (s.pointers c).reqPtr, some s.stack.next, some s.stack.next⟩,
      s'.uses⟩ := by
    rw [← h.pointers]
  rw [heq]
  refine h.bounded_of hs rfl fun f hf => ?_
  obtain rfl : s.stack.next = f := some.inj hf
  exact h.next

theorem InScript.started (h : InScript c s s') (c' : ContextPtr)
    (hc' : Started (s.pointers c') ∨ c' = c) : Started (s'.pointers c') := by
  rw [h.pointers]
  by_cases hcc : c' = c
  · subst hcc
    rw [update_self]
    exact ⟨⟨_, rfl⟩, _, rfl⟩
  · rw [update_of_ne hcc]
    exact hc'.resolve_right hcc

theorem zendEndTry_spec (h : InScript c s s') (hs : s.Bounded)
    (hactive : s'.stack.active = [s.stack.next, r]) :
    ∃ s₂, s'.zendEndTry c s.stack.next (s.pointers c).bailout = (s₂, .returned) ∧
      (s₂.Safe ↔ s'.Safe) ∧ s₂.stack.active = [r] ∧ s₂.Bounded ∧
      Stale s₂.stack (s₂.pointers c).bufPtr ∧
      ∀ c', Started (s.pointers c') → Started (s₂.pointers c') := by
  have hpointers : update s'.pointers c
      { s'.pointers c with bailout := (s.pointers c).bailout } = update s.pointers c
      ⟨(s'.pointers c).bufPtr, (s.pointers c).reqPtr, (s.pointers c).bailout,
        some s.stack.next⟩ := by
    rw [h.pointers]
    simp
  have heq : s'.zendEndTry c s.stack.next (s.pointers c).bailout =
      (⟨s'.stack.leave, update s.pointers c
        ⟨(s'.pointers c).bufPtr, (s.pointers c).reqPtr, (s.pointers c).bailout,
          some s.stack.next⟩, ⟨.oldCwd, s.stack.next, true⟩ :: s'.uses⟩, .returned) := by
    rw [zendEndTry, setPointers, hpointers]
    simp [freeOldCwd, leave, hactive]
  refine ⟨_, heq, safe_cons rfl rfl rfl, by simp [hactive], ?_, ?_, fun c' hc' => ?_⟩
  · exact h.bounded_of hs rfl fun f hf => Nat.lt_trans (hs c f (.inr (.inr (.inl hf)))) h.next
  · intro f hf
    exact (h.stale f (by simpa using hf)).leave
  · by_cases hcc : c' = c
    · subst hcc
      obtain ⟨⟨f, hf⟩, -⟩ := hc'
      simp [Started, hf]
    · simpa [update_of_ne hcc] using hc'

/-- How `php_execute_script_coro` is left, under the `setjmp` of `socket_read_cb`. -/
def scriptControl (r : Nat) : FileExit → Control
  | .yielded => .jump r
  | .handlerYielded => .wild
  | _ => .returned

/-- What a run of the files that is left so makes of the stack and the pointers. -/
structure ScriptLeft (c : ContextPtr) (s : Activations) (r : Nat) (exit : FileExit)
    (s' : Activations) : Prop where
  safe : s'.Safe ↔ s.Safe ∧ exit ≠ .handlerYielded
  active : exit ≠ .handlerYielded → s'.stack.active = [r]
  bounded : s'.Bounded
  stale : Stale s'.stack (s'.pointers c).bufPtr
  started : ∀ c', Started (s.pointers c') → Started (s'.pointers c')
  yielded : exit = .yielded → Started (s'.pointers c)

theorem phpExecuteScriptCoro_eq {s₁ s₂ : Activations} {control : Control} {files : List FileExit}
    (hs₁ : s₁ = s.enter.setPointers c
      { s.pointers c with oldCwd := some s.stack.next, bailout := some s.stack.next })
    (hloop : s₁.zendExecuteScriptsCoro c files = (s₂, control)) :
    s.phpExecuteScriptCoro c files =
      if control = .returned ∨ control = .jump s.stack.next then
        s₂.zendEndTry c s.stack.next (s.pointers c).bailout
      else (s₂, control) := by
  subst hs₁
  simp only [phpExecuteScriptCoro, hloop]
  cases control with
  | returned => rfl
  | jump target => simp
  | wild => rfl
  | exit => rfl
  | crash => rfl

/-- **The first run of a script.** The only jump out of it that does not go to an active frame is
that of an exception handler that suspends. -/
theorem phpExecuteScriptCoro_spec (hactive : s.stack.active = [r])
    (hreq : (s.pointers c).reqPtr = some r) (hbuf : Stale s.stack (s.pointers c).bufPtr)
    (hbounded : s.Bounded) (files : List FileExit) :
    ∃ s', s.phpExecuteScriptCoro c files = (s', scriptControl r (filesExit files)) ∧
      ScriptLeft c s r (filesExit files) s' := by
  obtain ⟨s₁, hs₁⟩ : ∃ s₁, s₁ = s.enter.setPointers c
    { s.pointers c with oldCwd := some s.stack.next, bailout := some s.stack.next } := ⟨_, rfl⟩
  have hactive₁ : s₁.stack.active = [s.stack.next, r] := by
    rw [hs₁, ← hactive]
    rfl
  have hr : r < s.stack.next := CStack.lt_next (hactive ▸ List.mem_cons_self)
  have hsafe₁ : s₁.Safe ↔ s.Safe := by
    rw [hs₁]
    rfl
  have hbuf₁ : Stale s₁.stack (s₁.pointers c).bufPtr := by
    intro f hf
    rw [hs₁] at hf ⊢
    exact (hbuf f (by simpa [setPointers] using hf)).enter
  -- the files, under the `zend_try`
  obtain ⟨s₂, hloop, hran, hactive₂, hsafe₂⟩ := zendExecuteScriptsCoro_spec
    (by simp [hs₁, setPointers] : (s₁.pointers c).bailout = some s.stack.next)
    (by simp [hactive₁]) (by simpa [hs₁, setPointers] using hreq) (by simp [hactive₁]) hbuf₁ files
  have hin : InScript c s s₂ := by
    have hnext := hran.next
    have hpointers := hran.pointers
    rw [hs₁] at hnext hpointers
    exact ⟨lt_of_succ_le hnext, hpointers.trans (by simp [setPointers, enter]), hran.stale⟩
  have hleft := phpExecuteScriptCoro_eq hs₁ hloop
  have hended : s₂.stack.active = [s.stack.next, r] →
      s.phpExecuteScriptCoro c files = s₂.zendEndTry c s.stack.next (s.pointers c).bailout →
      filesExit files ≠ .yielded → filesExit files ≠ .handlerYielded →
      ∃ s', s.phpExecuteScriptCoro c files = (s', .returned) ∧
        ScriptLeft c s r (filesExit files) s' := by
    intro hactive heq hyielded hhandler
    obtain ⟨s₃, hend, hsafe₃, hactive₃, hbounded₃, hstale₃, hstarted₃⟩ :=
      zendEndTry_spec hin hbounded hactive
    refine ⟨s₃, heq.trans hend, ?_, fun _ => hactive₃, hbounded₃, hstale₃, hstarted₃,
      fun h => absurd h hyielded⟩
    rw [hsafe₃, hsafe₂, hsafe₁]
  cases hexit : filesExit files with
  | finished =>
    rw [hexit] at hleft hactive₂ hended
    exact hended (hactive₂.trans hactive₁) (hleft.trans (if_pos (.inl rfl))) (by decide)
      (by decide)
  | notCompiled =>
    rw [hexit] at hleft hactive₂ hended
    exact hended (hactive₂.trans hactive₁) (hleft.trans (if_pos (.inl rfl))) (by decide)
      (by decide)
  | bailout =>
    rw [hexit] at hleft hactive₂ hended
    refine hended ?_ (hleft.trans (if_pos (.inr rfl))) (by decide) (by decide)
    rw [hactive₂, leftBy, CStack.active_unwindTo, hactive₁]
    simp
  | yielded =>
    rw [hexit] at hleft hactive₂ hsafe₂
    have hne : r ≠ s.stack.next := Nat.ne_of_lt hr
    have huncaught : ¬(Control.jump r = .returned ∨ Control.jump r = .jump s.stack.next) := by
      simpa using hne
    refine ⟨s₂, hleft.trans (if_neg huncaught), hsafe₂.trans (by rw [hsafe₁]), fun _ => ?_,
      hin.bounded hbounded, hin.stale, fun c' hc' => hin.started c' (.inl hc'),
      fun _ => hin.started c (.inr rfl)⟩
    rw [hactive₂, leftBy, CStack.active_unwindTo, hactive₁]
    simp [hne.symm]
  | handlerYielded =>
    rw [hexit] at hleft hsafe₂
    exact ⟨s₂, hleft.trans (if_neg (by simp [leftBy])), hsafe₂.trans (by rw [hsafe₁]),
      fun h => absurd rfl h,
      hin.bounded hbounded, hin.stale, fun c' hc' => hin.started c' (.inl hc'), by simp⟩

/-! ## The callbacks -/

theorem closeRequest_thenReturn (hactive : s.stack.active = [r]) (hbounded : s.Bounded) :
    ∃ s', thenReturn (s.closeRequest c .completes) = (s', .returned) ∧ s'.uses = s.uses ∧
      s'.pointers = s.pointers ∧ s'.Resting := by
  rw [closeRequest_completes]
  refine ⟨_, rfl, rfl, rfl, by simp [leave, hactive], fun c f hf => ?_⟩
  exact lt_succ_of_lt (hbounded c f hf)

theorem closeRequest_wild (hstale : Stale s.stack (s.pointers c).bufPtr) :
    ∃ s', thenReturn (s.closeRequest c .yields) = (s', .wild) ∧ ¬s'.Safe := by
  obtain ⟨s', hwild, hunsafe⟩ := closeRequest_yields hstale
  exact ⟨s', by rw [hwild]; rfl, hunsafe⟩

/-- The request closes without a yield in `close_request`, and no exception handler of it yields. -/
def ReadsLive (shutdown : ShutdownRun) : RequestPath → Prop
  | .startupFailed => True
  | .rejected => shutdown = .completes
  | .executed files =>
      filesExit files ≠ .handlerYielded ∧ (filesExit files = .yielded ∨ shutdown = .completes)

/-- What a callback leaves that returns to the event loop. -/
structure Left (s s' : Activations) : Prop where
  resting : s'.Resting
  started : ∀ c, Started (s.pointers c) → Started (s'.pointers c)

theorem bounded_enter (h : s.Bounded) : s.enter.Bounded :=
  fun c f hf => lt_succ_of_lt (h c f hf)

theorem socketReadCb_executed (h : s.Resting) (c : ContextPtr) (files : List FileExit)
    (shutdown : ShutdownRun) :
    ∃ s₂, s.socketReadCb c (.executed files) shutdown =
        (match (s₂, scriptControl s.stack.next (filesExit files)) with
          | (s', .returned) => thenReturn (s'.closeRequest c shutdown)
          | (s', control) => returnAt s.stack.next (s', control)) ∧
      ScriptLeft c s s.stack.next (filesExit files) s₂ := by
  obtain ⟨s₁, hs₁⟩ : ∃ s₁, s₁ = s.enter.setPointers c
    { s.pointers c with reqPtr := some s.stack.next } := ⟨_, rfl⟩
  have hactive : s₁.stack.active = [s.stack.next] := by simp [hs₁, setPointers, enter, h.active]
  have hbuf : Stale s₁.stack (s₁.pointers c).bufPtr := by
    rw [hs₁]
    exact h.stale (c := c) fun f hf => .inl (by simpa [setPointers] using hf)
  have hbounded : s₁.Bounded := by
    rw [hs₁]
    refine bounded_update (bounded_enter h.bounded) (Nat.le_refl _) ?_
    rintro f (hf | hf | hf)
    · exact bounded_enter h.bounded c f (.inl hf)
    · obtain rfl : s.stack.next = f := some.inj hf
      exact lt_succ_self _
    · exact bounded_enter h.bounded c f (.inr (.inr hf))
  have hstarted : ∀ c', Started (s.pointers c') → Started (s₁.pointers c') := by
    intro c' hc'
    by_cases hcc : c' = c
    · subst hcc
      simpa [hs₁, setPointers, Started] using hc'
    · simpa [hs₁, setPointers, enter, update_of_ne hcc] using hc'
  obtain ⟨s₂, hscript, hleft⟩ := phpExecuteScriptCoro_spec hactive
    (by simp [hs₁, setPointers]) hbuf hbounded files
  have hsafe : s₁.Safe ↔ s.Safe := by
    rw [hs₁]
    rfl
  refine ⟨s₂, ?_, ?_, hleft.active, hleft.bounded, hleft.stale,
    fun c' hc' => hleft.started c' (hstarted c' hc'), hleft.yielded⟩
  · rw [← hscript, hs₁]
    rfl
  · rw [hleft.safe, hsafe]

theorem socketReadCb_live (h : s.Resting) {path : RequestPath} {shutdown : ShutdownRun}
    (hlive : ReadsLive shutdown path) :
    ∃ s', s.socketReadCb c path shutdown = (s', .returned) ∧ (s'.Safe ↔ s.Safe) ∧ Left s s' ∧
      ∀ files, path = .executed files → filesExit files = .yielded → Started (s'.pointers c) := by
  have hactive : s.enter.stack.active = [s.stack.next] := by simp [enter, h.active]
  cases path with
  | startupFailed =>
    exact ⟨_, rfl, Iff.rfl, ⟨⟨by simp [enter, leave, h.active], bounded_enter h.bounded⟩,
      fun _ hc => hc⟩, by simp⟩
  | rejected =>
    obtain rfl : shutdown = .completes := hlive
    obtain ⟨s', heq, huses, hpointers, hresting⟩ :=
      closeRequest_thenReturn hactive (bounded_enter h.bounded)
    refine ⟨s', heq, by simp [Safe, huses, enter], ⟨hresting, fun c hc => ?_⟩, by simp⟩
    rw [hpointers]
    exact hc
  | executed files =>
    obtain ⟨hhandler, hend⟩ := hlive
    obtain ⟨s₂, heq, hleft⟩ := socketReadCb_executed h c files shutdown
    have hsafe : s₂.Safe ↔ s.Safe := hleft.safe.trans (and_iff_left hhandler)
    have hactive₂ := hleft.active hhandler
    by_cases hyielded : filesExit files = .yielded
    · -- the jump of the yield comes back to `socket_read_cb`
      rw [hyielded] at heq
      refine ⟨s₂.leave, heq.trans (if_pos rfl), hsafe, ⟨⟨?_, hleft.bounded⟩, hleft.started⟩, ?_⟩
      · simp [leave, hactive₂]
      · exact fun _ _ _ => hleft.yielded hyielded
    · obtain rfl : shutdown = .completes := hend.resolve_left hyielded
      obtain ⟨s', hclose, huses, hpointers, hresting⟩ :=
        closeRequest_thenReturn (c := c) hactive₂ hleft.bounded
      have hcontrol : scriptControl s.stack.next (filesExit files) = .returned := by
        cases hexit : filesExit files <;> simp_all [scriptControl]
      rw [hcontrol] at heq
      refine ⟨s', heq.trans hclose, by simpa [Safe, huses] using hsafe, ⟨hresting, ?_⟩, ?_⟩
      · rw [hpointers]
        exact hleft.started
      · intro files' hfiles hyielded'
        obtain rfl : files = files' := RequestPath.executed.inj hfiles
        exact absurd hyielded' hyielded

theorem socketReadCb_wild (h : s.Resting) {path : RequestPath} {shutdown : ShutdownRun}
    (hlive : ¬ReadsLive shutdown path) :
    ∃ s', s.socketReadCb c path shutdown = (s', .wild) ∧ ¬s'.Safe := by
  cases path with
  | startupFailed => exact absurd trivial hlive
  | rejected =>
    cases shutdown with
    | completes => exact absurd rfl hlive
    | yields =>
      exact closeRequest_wild (s := s.enter) (h.stale (c := c) fun f hf => .inl hf)
  | executed files =>
    obtain ⟨s₂, heq, hleft⟩ := socketReadCb_executed h c files shutdown
    by_cases hhandler : filesExit files = .handlerYielded
    · rw [hhandler] at heq
      exact ⟨s₂, heq, fun hsafe => (hleft.safe.mp hsafe).2 hhandler⟩
    · have hnot : filesExit files ≠ .yielded ∧ shutdown ≠ .completes := by
        simpa [ReadsLive, hhandler] using hlive
      have hcontrol : scriptControl s.stack.next (filesExit files) = .returned := by
        cases hexit : filesExit files <;> simp_all [scriptControl]
      cases shutdown with
      | completes => exact absurd rfl hnot.2
      | yields =>
        rw [hcontrol] at heq
        obtain ⟨s', hwild, hunsafe⟩ := closeRequest_wild hleft.stale
        exact ⟨s', heq.trans hwild, hunsafe⟩

theorem freeOldCwd_unsafe {frame : Nat} (hdead : s.stack.Dead frame) :
    s.freeOldCwd frame = { s with uses := ⟨.oldCwd, frame, false⟩ :: s.uses } := by
  simp [freeOldCwd, hdead.notMem]

theorem eventCb_started (h : s.Resting) {frame : Nat} (hc : (s.pointers c).oldCwd = some frame) :
    (∃ s', s.eventCb c .completes = (s', .returned) ∧ ¬s'.Safe ∧ Left s s') ∧
      ∃ s', s.eventCb c .yields = (s', .wild) ∧ ¬s'.Safe := by
  obtain ⟨s₁, hs₁⟩ : ∃ s₁ : Activations,
    s₁ = { s.enter with uses := ⟨.oldCwd, frame, false⟩ :: s.uses } := ⟨_, rfl⟩
  have hstale : Stale s.enter.stack (some frame) :=
    h.stale (c := c) fun f hf => .inr (.inr (.inr (hc.trans hf)))
  have hdead : s.enter.stack.Dead frame := hstale frame rfl
  have heq : ∀ shutdown, s.eventCb c shutdown = thenReturn (s₁.closeRequest c shutdown) := by
    intro shutdown
    have hold : (s.enter.pointers c).oldCwd = some frame := hc
    rw [hs₁, eventCb]
    simp only [hold, freeOldCwd_unsafe hdead]
    rfl
  have hactive : s₁.stack.active = [s.stack.next] := by simp [hs₁, enter, h.active]
  have hbounded : s₁.Bounded := by
    rw [hs₁]
    exact bounded_enter h.bounded
  constructor
  · obtain ⟨s', hclose, huses, hpointers, hresting⟩ :=
      closeRequest_thenReturn (c := c) hactive hbounded
    have hmem : (⟨.oldCwd, frame, false⟩ : StackUse) ∈ s'.uses := by
      rw [huses, hs₁]
      exact List.mem_cons_self
    refine ⟨s', (heq .completes).trans hclose, not_safe rfl hmem, hresting, fun c' hc' => ?_⟩
    rw [hpointers, hs₁]
    exact hc'
  · have hstale : Stale s₁.stack (s₁.pointers c).bufPtr := by
      rw [hs₁]
      exact h.stale (c := c) fun f hf => .inl hf
    obtain ⟨s', hwild, hunsafe⟩ := closeRequest_wild hstale
    exact ⟨s', (heq .yields).trans hwild, hunsafe⟩

/-! ## Resumed code -/

theorem left_update {stack : CStack} {pointers : StackPointers} {uses : List StackUse}
    (h : s.Resting) (hactive : stack.active = []) (hnext : s.stack.next ≤ stack.next)
    (hpointers : ∀ f, Holds pointers f → f < stack.next)
    (hstarted : Started pointers) :
    Left s ⟨stack, update s.pointers c pointers, uses⟩ := by
  refine ⟨⟨hactive, bounded_update h.bounded hnext hpointers⟩, fun c' hc' => ?_⟩
  by_cases hcc : c' = c
  · subst hcc
    simpa using hstarted
  · simpa [update_of_ne hcc] using hc'

/-- **Resumed code** may suspend again. When it ends, `old_cwd` is read in a dead frame, and when
it bails out, the jump is to one. -/
theorem resumeCoroutineContext_spec (h : s.Resting) (hc : Started (s.pointers c))
    (exit : ResumeExit) (shutdown : ShutdownRun) :
    ∃ s', (exit = .bailout ∧ s.resumeCoroutineContext c exit shutdown = (s', .wild) ∨
        exit ≠ .bailout ∧ s.resumeCoroutineContext c exit shutdown = (s', .returned) ∧ Left s s') ∧
      (s'.Safe ↔ s.Safe ∧ exit = .yielded) := by
  obtain ⟨⟨bailout, hbailout⟩, oldCwd, holdCwd⟩ := hc
  have hbound : ∀ f, Holds (s.pointers c) f → f < s.stack.next + 1 :=
    fun f hf => lt_succ_of_lt (h.bounded c f hf)
  have hdead : ∀ f, Holds (s.pointers c) f → s.stack.enter.Dead f := by
    intro f hf
    have hstale : Stale s.stack.enter (some f) :=
      h.stale (c := c) fun g hg => some.inj hg ▸ hf
    exact hstale f rfl
  have hpointers : ∀ f, Holds { s.pointers c with bufPtr := some s.stack.next } f →
      f < s.stack.next + 1 := by
    rintro f (hf | hf)
    · obtain rfl : s.stack.next = f := some.inj hf
      exact lt_succ_self _
    · exact hbound f (.inr hf)
  have hstarted : Started { s.pointers c with bufPtr := some s.stack.next } :=
    ⟨⟨bailout, hbailout⟩, oldCwd, holdCwd⟩
  cases exit with
  | yielded =>
    refine ⟨⟨s.stack.enter.leave, update s.pointers c
      { s.pointers c with bufPtr := some s.stack.next }, ⟨.bufPtr, s.stack.next, true⟩ :: s.uses⟩,
      .inr ⟨by decide, ?_, left_update h (by simp [h.active]) (le_succ _) hpointers hstarted⟩,
      ?_⟩
    · simp [resumeCoroutineContext, yieldCoroutineContext, longjmp, returnAt, setPointers, enter,
        leave]
    · simp [Safe]
  | bailout =>
    have hstale : Stale s.stack.enter (some bailout) := fun f hf =>
      some.inj hf ▸ hdead bailout (.inr (.inr (.inl hbailout)))
    refine ⟨⟨s.stack.enter, update s.pointers c
      { s.pointers c with bufPtr := some s.stack.next },
      ⟨.bailout, bailout, false⟩ :: s.uses⟩, .inl ⟨rfl, ?_⟩, ?_⟩
    · simp [resumeCoroutineContext, zendBailout, hbailout, setPointers, enter,
        longjmp_stale (s := ⟨s.stack.enter, _, s.uses⟩) hstale, returnAt]
    · simp [Safe]
  | finished =>
    obtain ⟨s₁, hs₁⟩ : ∃ s₁ : Activations, s₁ = ⟨s.stack.enter, update s.pointers c
      { s.pointers c with bufPtr := some s.stack.next }, ⟨.oldCwd, oldCwd, false⟩ :: s.uses⟩ :=
      ⟨_, rfl⟩
    have hread : s.resumeCoroutineContext c .finished shutdown =
        returnAt s.stack.next (s₁.closeRequest c shutdown) := by
      have hkept : ((s.enter.setPointers c
          { s.pointers c with bufPtr := some s.stack.next }).pointers c).oldCwd = some oldCwd := by
        simp [setPointers, holdCwd]
      have hfree : (s.enter.setPointers c
          { s.pointers c with bufPtr := some s.stack.next }).freeOldCwd oldCwd = s₁ := by
        rw [hs₁]
        exact freeOldCwd_unsafe (hdead oldCwd (.inr (.inr (.inr holdCwd))))
      rw [resumeCoroutineContext]
      simp only [hkept, hfree]
    cases shutdown with
    | completes =>
      refine ⟨⟨s.stack.enter.enter.leave.leave, s₁.pointers, s₁.uses⟩, .inr ⟨by decide, ?_, ?_⟩, ?_⟩
      · rw [hread, closeRequest_completes, hs₁]
        rfl
      · rw [hs₁]
        exact left_update h (by simp [h.active]) (by simp; omega) (fun f hf =>
          lt_succ_of_lt (hpointers f hf)) hstarted
      · simp [Safe, hs₁]
    | yields =>
      -- the jump out of `close_request` comes back here
      have hclose : s₁.closeRequest c .yields = (⟨s.stack.enter.enter.unwindTo s.stack.next,
          update s.pointers c
            { s.pointers c with bufPtr := some s.stack.next, bailout := some (s.stack.next + 1) },
          ⟨.bufPtr, s.stack.next, true⟩ :: ⟨.oldCwd, oldCwd, false⟩ :: s.uses⟩,
          .jump s.stack.next) := by
        rw [hs₁]
        simp [closeRequest, yieldCoroutineContext, setPointers, enter, longjmp]
      have hactive : (s.stack.enter.enter.unwindTo s.stack.next).leave.active = [] := by
        rw [CStack.active_leave, CStack.unwindTo_enter List.mem_cons_self, CStack.unwindTo_next,
          CStack.active_enter, h.active]
        rfl
      have hpointers' : ∀ f, Holds
          { s.pointers c with bufPtr := some s.stack.next, bailout := some (s.stack.next + 1) } f →
          f < s.stack.next + 1 + 1 := by
        rintro f (hf | hf | hf | hf)
        · exact lt_succ_of_lt (hpointers f (.inl hf))
        · exact lt_succ_of_lt (hbound f (.inr (.inl hf)))
        · obtain rfl : s.stack.next + 1 = f := some.inj hf
          exact lt_succ_self _
        · exact lt_succ_of_lt (hbound f (.inr (.inr (.inr hf))))
      refine ⟨_, .inr ⟨by decide, (hread.trans (congrArg (returnAt _) hclose)).trans (if_pos rfl),
        left_update h hactive ?_ hpointers' ⟨⟨_, rfl⟩, oldCwd, holdCwd⟩⟩, ?_⟩
      · exact Nat.le_trans (le_succ _) (le_succ _)
      · simp [Safe, leave]

end Activations

end Phpce
