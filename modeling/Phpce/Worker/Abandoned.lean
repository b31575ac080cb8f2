import Phpce.Worker.Jumps

/-!
# Is an abandoned C stack used after a yield?

* **`uses_active_iff`** — the jumps and the reads of `old_cwd` along a list of events are all into
  active frames if and only if no client leaves a context on which a script has run, resumed code
  does nothing but suspend again, and nothing suspends outside `zend_execute_coro`.
* **`not_uses_active`** — one request that suspends once and then runs to its end.
-/

namespace Phpce

namespace StackedWorker

open Activations Option

variable {x x' : StackedWorker} {e : WorkerEvent}

/-- No jump and no read of `old_cwd` is into a frame that is gone. -/
def LiveOnly (x : StackedWorker) : WorkerEvent → Prop
  | .accept _ => True
  | .readable _ path shutdown => ReadsLive shutdown path
  | .clientEof bev _ => ∀ b, (x.worker.bevs.find? fun b => b.id = bev ∧ b.fdOpen) = some b →
      (x.activations.pointers b.context).oldCwd = none
  | .reply call exit _ => ∀ k, (x.worker.calls.find? fun k => k.id = call) = some k →
      (x.worker.contexts k.context).fd = 0 ∨ exit = .yielded

/-- The invariant of every run: no frame of a callback is left, and a context with an outstanding
call has run a script. -/
structure Inv (x : StackedWorker) : Prop where
  resting : x.control = .returned → x.activations.Resting
  calls : x.control = .returned →
    ∀ k ∈ x.worker.calls, Started (x.activations.pointers k.context)
  jumps : x.control ≠ .crash → (x.control = .wild ↔ x.worker.status = .deadFrameJump)

structure Stepped (x : StackedWorker) (e : WorkerEvent) (x' : StackedWorker) : Prop where
  inv : Inv x'
  safe : x'.activations.Safe ↔ LiveOnly x e

theorem Inv.left {s : Activations} {w : Worker} {makes shuts : Option ContextPtr} {dead : Prop}
    (h : Inv x) (hx : x.control = .returned)
    (hout : Worker.Outcome makes shuts dead (x.worker.received e) w)
    (hlive : ¬dead) (hleft : Left { x.activations with uses := [] } s)
    (hmakes : ∀ c, makes = some c → Started (s.pointers c)) : Inv ⟨w, s, .returned⟩ where
  resting _ := hleft.resting
  calls _ k hk :=
    (hout.mem_calls hk).elim
      (fun hk => hleft.started _ (h.calls hx k (Worker.mem_received hk))) (hmakes k.context)
  jumps _ := ⟨nofun, fun hdead => absurd (hout.status.mp hdead) hlive⟩

theorem Inv.wild {s : Activations} {w w' : Worker} {makes shuts : Option ContextPtr} {dead : Prop}
    (hout : Worker.Outcome makes shuts dead w w') (hdead : dead) : Inv ⟨w', s, .wild⟩ :=
  ⟨nofun, nofun, fun _ => iff_of_true rfl (hout.status.mpr hdead)⟩

theorem jumpsDead_readable {w : Worker} {bev : Nat} {path : RequestPath} {shutdown : ShutdownRun} :
    w.jumpsDead (.readable bev path shutdown) = true ↔ ¬ReadsLive shutdown path := by
  cases path with
  | startupFailed => simp [Worker.jumpsDead, RequestPath.closes, ReadsLive]
  | rejected =>
    cases shutdown <;> simp [Worker.jumpsDead, RequestPath.closes, RequestPath.suspends, ReadsLive]
  | executed files =>
    cases shutdown <;> cases hexit : filesExit files <;>
      simp [Worker.jumpsDead, RequestPath.closes, RequestPath.suspends, ReadsLive, hexit]

theorem exit_of_makesCall {w : Worker} {bev : Nat} {path : RequestPath} {shutdown : ShutdownRun}
    {c : ContextPtr} (hlive : ReadsLive shutdown path)
    (hmakes : w.makesCall (.readable bev path shutdown) = some c) :
    ∃ files, path = .executed files ∧ filesExit files = .yielded := by
  cases path with
  | startupFailed => simp [Worker.makesCall, RequestPath.closes, RequestPath.suspends] at hmakes
  | rejected =>
    obtain rfl : shutdown = .completes := hlive
    simp [Worker.makesCall, RequestPath.closes, RequestPath.suspends] at hmakes
  | executed files =>
    refine ⟨files, rfl, ?_⟩
    by_contra hyielded
    obtain rfl := hlive.2.resolve_left hyielded
    simp [Worker.makesCall, RequestPath.suspends, hyielded, hlive.1] at hmakes

theorem step_stepped (h : Inv x) (hstep : stackedSystem.step x e = some x') : Stepped x e x' := by
  obtain ⟨w, s, control⟩ := x
  have hx : control = .returned := by
    by_contra hne
    simp [stackedSystem, step, hne] at hstep
  subst hx
  obtain ⟨w', hw, hx'⟩ : ∃ w', workerSystem.step w e = some w' ∧
      ⟨w', ({ s with uses := [] }.callback w e).1, ({ s with uses := [] }.callback w e).2⟩ =
        x' := by
    simpa [stackedSystem, step] using hstep
  have hresting : Resting { s with uses := [] } := ⟨(h.resting rfl).active, (h.resting rfl).bounded⟩
  obtain ⟨hrun, hout⟩ := Worker.outcome_of_step hw
  simp only [workerSystem, Worker.step, if_pos hrun] at hw
  have hempty : Safe { s with uses := [] } := by simp [Safe]
  cases e with
  | accept fd =>
    subst hx'
    exact ⟨h.left rfl hout (by simp [Worker.jumpsDead]) ⟨hresting, fun _ hc => hc⟩
      (by simp [Worker.makesCall]), iff_of_true hempty trivial⟩
  | readable bev path shutdown =>
    obtain ⟨b, hb, rfl⟩ := map_eq_some_iff.mp hw
    simp only [callback, hb] at hx'
    by_cases hlive : ReadsLive shutdown path
    · obtain ⟨s', heq, hsafe, hleft, hyielded⟩ := socketReadCb_live hresting hlive
      rw [heq] at hx'
      subst hx'
      refine ⟨h.left rfl hout (fun hdead => jumpsDead_readable.mp hdead hlive) hleft
        fun c hc => ?_, iff_of_true (hsafe.mpr hempty) hlive⟩
      obtain ⟨files, hpath, hexit⟩ := exit_of_makesCall hlive hc
      obtain rfl : b.context = c := by
        simp only [Worker.makesCall, hb, map_some] at hc
        split at hc
        · exact some.inj hc
        · cases hc
      exact hyielded files hpath hexit
    · obtain ⟨s', heq, hunsafe⟩ := socketReadCb_wild hresting hlive
      rw [heq] at hx'
      subst hx'
      exact ⟨.wild hout (jumpsDead_readable.mpr hlive), iff_of_false hunsafe hlive⟩
  | clientEof bev shutdown =>
    obtain ⟨b, hb, rfl⟩ := map_eq_some_iff.mp hw
    simp only [callback, hb] at hx'
    cases hcwd : (s.pointers b.context).oldCwd with
    | none =>
      have heq : eventCb { s with uses := [] } b.context shutdown =
          (enter { s with uses := [] }, .crash) := by
        have hkept : ((enter { s with uses := [] }).pointers b.context).oldCwd = none := hcwd
        rw [eventCb]
        simp only [hkept]
      rw [heq] at hx'
      subst hx'
      refine ⟨⟨by simp, by simp, fun hne => absurd rfl hne⟩,
        iff_of_true (by simp [Safe, enter]) fun b' hb' => ?_⟩
      obtain rfl : b = b' := some.inj (hb.symm.trans hb')
      exact hcwd
    | some frame =>
      have hnot : ¬LiveOnly ⟨w, s, .returned⟩ (.clientEof bev shutdown) := fun hlive =>
        some_ne_none frame (hcwd.symm.trans (hlive b hb))
      obtain ⟨⟨s₁, heq₁, hunsafe₁, hleft₁⟩, s₂, heq₂, hunsafe₂⟩ := eventCb_started hresting hcwd
      cases shutdown with
      | completes =>
        rw [heq₁] at hx'
        subst hx'
        exact ⟨h.left rfl hout (by simp [Worker.jumpsDead]) hleft₁ (by simp [Worker.makesCall]),
          iff_of_false hunsafe₁ hnot⟩
      | yields =>
        rw [heq₂] at hx'
        subst hx'
        exact ⟨.wild hout rfl, iff_of_false hunsafe₂ hnot⟩
  | reply call exit shutdown =>
    obtain ⟨k, hk, rfl⟩ := map_eq_some_iff.mp hw
    simp only [callback, hk] at hx'
    simp only [Worker.makesCall, Worker.jumpsDead, hk] at hout
    have hlive : LiveOnly ⟨w, s, .returned⟩ (.reply call exit shutdown) ↔
        (w.contexts k.context).fd = 0 ∨ exit = .yielded := by
      constructor
      · exact fun hlive => hlive k hk
      · intro h k' hk'
        obtain rfl : k = k' := some.inj (hk.symm.trans hk')
        exact h
    by_cases hfd : (w.contexts k.context).fd = 0
    · rw [if_pos hfd] at hx'
      rw [if_neg (by simp [hfd])] at hout
      subst hx'
      exact ⟨h.left rfl hout (by simp [hfd]) ⟨hresting, fun _ hc => hc⟩ (by simp),
        iff_of_true hempty (hlive.mpr (.inl hfd))⟩
    · rw [if_neg hfd] at hx'
      have hstarted : Started (s.pointers k.context) :=
        h.calls rfl k (List.mem_of_find?_eq_some hk)
      obtain ⟨s', hcontrol, hsafe⟩ := resumeCoroutineContext_spec hresting hstarted exit shutdown
      have hstepSafe : s'.Safe ↔ LiveOnly ⟨w, s, .returned⟩ (.reply call exit shutdown) := by
        rw [hsafe, hlive, and_iff_right hempty, or_iff_right hfd]
      rcases hcontrol with ⟨rfl, heq⟩ | ⟨hexit, heq, hleft⟩
      · rw [heq] at hx'
        subst hx'
        exact ⟨.wild hout (by simp [hfd]), hstepSafe⟩
      · rw [heq] at hx'
        subst hx'
        refine ⟨h.left rfl hout (by simp [hexit]) hleft fun c hc => ?_, hstepSafe⟩
        obtain rfl : k.context = c := by
          split at hc
          · exact some.inj hc
          · cases hc
        exact hleft.started _ hstarted

/-! ## Along all events -/

/-- The callback uses active frames only. Where it resumes code that bails out, that bailout is
caught: the request is closed and its context given back, once each. -/
def UsesActive (x : StackedWorker) (e : WorkerEvent) : Prop :=
  ∀ x', stackedSystem.step x e = some x' → x'.activations.Safe ∧
    ∀ call shutdown k, e = .reply call .bailout shutdown →
      (x.worker.calls.find? fun k => k.id = call) = some k →
      (x.worker.contexts k.context).fd ≠ 0 →
        x'.worker.trace.count (.closeRequest k.context) =
            x.worker.trace.count (.closeRequest k.context) + 1 ∧
          x'.worker.trace.count (.freeContext k.context) =
            x.worker.trace.count (.freeContext k.context) + 1

def MayHappen (x : StackedWorker) (e : WorkerEvent) : Prop :=
  stackedSystem.step x e ≠ none → LiveOnly x e

theorem inv_start (idxs : List Nat) (maxRequests : Nat) : Inv (start idxs maxRequests) where
  resting _ := ⟨rfl, fun c f hf => by simp [Holds, start, init] at hf⟩
  calls _ k hk := by simp [start, Worker.init] at hk
  jumps _ := by simp [start, Worker.init]

theorem usesActive_iff_mayHappen (h : Inv x) : UsesActive x e ↔ MayHappen x e := by
  constructor
  · intro huses hpossible
    obtain ⟨x', hstep⟩ := ne_none_iff_exists'.mp hpossible
    exact (step_stepped h hstep).safe.mp (huses x' hstep).1
  · intro hmay x' hstep
    have hlive : LiveOnly x e := hmay (by simp [hstep])
    refine ⟨(step_stepped h hstep).safe.mpr hlive, ?_⟩
    rintro call shutdown k rfl hk hfd
    -- resumed code that bails out is excluded
    rcases hlive k hk with hgone | hyielded
    · exact absurd hgone hfd
    · cases hyielded

/-- **When no abandoned stack is used.** Along any events of a worker, the jumps and reads are into
active frames just as long as each event is harmless in the state in which it happens. -/
theorem uses_active_iff (idxs : List Nat) (maxRequests : Nat) (es : List WorkerEvent) :
    stackedSystem.Along UsesActive (start idxs maxRequests) es ↔
      stackedSystem.Along MayHappen (start idxs maxRequests) es :=
  EventSystem.Along.congr (fun _ _ _ h hstep => (step_stepped h hstep).inv)
    (fun _ _ h => usesActive_iff_mayHappen h) es (inv_start idxs maxRequests)

/-- **A request that suspends once** and is resumed to its end: `old_cwd` is read in the frame of
a `php_execute_script_coro` that the yield has left. -/
theorem not_uses_active : ¬∀ (idxs : List Nat) (maxRequests : Nat) (es : List WorkerEvent),
    stackedSystem.Along UsesActive (start idxs maxRequests) es := by
  intro h
  obtain ⟨-, haccepted⟩ := h [0] 0
    [.accept 5, .readable 0 (.executed [.yielded]) .completes, .reply 4 .finished .completes]
  obtain ⟨-, hyielded⟩ := haccepted _ rfl
  obtain ⟨hfinished, -⟩ := hyielded _ rfl
  obtain ⟨hsafe, -⟩ := hfinished _ rfl
  have hread : (⟨.oldCwd, some 1, false⟩ : StackUse).active = true := hsafe _ (by decide)
  cases hread

end StackedWorker

end Phpce
