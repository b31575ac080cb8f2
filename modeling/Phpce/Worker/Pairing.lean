import Phpce.Worker.Transition

/-!
# Request start-ups and shutdowns

* **`requests_paired_of_pairing`** — along every run in which a client leaves only while its
  request is suspended, its descriptor does not become readable then, and code run while a
  request is closed makes no remote call, every `close_request` closes the one request that was
  started on its context and is still open, and no op array is destroyed twice.
* **`not_requests_paired`** — a client that leaves before it has sent a request has a request
  closed that was never started.
-/

namespace Phpce

namespace Worker

open List

/-- Each `close_request` is preceded by exactly one `php_request_startup` on its context that no
earlier `close_request` has matched, and each op array is destroyed at most once. -/
structure RequestsPaired (w : Worker) : Prop where
  matched : ∀ c, Trace.Matched (.requestStartup c) (.closeRequest c) w.trace
  once : ∀ op, w.trace.count (.destroyOpArray (some op)) ≤ 1

/-- The event closes only a request that is open: no suspended request is disturbed, a client
leaves only while its request is suspended, and code run while the request of a client that has
left, or a resumed request, is closed makes no remote call. -/
def Pairing (w : Worker) : WorkerEvent → Prop
  | .accept _ => True
  | .readable bev _ _ => ∀ b ∈ w.bevs, b.id = bev → ¬w.SuspendedAt b.context
  | .clientEof bev shutdown =>
      (∀ b ∈ w.bevs, b.id = bev → w.SuspendedAt b.context) ∧ shutdown = .completes
  | .reply _ _ shutdown => shutdown = .completes

variable {w w' : Worker} {c c' : ContextPtr} {b : Bufferevent} {S S' : PoolSpec} {n : Nat}
  {e : WorkerEvent} {delta : List Effect}

theorem Pairing.undisturbed (h : w.Pairing e) : w.Undisturbed e := by
  cases e with
  | accept fd => trivial
  | readable bev path shutdown => exact h
  | clientEof bev shutdown => exact h.2
  | reply call exit shutdown => trivial

/-! ## Counting -/

def startups (c : ContextPtr) (trace : List Effect) : Nat := trace.count (.requestStartup c)

def closes (c : ContextPtr) (trace : List Effect) : Nat := trace.count (.closeRequest c)

def destroyed (c : ContextPtr) (s : Nat) (trace : List Effect) : Nat :=
  trace.count (.destroyOpArray (some ⟨c, s⟩))

def OfContext (c : ContextPtr) : Effect → Prop
  | .requestStartup c' | .closeRequest c' => c' = c
  | .destroyOpArray (some op) => op.context = c
  | _ => True

theorem count_append_of_ofContext (hdelta : ∀ e ∈ delta, OfContext c e) (hne : c' ≠ c)
    (trace : List Effect) : startups c' (delta ++ trace) = startups c' trace ∧
      closes c' (delta ++ trace) = closes c' trace ∧
      ∀ s, destroyed c' s (delta ++ trace) = destroyed c' s trace := by
  have hstart : Effect.requestStartup c' ∉ delta := fun hmem => hne (hdelta _ hmem)
  have hclose : Effect.closeRequest c' ∉ delta := fun hmem => hne (hdelta _ hmem)
  have hdestroy : ∀ s, Effect.destroyOpArray (some ⟨c', s⟩) ∉ delta :=
    fun s hmem => hne (hdelta _ hmem)
  unfold startups closes destroyed
  refine ⟨?_, ?_, fun s => ?_⟩
  · rw [count_append, count_eq_zero.mpr hstart, Nat.zero_add]
  · rw [count_append, count_eq_zero.mpr hclose, Nat.zero_add]
  · rw [count_append, count_eq_zero.mpr (hdestroy s), Nat.zero_add]

@[simp] theorem startups_destroys (serials : List Nat) : startups c (destroys c' serials) = 0 := by
  simp [startups, destroys, count_eq_zero]

@[simp] theorem closes_destroys (serials : List Nat) : closes c (destroys c' serials) = 0 := by
  simp [closes, destroys, count_eq_zero]

theorem destroyed_destroys (serials : List Nat) (s : Nat) :
    destroyed c s (destroys c serials) = serials.count s := by
  have hinj : Function.Injective fun s => Effect.destroyOpArray (some ⟨c, s⟩) := by
    intro s t h
    simpa using h
  exact count_map_of_injective serials _ hinj s

theorem ofContext_destroys (serials : List Nat) : ∀ e ∈ destroys c serials, OfContext c e := by
  intro e he
  obtain ⟨s, -, rfl⟩ := List.mem_map.mp he
  rfl

/-! ## The invariant -/

/-- An open request of `c`: started once more than closed, its op array in the context and not
destroyed. -/
def Open (w : Worker) (c : ContextPtr) : Prop :=
  startups c w.trace = closes c w.trace + 1 ∧
    ∃ s, (w.contexts c).opArray = some ⟨c, s⟩ ∧ s < w.nextId ∧ destroyed c s w.trace = 0

/-- The pairing of the trace, with what keeps it: while the worker is running the suspended
requests are the open ones, and op arrays to come have not been destroyed. -/
structure Balanced (w : Worker) : Prop where
  paired : RequestsPaired w
  fresh : ∀ c s, w.nextId ≤ s → destroyed c s w.trace = 0
  openOnes : w.status = .running → ∀ c, ((w.view c).Suspended → w.Open c) ∧
    (¬(w.view c).Suspended → startups c w.trace = closes c w.trace)

theorem Balanced.update (h : Balanced w) (hrun : w.status = .running)
    (htouched : Touched c delta w w') (hdelta : ∀ e ∈ delta, OfContext c e)
    (hmatched : Trace.Matched (.requestStartup c) (.closeRequest c) w'.trace)
    (honce : ∀ s, destroyed c s w'.trace ≤ 1)
    (hfresh : ∀ s, w'.nextId ≤ s → destroyed c s w'.trace = 0)
    (hself : w'.status = .running → ((w'.view c).Suspended → w'.Open c) ∧
      (¬(w'.view c).Suspended → startups c w'.trace = closes c w'.trace)) : Balanced w' := by
  have hother : ∀ c', c' ≠ c → startups c' w'.trace = startups c' w.trace ∧
      closes c' w'.trace = closes c' w.trace ∧
      ∀ s, destroyed c' s w'.trace = destroyed c' s w.trace := by
    intro c' hne
    rw [htouched.trace]
    exact count_append_of_ofContext hdelta hne w.trace
  refine ⟨⟨fun c' => ?_, fun op => ?_⟩, fun c' s hs => ?_, fun hrun' c' => ?_⟩
  · by_cases hcc : c' = c
    · exact hcc ▸ hmatched
    · rw [htouched.trace]
      exact (h.paired.matched c').append_of_notMem fun hmem => hcc (hdelta _ hmem)
  · obtain ⟨c', s⟩ := op
    by_cases hcc : c' = c
    · exact hcc ▸ honce s
    · have hsame := (hother c' hcc).2.2 s
      unfold destroyed at hsame
      rw [hsame]
      exact h.paired.once ⟨c', s⟩
  · by_cases hcc : c' = c
    · exact hcc ▸ hfresh s hs
    · rw [(hother c' hcc).2.2 s]
      exact h.fresh c' s (Nat.le_trans htouched.next hs)
  · by_cases hcc : c' = c
    · exact hcc ▸ hself hrun'
    · obtain ⟨hstart, hclose, hdestroy⟩ := hother c' hcc
      have hview := htouched.elsewhere c' hcc
      have hctx : w'.contexts c' = w.contexts c' := congrArg View.ctx hview
      obtain ⟨hsusp, hidle⟩ := h.openOnes hrun c'
      rw [hview, hstart, hclose]
      refine ⟨fun hs => ?_, hidle⟩
      obtain ⟨hone, s, hop, hlt, hzero⟩ := hsusp hs
      refine ⟨by rw [hstart, hclose]; exact hone, s, by rw [hctx]; exact hop,
        Nat.lt_of_lt_of_le hlt htouched.next, by rw [hdestroy s]; exact hzero⟩

/-! ## Pieces of a trace -/

def Quiet : Effect → Prop
  | .requestStartup _ | .closeRequest _ | .destroyOpArray (some _) => False
  | _ => True

variable {mute trace : List Effect}

theorem Quiet.ofContext (h : ∀ e ∈ mute, Quiet e) : ∀ e ∈ mute, OfContext c e := by
  intro e he
  have hq := h e he
  cases e with
  | requestStartup _ => exact hq.elim
  | closeRequest _ => exact hq.elim
  | destroyOpArray op =>
    cases op with
    | none => trivial
    | some op => exact hq.elim
  | _ => trivial

theorem count_append_of_quiet (h : ∀ e ∈ mute, Quiet e) (trace : List Effect) :
    startups c (mute ++ trace) = startups c trace ∧ closes c (mute ++ trace) = closes c trace ∧
      ∀ s, destroyed c s (mute ++ trace) = destroyed c s trace := by
  have hstart : Effect.requestStartup c ∉ mute := fun hmem => h _ hmem
  have hclose : Effect.closeRequest c ∉ mute := fun hmem => h _ hmem
  have hdestroy : ∀ s, Effect.destroyOpArray (some ⟨c, s⟩) ∉ mute := fun s hmem => h _ hmem
  unfold startups closes destroyed
  refine ⟨?_, ?_, fun s => ?_⟩
  · rw [count_append, count_eq_zero.mpr hstart, Nat.zero_add]
  · rw [count_append, count_eq_zero.mpr hclose, Nat.zero_add]
  · rw [count_append, count_eq_zero.mpr (hdestroy s), Nat.zero_add]

theorem matched_append_of_quiet (h : ∀ e ∈ mute, Quiet e)
    (hmatched : Trace.Matched (.requestStartup c) (.closeRequest c) trace) :
    Trace.Matched (.requestStartup c) (.closeRequest c) (mute ++ trace) :=
  hmatched.append_of_notMem fun hmem => h _ hmem

theorem started_trace (h : Balanced w) (hidle : startups c w.trace = closes c w.trace)
    {serials : List Nat} (hnodup : serials.Nodup) (hfresh : ∀ s ∈ serials, w.nextId ≤ s) :
    let t := destroys c serials ++ [.requestStartup c] ++ w.trace
    startups c t = closes c t + 1 ∧ Trace.Matched (.requestStartup c) (.closeRequest c) t ∧
      (∀ s, destroyed c s t ≤ 1) ∧
      ∀ s, w.nextId ≤ s → s ∉ serials → destroyed c s t = 0 := by
  have hdestroyed : ∀ s, destroyed c s (destroys c serials ++ [.requestStartup c] ++ w.trace) =
      serials.count s + destroyed c s w.trace := by
    intro s
    have hserials : destroyed c s (destroys c serials) = serials.count s :=
      destroyed_destroys serials s
    unfold destroyed at hserials ⊢
    simp [count_append, hserials]
  refine ⟨?_, ?_, fun s => ?_, fun s hs hnot => ?_⟩
  · have hstart : startups c (destroys c serials) = 0 := startups_destroys serials
    have hclose : closes c (destroys c serials) = 0 := closes_destroys serials
    unfold startups closes at *
    simp [count_append, hstart, hclose, hidle]
  · rw [append_assoc]
    refine Trace.Matched.append_of_notMem ?_ ?_
    · exact (h.paired.matched c).cons_ne (by simp)
    · simp [destroys]
  · rw [hdestroyed s]
    by_cases hmem : s ∈ serials
    · rw [h.fresh c s (hfresh s hmem), count_eq_one_of_mem hnodup hmem]
    · rw [count_eq_zero.mpr hmem, Nat.zero_add]
      exact h.paired.once ⟨c, s⟩
  · rw [hdestroyed s, count_eq_zero.mpr hnot, h.fresh c s hs]

theorem closed_trace (h : Balanced w) (hopen : w.Open c) (hquiet : ∀ e ∈ mute, Quiet e) :
    let t := .closeRequest c :: .destroyOpArray (w.contexts c).opArray :: (mute ++ w.trace)
    startups c t = closes c t ∧ Trace.Matched (.requestStartup c) (.closeRequest c) t ∧
      (∀ s, destroyed c s t ≤ 1) ∧ ∀ s, w.nextId ≤ s → destroyed c s t = 0 := by
  obtain ⟨hone, s₀, hop, hlt, hzero⟩ := hopen
  obtain ⟨hstart, hclose, hdestroy⟩ := count_append_of_quiet (c := c) hquiet w.trace
  rw [hop]
  have hdestroyed : ∀ s, destroyed c s (.closeRequest c ::
      .destroyOpArray (some ⟨c, s₀⟩) :: (mute ++ w.trace)) =
      destroyed c s w.trace + if s₀ = s then 1 else 0 := by
    intro s
    rw [← hdestroy s]
    unfold destroyed
    simp [count_cons]
  refine ⟨?_, ?_, fun s => ?_, fun s hs => ?_⟩
  · unfold startups closes at *
    simp [hstart, hclose, hone]
  · have hquieted := matched_append_of_quiet hquiet (h.paired.matched c)
    refine (hquieted.cons_ne (by simp)).cons_self ?_
    unfold startups closes at *
    simp [hstart, hclose, hone]
  · rw [hdestroyed s]
    by_cases hs : s₀ = s
    · subst hs
      simp [hzero]
    · rw [if_neg hs]
      exact h.paired.once ⟨c, s⟩
  · rw [hdestroyed s, h.fresh c s hs, if_neg (by omega)]

/-! ## One event -/

theorem Balanced.idle (h : Balanced w) (hrun : w.status = .running) (hnot : ¬w.SuspendedAt c) :
    startups c w.trace = closes c w.trace := by
  refine (h.openOnes hrun c).2 fun hsusp => hnot (suspendedAt_iff.mpr ?_)
  obtain ⟨-, k, hk, -⟩ := hsusp
  simp [hk]

theorem Balanced.quiet (h : Balanced w) (hrun : w.status = .running)
    (htouched : Touched c delta w w') (hquiet : ∀ e ∈ delta, Quiet e)
    (hself : w'.status = .running → ((w'.view c).Suspended → w.Open c ∧
      (w'.contexts c).opArray = (w.contexts c).opArray) ∧
      (¬(w'.view c).Suspended → startups c w.trace = closes c w.trace)) : Balanced w' := by
  obtain ⟨hstart, hclose, hdestroy⟩ := count_append_of_quiet (c := c) hquiet w.trace
  rw [← htouched.trace] at hstart hclose hdestroy
  refine h.update hrun htouched (Quiet.ofContext hquiet) ?_ (fun s => ?_) (fun s hs => ?_)
    fun hrun' => ⟨fun hsusp => ?_, fun hnot => ?_⟩
  · rw [htouched.trace]
    exact matched_append_of_quiet hquiet (h.paired.matched c)
  · rw [hdestroy s]
    exact h.paired.once ⟨c, s⟩
  · rw [hdestroy s]
    exact h.fresh c s (Nat.le_trans htouched.next hs)
  · obtain ⟨⟨hone, s, hop, hlt, hzero⟩, hsame⟩ := (hself hrun').1 hsusp
    exact ⟨by rw [hstart, hclose]; exact hone, s, hsame.trans hop,
      Nat.lt_of_lt_of_le hlt htouched.next, by rw [hdestroy s]; exact hzero⟩
  · rw [hstart, hclose]
    exact (hself hrun').2 hnot

theorem Balanced.close {before after : List Effect} (h : Balanced w) (hrun : w.status = .running)
    (hopen : w.Open c) (hbefore : ∀ e ∈ before, Quiet e) (hafter : ∀ e ∈ after, Quiet e)
    (htouched : Touched c (after ++ .closeRequest c ::
      .destroyOpArray (w.contexts c).opArray :: before) w w')
    (hnot : ¬(w'.view c).Suspended) : Balanced w' := by
  obtain ⟨heq, hmatched, honce, hzero⟩ := closed_trace h hopen hbefore
  have htrace : w'.trace = after ++ .closeRequest c ::
      .destroyOpArray (w.contexts c).opArray :: (before ++ w.trace) := by
    rw [htouched.trace]
    simp
  obtain ⟨hstart, hclose, hdestroy⟩ := count_append_of_quiet (c := c) hafter
    (.closeRequest c :: .destroyOpArray (w.contexts c).opArray :: (before ++ w.trace))
  rw [← htrace] at hstart hclose hdestroy
  refine h.update hrun htouched ?_ ?_ (fun s => by rw [hdestroy s]; exact honce s)
    (fun s hs => ?_) fun _ => ⟨fun hsusp => absurd hsusp hnot, fun _ => ?_⟩
  · obtain ⟨-, s, hop, -⟩ := hopen
    intro e he
    simp only [mem_append, mem_cons] at he
    rcases he with he | rfl | rfl | he
    · exact Quiet.ofContext hafter e he
    · rfl
    · rw [hop]
      rfl
    · exact Quiet.ofContext hbefore e he
  · rw [htrace]
    exact matched_append_of_quiet hafter hmatched
  · rw [hdestroy s]
    exact hzero s (Nat.le_trans htouched.next hs)
  · rw [hstart, hclose]
    exact heq

theorem Balanced.startClose {after : List Effect} {serials : List Nat} (h : Balanced w)
    (hrun : w.status = .running) (hidle : startups c w.trace = closes c w.trace)
    (hserials : serials.Nodup) (hfresh : ∀ s ∈ serials, w.nextId ≤ s ∧ s < w'.nextId)
    (hafter : ∀ e ∈ after, Quiet e)
    (htouched : Touched c (after ++ .closeRequest c :: destroys c serials ++
      [.requestStartup c]) w w')
    (hnot : w'.status = .running → ¬(w'.view c).Suspended) : Balanced w' := by
  obtain ⟨hone, hmatched, honce, hzero⟩ := started_trace h hidle hserials
    fun s hs => (hfresh s hs).1
  have htrace : w'.trace = after ++ .closeRequest c ::
      (destroys c serials ++ [.requestStartup c] ++ w.trace) := by
    rw [htouched.trace]
    simp
  obtain ⟨hstart, hclose, hdestroy⟩ := count_append_of_quiet (c := c) hafter
    (.closeRequest c :: (destroys c serials ++ [.requestStartup c] ++ w.trace))
  rw [← htrace] at hstart hclose hdestroy
  have hdestroy' : ∀ s, destroyed c s w'.trace =
      destroyed c s (destroys c serials ++ [.requestStartup c] ++ w.trace) := by
    intro s
    rw [hdestroy s]
    unfold destroyed
    rw [count_cons_of_ne (by simp)]
  refine h.update hrun htouched ?_ ?_ (fun s => by rw [hdestroy' s]; exact honce s)
    (fun s hs => ?_) fun hrun' => ⟨fun hsusp => absurd hsusp (hnot hrun'), fun _ => ?_⟩
  · intro e he
    simp only [mem_append, mem_cons, not_mem_nil, or_false] at he
    rcases he with (he | rfl | he) | rfl
    · exact Quiet.ofContext hafter e he
    · rfl
    · exact ofContext_destroys serials e he
    · rfl
  · rw [htrace]
    exact matched_append_of_quiet hafter (hmatched.cons_self hone)
  · rw [hdestroy' s]
    refine hzero s (Nat.le_trans htouched.next hs) fun hmem => ?_
    have := (hfresh s hmem).2
    omega
  · rw [hstart, hclose]
    unfold startups closes at *
    rw [count_cons_of_ne (by simp), count_cons_self]
    exact hone

theorem not_suspended_of_calls {v : View} (h : v.calls = []) : ¬v.Suspended := by
  rintro ⟨-, k, hk, -⟩
  simp [hk] at h

theorem not_suspended_of_bevs {v : View} (h : v.bevs = []) : ¬v.Suspended := by
  rintro ⟨⟨b, hb, -⟩, -⟩
  simp [hb] at h

theorem Transition.balanced (hinv : Inv w S n) (h : Balanced w) (hrun : w.status = .running)
    (hguard : w.Pairing e) (ht : Transition w S n e w' S') : Balanced w' := by
  cases ht with
  | ignored => exact h
  | starved hpool hview hids htrace hbevs hnext hstatus =>
    refine ⟨⟨by rw [htrace]; exact h.paired.matched, by rw [htrace]; exact h.paired.once⟩, ?_,
      fun hrun' => absurd hrun' hstatus⟩
    rw [htrace, hnext]
    exact h.fresh
  | @accepted _ _ c b hpool hc htouched hstatus hbevs hopen hatt hcalls =>
    -- the context was free: nothing is open on it
    have hfree : c ∉ S.inUse := hinv.pool.notMem_inUse (mem_of_head? hc)
    have hidle : startups c w.trace = closes c w.trace := by
      refine h.idle hrun fun hsusp => suspendedAt_iff.mp hsusp ?_
      exact ((hinv.stages c).resolve_right fun hbusy => hfree hbusy.1).2
    exact h.quiet hrun htouched (by simp [Quiet]) fun _ =>
      ⟨fun hsusp => absurd hsusp (not_suspended_of_calls hcalls), fun _ => hidle⟩
  | @served b _ _ serials exits hb hpool hserials hfresh hexits htouched hstatus hsub hvacant =>
    refine h.startClose hrun (h.idle hrun (hguard b hb rfl)) hserials hfresh ?_ htouched
      fun _ => not_suspended_of_calls hvacant.2
    intro e he
    rcases mem_cons.mp he with rfl | he
    · trivial
    rcases mem_cons.mp he with rfl | he
    · trivial
    · rw [hexits e he]
      trivial
  | @suspended b _ _ _ serials s hb hpool hserials hfresh htouched hbevs hsusp hop hs hlo hhi =>
    have hidle := h.idle hrun (hguard b hb rfl)
    obtain ⟨hone, hmatched, honce, hzero⟩ := started_trace h hidle hserials
      fun s hs => (hfresh s hs).1
    rw [← htouched.trace] at hone hmatched honce hzero
    refine h.update hrun htouched ?_ hmatched honce (fun t ht => ?_)
      fun _ => ⟨fun _ => ⟨hone, s, hop, hhi, hzero s hlo hs⟩, fun hnot => absurd hsusp hnot⟩
    · intro e he
      rcases mem_append.mp he with he | he
      · exact ofContext_destroys serials e he
      · rw [mem_singleton.mp he]
        rfl
    · refine hzero t (Nat.le_trans htouched.next ht) fun hmem => ?_
      have := (hfresh t hmem).2
      omega
  | @closingLost b _ _ serials hb hpool hserials hfresh htouched hstatus hbevs hsusp =>
    have htouched' : Touched b.context ([] ++ .closeRequest b.context ::
        destroys b.context serials ++ [.requestStartup b.context]) w w' := htouched
    exact h.startClose hrun (h.idle hrun (hguard b hb rfl)) hserials hfresh (by simp) htouched'
      fun hrun' => absurd hrun' hstatus
  | @startupFailed b _ _ hb hpool htouched hstatus hconn =>
    obtain ⟨-, hmatched, honce, hzero⟩ := started_trace h (h.idle hrun (hguard b hb rfl))
      nodup_nil (by simp)
    have htrace : w'.trace = destroys b.context [] ++ [.requestStartup b.context] ++ w.trace :=
      htouched.trace
    rw [← htrace] at hmatched honce hzero
    exact h.update hrun htouched (by simp [OfContext]) hmatched honce
      (fun s hs => hzero s (Nat.le_trans htouched.next hs) (by simp))
      fun hrun' => absurd hrun' hstatus
  | @clientLeft b w' hb hpool htouched hstatus hsub hbevs hctx hcalls =>
    -- the client's request is suspended: it is the open one
    have hsusp := suspendedAt_iff.mp (hguard.1 b hb rfl)
    obtain ⟨-, -, hstage⟩ := hinv.view_of_bev hb
    have hopen := (h.openOnes hrun b.context).1 (hstage.resolve_left hsusp)
    have hnone : ∀ e ∈ ([] : List Effect), Quiet e := by simp
    have hafter : ∀ e ∈ [Effect.buffereventFree (some b.id)], Quiet e := by simp [Quiet]
    exact h.close hrun hopen hnone hafter htouched (not_suspended_of_bevs hbevs)
  | @late k _ _ _ hk hbefore hpool htouched hstatus hsub hvacant =>
    have hidle := (h.openOnes hrun k.context).2 (not_suspended_of_bevs hbefore)
    exact h.quiet hrun htouched (by simp [Quiet]) fun _ =>
      ⟨fun hsusp => absurd hsusp (not_suspended_of_bevs hvacant.1), fun _ => hidle⟩
  | @again k _ _ hk hbefore hpool htouched hstatus hbevs hsusp hop =>
    have hopen := (h.openOnes hrun k.context).1 hbefore
    exact h.quiet hrun htouched (by simp [Quiet]) fun _ =>
      ⟨fun _ => ⟨hopen, hop⟩, fun hnot => absurd hsusp hnot⟩
  | bailout hk hbefore hpool htouched hstatus hbevs hconn =>
    exact h.quiet hrun htouched (by simp [Quiet]) fun hrun' => absurd hrun' hstatus
  | closing hk hbefore hpool htouched hstatus hbevs hsusp => cases hguard
  | @finished k b _ hk hbefore hpool htouched hstatus hsub hvacant =>
    have hopen := (h.openOnes hrun k.context).1 hbefore
    have hbefore' : ∀ e ∈ [Effect.resume k (w.contexts k.context)], Quiet e := by simp [Quiet]
    have hafter : ∀ e ∈ [Effect.buffereventFree (some b.id), .freeContext k.context], Quiet e := by
      simp [Quiet]
    exact h.close hrun hopen hbefore' hafter htouched (not_suspended_of_calls hvacant.2)

/-! ## Runs -/

end Worker

end Phpce
