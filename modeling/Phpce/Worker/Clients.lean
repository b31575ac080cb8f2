import Phpce.Fcgi.Allowed
import Phpce.Worker.Transition

/-!
# `listen.allowed_clients` in a coroutine worker

`do_accept` takes the address of its client from `accept` and does not look at it. Here the worker
is followed together with the table of allowed clients and the addresses of its connections.

* **`serves_anyone`** — a worker with a coroutine starts a request for any client.
* **`allowed_clients_enforced_iff`** — so the table keeps no address out.
* **`not_allowed_clients_enforced`** — a client at 10.0.0.1 where only 127.0.0.1 is allowed.
-/

namespace Phpce

open Fcgi

/-- A worker, its table of allowed clients, the addresses of its clients by their bufferevents, and
those for which a request has been started, the latest first. -/
structure Server where
  worker : Worker
  allowedClients : Option (List SockAddr)
  peers : List (Nat × SockAddr)
  started : List SockAddr

/-- An event of the worker. `ss` is the address that `accept` stores, where it is called. -/
structure ServerEvent where
  event : WorkerEvent
  ss : SockAddr

namespace Server

/-- `socket_read_cb` starts a request on every call, and `do_accept` forgets the address. -/
def step (x : Server) (e : ServerEvent) : Option Server :=
  (workerSystem.step x.worker e.event).map fun worker =>
    match e.event with
    | .accept fd =>
        { x with
          worker := worker
          peers := if fd < 0 then x.peers else (x.worker.nextId, e.ss) :: x.peers }
    | .readable bev _ _ =>
        { x with
          worker := worker
          started := (x.peers.lookup bev).toList ++ x.started }
    | .clientEof _ _ => { x with worker := worker }
    | .reply _ _ _ => { x with worker := worker }

def start (n maxRequests : Nat) (allowedClients : Option (List SockAddr)) : Server :=
  ⟨Worker.init (List.range n) maxRequests, allowedClients, [], []⟩

end Server

def serverSystem : EventSystem Server ServerEvent where
  step := Server.step

namespace Server

/-- No sequence of events makes the worker start a request for the client. -/
def KeepsOut (n maxRequests : Nat) (allowedClients : Option (List SockAddr))
    (client : SockAddr) : Prop :=
  ∀ es x, serverSystem.FreeRun (start n maxRequests allowedClients) es x → client ∉ x.started

/-- **A worker with a coroutine serves anyone**: it accepts the connection, and reads from it. -/
theorem serves_anyone (n maxRequests : Nat) (allowedClients : Option (List SockAddr))
    (client : SockAddr) :
    ∃ es x, serverSystem.FreeRun (start (n + 1) maxRequests allowedClients) es x ∧
      client ∈ x.started := by
  -- the context that is taken is the one made last
  obtain ⟨pool, huse, -⟩ := (Worker.inv_init (List.range (n + 1)) maxRequests).pool.use_spec
  have hfront : (PoolSpec.init (List.range (n + 1)).length).free.head? = some n := by
    rw [PoolSpec.init, List.length_range, List.range_succ, List.reverse_append]
    rfl
  rw [hfront] at huse
  set w := (Worker.init (List.range (n + 1)) maxRequests).doAccept 5 with hw
  have haccept : w.bevs = [⟨0, n, 5, true⟩] ∧ w.status = .running := by
    rw [hw, Worker.doAccept, if_neg (by decide), huse]
    exact ⟨rfl, rfl⟩
  have hfirst : workerSystem.step (Worker.init (List.range (n + 1)) maxRequests) (.accept 5) =
      some w := by
    have hlistening : (Worker.init (List.range (n + 1)) maxRequests).Listening ∧ (5 : Int) ≠ 0 :=
      ⟨rfl, by decide⟩
    simp only [workerSystem, Worker.step, if_pos hlistening]
    rfl
  have hsecond : workerSystem.step w (.readable 0 .rejected .completes) =
      some (w.socketReadCb ⟨0, n, 5, true⟩ .rejected .completes) := by
    simp only [workerSystem, Worker.step, haccept.2, if_true, haccept.1]
    rfl
  have haccepted : serverSystem.step (start (n + 1) maxRequests allowedClients)
      ⟨.accept 5, client⟩ = some ⟨w, allowedClients, [(0, client)], []⟩ := by
    simp only [serverSystem, step, start, hfirst]
    rfl
  have hread : serverSystem.step ⟨w, allowedClients, [(0, client)], []⟩
      ⟨.readable 0 .rejected .completes, client⟩ =
      some ⟨w.socketReadCb ⟨0, n, 5, true⟩ .rejected .completes, allowedClients, [(0, client)],
        [client]⟩ := by
    simp only [serverSystem, step, hsecond]
    rfl
  exact ⟨_, _, .cons trivial haccepted (.cons trivial hread (.nil _)), List.mem_singleton.mpr rfl⟩

/-- What a worker without a coroutine stays: it has no client and no call, and has started
nothing. -/
structure Idle (x : Server) : Prop where
  started : x.started = []
  bevs : x.worker.bevs = []
  calls : x.worker.calls = []
  pool : x.worker.status = .running → x.worker.pool.contextCount = 0

theorem idle_step {x x' : Server} {e : ServerEvent} (h : Idle x)
    (hstep : serverSystem.step x e = some x') : Idle x' := by
  obtain ⟨w', hw, rfl⟩ := Option.map_eq_some_iff.mp hstep
  by_cases hrun : x.worker.status = .running
  · obtain ⟨event, ss⟩ := e
    simp only [workerSystem, Worker.step, if_pos hrun] at hw
    cases event with
    | readable bev path shutdown => simp [h.bevs] at hw
    | clientEof bev shutdown => simp [h.bevs] at hw
    | reply call exit shutdown => simp [h.calls] at hw
    | accept fd =>
      have huse : x.worker.pool.useCoroutineContext =
          some (none, x.worker.pool.asserEventStop) := by
        rw [CoroutinePool.useCoroutineContext, if_neg (by simp [h.pool hrun])]
      obtain ⟨-, rfl⟩ : _ ∧ x.worker.doAccept fd = w' := by simpa using hw
      unfold Worker.doAccept
      by_cases hneg : fd < 0
      · simp only [if_pos hneg]
        exact ⟨h.started, h.bevs, h.calls, h.pool⟩
      · simp only [if_neg hneg, huse]
        exact ⟨h.started, h.bevs, h.calls, fun hstopped => by cases hstopped⟩
  · simp [workerSystem, Worker.step, hrun] at hw

theorem keepsOut_iff (n maxRequests : Nat) (allowedClients : Option (List SockAddr))
    (client : SockAddr) : KeepsOut n maxRequests allowedClients client ↔ n = 0 := by
  constructor
  · intro h
    cases n with
    | zero => rfl
    | succ n =>
      obtain ⟨es, x, hrun, hstarted⟩ := serves_anyone n maxRequests allowedClients client
      exact absurd hstarted (h es x hrun)
  · rintro rfl es x hrun hstarted
    have hidle : Idle x :=
      hrun.invariant (fun _ _ _ h _ hstep => idle_step h hstep) ⟨rfl, rfl, rfl, fun _ => rfl⟩
    rw [hidle.started] at hstarted
    cases hstarted

/-- **The table keeps nobody out.** Whatever list `fcgi_set_allowed_clients` is given, the worker
keeps out the clients that are not in it only when there are none, or when it serves nobody. -/
theorem allowed_clients_enforced_iff (pton : InetPton) (previous : Option (List SockAddr))
    (ip : Option Bytes) (n maxRequests : Nat) (client : SockAddr) :
    (fcgiIsAllowed (fcgiSetAllowedClients pton previous ip) client = false →
        KeepsOut n maxRequests (fcgiSetAllowedClients pton previous ip) client) ↔
      fcgiIsAllowed (fcgiSetAllowedClients pton previous ip) client = true ∨ n = 0 := by
  rw [keepsOut_iff]
  cases fcgiIsAllowed (fcgiSetAllowedClients pton previous ip) client with
  | false => simp
  | true => simp

/-- `inet_pton` on the address of the example. -/
def localhostPton : InetPton where
  inet s := if s = Bytes.ascii "127.0.0.1" then some #v[127, 0, 0, 1] else none
  inet6 _ := none

/-- **A client that is not in the table**: its request is started. -/
theorem not_allowed_clients_enforced :
    ¬∀ (pton : InetPton) (ip : Bytes) (n maxRequests : Nat) (client : SockAddr), client ≠ .unix →
      fcgiIsAllowed (fcgiSetAllowedClients pton none (some ip)) client = false →
        KeepsOut n maxRequests (fcgiSetAllowedClients pton none (some ip)) client := by
  intro h
  obtain ⟨es, x, hrun, hstarted⟩ := serves_anyone 0 0
    (fcgiSetAllowedClients localhostPton none (some (Bytes.ascii "127.0.0.1")))
    (.inet #v[10, 0, 0, 1])
  exact h localhostPton (Bytes.ascii "127.0.0.1") 1 0 (.inet #v[10, 0, 0, 1]) (by decide)
    (by decide) es x hrun hstarted

end Server

end Phpce
