import Yaaf.Core.ThreadsPool
import Yaaf.Library.Monitor

/-!
# The Condition Variable of the Pool

`_condition` of `threads_pool`, over the pool in which a wait is a step that is
possible when its predicate holds. The predicate is that of `_pool_logic`: the
pool is stopping or something is queued. A worker thread evaluates it with
`_queue_mutex` held, before it sleeps and after every wake-up.

`push_task` and `stop` change what the predicate reads with the mutex held and
notify after they have let go of it, `push_task` once and `stop` once before each
`join`. The notifications of `stop` after its first wake nobody, as no thread
falls asleep once the flag is set. `flush` notifies one thread each time around
its loop, which is the same to that thread as waking for no reason.

## Main definitions

* `poolMonitor`: The pool with its condition variable.
-/

namespace Yaaf.Async

open ThreadsPool

/-- The pool with its condition variable. -/
def poolMonitor (p : PoolParams) : Monitor ThreadsPool PoolStep where
  base := poolMachine p
  ready s := s.stopFlag || !s.inQueue.isEmpty
  waits s i := s.threads[i]? == some .waiting
  free s := s.lockFree
  mover
    | .logic i _ => some i
    | _ => none
  signals _
    | .postPush _ | .logic _ .requeue | .stopBegin => true
    | _ => false

end Yaaf.Async
