import Yaaf.Library.Machine

/-!
# The Threads Pool

`threads_pool`: a queue of task wrappers behind one mutex, worker threads that
run `_pool_logic`, and the four calls `post`, `flush`, `stop` and the repeat
path that puts a task back. Wrappers are held by shared pointers, so a wrapper
is named by a number and posting one object twice posts one name twice.

A step is what one thread does between two points where another thread can
interfere. What happens under `_queue_mutex` is one step, with two exceptions
in the source that are kept apart. The repeat path looks at the queue under a
shared lock, releases it, and only then pushes, so the test and the push are
two steps. And `flush` reads the atomic counter while it still holds the lock,
which no worker needs for its decrement, so the lock is modelled as held
between the look at the queue and the load.

`condition_variable` waits are steps that are possible when their predicate
holds; which notification woke a thread, and when, plays no part. A task that
throws leaves its thread by an exception, which terminates the process.

## Main definitions

* `TaskPriority`, `ContinuationStrategy`, `ThreadInfo`: The types of a task.
* `PoolLogic`: Where a worker thread stands.
* `ThreadsPool`: The state of a pool.
* `search`: The priority search over the queue.
* `poolLogic`: What a worker thread does.
* `poolStep`: One step of one thread.
* `poolMachine`: The pool as a machine.
-/

namespace Yaaf.Async

/-- `TASK_PRIORITY`. -/
inductive TaskPriority
  | default
  | worker
deriving DecidableEq, Repr

/-- The underlying byte, which the comparison of priorities compares. -/
def TaskPriority.value : TaskPriority → UInt8
  | .default => 0
  | .worker => 255

/-- `CONTINUATION_STRATEGY`. -/
inductive ContinuationStrategy
  | single
  | again
deriving DecidableEq, Repr

/-- `thread_info`. -/
structure ThreadInfo where
  kind : UInt16
  threadNumber : UInt64
deriving DecidableEq, Repr

/-- `task_wrapper_ptr`: a wrapper object, by name. -/
abbrev TaskWrapper := Nat

/-- `params_t` of the pool, and the priority each wrapper was built with. -/
structure PoolParams where
  threadsCount : UInt64
  kind : UInt16
  priority : TaskWrapper → TaskPriority

/-- Where a worker thread stands in `_pool_logic`. -/
inductive PoolLogic
  /-- Before the test of `while (!_stop_flag)`. -/
  | top
  /-- Before the wait for the queue. -/
  | waiting
  /-- Inside `task->apply`. -/
  | running (task : TaskWrapper)
  /-- The task wants to go on: before `lock_shared`. -/
  | checking (task : TaskWrapper)
  /-- The shared lock is released: before `push_task`. -/
  | requeueing (task : TaskWrapper)
  /-- Before `--_task_runned`. -/
  | leaving
  | exited
deriving DecidableEq, Repr

/-- A call of `flush` that has not returned. `called` is the length of the
    trace when the call was made, which names the call. `counting` holds while
    the call has looked at the queue and still owns the lock. -/
structure Flushing where
  called : Nat
  counting : Bool
deriving DecidableEq, Repr

/-- What an observer of the pool sees. -/
inductive PoolEvent
  /-- `push_task` of a call of `post` is done. -/
  | posted (task : TaskWrapper)
  | runBegin (ti : ThreadInfo) (task : TaskWrapper)
  | runEnd (ti : ThreadInfo) (task : TaskWrapper) (result : ContinuationStrategy)
  | flushCalled
  /-- The call of `flush` made at this place of the trace returns. -/
  | flushReturned (called : Nat)
deriving DecidableEq, Repr

/-- The state of a pool and of the threads that use it. -/
structure ThreadsPool where
  inQueue : List TaskWrapper
  stopFlag : Bool
  isStoped : Bool
  taskRunned : UInt64
  threads : List PoolLogic
  /-- `task_result::runned` of each wrapper: true until the task is done. -/
  runned : TaskWrapper → Bool
  /-- Calls of `post` that are past the test of `_is_stoped`. -/
  posting : List TaskWrapper
  flushing : List Flushing
  /-- `std::terminate` was called. -/
  terminated : Bool
  trace : List PoolEvent

/-- The steps of a worker thread. -/
inductive LogicStep
  | loop
  | pick
  /-- `task->apply` returns, or throws. -/
  | applied (result : Option ContinuationStrategy)
  | check
  | requeue
  | decrement
deriving DecidableEq, Repr

/-- The steps of all threads. Worker threads are named by their number, calls
    of `post` and of `flush` by their place in the list. -/
inductive PoolStep
  | logic (i : Nat) (st : LogicStep)
  | postBegin (task : TaskWrapper)
  | postPush (j : Nat)
  | stopBegin
  | stopEnd
  | flushBegin
  | flushTest (j : Nat)
  | flushLoad (j : Nat)
deriving DecidableEq, Repr

/-- The loop over `_in_queue` with the task it holds so far: the first task
    that is not a worker, or the first with a smaller priority than the task
    held, or the first of all. -/
def search (priority : TaskWrapper → TaskPriority) :
    Option TaskWrapper → List TaskWrapper → Option TaskWrapper
  | task, [] => task
  | none, v :: queue =>
      if priority v ≠ .worker then some v else search priority (some v) queue
  | some task, v :: queue =>
      if (priority v).value < (priority task).value then some v
      else search priority (some task) queue

namespace ThreadsPool

/-- `_queue_mutex` can be taken: no call of `flush` owns it. -/
def lockFree (s : ThreadsPool) : Bool :=
  s.flushing.all fun f => !f.counting

/-- `std::all_of` in `flush`: only worker tasks are queued. -/
def isWorkersOnly (p : PoolParams) (s : ThreadsPool) : Bool :=
  s.inQueue.all fun t => p.priority t == .worker

def addEvent (s : ThreadsPool) (ev : PoolEvent) : ThreadsPool :=
  { s with trace := s.trace ++ [ev] }

def setThread (s : ThreadsPool) (i : Nat) (pc : PoolLogic) : ThreadsPool :=
  { s with threads := s.threads.set i pc }

/-- The call of `task->apply` begins. -/
def beginApply (p : PoolParams) (s : ThreadsPool) (i : Nat) (t : TaskWrapper) : ThreadsPool :=
  (s.setThread i (.running t)).addEvent (.runBegin ⟨p.kind, UInt64.ofNat i⟩ t)

/-- `_result->unlock()`. -/
def finish (s : ThreadsPool) (t : TaskWrapper) : ThreadsPool :=
  { s with runned := fun u => if u = t then false else s.runned u }

/-- `--_task_runned`. -/
def decrement (s : ThreadsPool) : ThreadsPool :=
  { s with taskRunned := s.taskRunned - 1 }

/-- `push_task`. -/
def pushTask (s : ThreadsPool) (t : TaskWrapper) : ThreadsPool :=
  { s with inQueue := s.inQueue ++ [t] }

end ThreadsPool

/-- The constructor. -/
def threadsPool (p : PoolParams) : ThreadsPool where
  inQueue := []
  stopFlag := false
  isStoped := false
  taskRunned := 0
  threads := List.replicate p.threadsCount.toNat .top
  runned := fun _ => true
  posting := []
  flushing := []
  terminated := false
  trace := []

open ThreadsPool

/-- `_pool_logic`, from one point of interference to the next. -/
def poolLogic (p : PoolParams) (s : ThreadsPool) (i : Nat) :
    LogicStep → PoolLogic → Option ThreadsPool
  | .loop, .top => some (s.setThread i (if s.stopFlag = true then .exited else .waiting))
  | .pick, .waiting =>
      -- The wait on the condition variable ends under the mutex.
      if s.lockFree = true ∧ (s.stopFlag = true ∨ s.inQueue ≠ []) then
        if s.stopFlag = true then some (s.setThread i .exited)
        else (search p.priority none s.inQueue).map fun t =>
          beginApply p { s with taskRunned := s.taskRunned + 1,
                                inQueue := s.inQueue.erase t } i t
      else none
  -- An exception leaves the thread function.
  | .applied none, .running _ => some { s with terminated := true }
  | .applied (some .single), .running t =>
      some ((finish (s.setThread i .leaving) t).addEvent
        (.runEnd ⟨p.kind, UInt64.ofNat i⟩ t .single))
  | .applied (some .again), .running t =>
      some ((s.setThread i (.checking t)).addEvent
        (.runEnd ⟨p.kind, UInt64.ofNat i⟩ t .again))
  | .check, .checking t =>
      if s.lockFree = true then
        -- The task gives way, or its thread runs it again at once.
        if s.inQueue ≠ [] ∨ s.stopFlag = true ∨ p.priority t = .worker then
          some (s.setThread i (.requeueing t))
        else some (beginApply p s i t)
      else none
  | .requeue, .requeueing t =>
      if s.lockFree = true then some ((s.setThread i .leaving).pushTask t) else none
  | .decrement, .leaving => some (s.setThread i .top).decrement
  | _, _ => none

/-- One step of one thread. After `std::terminate` nothing happens. -/
def poolStep (p : PoolParams) (s : ThreadsPool) (a : PoolStep) : Option ThreadsPool :=
  if s.terminated = true then none
  else match a with
    | .logic i st => match s.threads[i]? with
      | some pc => poolLogic p s i st pc
      | none => none
    | .postBegin t =>
        -- A stopped pool answers with a null result and pushes nothing.
        if s.isStoped = true then some s else some { s with posting := s.posting ++ [t] }
    | .postPush j => match s.posting[j]? with
      | some t =>
          if s.lockFree = true then
            some ((pushTask { s with posting := s.posting.eraseIdx j } t).addEvent (.posted t))
          else none
      | none => none
    | .stopBegin => if s.lockFree = true then some { s with stopFlag := true } else none
    | .stopEnd =>
        -- `join` of every worker thread.
        if s.stopFlag = true ∧ (s.threads.all fun pc => pc == .exited) = true then
          some { s with isStoped := true }
        else none
    | .flushBegin => some (addEvent
        { s with flushing := s.flushing ++ [⟨s.trace.length, false⟩] } .flushCalled)
    | .flushTest j => match s.flushing[j]? with
      | some ⟨called, false⟩ =>
          if s.lockFree = true then
            -- `continue`, or on to the counter with the mutex still held.
            if s.inQueue ≠ [] ∧ s.isWorkersOnly p = false then some s
            else some { s with flushing := s.flushing.set j ⟨called, true⟩ }
          else none
      | _ => none
    | .flushLoad j => match s.flushing[j]? with
      | some ⟨called, true⟩ =>
          if s.taskRunned = 0 then
            some (addEvent { s with flushing := s.flushing.eraseIdx j } (.flushReturned called))
          else some { s with flushing := s.flushing.set j ⟨called, false⟩ }
      | _ => none

/-- The pool as a machine. -/
def poolMachine (p : PoolParams) : Machine ThreadsPool PoolStep where
  start := threadsPool p
  step := poolStep p

end Yaaf.Async
