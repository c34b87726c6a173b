import Yaaf.Library.Machine

/-!
# Waiting for a Task

`task_result`: a flag, a mutex and a condition variable. Any number of threads
call `wait`, and one thread, that of the pool, calls `unlock` when
`task_wrapper::apply` got `SINGLE` from its task.

A step is one access to the flag, one operation on the mutex, or one on the
condition variable. `_condition.wait(ul, pred)` is a loop: it tests the
predicate, and while that is false it releases the mutex and goes to sleep as
one step, and takes the mutex again once it is woken. A thread may be woken
although nobody notified it. The test behind the call, which ends the outer
loop, is a second test of the flag under the same mutex.

`unlock` writes and notifies. It takes no mutex, so its two steps fall anywhere
between the steps of the others. A notification moves every thread that is
asleep at that moment out of its sleep, so a thread that stays asleep has no
notification left that could wake it.

## Main definitions

* `Waiting`: Where a thread stands in `wait`.
* `Unlocking`: Where the thread of the pool stands in `unlock`.
* `TaskResult`: The result, with the threads that use it.
* `taskResultMachine`: The result as a machine.
-/

namespace Yaaf.Async

/-- Where a thread stands in `task_result::wait`. -/
inductive Waiting
  /-- Before the `unique_lock`. -/
  | entering
  /-- In `_condition.wait`, before the test of the predicate. -/
  | testing
  /-- The predicate was false: before the mutex is released. -/
  | committed
  | asleep
  /-- Woken, and before the mutex is taken again. -/
  | woken
  /-- `_condition.wait` has returned: before `if (!runned)`. -/
  | checking
  | returned
deriving DecidableEq, Repr

/-- The thread owns `_mutex` there. -/
def Waiting.owns : Waiting → Bool
  | .testing | .committed | .checking => true
  | .entering | .asleep | .woken | .returned => false

/-- What `notify_all` makes of a thread. -/
def Waiting.notified : Waiting → Waiting
  | .asleep => .woken
  | pc => pc

/-- Where the thread of the pool stands in `task_result::unlock`. -/
inductive Unlocking
  /-- Before `runned = false`. -/
  | called
  /-- Before `_condition.notify_all`. -/
  | written
  | completed
deriving DecidableEq, Repr

/-- `task_result`, with the calls of `wait` and the one of `unlock`. -/
structure TaskResult where
  runned : Bool
  waiting : List Waiting
  unlocking : Unlocking
deriving DecidableEq, Repr

/-- The steps. Threads that wait are named by their place in the list. -/
inductive ResultStep
  | wait (i : Nat)
  /-- A thread wakes up that nobody notified. -/
  | spurious (i : Nat)
  | write
  | notify
deriving DecidableEq, Repr

namespace TaskResult

/-- `_mutex` can be taken. -/
def mutexFree (s : TaskResult) : Bool :=
  s.waiting.all fun pc => !pc.owns

def setWaiting (s : TaskResult) (i : Nat) (pc : Waiting) : TaskResult :=
  { s with waiting := s.waiting.set i pc }

/-- `wait`, from one step of a thread to the next. -/
def wait (s : TaskResult) (i : Nat) : Waiting → Option TaskResult
  | .entering => if s.mutexFree = true then some (s.setWaiting i .testing) else none
  | .testing => some (s.setWaiting i (if s.runned = true then .committed else .checking))
  | .committed => some (s.setWaiting i .asleep)
  | .asleep => none
  | .woken => if s.mutexFree = true then some (s.setWaiting i .testing) else none
  | .checking => some (s.setWaiting i (if s.runned = true then .testing else .returned))
  | .returned => none

end TaskResult

/-- One step of one thread. -/
def resultStep (s : TaskResult) : ResultStep → Option TaskResult
  | .wait i => match s.waiting[i]? with
    | some pc => s.wait i pc
    | none => none
  | .spurious i => match s.waiting[i]? with
    | some .asleep => some (s.setWaiting i .woken)
    | _ => none
  | .write => match s.unlocking with
    | .called => some { s with runned := false, unlocking := .written }
    | _ => none
  | .notify => match s.unlocking with
    | .written =>
        some { s with waiting := s.waiting.map Waiting.notified, unlocking := .completed }
    | _ => none

/-- The result of a task that nobody has unlocked yet, with `n` threads that
    are about to wait for it. -/
def taskResult (n : Nat) : TaskResult where
  runned := true
  waiting := List.replicate n .entering
  unlocking := .called

/-- The result as a machine. -/
def taskResultMachine (n : Nat) : Machine TaskResult ResultStep where
  start := taskResult n
  step := resultStep

end Yaaf.Async
