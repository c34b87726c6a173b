import Yaaf.Core.ThreadsPool

/-!
# Who Holds the Context

A context lives as long as somebody holds a `std::shared_ptr` to it. The program
that made it is the owner, who copies and drops references as it likes. A
`user_context` has a weak pointer only. Each of its operations begins with
`_ctx.lock()` and holds what it got until it returns, and on a thread of the user
pool such an operation lies inside the task the thread is running. One operation
can lead to another on the same thread, as when `add_actor` calls an `on_init`, so
a thread can hold several.

Whoever drops the last reference goes on to `~context` at once, on the thread that
it is on. The destructor calls `stop` unless the owner has done so, and `stop`
joins the threads of the pool, whichever thread it is called on.

## Main definitions

* `Holder`: The threads that hold references.
* `Sharing`: The references to a context and its user pool.
* `sharingStep`: One step of one thread.
* `sharing`: The machine.
-/

namespace Yaaf.Async

/-- The threads that hold references: the owner's, and those of the pool. -/
inductive Holder
  | owner
  | worker (i : Nat)
deriving DecidableEq, Repr

/-- The references to a context, with what they keep alive. -/
structure Sharing where
  pool : ThreadsPool
  /-- `_thread_manager != nullptr`. -/
  managed : Bool
  owned : Nat
  /-- The threads of the operations in progress, once for each. -/
  ops : List Nat
  /-- Who is inside `stop`. -/
  stopping : Option Holder
  /-- Who dropped the last reference. -/
  destroyer : Option Holder

inductive SharingStep
  | pool (a : PoolStep)
  | copy
  | drop
  /-- `_ctx.lock()` in an operation on a thread of the pool. -/
  | lock (i : Nat)
  /-- The operation returns. -/
  | release (i : Nat)
  | stopBegin (h : Holder)
  | stopEnd
deriving DecidableEq, Repr

namespace Sharing

/-- `use_count`. -/
def count (s : Sharing) : Nat :=
  s.owned + s.ops.length

/-- A reference of this holder went. With the last one it goes on to `~context`. -/
def dropped (s : Sharing) (h : Holder) : Sharing :=
  if s.count = 0 then { s with destroyer := some h } else s

/-- The pool takes a step of its own. A task does not return while an operation
    inside it, or the destructor, has not. -/
def lets (s : Sharing) : PoolStep → Bool
  | .stopBegin | .stopEnd => false
  | .logic i (.applied _) => !s.ops.contains i && s.destroyer != some (.worker i)
  | _ => true

/-- Who can call `stop`: the owner while it has a reference, and the destructor. -/
def mayStop (s : Sharing) (h : Holder) : Bool :=
  (h == .owner && 0 < s.owned) || s.destroyer == some h

/-- A thread of the pool is inside a task. -/
def inTask (s : Sharing) (i : Nat) : Bool :=
  s.pool.threads[i]?.any fun pc => match pc with
    | .running _ => true
    | _ => false

end Sharing

/-- One step of one thread. After `std::terminate` nothing happens. -/
def sharingStep (p : PoolParams) (s : Sharing) (a : SharingStep) : Option Sharing :=
  if s.pool.terminated = true then none
  else match a with
    | .pool a =>
        if s.managed = true ∧ s.lets a = true then
          (poolStep p s.pool a).map fun pool => { s with pool }
        else none
    | .copy => if 0 < s.owned then some { s with owned := s.owned + 1 } else none
    | .drop =>
        -- A call of `stop` goes through a reference, which stays until it returns.
        if 0 < s.owned ∧ (s.stopping = some .owner → 1 < s.owned) then
          some ({ s with owned := s.owned - 1 }.dropped .owner)
        else none
    | .lock i =>
        if s.inTask i = true ∧ 0 < s.count then some { s with ops := i :: s.ops } else none
    | .release i =>
        if i ∈ s.ops then some ({ s with ops := s.ops.erase i }.dropped (.worker i)) else none
    | .stopBegin h =>
        if s.managed = true ∧ s.stopping = none ∧ s.mayStop h = true then
          (poolStep p s.pool .stopBegin).map fun pool => { s with pool, stopping := some h }
        else none
    | .stopEnd =>
        -- `_thread_manager = nullptr`.
        if s.managed = true ∧ s.stopping.isSome = true then
          (poolStep p s.pool .stopEnd).map fun pool =>
            { s with pool, managed := false, stopping := none }
        else none

/-- The owner has the one reference that `make_context` returned. -/
def sharing (p : PoolParams) : Machine Sharing SharingStep where
  start :=
    { pool := threadsPool p, managed := true, owned := 1, ops := [], stopping := none,
      destroyer := none }
  step := sharingStep p

end Yaaf.Async
