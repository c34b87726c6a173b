import Mathlib.Data.List.AList
import Yaaf.Core.ThreadsPool

/-!
# The Thread Manager

`thread_manager`: a pool for each kind of thread, and `post`, `flush` and `stop`
over all of them. A step inside a pool is a step of that pool, and everything the
manager does to a pool is a call of it: `post` finds the pool of a kind and posts
there, `flush` flushes one pool after the other, and so does `stop`, which at last
drops the pools.

`post` reads `_stoping_begin` first and looks the pool up after that, and these are
two steps, as `stop` may come in between. It then finds no pool, which is the
error for an unknown kind.

Three things are left out, as the source has no meaning for them: the race of a
lookup with the drop of the pools for one map, a pool that is dropped while a call
of its `post` or `flush` is under way, and a second thread that calls `stop` while
the first still waits in it, which would join threads that are being joined.

The order in which `flush` and `stop` go through the map is not fixed, so they take
any kind that is left. Pools that were dropped are kept as they were at that moment,
for what can be said of them.

## Main definitions

* `ManagedPool`, `ManagerFlush`, `ManagerEvent`: What a manager consists of.
* `ThreadManager`: The state of a manager and of the threads that use it.
* `threadManager`: The constructor.
* `managerStep`: One step of one thread.
* `managerMachine`: The manager as a machine.
-/

namespace Yaaf.Async

/-- A pool, with what it was built with. -/
structure ManagedPool where
  params : PoolParams
  pool : ThreadsPool

/-- A call of `flush` that has not returned: its place in the trace, the kinds it
    has not come to yet, and the call of a pool that it waits for, by its place in
    the trace of the pool. -/
structure ManagerFlush where
  called : Nat
  todo : List UInt16
  waiting : Option (UInt16 × Nat)
deriving DecidableEq, Repr

/-- What an observer of the manager sees. -/
inductive ManagerEvent
  /-- `post` found the pool of the kind and called it. -/
  | handed (kind : UInt16) (task : TaskWrapper)
  /-- `post` returned null. -/
  | refused (kind : UInt16) (task : TaskWrapper)
  /-- `post` threw "unknow kind.". -/
  | unknownKind (kind : UInt16) (task : TaskWrapper)
  | inPool (kind : UInt16) (ev : PoolEvent)
  | flushCalled
  /-- The call of `flush` made at this place of the trace returns. -/
  | flushReturned (called : Nat)
  | stopReturned
deriving DecidableEq, Repr

/-- The state of a manager and of the threads that use it. -/
structure ThreadManager where
  stopingBegin : Bool
  stoped : Bool
  pools : AList (fun _ : UInt16 => ManagedPool)
  /-- What `_pools.clear()` dropped. -/
  dropped : AList (fun _ : UInt16 => ManagedPool)
  /-- Calls of `post` that are past the test of `_stoping_begin`. -/
  calling : List (UInt16 × TaskWrapper)
  /-- The loop of `stop`: the kinds that are left, and the pool it waits for. -/
  stopping : Option (List UInt16 × Option UInt16)
  flushing : List ManagerFlush
  trace : List ManagerEvent

/-- The steps of all threads. Calls of `post` and of `flush` are named by their place
    in the list, and the loops choose the kind they come to next. -/
inductive ManagerStep
  | pool (kind : UInt16) (a : PoolStep)
  | postTest (kind : UInt16) (task : TaskWrapper)
  | postFind (j : Nat)
  | stopCall
  | stopPool (kind : UInt16)
  | stopJoined
  | stopClear
  | flushCall
  | flushPool (j : Nat) (kind : UInt16)
  | flushNext (j : Nat)
  | flushEnd (j : Nat)
deriving DecidableEq, Repr

/-- The steps of a pool that are not calls of it. -/
def PoolStep.inner : PoolStep → Bool
  | .postBegin _ | .stopBegin | .stopEnd | .flushBegin => false
  | _ => true

/-- The constructor. A pool replaces an earlier one of its kind. -/
def threadManager (ps : List PoolParams) : ThreadManager where
  stopingBegin := false
  stoped := false
  pools := ps.foldl (fun m p => m.insert p.kind ⟨p, threadsPool p⟩) ∅
  dropped := ∅
  calling := []
  stopping := none
  flushing := []
  trace := []

namespace ThreadManager

def addEvent (m : ThreadManager) (ev : ManagerEvent) : ThreadManager :=
  { m with trace := m.trace ++ [ev] }

def setFlush (m : ThreadManager) (j : Nat) (f : ManagerFlush) : ThreadManager :=
  { m with flushing := m.flushing.set j f }

/-- A step of the pool of a kind. -/
def onPool (m : ThreadManager) (k : UInt16) (a : PoolStep) : Option ThreadManager :=
  match m.pools.lookup k with
  | some q => (poolStep q.params q.pool a).map fun u => { m with
      pools := m.pools.insert k ⟨q.params, u⟩
      trace := m.trace ++ (u.trace.drop q.pool.trace.length).map (.inPool k) }
  | none => none

/-- An exception left a thread function of one of the pools. -/
def terminated (m : ThreadManager) : Bool :=
  m.pools.entries.any fun e => e.2.pool.terminated

end ThreadManager

/-- One step of one thread. After `std::terminate` nothing happens. -/
def managerStep (m : ThreadManager) (a : ManagerStep) : Option ThreadManager :=
  if m.terminated = true then none
  else match a with
    | .pool k a => if a.inner = true then m.onPool k a else none
    | .postTest k t =>
        if m.stopingBegin = true then some (m.addEvent (.refused k t))
        else some { m with calling := m.calling ++ [(k, t)] }
    | .postFind j => match m.calling[j]? with
      | some (k, t) =>
          let m' := { m with calling := m.calling.eraseIdx j }
          match m.pools.lookup k with
          | none => some (m'.addEvent (.unknownKind k t))
          | some _ => (m'.addEvent (.handed k t)).onPool k (.postBegin t)
      | none => none
    | .stopCall => match m.stopping with
      | some _ => none
      | none =>
          if m.stoped = true then
            some (ThreadManager.addEvent { m with stopingBegin := true } .stopReturned)
          else some { m with stopingBegin := true, stopping := some (m.pools.keys, none) }
    | .stopPool k => match m.stopping with
      | some (todo, none) =>
          if k ∈ todo then
            ThreadManager.onPool { m with stopping := some (todo.erase k, some k) } k .stopBegin
          else none
      | _ => none
    | .stopJoined => match m.stopping with
      | some (todo, some k) =>
          ThreadManager.onPool { m with stopping := some (todo, none) } k .stopEnd
      | _ => none
    | .stopClear => match m.stopping with
      | some ([], none) => some (ThreadManager.addEvent
          { m with stopping := none, stoped := true, pools := ∅, dropped := m.pools }
          .stopReturned)
      | _ => none
    | .flushCall => some (ThreadManager.addEvent
        { m with flushing := m.flushing ++ [⟨m.trace.length, m.pools.keys, none⟩] } .flushCalled)
    | .flushPool j k => match m.flushing[j]?, m.pools.lookup k with
      | some ⟨called, todo, none⟩, some q =>
          if k ∈ todo then
            let f : ManagerFlush := ⟨called, todo.erase k, some (k, q.pool.trace.length)⟩
            (m.setFlush j f).onPool k .flushBegin
          else none
      | _, _ => none
    | .flushNext j => match m.flushing[j]? with
      | some ⟨called, todo, some (k, n)⟩ => match m.pools.lookup k with
        | some q =>
            if .flushReturned n ∈ q.pool.trace then some (m.setFlush j ⟨called, todo, none⟩)
            else none
        | none => none
      | _ => none
    | .flushEnd j => match m.flushing[j]? with
      | some ⟨called, [], none⟩ => some (ThreadManager.addEvent
          { m with flushing := m.flushing.eraseIdx j } (.flushReturned called))
      | _ => none

/-- The manager as a machine. -/
def managerMachine (ps : List PoolParams) : Machine ThreadManager ManagerStep where
  start := threadManager ps
  step := managerStep

end Yaaf.Async
