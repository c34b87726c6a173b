import Yaaf.Core.Context
import Yaaf.Library.Machine

/-!
# The Steps of a Context

The threads of a running context, as one labelled step function. A label
(`Action`) says which thread moves and settles whatever the code leaves open:
which exchange the fan-out turns to, whether a `try_lock` succeeds, what a
virtual function answers, whether it throws.

A user pool thread takes the oldest queued task, the user pool holding only
tasks of default priority, and works through it. `TaskStep` follows
`base_actor::apply`, then `context::apply_actor_to_mailbox`, then
`context::on_actor_error`. Handlers and callbacks may use the context; what
they call there is a client call like any other, and needs no label of its
own.

The mailbox worker is a repeating task of the system pool, executed by one
thread at a time. `WorkerStep` follows `context::mailbox_worker`: the fan-out
under both locks, the scan under the shared lock, the clean-up of exchanges,
and the removal of stale mailboxes.

`StopStep` is `context::stop`, without its network part. The pools are stopped one
after the other, in an order that is not fixed, and the flag of the second goes up
only when the threads of the first are out. A system thread may have taken up its
task just before the flag went up, and then one more pass begins after it.

A state whose fate is not `running` has no step: after an undefined
dereference or an escaped exception nothing more is said about the run.

## Main definitions

* `TaskStep`, `taskStep`: A user thread.
* `WorkerStep`, `workerStep`: The mailbox worker.
* `StopStep`, `stopStep`: Shutdown.
* `Action`, `step`: All of it.
* `context`: The machine whose runs are the runs of a context.
-/

namespace Yaaf

variable {π : Type}

/-- One step of a user thread that is executing a task. -/
inductive TaskStep
  -- `on_start` returns; an exception leaves the thread.
  | startReturn (throws : Bool)
  -- The first emptiness test of `apply`.
  | entry
  | tryPop
  | callHandler
  | handlerReturn
  -- `action_handle` throws a `std::exception`.
  | handlerThrow (what : String)
  -- `action_handle` throws anything else.
  | handlerAbort
  | updateStatus
  | resetBusy
  -- `on_child_status(NORMAL)` on the parent, which may throw.
  | childStatus (throws : Bool)
  -- `on_child_error` on the parent, or the stop of a parentless actor;
  -- `none` is a throw.
  | childError (answer : Option ActorActionWhenError)
  | lockShared
  -- One turn of the `ESCALATE` loop.
  | escalate (answer : Option ActorActionWhenError)
  -- `on_actor_error`; its callback may throw.
  | decide (throws : Bool)
  -- The `on_start` of a `REINIT` returns or throws.
  | restartReturn (throws : Bool)
deriving DecidableEq, Repr

/-- One step of the mailbox worker. The Booleans are the answers of the
    `try_lock` in question. -/
inductive WorkerStep
  | tryFanOut (ok : Bool)
  | nextExchange (x : String)
  | popPub
  | deliver
  | endFanOut
  | tryScan (ok : Bool)
  | visit (k : IdT)
  | tryLock
  | recheck
  | release
  | post
  | cleanUp (ok : Bool)
  | purge (ok : Bool)
deriving DecidableEq, Repr

/-- One step of `context::stop`. The loop of `thread_manager::stop` turns to the
    pools in either order. -/
inductive StopStep
  | begin
  | dropPosts
  -- The flag of a pool goes up.
  | stopUserPool
  -- Whether the system thread has taken a task that it has not begun yet.
  | stopSysPool (taken : Bool)
  | join
  | sweep
deriving DecidableEq, Repr

namespace System

/-- The `i`-th user thread moves to another position of its task. -/
def moveTo (s : System π) (i : Nat) (t : ApplyTask) (pc : ApplyPc π) : System π :=
  { s with running := s.running.set i (.applying t pc) }

/-- The `i`-th user thread is done with its task. -/
def finish (s : System π) (i : Nat) : System π :=
  { s with running := s.running.eraseIdx i }

end System

/-- Where a user thread stands when it has taken a task up. -/
def Task.taken : Task → Running π
  | .onStart a m => .starting a m
  | .apply t => .applying t .entry

/-- What taking a task up calls at once. -/
def Task.takenEvent : Task → List (Event π)
  | .onStart a m => [.startBegin a m]
  | .apply _ => []

/-- A thread of the user pool takes the oldest task. -/
def pick (cfg : Config) (s : System π) : Option (System π) :=
  if s.running.length < cfg.userThreads && !s.shutdown.userStop then
    match s.queue with
    | [] => none
    | t :: rest =>
      some { s with
        queue := rest
        running := s.running ++ [t.taken]
        trace := s.trace ++ t.takenEvent }
  else none

/-- `context::on_actor_error` for the `i`-th thread. -/
def onActorError (cfg : Config) (s : System π) (i : Nat) (t : ApplyTask) (h : Bool)
    (action : ActorActionWhenError) (throws : Bool) : Option (System π) :=
  match action with
  | .reinit =>
    if s.canExclude then
      (s.stopActorImplSafety cfg t.target.address .except).map fun s =>
        ((s.emit (.failureStopped t h)).emit (.restartBegin t.target.actor t.mb)).moveTo i t
          (.restarting h)
    else none
  | .stop =>
    if s.canExclude then
      (s.stopActorImplSafety cfg t.target.address .except).map fun s =>
        (s.emit (.failureStopped t h)).finish i
    else none
  | .escalate => some (s.finish i)
  | .resume =>
    match t.parent with
    | none => some s.crash
    | some p =>
      let s := s.emit (.childStatus p t.target.address .withError)
      if throws then some s.terminate else some (s.finish i)

/-- One step of the `i`-th user thread, executing `apply_actor_to_mailbox`. -/
def applyStep (cfg : Config) (s : System π) (i : Nat) (t : ApplyTask) :
    TaskStep → ApplyPc π → Option (System π)
  | .entry, .entry =>
    some (s.moveTo i t (if s.boxes t.mb = [] then .drained else .draining))
  | .tryPop, .draining =>
    match s.boxes t.mb with
    | [] => some (s.moveTo i t .drained)
    | e :: rest =>
      some { s.moveTo i t (.popped e) with boxes := Function.update s.boxes t.mb rest }
  | .callHandler, .popped e =>
    some ((s.moveTo i t (.handling e)).emit (.handleBegin t.target.actor t.mb e))
  | .handlerReturn, .handling _ =>
    some ((s.moveTo i t .draining).emit (.handleEnd t.target.actor t.mb))
  | .handlerThrow what, .handling _ =>
    some ((s.moveTo i t (.threw what)).emit (.handleThrow t.target.actor t.mb))
  | .handlerAbort, .handling _ => some s.terminate
  | .updateStatus, .drained =>
    some ((s.moveTo i t (.resetting false)).setObj t.target.actor
      ((s.objs t.target.actor).updateStatus .normal ""))
  | .updateStatus, .threw what =>
    some ((s.moveTo i t (.resetting true)).setObj t.target.actor
      ((s.objs t.target.actor).updateStatus .withError what))
  | .resetBusy, .resetting rethrow =>
    some ((s.moveTo i t (if rethrow then .caught true else .returned)).setObj t.target.actor
      (s.objs t.target.actor).resetBusy)
  | .childStatus throws, .returned =>
    match t.parent with
    | none => some (s.finish i)
    | some p =>
      let s := s.emit (.childStatus p t.target.address .normal)
      -- The `try` block covers this callback too.
      if throws then some (s.moveTo i t (.caught false)) else some (s.finish i)
  | .childError answer, .caught h =>
    match t.parent, answer with
    | none, _ =>
      if s.canExclude then
        (s.stopActorImplSafety cfg t.target.address .except).map fun s =>
          (s.emit (.failureStopped t h)).finish i
      else none
    | some _, none => some s.terminate
    | some p, some action =>
      let pc := if action = .escalate then .locking h else .deciding h action
      some ((s.moveTo i t pc).emit (.childError p t.target.address action))
  | .lockShared, .locking h =>
    if s.canShare then some (s.moveTo i t (.escalating h t.target)) else none
  | .escalate answer, .escalating h descr =>
    -- The lookup result is dereferenced without a test.
    match s.actors.lookup descr.parent, answer with
    | none, _ => some s.crash
    | some _, none => some s.terminate
    | some up, some action =>
      let pc := if action = .escalate then .escalating h up else .deciding h action
      some ((s.moveTo i t pc).emit (.childError up.actor descr.address action))
  | .decide throws, .deciding h action => onActorError cfg s i t h action throws
  | .restartReturn throws, .restarting _ =>
    if throws then some s.terminate
    else some ((s.emit (.restartEnd t.target.actor t.mb)).finish i)
  | _, _ => none

/-- One step of the `i`-th user thread. -/
def taskStep (cfg : Config) (s : System π) (i : Nat) (st : TaskStep) : Option (System π) :=
  match s.running[i]? with
  | none => none
  | some (.starting a m) =>
    match st with
    | .startReturn throws =>
      if throws then some s.terminate
      else some ((s.emit (.startEnd a m)).finish i)
    | _ => none
  | some (.applying t pc) => applyStep cfg s i t st pc

namespace System

/-- An exchange is kept while its owner or a subscriber is registered. -/
def exchangeUsed (s : System π) (ex : ExchangeT π) : Bool :=
  (s.actors.lookup ex.owner.id).isSome || ex.subscribes.any fun id => (s.actors.lookup id).isSome

/-- The exchanges the clean-up of a pass collects. -/
def unusedExchanges (s : System π) : List String :=
  (s.exchanges.entries.filter fun kv => !s.exchangeUsed kv.2).map Sigma.fst

/-- The pairs the scan of a pass iterates over. -/
def mailboxPairs (s : System π) : List (IdT × MailboxPtr) :=
  s.mboxes.entries.map fun kv => (kv.1, kv.2)

end System

/-- The visit of one mailbox in the scan of a pass. -/
def visitStep (s : System π) (todo : List (IdT × MailboxPtr)) (toRemove : List IdT) :
    WorkerStep → ScanPc → Option (System π)
  | .visit k, .next =>
    match todo.find? fun p => p.1 = k with
    | none => none
    | some (k, m) =>
      let todo := todo.filter fun p => p.1 ≠ k
      if s.boxes m = [] then some { s with worker := .scan todo toRemove .next }
      else match s.actors.lookup k with
        | none => some { s with worker := .scan todo (toRemove ++ [k]) .next }
        | some d => some { s with worker := .scan todo toRemove (.trying m d) }
  | .tryLock, .trying m d =>
    let (got, o) := (s.objs d.actor).tryLock
    some { s.setObj d.actor o with
      worker := .scan todo toRemove (if got then .locked m d else .next) }
  | .recheck, .locked m d =>
    some { s with
      worker := .scan todo toRemove (if s.boxes m = [] then .releasing d else .posting m d) }
  | .release, .releasing d =>
    some { s.setObj d.actor (s.objs d.actor).resetBusy with worker := .scan todo toRemove .next }
  | .post, .posting m d =>
    if d.parent.empty then
      some { s.userPost (.apply ⟨d, none, m⟩) with worker := .scan todo toRemove .next }
    else match s.actors.lookup d.parent with
      | none => some s.crash
      | some p =>
        some { s.userPost (.apply ⟨d, some p.actor, m⟩) with worker := .scan todo toRemove .next }
  | .cleanUp ok, .next =>
    if todo = [] then
      some { s with
        exchanges := if ok then s.unusedExchanges.foldl (fun xs n => xs.erase n) s.exchanges
          else s.exchanges
        worker := .purging toRemove }
    else none
  | _, _ => none

/-- One step of the mailbox worker. -/
def workerStep (s : System π) (st : WorkerStep) : Option (System π) :=
  match st, s.worker with
  | .tryFanOut ok, .idle =>
    -- The flag was tested when the task was taken.
    if s.shutdown.sysStop && !s.passDue then none
    else if ok then
      if s.canExclude then
        some { s with worker := .fanOut s.exchanges.keys, passDue := false }
      else none
    else some { s with worker := .fanned, passDue := false }
  | .nextExchange x, .fanOut todo =>
    if x ∈ todo then some { s with worker := .draining x (todo.erase x) } else none
  | .popPub, .draining x todo =>
    match s.exchanges.lookup x with
    | none => some s.crash
    | some ex =>
      match ex.pub with
      | [] => some { s with worker := .fanOut todo }
      | e :: rest =>
        some { s with
          exchanges := s.exchanges.insert x { ex with pub := rest }
          worker := .delivering x e ex.subscribes todo }
  | .deliver, .delivering x e ids todo =>
    match ids with
    | [] => some { s with worker := .draining x todo }
    | id :: ids =>
      match s.mboxes.lookup id with
      | none => some { s with worker := .delivering x e ids todo }
      | some m => some { s.push m e (some x) with worker := .delivering x e ids todo }
  | .endFanOut, .fanOut todo =>
    if todo = [] then some { s with worker := .fanned } else none
  | .tryScan ok, .fanned =>
    if ok then some { s with worker := .scan s.mailboxPairs [] .next }
    else some { s with worker := .idle }
  | .purge ok, .purging toRemove =>
    if toRemove = [] then some { s with worker := .idle }
    else if ok then
      if s.canExclude then
        some { s with
          mboxes := toRemove.foldl (fun ms k => ms.erase k) s.mboxes
          worker := .idle }
      else none
    else some { s with worker := .idle }
  | st, .scan todo toRemove pc => visitStep s todo toRemove st pc
  | _, _ => none

/-- The loop of `context::stop` over the registered actors. -/
def System.stopAll (cfg : Config) (s : System π) : System π :=
  (cfg.order s.actors.keys).foldl (fun s k =>
    match s.actors.lookup k with
    | none => s
    | some d => s.onStop cfg k d.actor) s

/-- No pass is under way or about to begin. -/
def System.passDone (s : System π) : Bool :=
  match s.worker with
  | .idle => !s.passDue
  | _ => false

/-- One step of `context::stop`. A pool is stopped when the threads of the one before are
    joined. -/
def stopStep (cfg : Config) (s : System π) : StopStep → Option (System π)
  | .begin => some { s with shutdown := { s.shutdown with begun := true } }
  | .dropPosts =>
    if s.shutdown.begun then
      -- A second `stop` calls the thread manager that the first one reset.
      if s.shutdown.joined then some s.crash
      else some { s with shutdown := { s.shutdown with dropping := true } }
    else none
  | .stopUserPool =>
    if s.shutdown.dropping && (!s.shutdown.sysStop || s.passDone) then
      some { s with shutdown := { s.shutdown with userStop := true } }
    else none
  | .stopSysPool taken =>
    if s.shutdown.dropping && (!s.shutdown.userStop || s.running.isEmpty) then
      some { s with
        shutdown := { s.shutdown with sysStop := true }
        passDue := if s.shutdown.sysStop then s.passDue else
          match s.worker with
          | .idle => taken
          | _ => false }
    else none
  | .join =>
    if s.shutdown.userStop && s.shutdown.sysStop && s.running.isEmpty && s.passDone then
      some { s with shutdown := { s.shutdown with joined := true } }
    else none
  | .sweep =>
    if s.shutdown.joined && s.canExclude then
      some { s.stopAll cfg with actors := ∅, mboxes := ∅, idByName := ∅ }
    else none

/-- What can happen next, and how it goes. -/
inductive Action (π : Type)
  | call (c : ContextCall π)
  | userCall (uc : UserContext) (c : UserCall π)
  | add (i : Nat) (st : AddStep)
  | pick
  | task (i : Nat) (st : TaskStep)
  | worker (st : WorkerStep)
  | stop (st : StopStep)

/-- One step of the system. -/
def step (cfg : Config) (s : System π) (a : Action π) : Option (System π) :=
  if s.fate = .running then
    match a with
    | .call c => contextCall cfg s c
    | .userCall uc c => if uc ∈ s.usrconts then userCall cfg s uc c else none
    | .add i st => addStep s i st
    | .pick => pick cfg s
    | .task i st => taskStep cfg s i st
    | .worker st => workerStep s st
    | .stop st => stopStep cfg s st
  else none

/-- The machine of a context made with `make_context`. -/
def context (cfg : Config) (ctxName : String) : Machine (System π) (Action π) where
  start := makeContext cfg ctxName
  step := step cfg

/-- `n` user threads and nothing out of the ordinary: no network, children
    stopped newest first, every `on_stop` the default. -/
def Config.plain (n : Nat) : Config :=
  ⟨n, false, id, fun _ => List.Perm.refl _, fun _ => true⟩

/-- The labels of an `add_actor` call that nothing interrupts, made while no
    other is in progress. -/
def register (actorName : String) (parent : ActorAddress) (a : ActorPtr) : List (Action π) :=
  [.call (.addActor actorName parent a), .add 0 .lookup, .add 0 (.init true), .add 0 .insert,
    .add 0 .post]

/-- The labels with which one thread runs `n` queued `on_start` tasks. -/
def runStarts : Nat → List (Action π)
  | 0 => []
  | n + 1 => [.pick, .task 0 (.startReturn false)] ++ runStarts n

/-- The labels of a pass that skips the fan-out and locks the actor with id
    `k`, up to the second emptiness test. -/
def scanAndLock (k : IdT) : List (Action π) :=
  [.worker (.tryFanOut false), .worker (.tryScan true), .worker (.visit k), .worker .tryLock]

/-- The labels of a pass that posts a task for the actor with id `k` and finds
    the other mailboxes empty. -/
def dispatchPass (k : IdT) (others : List IdT) : List (Action π) :=
  scanAndLock k ++ [.worker .recheck, .worker .post] ++
    others.map (fun j => .worker (.visit j)) ++ [.worker (.cleanUp false), .worker (.purge false)]

end Yaaf
