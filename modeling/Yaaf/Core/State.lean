import Yaaf.Core.Types

/-!
# The State of a Context

Everything a running context holds: the maps of the `context` class, the
actor objects and mailboxes on the heap, the user pool, the position of the
mailbox worker, how far shutdown has come, and a trace of what happened.

A description is stored by value. Its fields other than `children` never
change after `add_actor` built it, so a task that captured the shared pointer
and one that captured a copy read the same things. The settings of a
description are left out, `actor_settings` being an empty class.

A mailbox made for an actor outlives its map entry, because a posted task
holds it, so mailboxes live on a heap and the map holds their names. The
queue of an exchange is reachable from the exchange alone and is stored in
it.

Threads are positions in code. A call of `add_actor` is the only client
operation that is more than one critical section, so it alone has positions
(`AddStage`); the others are single steps. A user pool thread is a `Running`
entry, and an apply task moves through `ApplyPc`. The system pool runs one
task, the mailbox worker, and `WorkerPc` is its position.

The trace is a ghost: no step reads it. It records what a claim about a run
has to speak of, such as which envelope was handed to which actor and when.

## Main definitions

* `Description`, `ExchangeT`: The records in the context's maps.
* `ApplyTask`, `Task`, `ApplyPc`, `Running`: The user pool's work.
* `WorkerPc`: Where the mailbox worker stands.
* `AddCall`, `AddStage`: A call of `add_actor` in progress.
* `Event`: What the trace records.
* `System`: The whole state.
-/

namespace Yaaf

/-- `user_context`: the context object handed to one actor. Its pointer to
    the context is left implicit, there being one context. -/
structure UserContext where
  addr : ActorAddress
  name : String
deriving DecidableEq, Repr

/-- `inner::description`. -/
structure Description where
  actor : ActorPtr
  address : ActorAddress
  usrcont : UserContext
  name : String
  parent : IdT
  children : List IdT
deriving DecidableEq, Repr

/-- `inner::exchange_t`, with the content of its `pub` mailbox. -/
structure ExchangeT (π : Type) where
  subscribes : List IdT
  owner : ActorAddress
  pub : List (Stored π)

/-- What `context::apply_actor_to_mailbox` is called with. -/
structure ApplyTask where
  target : Description
  parent : Option ActorPtr
  mb : MailboxPtr
deriving DecidableEq, Repr

/-- A task of the user pool. The mailbox named by `onStart` says which
    registration the task was posted for; the closure captures only the
    actor. -/
inductive Task
  | onStart (a : ActorPtr) (mb : MailboxPtr)
  | apply (t : ApplyTask)
deriving DecidableEq, Repr

/-- Where a user thread stands in `apply_actor_to_mailbox`. The positions up
    to `resetting` are in `base_actor::apply`. From `caught` on, the flag `h`
    says whether it was the handler that threw; the code does not know. -/
inductive ApplyPc (π : Type)
  -- Before the test for an empty mailbox.
  | entry
  -- Before the next `try_pop`.
  | draining
  -- `try_pop` filled the local envelope; `action_handle` is next.
  | popped (e : Stored π)
  -- Inside `action_handle`.
  | handling (e : Stored π)
  -- Nothing left to pop; the status is next.
  | drained
  -- `action_handle` threw; the status is next.
  | threw (what : String)
  -- The status is set, `reset_busy` is next, then `apply` rethrows or returns.
  | resetting (rethrow : Bool)
  -- `apply` returned.
  | returned
  -- An exception reached the `catch` clause.
  | caught (h : Bool)
  -- The parent answered `ESCALATE`; the shared lock is next.
  | locking (h : Bool)
  -- In the loop, holding the shared lock, about to ask the parent of `descr`.
  | escalating (h : Bool) (descr : Description)
  -- `on_actor_error` is about to carry the action out.
  | deciding (h : Bool) (action : ActorActionWhenError)
  -- Inside the `on_start` that follows a `REINIT`.
  | restarting (h : Bool)

/-- A task a user thread is executing. -/
inductive Running (π : Type)
  | starting (a : ActorPtr) (mb : MailboxPtr)
  | applying (t : ApplyTask) (pc : ApplyPc π)

/-- Where the worker stands with the mailbox it is visiting. -/
inductive ScanPc
  -- Between two mailboxes.
  | next
  -- The mailbox was not empty; `try_lock` is next.
  | trying (m : MailboxPtr) (d : Description)
  -- The busy flag is held; the second emptiness test is next.
  | locked (m : MailboxPtr) (d : Description)
  -- The mailbox was empty after all; `reset_busy` is next.
  | releasing (d : Description)
  -- The parent lookup and the post are next.
  | posting (m : MailboxPtr) (d : Description)

/-- Where the system thread stands in `mailbox_worker`. -/
inductive WorkerPc (π : Type)
  | idle
  -- Holding `_exchange_locker` shared and `_locker` exclusively, between
  -- two exchanges.
  | fanOut (todo : List String)
  -- In the `try_pop` loop of one exchange.
  | draining (x : String) (todo : List String)
  -- Pushing one message to the remaining subscribers.
  | delivering (x : String) (e : Stored π) (ids : List IdT) (todo : List String)
  -- Before the shared `try_lock` of the scan.
  | fanned
  -- Holding `_locker` shared, with the mailboxes not yet visited.
  | scan (todo : List (IdT × MailboxPtr)) (toRemove : List IdT) (pc : ScanPc)
  -- The locks are dropped; the stale mailboxes are next.
  | purging (toRemove : List IdT)

/-- Where a call of `add_actor` stands. -/
inductive AddStage
  -- The id is taken; the parent lookup is next.
  | called (parent : ActorAddress)
  -- The description is filled in; `on_init` is running.
  | built (d : Description)
  -- `on_init` returned; the exclusive section is next.
  | ready (d : Description)
  -- The maps are updated; the post of `on_start` is next.
  | inserted (mb : MailboxPtr)
deriving DecidableEq, Repr

/-- A call of `add_actor` in progress. -/
structure AddCall where
  actorName : String
  actor : ActorPtr
  newId : IdT
  stage : AddStage
deriving DecidableEq, Repr

/-- A completed registration: what the exclusive section of one `add_actor`
    call put into the maps, and the arguments of the call. -/
structure Registration where
  descr : Description
  actorName : String
  mb : MailboxPtr
deriving DecidableEq, Repr

/-- One thing that happened. -/
inductive Event (π : Type)
  -- `add_actor`, given a name, took an id.
  | called (newId : IdT) (actorName : String)
  | registered (r : Registration)
  -- An `on_start` task was handed to the thread manager.
  | startPosted (mb : MailboxPtr)
  | startBegin (a : ActorPtr) (mb : MailboxPtr)
  | startEnd (a : ActorPtr) (mb : MailboxPtr)
  -- An envelope entered an actor's mailbox, from an exchange if named.
  | pushed (mb : MailboxPtr) (e : Stored π) (from? : Option String)
  | published (x : String) (e : Stored π)
  -- A live actor entered the subscriber list; `pending` is the content of
  -- the queue at that moment.
  | subscribed (x : String) (id : IdT) (mb : Option MailboxPtr) (pending : List (Stored π))
  -- `action_handle` was called, returned or threw.
  | handleBegin (a : ActorPtr) (mb : MailboxPtr) (e : Stored π)
  | handleEnd (a : ActorPtr) (mb : MailboxPtr)
  | handleThrow (a : ActorPtr) (mb : MailboxPtr)
  -- `on_stop` of the actor registered under `id`.
  | stopped (id : IdT) (a : ActorPtr)
  | childStopped (parent : ActorPtr) (addr : ActorAddress) (reason : ActorStoppingReason)
  | childStatus (parent : ActorPtr) (addr : ActorAddress) (k : ActorStatusKinds)
  | childError (parent : ActorPtr) (addr : ActorAddress) (answer : ActorActionWhenError)
  -- The failed actor was stopped; `h` is the flag of the position.
  | failureStopped (t : ApplyTask) (h : Bool)
  | restartBegin (a : ActorPtr) (mb : MailboxPtr)
  | restartEnd (a : ActorPtr) (mb : MailboxPtr)

/-- How the process is doing. -/
inductive Fate
  | running
  -- An absent object was dereferenced.
  | undefined
  -- An exception left a thread function.
  | terminated
deriving DecidableEq, Repr

/-- How far `context::stop` has come. -/
structure Shutdown where
  -- `context::_stopping_begin`.
  begun : Bool := false
  -- `thread_manager::_stoping_begin`: posts are dropped from here on.
  dropping : Bool := false
  -- The stop flags of the two pools, which are stopped one after the other.
  userStop : Bool := false
  sysStop : Bool := false
  -- `_thread_manager` is reset: the pools are joined.
  joined : Bool := false
deriving DecidableEq, Repr

/-- The state of a context and of everything that works on it. -/
structure System (π : Type) where
  ctxName : String
  nextActorId : UInt64
  actors : AList (fun _ : IdT => Description)
  idByName : AList (fun _ : String => IdT)
  mboxes : AList (fun _ : IdT => MailboxPtr)
  exchanges : AList (fun _ : String => ExchangeT π)
  usrRoot : ActorAddress
  -- The heap: actor objects, mailbox contents and the next free mailbox.
  objs : ActorPtr → BaseActor
  boxes : MailboxPtr → List (Stored π)
  nextBox : MailboxPtr
  -- Every `user_context` made so far.
  usrconts : List UserContext
  adding : List AddCall
  -- The user pool: queued tasks, executing tasks, and tasks the thread
  -- manager dropped because it was stopping.
  queue : List Task
  running : List (Running π)
  dropped : List Task
  worker : WorkerPc π
  -- The system thread took its task before the flag of its pool went up, and has
  -- not begun the pass.
  passDue : Bool
  shutdown : Shutdown
  fate : Fate
  trace : List (Event π)

end Yaaf
