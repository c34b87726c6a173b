import Yaaf.Core.Context
import Yaaf.Library.Locks

/-!
# The Locks of a Context

The operations of a context as what the calling thread does with locks: the
two shared mutexes of the `context` class, the mutex inside every mailbox, and
the mutex of each thread pool. Everything else the code does between two
acquisitions is left out here; it is the subject of the other modules.

Guards are scopes, and the scopes nest as they do in the source. Where the
source looks something up to decide whether to go on, the command has a choice.
Loops over the maps are over lists that are parameters, so a command stands for
one call in one state, and quantifying over the lists covers every state.

The virtual functions an actor overrides are called at fixed places, with
whatever the caller holds at that point. A `CallbackBody` says what such a
function does: nothing but calls on its context object, or, for the two actors
of the network part, the erasing of their own entry.

`thread_manager::post` locks nothing of its own. The waits inside the pools and
inside the network library are not locks.

## Main definitions

* `Lock`: The mutexes.
* `addActor`, `stopActor`, `mailboxWorker` and the others: The operations.
* `UserOp`, `UserOp.cmd`: What a callback may call, and its locks.
* `CallbackBody`, `Callbacks`: What the virtual functions do.
* `stopCalls`, `sweepCalls`, `escalationCalls`: Who is called, in one state.
* `CallbackPath`, `CallbackPath.cmd`: The ways to a callback.
* `Operation`, `Operation.program`: A call on a context, as a program.
-/

namespace Yaaf.Locking

open Locks

/-- The mutexes of a context and of what belongs to it. -/
inductive Lock
  /-- `context::_locker`. -/
  | locker
  /-- `context::_exchange_locker`. -/
  | exchangeLocker
  /-- `mailbox::_locker` of an actor's mailbox. -/
  | mailbox (m : MailboxPtr)
  /-- `mailbox::_locker` of the queue of an exchange. -/
  | pub (x : String)
  /-- `threads_pool::_queue_mutex`, by the kind of the pool. -/
  | queueMutex (kind : UInt16)
deriving DecidableEq

/-- The thread kind `USER`. -/
def USER : UInt16 := 1

/-- A guard with nothing locked under it. -/
def guarded (l : Lock) (m : Mode) : Cmd Lock := .lock l m .skip

/-- `mailbox::push` and `mailbox::try_pop`. -/
def mailboxPush (m : MailboxPtr) : Cmd Lock := guarded (.mailbox m) .exclusive

/-- `mailbox::empty`. -/
def mailboxEmpty (m : MailboxPtr) : Cmd Lock := guarded (.mailbox m) .shared

/-- `push` and `try_pop` on the queue of an exchange. -/
def pubAccess (x : String) : Cmd Lock := guarded (.pub x) .exclusive

/-- `context::user_post`. A stopping manager drops the task and locks nothing. -/
def userPost : Cmd Lock := (guarded (.queueMutex USER) .exclusive).sometimes

/-- `context::add_actor`. Only a call with a parent looks it up. -/
def addActor : Cmd Lock :=
  .seq (guarded .locker .shared).sometimes
    (.seq (guarded .locker .exclusive) userPost)

/-- `context::send_envelope`. -/
def sendEnvelope (target : MailboxPtr) : Cmd Lock :=
  .lock .locker .shared (mailboxPush target).sometimes

/-- `context::get_actor` and `context::get_address`. -/
def lookup : Cmd Lock := guarded .locker .shared

/-- `context::create_exchange`. -/
def createExchange : Cmd Lock := guarded .exchangeLocker .exclusive

/-- `context::subscribe_to_exchange`. -/
def subscribeToExchange : Cmd Lock := .both .exchangeLocker .locker .skip

/-- `context::publish_to_exchange`. -/
def publishToExchange (x : String) : Cmd Lock :=
  .lock .exchangeLocker .shared (pubAccess x).sometimes

/-- `context::exchange_exists`. -/
def exchangeExists : Cmd Lock := guarded .exchangeLocker .shared

/-- `context::erase_listener_on`. -/
def eraseListenerOn : Cmd Lock := guarded .exchangeLocker .exclusive

/-- `context::erase_connections`. -/
def eraseConnections : Cmd Lock := guarded .exchangeLocker .exclusive

/-- `context::add_listener_on`. -/
def addListenerOn : Cmd Lock := addActor

/-- `context::add_connection_to`. -/
def addConnectionTo : Cmd Lock := .seq createExchange addActor

/-- A call an actor makes on the context object it was given. -/
inductive UserOp
  | addActor
  | sendEnvelope (target : MailboxPtr)
  | stopActor
  | getActor
  | getAddress
  | createExchange
  | subscribeToExchange
  | publishToExchange (x : String)
  | exchangeExists
  | name
deriving DecidableEq

/-- The methods of `user_context`. Nothing is forwarded to a context that is
    gone, and four of them give up once it is stopping. A `stop_actor` made by
    a callback is the guard here; what it calls in turn is a path of its own. -/
def UserOp.cmd (alive stopping : Bool) (op : UserOp) : Cmd Lock :=
  if alive = false then .skip
  else match op with
    | .addActor => if stopping = true then .skip else Locking.addActor
    | .sendEnvelope m => if stopping = true then .skip else Locking.sendEnvelope m
    | .stopActor => if stopping = true then .skip else guarded .locker .exclusive
    | .getActor => if stopping = true then .skip else lookup
    | .getAddress => lookup
    | .createExchange => Locking.createExchange
    | .subscribeToExchange => Locking.subscribeToExchange
    | .publishToExchange x => Locking.publishToExchange x
    | .exchangeExists => Locking.exchangeExists
    | .name => .skip

/-- What the `on_stop` of an actor does with locks if it makes no call on its
    context object: nothing, or, in a listener and in a connection, the erasing
    of its own entry. -/
inductive StopHook
  | none
  | eraseListenerOn
  | eraseConnections
deriving DecidableEq, Repr

def StopHook.cmd : StopHook → Cmd Lock
  | .none => .skip
  | .eraseListenerOn => Locking.eraseListenerOn
  | .eraseConnections => Locking.eraseConnections

/-- What a virtual function of an actor does. -/
inductive CallbackBody
  /-- Calls on `get_context()`, in order. -/
  | user (ops : List UserOp)
  /-- The `on_stop` of one of the framework's own actors. -/
  | framework (hook : StopHook)
deriving DecidableEq

def CallbackBody.cmd (alive stopping : Bool) : CallbackBody → Cmd Lock
  | .user ops => Cmd.all (ops.map (UserOp.cmd alive stopping))
  | .framework hook => hook.cmd

/-- The virtual functions in question. -/
inductive CallbackKind
  | onStop
  | onChildStopped
  | onChildError
deriving DecidableEq, Repr

/-- One call of a virtual function. -/
structure Callback where
  actor : ActorPtr
  kind : CallbackKind
deriving DecidableEq, Repr

/-- What the virtual functions of the actors do. -/
abbrev Callbacks := Callback → CallbackBody

variable {π : Type}

/-- The call an event records. -/
def calledBack : Event π → Option Callback
  | .stopped _ a => some ⟨a, .onStop⟩
  | .childStopped parent _ _ => some ⟨parent, .onChildStopped⟩
  | .childError parent _ _ => some ⟨parent, .onChildError⟩
  | _ => none

/-- The calls recorded between two states. -/
def callsBetween (s s' : System π) : List Callback :=
  (s'.trace.drop s.trace.length).filterMap calledBack

/-- The calls `stop_actor_impl` makes, at all depths of the tree. -/
def stopCalls (cfg : Config) (s : System π) (addr : ActorAddress) (reason : ActorStoppingReason) :
    List Callback :=
  match s.stopActorImplSafety cfg addr reason with
  | none => []
  | some s' => callsBetween s s'

/-- The calls of the loop in `context::stop`. -/
def sweepCalls (cfg : Config) (s : System π) : List Callback :=
  (cfg.order s.actors.keys).filterMap fun k =>
    (s.actors.lookup k).map fun d => ⟨d.actor, .onStop⟩

/-- The calls of the `ESCALATE` loop, if it makes `n` turns. -/
def escalationCalls (s : System π) : Nat → Description → List Callback
  | 0, _ => []
  | n + 1, descr =>
    match s.actors.lookup descr.parent with
    | none => []
    | some up => ⟨up.actor, .onChildError⟩ :: escalationCalls s n up

/-- The ways in which a context calls `on_stop`, `on_child_stopped` and
    `on_child_error`. -/
inductive CallbackPath (π : Type)
  /-- `stop_actor_impl_safety`, called by `stop_actor`, by a supervisor's `STOP`
      or `REINIT`, and for a failed actor without a supervisor. -/
  | stopActor (cfg : Config) (s : System π) (addr : ActorAddress) (reason : ActorStoppingReason)
  /-- The loop of `context::stop`, called by somebody who owns the context or by
      its destructor. -/
  | stop (cfg : Config) (s : System π) (alive : Bool)
  /-- The supervisor of a failed actor is asked. -/
  | childError (s : System π) (parent : ActorPtr)
  /-- Its supervisors are asked, `n` of them. -/
  | escalate (s : System π) (n : Nat) (descr : Description)

namespace CallbackPath

/-- The calls on the path. -/
def calls : CallbackPath π → List Callback
  | .stopActor cfg s addr reason => stopCalls cfg s addr reason
  | .stop cfg s _ => sweepCalls cfg s
  | .childError _ parent => [⟨parent, .onChildError⟩]
  | .escalate s n descr => escalationCalls s n descr

/-- The context can be locked through a weak pointer. -/
def alive : CallbackPath π → Bool
  | .stop _ _ alive => alive
  | _ => true

/-- `is_stopping_begin`. -/
def stopping : CallbackPath π → Bool
  | .stopActor _ s _ _ => s.shutdown.begun
  | .stop _ _ _ => true
  | .childError s _ => s.shutdown.begun
  | .escalate s _ _ => s.shutdown.begun

/-- The calls, one after the other. -/
def body (cb : Callbacks) (path : CallbackPath π) : Cmd Lock :=
  Cmd.all (path.calls.map fun call => (cb call).cmd path.alive path.stopping)

/-- What the calling thread does. -/
def cmd (cb : Callbacks) (path : CallbackPath π) : Cmd Lock :=
  match path with
  | .stopActor _ _ _ _ => .lock .locker .exclusive (path.body cb)
  | .stop _ _ _ => .lock .locker .exclusive (path.body cb)
  | .childError _ _ => path.body cb
  | .escalate _ _ _ => .lock .locker .shared (path.body cb)

end CallbackPath

/-- What the virtual functions that are called without a lock do in the
    framework's own actors. -/
inductive NetworkAction
  | addListenerOn
  | addConnectionTo
deriving DecidableEq, Repr

def NetworkAction.cmd : NetworkAction → Cmd Lock
  | .addListenerOn => Locking.addListenerOn
  | .addConnectionTo => Locking.addConnectionTo

/-- `context::stop_actor_impl_safety`, with the `on_stop` calls of the tree. -/
def stopActor (hooks : List StopHook) : Cmd Lock :=
  .lock .locker .exclusive (Cmd.all (hooks.map StopHook.cmd))

/-- The messages of one exchange, to the mailboxes of its subscribers. -/
def fanOut (x : String) (subscribes : List MailboxPtr) : Cmd Lock :=
  -- The last `try_pop` finds the queue empty.
  .seq (.star (.seq (pubAccess x) (Cmd.all (subscribes.map mailboxPush)))) (pubAccess x)

/-- The visit of one mailbox. -/
def visit (m : MailboxPtr) : Cmd Lock :=
  -- The second look and the post come with the busy flag, which is no lock.
  .seq (mailboxEmpty m) (Cmd.sometimes (.seq (mailboxEmpty m) userPost.sometimes))

/-- `context::mailbox_worker`, for the exchanges and the mailboxes there are. -/
def mailboxWorker (exchanges : List (String × List MailboxPtr)) (mboxes : List MailboxPtr) :
    Cmd Lock :=
  .seq
    (.tryLock .exchangeLocker .shared
      (.tryLock .locker .exclusive (Cmd.all (exchanges.map fun kv => fanOut kv.1 kv.2)) .skip)
      .skip)
    -- Without the shared lock the pass ends here.
    (.tryLock .locker .shared
      (.seq (Cmd.all (mboxes.map visit)) (.tryLock .exchangeLocker .exclusive .skip .skip))
      (Cmd.sometimes (.tryLock .locker .exclusive .skip .skip)))

/-- `base_actor::apply` on a mailbox. -/
def apply (mb : MailboxPtr) (actions : List NetworkAction) : Cmd Lock :=
  .seq (mailboxEmpty mb)
    (.star (.seq (mailboxPush mb) (Cmd.sometimes (Cmd.all (actions.map NetworkAction.cmd)))))

/-- `context::apply_actor_to_mailbox` with `context::on_actor_error`: after
    `apply` either nothing more is locked, or the failure is escalated or not,
    and then the actor is stopped or not. -/
def applyActorToMailbox (mb : MailboxPtr) (actions : List NetworkAction)
    (hooks : List StopHook) : Cmd Lock :=
  .seq (apply mb actions)
    (Cmd.sometimes (.seq (guarded .locker .shared).sometimes (stopActor hooks).sometimes))

/-- The operations of a context, with what they find in its maps. -/
inductive Operation
  | addActor
  | stopActor (hooks : List StopHook)
  | sendEnvelope (target : MailboxPtr)
  | getActor
  | getAddress
  | createExchange
  | subscribeToExchange
  | publishToExchange (x : String)
  | exchangeExists
  | mailboxWorker (exchanges : List (String × List MailboxPtr)) (mboxes : List MailboxPtr)
  | applyActorToMailbox (mb : MailboxPtr) (actions : List NetworkAction) (hooks : List StopHook)
  /-- What a pool's own threads, `flush` and `stop` do with its mutex. -/
  | queue (kind : UInt16) (m : Mode)

def Operation.program : Operation → Cmd Lock
  | .addActor => Locking.addActor
  | .stopActor hooks => Locking.stopActor hooks
  | .sendEnvelope m => Locking.sendEnvelope m
  | .getActor => lookup
  | .getAddress => lookup
  | .createExchange => Locking.createExchange
  | .subscribeToExchange => Locking.subscribeToExchange
  | .publishToExchange x => Locking.publishToExchange x
  | .exchangeExists => Locking.exchangeExists
  | .mailboxWorker exchanges mboxes => Locking.mailboxWorker exchanges mboxes
  | .applyActorToMailbox mb actions hooks => Locking.applyActorToMailbox mb actions hooks
  | .queue kind m => guarded (.queueMutex kind) m

end Yaaf.Locking
