import Yaaf.Core.Step

/-!
# The Owner of a Context

What the program that made a context can do with it: the public methods of
`context`, `stop` and the destructor included, one after another on one thread.

A call is carried out to its end. Methods that change something are the steps
they are made of; the ones that only look something up leave the state as it is.
The call of a method that takes a lock somebody holds has no outcome yet, which
is `none`. A call that dereferences an absent object breaks off there, and so
does the sequence of calls it is in.

`stop` asks nothing and goes through `_thread_manager` at once. The destructor
looks at the pointer first.

## Main definitions

* `perform`: The steps of a call, until the end or until it breaks off.
* `OwnerCall`: The public methods.
* `ownerCall`, `ownerCalls`: Calling one, and one after another.
-/

namespace Yaaf

variable {π : Type}

/-- The steps of a call, in order, as far as the run goes on. -/
def perform (cfg : Config) : System π → List (Action π) → Option (System π)
  | s, [] => some s
  | s, a :: as =>
    if s.fate = .running then (step cfg s a).bind fun s' => perform cfg s' as else some s

/-- The public methods of `context`. `make_actor` is `add_actor` with a new
    object, and `send` and `publish` fill in an envelope. -/
inductive OwnerCall (π : Type)
  | stop
  -- The `on_init` of the new actor returns, or throws.
  | addActor (actorName : String) (parent : ActorAddress) (a : ActorPtr) (returns : Bool)
  | sendEnvelope (target : ActorAddress) (e : Envelope π)
  | stopActor (addr : ActorAddress)
  | getActor (addr : ActorAddress)
  | getActorByName (name : String)
  | getAddress (name : String)
  | createExchange (owner : ActorAddress) (name : String)
  | subscribeToExchange (target : ActorAddress) (name : String)
  | publishToExchange (exchange : String) (e : Envelope π)
  | exchangeExists (name : String)
  -- `~context`.
  | destroy

/-- `context::stop`, from its first line to its last. -/
def stopLabels : List (Action π) :=
  [.stop .begin, .stop .dropPosts, .stop .stopUserPool, .stop (.stopSysPool false), .stop .join,
    .stop .sweep]

/-- `context::add_actor`, as the `i`-th call in progress. -/
def addActorLabels (actorName : String) (parent : ActorAddress) (a : ActorPtr) (i : Nat)
    (returns : Bool) : List (Action π) :=
  [.call (.addActor actorName parent a), .add i .lookup, .add i (.init returns)] ++
    if returns then [.add i .insert, .add i .post] else []

/-- One call, carried out to its end. -/
def ownerCall (cfg : Config) (s : System π) : OwnerCall π → Option (System π)
  | .stop => perform cfg s stopLabels
  | .addActor n parent a returns =>
    perform cfg s (addActorLabels n parent a s.adding.length returns)
  | .sendEnvelope target e => perform cfg s [.call (.sendEnvelope target e)]
  | .stopActor addr => perform cfg s [.call (.stopActor addr)]
  -- The lookups take `_locker` shared.
  | .getActor _ | .getActorByName _ | .getAddress _ => if s.canShare then some s else none
  | .createExchange owner n => perform cfg s [.call (.createExchange owner n)]
  | .subscribeToExchange target n => perform cfg s [.call (.subscribeToExchange target n)]
  | .publishToExchange x e => perform cfg s [.call (.publishToExchange x e)]
  | .exchangeExists _ => some s
  -- `if (_thread_manager != nullptr)`.
  | .destroy => if s.shutdown.joined then some s else perform cfg s stopLabels

/-- One call after another, as far as the run goes on. -/
def ownerCalls (cfg : Config) : System π → List (OwnerCall π) → Option (System π)
  | s, [] => some s
  | s, c :: cs =>
    if s.fate = .running then (ownerCall cfg s c).bind fun s' => ownerCalls cfg s' cs else some s

end Yaaf
