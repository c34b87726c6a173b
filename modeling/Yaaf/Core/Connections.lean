import Yaaf.Core.Step

/-!
# Connections

The part of a context that owns outgoing connections: `_network_connections`,
the connection actors, and the two functions that keep them together,
`add_connection_to` and `erase_connections`.

A dial is an object of the network library, named by number, and all that is
known of it here is whether somebody disconnected it. Its parameters are a
host and a port, which is what the library compares them by. A connection
actor remembers its dial and its parameters and nothing else ties the two to
the map.

The state is the state of the context with this part next to it. A step of the
context is a step here, and runs the `on_stop` of every connection actor it
stops. A request to connect is one step: it creates the exchange of the
connection, registers a new actor object under `/root/net` with a call of
`add_actor` that nothing interrupts, and stores the dial. The object is new,
and only the framework registers it.

## Main definitions

* `DialParams`, `NetworkConActor`: The parameters of a dial; a connection actor.
* `Connections`: The map, the connection actors, and who disconnected what.
* `eraseConnections`, `onStops`: The `on_stop` of connection actors.
* `addConnectionCalls`: The calls `add_connection_to` makes on its context.
* `netStep`, `network`: One step; the machine.
-/

namespace Yaaf

/-- `dialler::dial::params_t`, by what it is compared by. -/
structure DialParams where
  host : String
  port : UInt16
deriving DecidableEq, Repr

/-- A dial object, by name. -/
abbrev DialPtr := Nat

/-- The fields of a `network_con_actor`. -/
structure NetworkConActor where
  con : DialPtr
  cp : DialParams
deriving DecidableEq, Repr

/-- The name `add_connection_to` builds from the parameters. -/
def DialParams.targetHost (cp : DialParams) : String :=
  cp.host ++ ":" ++ toString cp.port.toNat

/-- `_network_connections`, the connection actors made so far, and a record of
    the dials that were disconnected: by the `on_stop` of an actor, or by
    `context::stop`. -/
structure Connections where
  connections : AList (fun _ : DialParams => DialPtr) := ∅
  actors : AList (fun _ : ActorPtr => NetworkConActor) := ∅
  nextDial : DialPtr := 0
  disconnects : List (Option ActorPtr × DialPtr) := []

namespace Connections

/-- `context::erase_connections`, called by an actor. -/
def eraseConnections (net : Connections) (a : ActorPtr) (cp : DialParams) : Connections :=
  match net.connections.lookup cp with
  | none => net
  | some dial =>
    { net with
      connections := net.connections.erase cp
      disconnects := net.disconnects ++ [(some a, dial)] }

/-- The `on_stop` of an actor object, as far as connections go. -/
def onStop (net : Connections) (a : ActorPtr) : Connections :=
  match net.actors.lookup a with
  | none => net
  | some c => net.eraseConnections a c.cp

/-- The `on_stop` of some actor objects, one after the other. -/
def onStops (net : Connections) (as : List ActorPtr) : Connections :=
  as.foldl onStop net

/-- The loop of `context::stop` over the connections. -/
def disconnectAll (net : Connections) : Connections :=
  { net with
    disconnects := net.disconnects ++ net.connections.entries.map fun kv => (none, kv.2) }

/-- The part of `add_connection_to` that is about the dial: the new actor gets
    the new dial, and `insert` leaves an entry that is there already. -/
def addDial (net : Connections) (cp : DialParams) (a : ActorPtr) : Connections :=
  { net with
    actors := net.actors.insert a ⟨net.nextDial, cp⟩
    nextDial := net.nextDial + 1
    connections := match net.connections.lookup cp with
      | some _ => net.connections
      | none => net.connections.insert cp net.nextDial }

end Connections

/-- A context of one user thread with its network part. -/
def Config.networked : Config :=
  { Config.plain 1 with network := true }

/-- `_net_root`. -/
def netRoot : ActorAddress := ⟨⟨4⟩, "/root/net"⟩

variable {π : Type}

/-- The calls `add_connection_to` makes on its context before it stores the
    dial, up to the parent lookup and from there on. -/
def addConnectionCalls (s : System π) (cp : DialParams) (a : ActorPtr) :
    List (Action π) × List (Action π) :=
  let i := s.adding.length
  -- The lookup reads `/root/net`, and the rest of the call is only there if it
  -- was found.
  ([.call (.createExchange netRoot ("/root/net/" ++ cp.targetHost)),
      .call (.addActor cp.targetHost netRoot a), .add i .lookup],
    [.add i (.init true), .add i .insert, .add i .post])

/-- The object has never been seen by the context. -/
def System.newObject (s : System π) (a : ActorPtr) : Bool :=
  (s.adding.all fun c => c.actor != a) &&
    s.trace.all fun ev => match ev with
      | .registered r => r.descr.actor != a
      | _ => true

/-- The object whose `on_stop` an event is. -/
def Event.stoppedActor : Event π → Option ActorPtr
  | .stopped _ a => some a
  | _ => none

/-- The `on_stop` calls recorded between two states. -/
def System.stopsUntil (s s' : System π) : List ActorPtr :=
  (s'.trace.drop s.trace.length).filterMap Event.stoppedActor

/-- The actor object a call on the interface of a context is about to register. -/
def Action.registers : Action π → Option ActorPtr
  | .call (.addActor _ _ a) => some a
  | .userCall _ (.addActor _ a) => some a
  | _ => none

/-- The first step of `context::stop`. -/
def Action.stopsNetwork : Action π → Bool
  | .stop .begin => true
  | _ => false

/-- What happens next: a step of the context, or a request to connect. -/
inductive NetAction (π : Type)
  | ctx (a : Action π)
  | addConnectionTo (cp : DialParams) (a : ActorPtr)

/-- The step of the connections that goes with a step of the context. -/
def Connections.follow (net : Connections) (s : System π) (a : Action π) (s' : System π) :
    Connections :=
  (if a.stopsNetwork = true then net.disconnectAll else net).onStops (s.stopsUntil s')

/-- One step of a context and its connections. -/
def netStep (cfg : Config) (ctxName : String) (p : System π × Connections) :
    NetAction π → Option (System π × Connections)
  | .ctx a =>
    -- Only the framework registers its own actors.
    if (a.registers.bind p.2.actors.lookup).isSome then none
    else (step cfg p.1 a).map fun s' => (s', p.2.follow p.1 a s')
  | .addConnectionTo cp a =>
    -- `make_shared` in `add_connection_to`: the object is nobody else's.
    if cfg.network = true ∧ p.1.newObject a = true ∧ p.2.actors.lookup a = none then
      match (context cfg ctxName).run p.1 (addConnectionCalls p.1 cp a).1 with
      | none => none
      | some u =>
        -- Without its parent the call ends in a null dereference.
        if u.fate ≠ .running then some (u, p.2)
        else ((context cfg ctxName).run u (addConnectionCalls p.1 cp a).2).map fun s' =>
          (s', p.2.addDial cp a)
    else none

/-- The machine of a context with its connections. -/
def network (cfg : Config) (ctxName : String) : Machine (System π × Connections) (NetAction π) where
  start := (makeContext cfg ctxName, {})
  step := netStep cfg ctxName

end Yaaf
