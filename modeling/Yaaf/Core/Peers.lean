import Yaaf.Core.Connections
import Yaaf.Core.Serialization

/-!
# Contexts That Talk

One context with a listener, any number of contexts with a connection to it,
and the messages between them. The two framework actors are
`network_lst_actor`, one of it in the listening context, and
`network_con_actor`, one in each client context. What they send is what their
`action_handle` makes of an envelope; what they receive comes in on a network
thread, through `on_new_message`.

The network library carries a message to the peer it was addressed to,
unchanged, in no particular order, and gives each client of a listener an id of
its own. `PeerConfig` is what that comes to: a table of clients by id.

`on_new_message` looks a name up and then sends, which is two critical sections
and so two steps here, `arrive` and `forward`, with a `Found` in between. The
context object it works with is held by a weak pointer, and a label says whether
it is still there.

A name in a message is a `std::string`, a sequence of bytes. The names in the
maps of a context are strings, and a byte stands for the character with its
number.

The serial numbers, the letters sent and the deliveries are a ghost. No step
reads them.

## Main definitions

* `NetPayload`: What an envelope can hold.
* `Party`, `PeerConfig`: The contexts; what is fixed for a run.
* `Letter`, `Packet`, `Found`, `Delivery`: A message, on its way.
* `PeerConfig.actionHandle`, `PeerConfig.onNewMessage`: The framework's actors.
* `peerStep`, `peers`: One step; the machine.
-/

namespace Yaaf

/-- `listener_actor_message`. -/
structure ListenerActorMessage where
  senderId : UInt64
  name : Bytes
  data : Bytes
deriving DecidableEq, Repr

/-- The types of payload the framework's network actors tell apart. -/
inductive NetPayload (π : Type)
  | network (m : NetworkActorMessage)
  | listener (m : ListenerActorMessage)
  -- A value of any other type.
  | other (v : π)
deriving DecidableEq, Repr

/-- A `std::string` as a name in the maps of a context. -/
def stdString (s : Bytes) : String :=
  String.ofList (s.map fun c => Char.ofNat c.toNat)

/-- The contexts: the one with the listener, and its clients. -/
inductive Party (ι : Type)
  | listener
  | client (i : ι)
deriving DecidableEq

/-- What a run cannot change: how the contexts are configured, the framework
    actor of each, `network_lst_actor` of the listener and `network_con_actor`
    of a client, and what is known of the network library. -/
structure PeerConfig (ι : Type) where
  config : Party ι → Config
  ctxName : Party ι → String
  own : Party ι → ActorPtr
  -- The width of `dialler::message::size_t` in bits.
  sizeT : Nat
  -- `get_id` of a client of the listener, and the clients by id.
  getId : ι → UInt64
  find : UInt64 → Option ι
  find_iff : ∀ s i, find s = some i ↔ getId i = s

/-- What one of the framework's actors was given to send: over which
    connection, whether towards the listener, and what. -/
structure Letter (ι : Type) where
  conn : ι
  asks : Bool
  content : NetworkActorMessage
deriving DecidableEq

/-- A message in the network, with the number of its letter. -/
structure Packet (ι : Type) where
  serial : Nat
  conn : ι
  asks : Bool
  message : Message
deriving DecidableEq

/-- A network thread in `on_new_message`, between the lookup of the name and
    the call of `send`. -/
structure Found (ι π : Type) where
  serial : Nat
  party : Party ι
  ctx : UserContext
  addr : ActorAddress
  payload : NetPayload π

/-- A push `on_new_message` has made. -/
structure Delivery (ι π : Type) where
  serial : Nat
  party : Party ι
  addr : ActorAddress
  mb : MailboxPtr
  envelope : Stored (NetPayload π)

/-- The context a letter or a packet comes from, and the one it goes to. -/
def sender {ι : Type} (conn : ι) (asks : Bool) : Party ι :=
  if asks then .client conn else .listener

def receiver {ι : Type} (conn : ι) (asks : Bool) : Party ι :=
  if asks then .listener else .client conn

/-- All contexts, what is on its way between them, and a record of the letters
    sent and the pushes made. -/
structure Contexts (ι π : Type) where
  sys : Party ι → System (NetPayload π)
  wire : List (Packet ι) := []
  found : List (Found ι π) := []
  sent : List (Letter ι) := []
  delivered : List (Delivery ι π) := []

variable {ι π : Type}

/-- The context object `add_actor` gave to an actor it registered. -/
def System.contextObject (s : System π) (a : ActorPtr) : Option UserContext :=
  s.usrconts.find? fun uc => s.trace.any fun ev => match ev with
    | .registered r => r.descr.actor == a && r.descr.usrcont == uc
    | _ => false

/-- What was pushed to a mailbox between two states. -/
def System.pushesUntil (s s' : System π) : List (MailboxPtr × Stored π) :=
  (s'.trace.drop s.trace.length).filterMap fun ev => match ev with
    | .pushed m e _ => some (m, e)
    | _ => none

namespace PeerConfig

variable (L : PeerConfig ι)

/-- `network_lst_actor::action_handle`: what it sends. The outer `none` is the
    throw of the cast, the inner one a `send_to` without such a client. -/
def lstActionHandle : NetPayload π → Option (Option (Letter ι))
  | .listener lm =>
    let nam : NetworkActorMessage := ⟨lm.name, lm.data⟩
    some ((L.find lm.senderId).map fun i => ⟨i, false, nam⟩)
  | _ => none

/-- `network_con_actor::action_handle`, likewise. -/
def conActionHandle (i : ι) : NetPayload π → Option (Option (Letter ι))
  | .network nm => some (some ⟨i, true, nm⟩)
  | _ => none

/-- The `action_handle` of the framework's own actor. -/
def actionHandle : Party ι → NetPayload π → Option (Option (Letter ι))
  | .listener, e => L.lstActionHandle e
  | .client i, e => conActionHandle i e

/-- What `on_new_message` of a `network_lst_actor` sends on. -/
def lstOnNewMessage (i : ι) (nm : NetworkActorMessage) : NetPayload π :=
  .listener ⟨L.getId i, nm.name, nm.data⟩

/-- What `on_new_message` of a `network_con_actor` sends on. -/
def conOnNewMessage (nm : NetworkActorMessage) : NetPayload π :=
  .network nm

/-- What `on_new_message` sends on, of a message over a connection. -/
def onNewMessage (conn : ι) (asks : Bool) (nm : NetworkActorMessage) : NetPayload π :=
  if asks then L.lstOnNewMessage conn nm else conOnNewMessage nm

/-- The letter that goes with an event: the framework's own actor was called. -/
def letter? (P : Party ι) : Event (NetPayload π) → Option (Letter ι)
  | .handleBegin a _ e =>
    if a = L.own P then (e.val.payload.bind (L.actionHandle P)).join else none
  | _ => none

/-- The letters of the calls made between two states. -/
def lettersUntil (P : Party ι) (s s' : System (NetPayload π)) : List (Letter ι) :=
  (s'.trace.drop s.trace.length).filterMap (L.letter? P)

/-- The framework's own actor is registered once, and its handler returns or
    throws as the source says. -/
def plays (P : Party ι) (s : System (NetPayload π)) : Action (NetPayload π) → Bool
  | .task k st =>
    match s.running[k]? with
    | some (.applying t (.handling e)) =>
      if t.target.actor = L.own P then
        match e.val.payload.bind (L.actionHandle P), st with
        | some _, .handlerReturn => true
        | none, .handlerThrow what => what == "Bad any cast"
        | _, _ => false
      else true
    | _ => true
  | a =>
    match a.registers with
    | some b => b != L.own P || s.newObject b
    | none => true

end PeerConfig

namespace Contexts

variable [DecidableEq ι]

/-- Update one of the contexts. -/
def setSys (p : Contexts ι π) (P : Party ι) (s : System (NetPayload π)) : Contexts ι π :=
  { p with sys := Function.update p.sys P s }

@[simp] theorem setSys_self (p : Contexts ι π) (P : Party ι) (s : System (NetPayload π)) :
    (p.setSys P s).sys P = s :=
  Function.update_self ..

@[simp] theorem setSys_of_ne (p : Contexts ι π) {P Q : Party ι} (h : Q ≠ P)
    (s : System (NetPayload π)) : (p.setSys P s).sys Q = p.sys Q :=
  Function.update_of_ne h ..

/-- A letter is packed and handed to the network library. -/
def post (L : PeerConfig ι) (p : Contexts ι π) (l : Letter ι) : Contexts ι π :=
  match l.content.getMessage L.sizeT with
  -- Too long for the message: the packer writes past its end.
  | none =>
    let P := sender l.conn l.asks
    { p.setSys P (p.sys P).crash with sent := p.sent ++ [l] }
  | some msg =>
    { p with
      wire := p.wire ++ [⟨p.sent.length, l.conn, l.asks, msg⟩]
      sent := p.sent ++ [l] }

/-- `on_new_message` up to the lookup of the name. -/
def arrive (L : PeerConfig ι) (p : Contexts ι π) (k : Nat) (alive : Bool) :
    Option (Contexts ι π) :=
  match p.wire[k]? with
  | none => none
  | some pk =>
    let P := receiver pk.conn pk.asks
    let s := p.sys P
    let p := { p with wire := p.wire.eraseIdx k }
    if s.fate ≠ .running then none
    else match unpackReceived pk.message with
      -- A length in the message that points past its end.
      | none => some (p.setSys P s.crash)
      -- Another kind of message.
      | some none => some p
      | some (some nm) =>
        match if alive then s.contextObject (L.own P) else none with
        | none => some p
        | some ctx =>
          if s.canShare then
            let addr := s.getAddress (stdString nm.name)
            -- No such actor: only logged.
            if addr.empty then some p
            else some { p with
              found := p.found ++ [⟨pk.serial, P, ctx, addr, L.onNewMessage pk.conn pk.asks nm⟩] }
          else none

/-- The call of `send` that ends `on_new_message`. -/
def forward (L : PeerConfig ι) (p : Contexts ι π) (k : Nat) : Option (Contexts ι π) :=
  match p.found[k]? with
  | none => none
  | some f =>
    let s := p.sys f.party
    (step (L.config f.party) s
        (.userCall f.ctx (.sendEnvelope f.addr ⟨some f.payload, .null⟩))).map fun s' =>
      { p.setSys f.party s' with
        found := p.found.eraseIdx k
        delivered := p.delivered ++ (s.pushesUntil s').map fun me =>
          ⟨f.serial, f.party, f.addr, me.1, me.2⟩ }

end Contexts

/-- What happens next: a step of one of the contexts, or of a network thread. -/
inductive PeerAction (ι π : Type)
  | ctx (P : Party ι) (a : Action (NetPayload π))
  | arrive (k : Nat) (alive : Bool)
  | forward (k : Nat)

variable [DecidableEq ι]

/-- One step of the contexts. -/
def peerStep (L : PeerConfig ι) (p : Contexts ι π) : PeerAction ι π → Option (Contexts ι π)
  -- The framework's actor sends while its handler runs.
  | .ctx P a =>
    if L.plays P (p.sys P) a then
      (step (L.config P) (p.sys P) a).map fun s' =>
        (L.lettersUntil P (p.sys P) s').foldl (Contexts.post L) (p.setSys P s')
    else none
  | .arrive k alive => p.arrive L k alive
  | .forward k => p.forward L k

/-- The machine of the contexts. -/
def peers (L : PeerConfig ι) : Machine (Contexts ι π) (PeerAction ι π) where
  start := { sys := fun P => makeContext (L.config P) (L.ctxName P) }
  step := peerStep L

end Yaaf
