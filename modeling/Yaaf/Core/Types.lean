import Mathlib.Data.List.AList

/-!
# Values of the Actor Framework

The small types every layer shares: ids, addresses, payloads, envelopes, the
three enumerations of the actor interface, and the record behind an actor
object.

An id is a 64-bit counter value, and two of its values are special. The
default-constructed `id_t` is the largest one and is what `id_t::empty` tests
for, while `actor_address::empty` tests for id zero. The two notions of empty
are different on purpose here because they are different in the code.

A `payload_t` owns a holder, and an empty one has none. Copying clones the
holder without testing for it, so copying an empty payload dereferences a
null pointer. Everything that enters a queue is copied first, which is why
the queues below hold `Stored` envelopes: an envelope whose payload is known
to be there. The type `π` stands for the values a payload can hold.

Objects held by `std::shared_ptr` are named by number. `ActorPtr` names an
actor object and `MailboxPtr` a mailbox created for an actor; two
registrations of one object share the first and never the second.

## Main definitions

* `IdT`: A 64-bit id.
* `ActorAddress`: An id with a path name.
* `Envelope`: A payload with its sender.
* `Stored`: An envelope that survived a copy.
* `BaseActor`: The part of an actor object the framework reads and writes.
-/

namespace Yaaf

/-- `id_t`: a 64-bit counter value. -/
structure IdT where
  value : UInt64
deriving DecidableEq, Repr

namespace IdT

/-- The default-constructed id, the largest 64-bit value. -/
def none : IdT := ⟨0xFFFFFFFFFFFFFFFF⟩

/-- `id_t::empty`. -/
def empty (i : IdT) : Bool := i == none

end IdT

/-- `actor_address`: an id and the path name it was registered under. -/
structure ActorAddress where
  id : IdT
  pathname : String
deriving DecidableEq, Repr

namespace ActorAddress

/-- The default-constructed address. -/
def null : ActorAddress := ⟨⟨0⟩, ""⟩

/-- The conversion from a bare id, which has no path name to give. -/
def ofId (i : IdT) : ActorAddress := ⟨i, "null"⟩

/-- `actor_address::empty` tests the id against zero. -/
def empty (a : ActorAddress) : Bool := a.id == ⟨0⟩

end ActorAddress

/-- `payload_t`: a holder, or none. -/
abbrev PayloadT (π : Type) := Option π

/-- `envelope`. -/
structure Envelope (π : Type) where
  payload : PayloadT π
  sender : ActorAddress
deriving DecidableEq, Repr

/-- An envelope with a payload in it. -/
def Stored (π : Type) := { e : Envelope π // e.payload.isSome = true }

instance (π : Type) [DecidableEq π] : DecidableEq (Stored π) :=
  inferInstanceAs (DecidableEq { e : Envelope π // e.payload.isSome = true })

/-- Copying an envelope clones the holder of its payload. `none` is the null
    dereference of an empty payload. -/
def Envelope.copy? {π : Type} (e : Envelope π) : Option (Stored π) :=
  if h : e.payload.isSome = true then some ⟨e, h⟩ else none

/-- `actor_status_kinds`. -/
inductive ActorStatusKinds
  | normal
  | withError
  | stoped
deriving DecidableEq, Repr

/-- `actor_stopping_reason`. -/
inductive ActorStoppingReason
  | manual
  | except
deriving DecidableEq, Repr

/-- `actor_action_when_error`. -/
inductive ActorActionWhenError
  | reinit
  | stop
  | escalate
  | resume
deriving DecidableEq, Repr

/-- `base_actor::status_t`. -/
structure StatusT where
  kind : ActorStatusKinds := .normal
  msg : String := ""
deriving DecidableEq, Repr

/-- `base_actor`: the busy flag and the status of an actor object. -/
structure BaseActor where
  busy : Bool := false
  status : StatusT := {}
deriving DecidableEq, Repr

/-- An actor object, by the number of its allocation. -/
abbrev ActorPtr := Nat

/-- A mailbox created for a registration, by the number of its allocation. -/
abbrev MailboxPtr := Nat

namespace BaseActor

/-- `base_actor::update_status`. The overload without a message clears it,
    which is this one with the empty string. -/
def updateStatus (o : BaseActor) (kind : ActorStatusKinds) (msg : String) : BaseActor :=
  { o with status := ⟨kind, msg⟩ }

/-- `base_actor::reset_busy`. -/
def resetBusy (o : BaseActor) : BaseActor :=
  { o with busy := false }

/-- `base_actor::try_lock`, with its answer. The load and the exchange of the
    source act as one step: no other thread sets the flag in between without
    making the exchange fail. -/
def tryLock (o : BaseActor) : Bool × BaseActor :=
  if o.busy then (false, o) else (true, { o with busy := true })

end BaseActor

end Yaaf
