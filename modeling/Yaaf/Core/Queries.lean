import Yaaf.Core.Serialization

/-!
# Queries

The messages two contexts can exchange, as the five structs of `queries`. Each has
a constructor from its value, a constructor from a message, and `get_message`, and
all five are written the same way: ask for as many bytes as the scheme needs, after a
cast to the size type of the network library, and write the scheme into them. Only
the scheme and the kind differ. A constructor from a message does not look at the
kind; who calls it has to.

`packed_message` is a template. What it needs to know of its type is what
`object_packer` says: a scheme, the fields that are written, and what becomes of the
fields that were read.

## Main definitions

* `message`: The body of every `get_message`.
* `Ok`, `Login`, `LoginConfirm`, `LoginFailed`, `PackedMessage`: The structs.
* `ObjectPacker`: What `packed_message` is told of its type.
* `Query`: Any of the five.
-/

namespace Yaaf

open Wire

/-- A `uint64_t` in memory. -/
def uint64Bytes (n : UInt64) : (Field.pod 8).Value :=
  ⟨leBytes 8 n.toNat, leBytes_length 8 n.toNat⟩

/-- What a `uint64_t` in memory says. -/
def uint64Value (v : (Field.pod 8).Value) : UInt64 :=
  UInt64.ofNat (leValue v.val)

namespace Queries

/-- The body of `get_message`: `dialler::message::size_t` has `sizeT` bits, and a new
    message has as many bytes as it was asked for. `none` is a write past the end. -/
def message (sizeT : Nat) (kind : Messagekinds) (fs : List Field) (args : Tuple fs) :
    Option Message :=
  let neededSize := BinaryIo.capacity fs args % 2 ^ sizeT
  (BinaryIo.write fs (List.replicate neededSize 0) 0 args).map fun value => ⟨kind.kind, value⟩

/-- `ok`. -/
structure Ok where
  id : UInt64
deriving DecidableEq, Repr

def Ok.getMessage (sizeT : Nat) (q : Ok) : Option Message :=
  message sizeT .ok [.pod 8] (uint64Bytes q.id, ())

/-- The constructor of `ok` from a message. -/
def Ok.ofMessage (nd : Message) : Option Ok :=
  (packedMessage [.pod 8] nd).map fun (id, _) => ⟨uint64Value id⟩

/-- `login`. -/
structure Login where
  loginStr : Bytes
deriving DecidableEq, Repr

def Login.getMessage (sizeT : Nat) (q : Login) : Option Message :=
  message sizeT .login [.string] (q.loginStr, ())

/-- The constructor of `login` from a message. -/
def Login.ofMessage (nd : Message) : Option Login :=
  (packedMessage [.string] nd).map fun (loginStr, _) => ⟨loginStr⟩

/-- `login_confirm`. -/
structure LoginConfirm where
  id : UInt64
deriving DecidableEq, Repr

def LoginConfirm.getMessage (sizeT : Nat) (q : LoginConfirm) : Option Message :=
  message sizeT .loginConfirm [.pod 8] (uint64Bytes q.id, ())

/-- The constructor of `login_confirm` from a message. -/
def LoginConfirm.ofMessage (nd : Message) : Option LoginConfirm :=
  (packedMessage [.pod 8] nd).map fun (id, _) => ⟨uint64Value id⟩

/-- `login_failed`. -/
structure LoginFailed where
  id : UInt64
deriving DecidableEq, Repr

def LoginFailed.getMessage (sizeT : Nat) (q : LoginFailed) : Option Message :=
  message sizeT .loginFailed [.pod 8] (uint64Bytes q.id, ())

/-- The constructor of `login_failed` from a message. -/
def LoginFailed.ofMessage (nd : Message) : Option LoginFailed :=
  (packedMessage [.pod 8] nd).map fun (id, _) => ⟨uint64Value id⟩

/-- `object_packer<T>`: the scheme, what `pack` writes of an object, and the object
    that `unpack` makes of what it read. -/
structure ObjectPacker (T : Type) where
  scheme : List Field
  fields : T → Tuple scheme
  fill : Tuple scheme → T

/-- `packed_message<T>`. -/
structure PackedMessage (T : Type) where
  msg : T
deriving DecidableEq, Repr

variable {T : Type}

def PackedMessage.getMessage (P : ObjectPacker T) (sizeT : Nat) (q : PackedMessage T) :
    Option Message :=
  message sizeT .msg P.scheme (P.fields q.msg)

/-- The constructor of `packed_message` from a message. -/
def PackedMessage.ofMessage (P : ObjectPacker T) (nd : Message) : Option (PackedMessage T) :=
  (packedMessage P.scheme nd).map fun args => ⟨P.fill args⟩

/-- `object_packer<network_actor_message>`. -/
def networkPacker : ObjectPacker NetworkActorMessage where
  scheme := NetworkActorMessage.scheme
  fields msg := (msg.name, msg.data, ())
  fill := fun (name, data, _) => ⟨name, data⟩

/-- Any of the five. -/
inductive Query (T : Type)
  | ok (q : Ok)
  | login (q : Login)
  | loginConfirm (q : LoginConfirm)
  | loginFailed (q : LoginFailed)
  | msg (q : PackedMessage T)
deriving DecidableEq, Repr

namespace Query

/-- The kind that `get_message` of a struct puts into the header. -/
def kind : Query T → Messagekinds
  | .ok _ => .ok
  | .login _ => .login
  | .loginConfirm _ => .loginConfirm
  | .loginFailed _ => .loginFailed
  | .msg _ => .msg

/-- `get_message` of whichever it is. -/
def getMessage (P : ObjectPacker T) (sizeT : Nat) : Query T → Option Message
  | .ok q => q.getMessage sizeT
  | .login q => q.getMessage sizeT
  | .loginConfirm q => q.getMessage sizeT
  | .loginFailed q => q.getMessage sizeT
  | .msg q => q.getMessage P sizeT

/-- The constructor from a message of the struct that has this kind. -/
def ofMessage (P : ObjectPacker T) : Messagekinds → Message → Option (Query T)
  | .ok, nd => (Ok.ofMessage nd).map .ok
  | .login, nd => (Login.ofMessage nd).map .login
  | .loginConfirm, nd => (LoginConfirm.ofMessage nd).map .loginConfirm
  | .loginFailed, nd => (LoginFailed.ofMessage nd).map .loginFailed
  | .msg, nd => (PackedMessage.ofMessage P nd).map .msg

end Query

end Queries

end Yaaf
