import Yaaf.Library.Buffer
import Yaaf.Library.Wire

/-!
# Serialization

The `helpers` of the binary format and the `binary_io` built from them, on a
buffer with a position in it for the pointer the source passes around. Every
`memcpy` is a load or a store, and one that would leave the buffer is `none`:
the source has no check to fail, so `none` is an access out of bounds and not
an answer.

A scheme is the list of field types `binary_io` is instantiated with. A POD
field is its `sizeof(T)` bytes. A string and a byte vector are their length,
as a `uint32_t` in the byte order of the machine, which is little-endian here,
and their bytes. The overloads for the two are the same expression.

The recursion over the fields ends after the last field, where the source ends
at it. A message of the network is its kind and its value, whose size is the
size in the header.

## Main definitions

* `Field`, `Field.Value`, `Tuple`: Schemes and their values.
* `Field.size`, `Field.write`, `Field.read`: The overloaded helpers.
* `calculateArgsSize`, `writeArgs`, `readArgs`: The recursions over a scheme.
* `BinaryIo.capacity`, `BinaryIo.write`, `BinaryIo.read`: The interface.
* `packedMessage`, `NetworkActorMessage.unpack`: What a receiver makes of a
  message.
* `NetworkActorMessage.getMessage`: What a sender makes of a value.
-/

namespace Yaaf

open Buffer Wire

/-- A piece of memory. -/
abbrev Bytes := List UInt8

/-- A field type of a scheme. -/
inductive Field
  -- A POD type, by its `sizeof`.
  | pod (sizeOf : Nat)
  -- `std::string`.
  | string
  -- `std::vector<uint8_t>`.
  | bytes
deriving DecidableEq, Repr

/-- The values of a field. -/
def Field.Value : Field → Type
  | .pod n => { l : Bytes // l.length = n }
  | .string => Bytes
  | .bytes => Bytes

/-- The arguments of a `binary_io`. -/
def Tuple : List Field → Type
  | [] => Unit
  | f :: fs => f.Value × Tuple fs

namespace Helpers

/-- `sizeof(uint32_t)`. -/
def sizeofUint32 : Nat := 4

/-- The body of `helpers::size` for a string and for a vector. -/
def sizePrefixed (s : Bytes) : Nat :=
  sizeofUint32 + s.length

/-- The body of `helpers::write` for a string and for a vector: the length,
    cast to `uint32_t`, then all the bytes there are. -/
def writePrefixed (buf : Bytes) (it : Nat) (s : Bytes) : Option (Bytes × Nat) :=
  let len := UInt32.ofNat s.length
  (store buf it (leBytes sizeofUint32 len.toNat)).bind fun buf =>
    (store buf (it + sizeofUint32) s).map fun buf => (buf, sizeofUint32 + s.length)

/-- The body of `helpers::read` for a string and for a vector. -/
def readPrefixed (buf : Bytes) (it : Nat) : Option (Bytes × Nat) :=
  (load buf it sizeofUint32).bind fun l =>
    let len := leValue l.val
    (load buf (it + sizeofUint32) len).map fun s => (s.val, sizeofUint32 + len)

end Helpers

namespace Field

open Helpers

/-- `helpers::size`. -/
def size : (f : Field) → f.Value → Nat
  | .pod n, _ => n
  | .string, s => sizePrefixed s
  | .bytes, s => sizePrefixed s

/-- `helpers::write`: the buffer after it, and how far to advance. -/
def write : (f : Field) → Bytes → Nat → f.Value → Option (Bytes × Nat)
  | .pod n, buf, it, s => (store buf it s.val).map fun buf => (buf, n)
  | .string, buf, it, s => writePrefixed buf it s
  | .bytes, buf, it, s => writePrefixed buf it s

/-- `helpers::read`: the value, and how far to advance. -/
def read : (f : Field) → Bytes → Nat → Option (f.Value × Nat)
  | .pod n, buf, it => (load buf it n).map fun s => (s, n)
  | .string, buf, it => readPrefixed buf it
  | .bytes, buf, it => readPrefixed buf it

end Field

namespace Helpers

/-- `helpers::calculate_args_size`. -/
def calculateArgsSize : (fs : List Field) → Nat → Tuple fs → Nat
  | [], result, _ => result
  | f :: fs, result, (head, t) => calculateArgsSize fs (result + f.size head) t

/-- `helpers::write_args`. -/
def writeArgs : (fs : List Field) → Bytes → Nat → Tuple fs → Option Bytes
  | [], buf, _, _ => some buf
  | f :: fs, buf, it, (head, t) =>
    (f.write buf it head).bind fun (buf, szofcur) => writeArgs fs buf (it + szofcur) t

/-- `helpers::read_args`, with the position it ends at. -/
def readArgs : (fs : List Field) → Bytes → Nat → Option (Tuple fs × Nat)
  | [], _, it => some ((), it)
  | f :: fs, buf, it =>
    (f.read buf it).bind fun (head, szofcur) =>
      (readArgs fs buf (it + szofcur)).map fun (t, it) => ((head, t), it)

end Helpers

namespace BinaryIo

/-- `binary_io::capacity`. -/
def capacity (fs : List Field) (args : Tuple fs) : Nat :=
  Helpers.calculateArgsSize fs 0 args

/-- `binary_io::write`. -/
def write (fs : List Field) (buf : Bytes) (it : Nat) (t : Tuple fs) : Option Bytes :=
  Helpers.writeArgs fs buf it t

/-- `binary_io::read`. -/
def read (fs : List Field) (buf : Bytes) (it : Nat) : Option (Tuple fs × Nat) :=
  Helpers.readArgs fs buf it

end BinaryIo

/-- `network::messagekinds`. -/
inductive Messagekinds
  | ok
  | login
  | loginConfirm
  | loginFailed
  | msg
deriving DecidableEq, Repr

/-- The cast of a `messagekinds` to the kind type of a message. -/
def Messagekinds.kind : Messagekinds → Nat
  | .ok => 0
  | .login => 1
  | .loginConfirm => 2
  | .loginFailed => 3
  | .msg => 4

/-- `dialler::message`: the kind in the header, and the value. -/
structure Message where
  kind : Nat
  value : Bytes
deriving DecidableEq, Repr

/-- The constructor of `packed_message` from a message, for a type whose
    `object_packer` reads a scheme. -/
def packedMessage (fs : List Field) (nd : Message) : Option (Tuple fs) :=
  (BinaryIo.read fs nd.value 0).map Prod.fst

/-- `network_actor_message`. -/
structure NetworkActorMessage where
  name : Bytes
  data : Bytes
deriving DecidableEq, Repr

/-- The scheme of `object_packer<network_actor_message>`. -/
def NetworkActorMessage.scheme : List Field := [.string, .bytes]

/-- `object_packer<network_actor_message>::unpack` on a message. -/
def NetworkActorMessage.unpack (nd : Message) : Option NetworkActorMessage :=
  (packedMessage scheme nd).map fun (name, data, _) => ⟨name, data⟩

/-- `packed_message::get_message`, where `dialler::message::size_t` is an
    unsigned type of `sizeT` bits and a new message has as many bytes as it
    was asked for. `none` is a write past the end of them. -/
def NetworkActorMessage.getMessage (sizeT : Nat) (msg : NetworkActorMessage) : Option Message :=
  let neededSize := BinaryIo.capacity scheme (msg.name, msg.data, ()) % 2 ^ sizeT
  (BinaryIo.write scheme (List.replicate neededSize 0) 0 (msg.name, msg.data, ())).map
    fun value => ⟨Messagekinds.msg.kind, value⟩

/-- What `on_new_message` of the listener and of a connection take out of a
    message: nothing, unless its kind is `MSG`. -/
def unpackReceived (d : Message) : Option (Option NetworkActorMessage) :=
  if d.kind = Messagekinds.msg.kind then (NetworkActorMessage.unpack d).map some else some none

end Yaaf
