import Yaaf.Theory.Codec

/-!
# How Large a Message May Be

Three widths meet in a packed message. The capacity is a `size_t`, the buffer
is as large as that capacity after a cast to the size type of the network
library, and each of the two lengths is written as a `uint32_t`. The copies
follow none of the three: they are as long as the name and the data are.

A capacity that the cast cuts leaves a buffer that is smaller than what is
copied into it, always, so packing then writes past the end. A length that its
prefix cuts is a name or data that no receiver can get back, as everything that
is unpacked has a length that fits its prefix.

## Main definitions

* `neededSize`: The buffer that is asked for.
* `Survives`: The buffer is large enough and the message comes back.

## Theorems

* `getMessage_isSome_iff`: When packing stays inside the buffer.
* `short_of_unpack`: What can be unpacked.
* `packed_survives_iff`: When a message survives.
-/

namespace Yaaf.NetworkActorMessage

open Buffer

/-- The number of bytes `get_message` asks for, where `size_t` has `word` bits
    and `dialler::message::size_t` has `sizeT`. -/
def neededSize (word sizeT : Nat) (msg : NetworkActorMessage) : Nat :=
  BinaryIo.capacity scheme (msg.name, msg.data, ()) % 2 ^ word % 2 ^ sizeT

/-- The buffer holds what `pack` writes, and a receiver unpacks the message. -/
def Survives (word sizeT : Nat) (msg : NetworkActorMessage) : Prop :=
  8 + msg.name.length + msg.data.length ≤ msg.neededSize word sizeT ∧
    ∃ nd, msg.getMessage sizeT = some nd ∧ unpack nd = some msg

/-- Two length prefixes, the name and the data. -/
theorem capacity_scheme (msg : NetworkActorMessage) :
    BinaryIo.capacity scheme (msg.name, msg.data, ()) = 8 + msg.name.length + msg.data.length := by
  have hcapacity : BinaryIo.capacity scheme (msg.name, msg.data, ()) =
      0 + (4 + msg.name.length) + (4 + msg.data.length) := rfl
  omega

/-- A capacity that wraps in `size_t` is cast to the same size as one that does
    not, since the size type is no wider. -/
theorem neededSize_eq {word sizeT : Nat} (h : sizeT ≤ word) (msg : NetworkActorMessage) :
    msg.neededSize word sizeT = BinaryIo.capacity scheme (msg.name, msg.data, ()) % 2 ^ sizeT :=
  Nat.mod_mod_of_dvd _ (Nat.pow_dvd_pow 2 h)

theorem le_mod_iff (c sizeT : Nat) : c ≤ c % 2 ^ sizeT ↔ c < 2 ^ sizeT := by
  constructor
  · intro h
    have hlt := Nat.mod_lt c (Nat.two_pow_pos sizeT)
    omega
  · intro h
    exact Nat.le_of_eq (Nat.mod_eq_of_lt h).symm

/-- Writing into a buffer stays inside it exactly if the capacity fits. -/
theorem write_isSome_iff (fs : List Field) (vs : Tuple fs) (n : Nat) :
    (BinaryIo.write fs (List.replicate n 0) 0 vs).isSome = true ↔ BinaryIo.capacity fs vs ≤ n := by
  rw [BinaryIo.write, writeArgs_eq fs vs (Nat.zero_le _), store, List.length_replicate,
    Nat.zero_add, ← capacity_eq]
  by_cases hfit : BinaryIo.capacity fs vs ≤ n
  · rw [if_pos hfit]
    exact ⟨fun _ => hfit, fun _ => rfl⟩
  · rw [if_neg hfit]
    exact ⟨fun h => absurd h Bool.false_ne_true, fun h => absurd h hfit⟩

/-- Packing stays inside the buffer exactly if the capacity was not cut. -/
theorem getMessage_isSome_iff (sizeT : Nat) (msg : NetworkActorMessage) :
    (msg.getMessage sizeT).isSome = true ↔
      BinaryIo.capacity scheme (msg.name, msg.data, ()) < 2 ^ sizeT := by
  have hwrite := write_isSome_iff scheme (msg.name, msg.data, ())
    (BinaryIo.capacity scheme (msg.name, msg.data, ()) % 2 ^ sizeT)
  unfold getMessage
  rw [Option.isSome_map]
  exact hwrite.trans (le_mod_iff _ _)

/-- What is unpacked has lengths that fit their prefixes. -/
theorem short_of_unpack {nd : Message} {msg : NetworkActorMessage} (h : unpack nd = some msg) :
    msg.name.length < 2 ^ 32 ∧ msg.data.length < 2 ^ 32 := by
  rcases Option.map_eq_some_iff.mp h with ⟨vs, hpacked, rfl⟩
  rw [packedMessage, BinaryIo.read, readArgs_eq scheme (Nat.zero_le _), Option.map_map] at hpacked
  rcases Option.map_eq_some_iff.mp hpacked with ⟨⟨vs', rest⟩, hdecode, rfl⟩
  have hvalid := ((Tuple.codec scheme).encode_of_decode _ _ _ hdecode).1
  have hshort := (valid_iff_short scheme vs').mp hvalid
  exact ⟨hshort.1, hshort.2.1⟩

theorem unpack_of_received {nd : Message} {msg : NetworkActorMessage}
    (h : unpackReceived nd = some (some msg)) : unpack nd = some msg := by
  unfold unpackReceived at h
  by_cases hkind : nd.kind = Messagekinds.msg.kind
  · rw [if_pos hkind] at h
    rcases Option.map_eq_some_iff.mp h with ⟨msg', hunpack, heq⟩
    rw [hunpack, Option.some.inj heq]
  · rw [if_neg hkind] at h
    simp only [Option.some.injEq, reduceCtorEq] at h

/-- A message survives packing and unpacking exactly if its whole size fits the
    size type of the network library and its two lengths fit their prefixes,
    and packing stays inside the buffer exactly if the size does. -/
theorem packed_survives_iff (word sizeT : Nat) (h : sizeT ≤ word) (msg : NetworkActorMessage) :
    (msg.Survives word sizeT ↔ msg.Fits sizeT) ∧
    ((msg.getMessage sizeT).isSome = true ↔
      8 + msg.name.length + msg.data.length < 2 ^ sizeT) := by
  refine ⟨⟨?_, ?_⟩, ?_⟩
  · rintro ⟨_, nd, hpack, hunpack⟩
    rcases short_of_unpack hunpack with ⟨hname, hdata⟩
    refine ⟨hname, hdata, (getMessage_isSome_iff sizeT msg).mp ?_⟩
    rw [hpack]
    rfl
  · intro hfits
    refine ⟨?_, ?_⟩
    · rw [neededSize_eq h, ← capacity_scheme]
      exact (le_mod_iff _ _).mpr hfits.2.2
    · rcases unpack_getMessage hfits with ⟨nd, hpack, hreceived⟩
      exact ⟨nd, hpack, unpack_of_received hreceived⟩
  · rw [← capacity_scheme]
    exact getMessage_isSome_iff sizeT msg

/-- A name of one byte and data of one byte, with a size type of one byte. -/
theorem packed_survives_iff_short :
    Survives 64 8 ⟨[97], [1]⟩ :=
  (packed_survives_iff 64 8 (by decide) ⟨[97], [1]⟩).1.mpr
    ⟨by decide, by decide, show 10 < 2 ^ 8 by decide⟩

/-- A name that is as long as a size type of 32 bits can count leaves no room
    for anything: the buffer has eight bytes, and all of the name is copied. -/
theorem packed_survives_iff_cut :
    (¬ ∀ (word sizeT : Nat) (msg : NetworkActorMessage), sizeT ≤ word → msg.Survives word sizeT) ∧
    ¬ ∀ (word sizeT : Nat) (msg : NetworkActorMessage), sizeT ≤ word →
      (msg.getMessage sizeT).isSome = true := by
  have hname : ∃ name : Bytes, name.length = 2 ^ 32 :=
    ⟨List.replicate (2 ^ 32) 0, List.length_replicate⟩
  rcases hname with ⟨name, hlen⟩
  have hover : ¬ (getMessage 32 ⟨name, []⟩).isSome = true := by
    rw [getMessage_isSome_iff, capacity_scheme, hlen]
    omega
  refine ⟨fun h => hover ?_, fun h => hover (h 64 32 _ (by decide))⟩
  rcases (h 64 32 ⟨name, []⟩ (by decide)).2 with ⟨nd, hpack, _⟩
  rw [hpack]
  rfl

end Yaaf.NetworkActorMessage
