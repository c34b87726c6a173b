import Yaaf.Core.Serialization

/-!
# The Format behind Serialization

The helpers work on a buffer and a position. The format they implement is a
codec: every field is one, and a scheme is its fields one after another. The
three families of helpers are each shown to be that codec seen from one side.
`write` stores the encoding, `size` is its length, and `read` decodes what
the buffer holds from the position on. What holds of codecs then holds of
`binary_io`.

Reading needs no check to be exact about what it accepts. Where the buffer
goes on with an encoding, `read` returns its value and stands behind it, and
where it does not, `read` leaves the buffer: there is no third case, because
nothing in the format is ever rejected.

## Main definitions

* `Field.codec`, `Tuple.codec`: The format.
* `Field.Short`, `Tuple.Short`: Lengths fit their prefix.
* `NetworkActorMessage.Fits`: So does a message of the network, and its size fits too.

## Theorems

* `write_eq_store`, `read_eq_decode`, `size_eq_length`: The helpers for one field.
* `writeArgs_eq`, `readArgs_eq`, `calculateArgsSize_eq`: The recursions.
* `binaryIo_round_trip`: Writing and reading undo each other.
* `unpack_getMessage`: So do packing and unpacking a message that fits.
* `unpack_bounded_iff`: When unpacking a message stays inside it.
-/

namespace Yaaf

open Buffer Wire Helpers

/-- The format of one field. -/
def Field.codec : (f : Field) → Codec UInt8 f.Value
  | .pod n => block UInt8 n
  | .string => counted (number sizeofUint32)
  | .bytes => counted (number sizeofUint32)

/-- The format of a scheme. -/
def Tuple.codec : (fs : List Field) → Codec UInt8 (Tuple fs)
  | [] => nothing UInt8
  | f :: fs => pair f.codec (codec fs)

/-- A string or a vector whose length fits its prefix. -/
def Field.Short : (f : Field) → f.Value → Prop
  | .pod _, _ => True
  | .string, s => List.length (α := UInt8) s < 2 ^ 32
  | .bytes, s => List.length (α := UInt8) s < 2 ^ 32

/-- Every string and vector of a tuple is short. -/
def Tuple.Short : (fs : List Field) → Tuple fs → Prop
  | [], _ => True
  | f :: fs, (head, t) => f.Short head ∧ Short fs t

theorem valid_iff_short : ∀ (fs : List Field) (t : Tuple fs),
    (Tuple.codec fs).Valid t ↔ Tuple.Short fs t := by
  intro fs
  induction fs with
  | nil => exact fun t => Iff.rfl
  | cons f fs ih =>
      rintro ⟨head, t⟩
      have hfield : f.codec.Valid head ↔ f.Short head := by cases f <;> exact Iff.rfl
      exact and_congr hfield (ih t)

section Fields

theorem load_eq_decode {buf : Bytes} {it : Nat} (hit : it ≤ buf.length) (n : Nat) :
    load buf it n = ((block UInt8 n).decode (buf.drop it)).map Prod.fst := by
  unfold load
  simp only [block, List.length_drop]
  by_cases h : it + n ≤ buf.length
  · rw [dif_pos h, dif_pos (by omega), Option.map_some]
  · rw [dif_neg h, dif_neg (by omega), Option.map_none]

theorem size_eq_length (f : Field) (v : f.Value) : f.size v = (f.codec.encode v).length := by
  cases f with
  | pod n => exact v.property.symm
  | string | bytes =>
      refine Eq.symm (List.length_append.trans ?_)
      exact congrArg (· + _) (leBytes_length _ _)

theorem writePrefixed_eq (buf : Bytes) (it : Nat) (s : Bytes) : writePrefixed buf it s =
    (store buf it ((counted (number sizeofUint32)).encode s)).map
      fun buf => (buf, sizePrefixed s) := by
  have hlen : leBytes sizeofUint32 (UInt32.ofNat s.length).toNat =
      leBytes sizeofUint32 s.length := by
    rw [UInt32.toNat_ofNat']
    exact leBytes_mod 4 s.length
  have hwidth : (leBytes sizeofUint32 s.length).length = sizeofUint32 := leBytes_length _ _
  have hstore := store_store buf it (leBytes sizeofUint32 s.length) s
  rw [hwidth] at hstore
  have hencode : (counted (number sizeofUint32)).encode s = leBytes sizeofUint32 s.length ++ s :=
    rfl
  simp only [writePrefixed]
  rw [hlen, hencode, ← hstore]
  cases store buf it (leBytes sizeofUint32 s.length) <;> rfl

theorem readPrefixed_eq {buf : Bytes} {it : Nat} (hit : it ≤ buf.length) : readPrefixed buf it =
    ((counted (number sizeofUint32)).decode (buf.drop it)).map
      fun p => (p.1, sizePrefixed p.1) := by
  unfold readPrefixed
  rw [load_eq_decode hit]
  simp only [counted, number]
  cases hl : (block UInt8 sizeofUint32).decode (buf.drop it) with
  | none => rfl
  | some p =>
      rcases p with ⟨⟨l, hlen⟩, rest⟩
      -- The rest of the buffer starts behind the prefix.
      rcases drop_of_decode (block UInt8 sizeofUint32) hit hl with ⟨hfit, hdrop⟩
      have hnext : it + sizeofUint32 ≤ buf.length := hlen ▸ hfit
      have hrest : buf.drop (it + sizeofUint32) = rest := hlen ▸ hdrop
      simp only [Option.map_some, Option.bind_some]
      rw [load_eq_decode hnext, hrest]
      cases hs : (block UInt8 (leValue l)).decode rest with
      | none => rfl
      | some q =>
          rcases q with ⟨⟨s, hslen⟩, rest'⟩
          simp only [Option.map_some, sizePrefixed, hslen]

/-- Writing a field stores its encoding. -/
theorem write_eq_store (f : Field) (buf : Bytes) (it : Nat) (v : f.Value) :
    f.write buf it v = (store buf it (f.codec.encode v)).map fun buf => (buf, f.size v) := by
  cases f with
  | pod n => rfl
  | string => exact writePrefixed_eq buf it v
  | bytes => exact writePrefixed_eq buf it v

/-- Reading a field decodes what the buffer goes on with. -/
theorem read_eq_decode (f : Field) {buf : Bytes} {it : Nat} (hit : it ≤ buf.length) :
    f.read buf it = (f.codec.decode (buf.drop it)).map fun p => (p.1, f.size p.1) := by
  cases f with
  | pod n =>
      refine (congrArg (Option.map fun s => (s, n)) (load_eq_decode hit n)).trans ?_
      exact Option.map_map ..
  | string => exact readPrefixed_eq hit
  | bytes => exact readPrefixed_eq hit

end Fields

section Recursions

theorem encode_cons_length (f : Field) (fs : List Field) (head : f.Value) (t : Tuple fs) :
    ((Tuple.codec (f :: fs)).encode (head, t)).length =
      f.size head + ((Tuple.codec fs).encode t).length := by
  rw [size_eq_length]
  exact List.length_append

theorem calculateArgsSize_eq : ∀ (fs : List Field) (result : Nat) (t : Tuple fs),
    calculateArgsSize fs result t = result + ((Tuple.codec fs).encode t).length := by
  intro fs
  induction fs with
  | nil => exact fun _ _ => rfl
  | cons f fs ih =>
      rintro result ⟨head, t⟩
      rw [calculateArgsSize, ih, encode_cons_length, Nat.add_assoc]

theorem capacity_eq (fs : List Field) (t : Tuple fs) :
    BinaryIo.capacity fs t = ((Tuple.codec fs).encode t).length :=
  (calculateArgsSize_eq fs 0 t).trans (Nat.zero_add _)

theorem capacity_cons (f : Field) (fs : List Field) (head : f.Value) (t : Tuple fs) :
    BinaryIo.capacity (f :: fs) (head, t) = f.size head + BinaryIo.capacity fs t :=
  (capacity_eq _ _).trans ((encode_cons_length f fs head t).trans
    (congrArg (f.size head + ·) (capacity_eq fs t).symm))

/-- Writing a tuple stores its encoding. -/
theorem writeArgs_eq : ∀ (fs : List Field) {buf : Bytes} {it : Nat} (t : Tuple fs),
    it ≤ buf.length → writeArgs fs buf it t = store buf it ((Tuple.codec fs).encode t) := by
  intro fs
  induction fs with
  | nil => exact fun _ hit => (store_self hit (List.nil_append _).symm).symm
  | cons f fs ih =>
      rintro buf it ⟨head, t⟩ hit
      have hencode : (Tuple.codec (f :: fs)).encode (head, t) =
          f.codec.encode head ++ (Tuple.codec fs).encode t := rfl
      rw [hencode, ← store_store, writeArgs, write_eq_store, size_eq_length]
      cases hs : store buf it (f.codec.encode head) with
      | none => rfl
      | some b =>
          -- The head fits, so the tail starts inside the buffer again.
          exact ih t (store_length hs).1

/-- Reading a tuple decodes what the buffer goes on with. -/
theorem readArgs_eq : ∀ (fs : List Field) {buf : Bytes} {it : Nat}, it ≤ buf.length →
    readArgs fs buf it = ((Tuple.codec fs).decode (buf.drop it)).map
      fun p => (p.1, it + BinaryIo.capacity fs p.1) := by
  intro fs
  induction fs with
  | nil => exact fun _ => rfl
  | cons f fs ih =>
      intro buf it hit
      rw [readArgs, read_eq_decode f hit]
      have hdecode : (Tuple.codec (f :: fs)).decode (buf.drop it) =
          (f.codec.decode (buf.drop it)).bind fun p =>
            ((Tuple.codec fs).decode p.2).map fun q => ((p.1, q.1), q.2) := rfl
      rw [hdecode]
      cases hd : f.codec.decode (buf.drop it) with
      | none => rfl
      | some p =>
          rcases p with ⟨head, rest⟩
          rcases drop_of_decode f.codec hit hd with ⟨hfit, hdrop⟩
          rw [← size_eq_length] at hfit hdrop
          simp only [Option.map_some, Option.bind_some]
          rw [ih hfit, hdrop]
          cases (Tuple.codec fs).decode rest with
          | none => rfl
          | some q =>
              have hend : it + f.size head + BinaryIo.capacity fs q.1 =
                  it + BinaryIo.capacity (f :: fs) (head, q.1) := by
                rw [Nat.add_assoc, capacity_cons]
              exact congrArg (fun n => some ((head, q.1), n)) hend

end Recursions

section RoundTrip

/-- What `write` puts into a buffer that `capacity` measured. -/
theorem write_fresh {fs : List Field} {vs : Tuple fs} {buf : Bytes}
    (h : buf.length = BinaryIo.capacity fs vs) :
    BinaryIo.write fs buf 0 vs = some ((Tuple.codec fs).encode vs) :=
  (writeArgs_eq fs vs (Nat.zero_le _)).trans (store_whole (h.trans (capacity_eq fs vs)).symm)

/-- Writing emits `capacity` bytes, which read back as the tuple whatever
    follows them. What a buffer was read as writes the bytes that were read. -/
theorem binaryIo_round_trip (fs : List Field) :
    (∀ vs : Tuple fs, Tuple.Short fs vs →
      ∃ enc : Bytes, enc.length = BinaryIo.capacity fs vs ∧
        (∀ (buf : Bytes) (it : Nat), it ≤ buf.length →
          BinaryIo.write fs buf it vs =
            if it + BinaryIo.capacity fs vs ≤ buf.length then
              some (buf.take it ++ enc ++ buf.drop (it + BinaryIo.capacity fs vs))
            else none) ∧
        ∀ before after : Bytes, BinaryIo.read fs (before ++ enc ++ after) before.length =
          some (vs, before.length + BinaryIo.capacity fs vs)) ∧
    ∀ (buf : Bytes) (it : Nat) (vs : Tuple fs) (it' : Nat), it ≤ buf.length →
      BinaryIo.read fs buf it = some (vs, it') →
        it' = it + BinaryIo.capacity fs vs ∧ it' ≤ buf.length ∧
        BinaryIo.write fs buf it vs = some buf ∧
        ∀ fresh : Bytes, fresh.length = BinaryIo.capacity fs vs →
          BinaryIo.write fs fresh 0 vs =
            some ((buf.drop it).take (BinaryIo.capacity fs vs)) := by
  refine ⟨?_, ?_⟩
  · intro vs hshort
    refine ⟨(Tuple.codec fs).encode vs, (capacity_eq fs vs).symm, ?_, ?_⟩
    · intro buf it hit
      rw [capacity_eq]
      exact writeArgs_eq fs vs hit
    · intro before after
      have hit : before.length ≤ (before ++ (Tuple.codec fs).encode vs ++ after).length := by
        rw [List.length_append, List.length_append]
        omega
      refine (readArgs_eq fs hit).trans ?_
      rw [List.append_assoc, List.drop_left,
        (Tuple.codec fs).decode_encode vs after ((valid_iff_short fs vs).mpr hshort)]
      rfl
  · intro buf it vs it' hit hread
    have hmap := (readArgs_eq fs hit).symm.trans hread
    rcases Option.map_eq_some_iff.mp hmap with ⟨⟨vs', rest⟩, hdecode, heq⟩
    simp only [Prod.mk.injEq] at heq
    rcases heq with ⟨rfl, rfl⟩
    have hbytes := ((Tuple.codec fs).encode_of_decode _ _ _ hdecode).2
    have hfit := (drop_of_decode (Tuple.codec fs) hit hdecode).1
    refine ⟨rfl, (capacity_eq fs vs').symm ▸ hfit, ?_, ?_⟩
    · exact (writeArgs_eq fs vs' hit).trans (store_self hit hbytes)
    · intro fresh hfresh
      rw [write_fresh hfresh, hbytes, capacity_eq]
      exact congrArg some List.take_left.symm

/-- A number, a name and some bytes, in the middle of a buffer. -/
theorem binaryIo_round_trip_scheme :
    BinaryIo.read [.pod 2, .string, .bytes] [9, 1, 2, 1, 0, 0, 0, 97, 0, 0, 0, 0, 7] 1 =
        some ((⟨[1, 2], rfl⟩, [97], [], ()), 12) ∧
      BinaryIo.write [.pod 2, .string, .bytes] (List.replicate 11 0) 0
          (⟨[1, 2], rfl⟩, [97], [], ()) =
        some [1, 2, 1, 0, 0, 0, 97, 0, 0, 0, 0] ∧
      ∃ enc : Bytes, enc.length = 11 ∧ ∀ before after : Bytes,
        BinaryIo.read [.pod 2, .string, .bytes] (before ++ enc ++ after) before.length =
          some ((⟨[1, 2], rfl⟩, [97], [], ()), before.length + 11) := by
  have hshort : Tuple.Short [.pod 2, .string, .bytes] (⟨[1, 2], rfl⟩, [97], [], ()) :=
    ⟨trivial, show 1 < 2 ^ 32 by decide, show 0 < 2 ^ 32 by decide, trivial⟩
  have hread : BinaryIo.read [.pod 2, .string, .bytes] [9, 1, 2, 1, 0, 0, 0, 97, 0, 0, 0, 0, 7] 1 =
      some ((⟨[1, 2], rfl⟩, [97], [], ()), 12) := rfl
  rcases (binaryIo_round_trip [.pod 2, .string, .bytes]).1 _ hshort with ⟨enc, hlen, _, hback⟩
  exact ⟨hread, ((binaryIo_round_trip _).2 _ 1 _ 12 (by decide) hread).2.2.2 _ rfl,
    enc, hlen, hback⟩

end RoundTrip

/-- A message whose encoding fits into a message of the network: the lengths
    fit their prefixes, and the whole fits the size type. -/
def NetworkActorMessage.Fits (sizeT : Nat) (msg : NetworkActorMessage) : Prop :=
  msg.name.length < 2 ^ 32 ∧ msg.data.length < 2 ^ 32 ∧
    BinaryIo.capacity NetworkActorMessage.scheme (msg.name, msg.data, ()) < 2 ^ sizeT

/-- What a sender packs is what a receiver unpacks. -/
theorem unpack_getMessage {sizeT : Nat} {msg : NetworkActorMessage} (h : msg.Fits sizeT) :
    ∃ nd, msg.getMessage sizeT = some nd ∧ unpackReceived nd = some (some msg) := by
  rcases h with ⟨hname, hdata, hsize⟩
  let fs := NetworkActorMessage.scheme
  let vs : Tuple fs := (msg.name, msg.data, ())
  have hfresh : BinaryIo.write fs (List.replicate (BinaryIo.capacity fs vs % 2 ^ sizeT) 0) 0 vs =
      some ((Tuple.codec fs).encode vs) := by
    rw [Nat.mod_eq_of_lt hsize]
    exact write_fresh List.length_replicate
  have hread : BinaryIo.read fs ((Tuple.codec fs).encode vs) 0 =
      some (vs, 0 + BinaryIo.capacity fs vs) := by
    have hvalid := (valid_iff_short fs vs).mpr ⟨hname, hdata, trivial⟩
    have hdecode := (Tuple.codec fs).decode_encode vs [] hvalid
    rw [List.append_nil] at hdecode
    rw [BinaryIo.read, readArgs_eq fs (Nat.zero_le _), List.drop_zero, hdecode]
    rfl
  refine ⟨⟨Messagekinds.msg.kind, (Tuple.codec fs).encode vs⟩, ?_, ?_⟩
  · rw [NetworkActorMessage.getMessage, hfresh]
    rfl
  · rw [unpackReceived, if_pos rfl, NetworkActorMessage.unpack, packedMessage, hread]
    rfl

section Bounds

/-- Some bytes begin with what `write` makes of a tuple of the scheme. -/
def Tuple.Begins (fs : List Field) (l : Bytes) : Prop :=
  ∃ (vs : Tuple fs) (enc rest : Bytes), Tuple.Short fs vs ∧
    BinaryIo.write fs (List.replicate (BinaryIo.capacity fs vs) 0) 0 vs = some enc ∧
    l = enc ++ rest

theorem packedMessage_isSome_iff (fs : List Field) (nd : Message) :
    (packedMessage fs nd).isSome = true ↔ Tuple.Begins fs nd.value := by
  have hread : (packedMessage fs nd).isSome = ((Tuple.codec fs).decode nd.value).isSome := by
    rw [packedMessage, Option.isSome_map, BinaryIo.read, readArgs_eq fs (Nat.zero_le _),
      Option.isSome_map, List.drop_zero]
  rw [hread, decode_isSome_iff]
  have hfresh : ∀ vs, BinaryIo.write fs (List.replicate (BinaryIo.capacity fs vs) 0) 0 vs =
      some ((Tuple.codec fs).encode vs) := fun vs => write_fresh List.length_replicate
  constructor
  · rintro ⟨vs, rest, hvalid, hl⟩
    exact ⟨vs, _, rest, (valid_iff_short fs vs).mp hvalid, hfresh vs, hl⟩
  · rintro ⟨vs, enc, rest, hshort, hwrite, hl⟩
    rw [hfresh vs, Option.some.injEq] at hwrite
    exact ⟨vs, rest, (valid_iff_short fs vs).mpr hshort, hwrite ▸ hl⟩

/-- Unpacking stays inside a message exactly if the message begins with what
    a sender could have written. -/
theorem unpack_bounded_iff (fs : List Field) (nd : Message) :
    ((packedMessage fs nd).isSome = true ↔ Tuple.Begins fs nd.value) ∧
    ((unpackReceived nd).isSome = true ↔
      (nd.kind = Messagekinds.msg.kind → Tuple.Begins NetworkActorMessage.scheme nd.value)) := by
  refine ⟨packedMessage_isSome_iff fs nd, ?_⟩
  unfold unpackReceived
  by_cases hkind : nd.kind = Messagekinds.msg.kind
  · rw [if_pos hkind, Option.isSome_map, NetworkActorMessage.unpack, Option.isSome_map,
      packedMessage_isSome_iff]
    exact ⟨fun h _ => h, fun h => h hkind⟩
  · rw [if_neg hkind]
    exact ⟨fun _ h => absurd h hkind, fun _ => rfl⟩

/-- A name whose length says more than the message holds, and a message that
    is shorter than a length. -/
theorem unpack_bounded_iff_lying :
    unpackReceived ⟨Messagekinds.msg.kind, [16, 0, 0, 0, 97, 98]⟩ = none ∧
      unpackReceived ⟨Messagekinds.msg.kind, [1, 0]⟩ = none :=
  ⟨rfl, rfl⟩

end Bounds

end Yaaf
