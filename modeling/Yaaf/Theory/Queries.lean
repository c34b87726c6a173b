import Yaaf.Core.Queries
import Yaaf.Theory.Sizes

/-!
# What a Message Can Be Taken For

Five structs share the network, three of them with the same scheme, and nothing but
the kind in the header tells them apart. What is put into a message can be got back
from it, and nothing else can: a message that two queries were packed into was packed
from one query, and the network actors hand on what was packed as `MSG` and drop the
rest.

All of it is the format once more. A struct is its kind and the tuple of its fields,
`get_message` stores the encoding of that tuple, and a constructor from a message
decodes one. So a size that the cast cuts is a write past the end for each of the
five, and a length that its prefix cuts is the only way to get something else back.

## Main definitions

* `schemeOf`, `Query.fields`, `fillOf`: A struct as its kind and its fields.
* `ObjectPacker.Lossless`: Nothing of an object stays behind.
* `Query.capacity`, `Query.Short`: How large a query is; its lengths fit their prefixes.

## Theorems

* `message_isSome_iff`, `value_of_message`: What the body of `get_message` does.
* `getMessage_eq`, `ofMessage_eq`: Each of the five is its kind and its fields.
* `fill_iff`: The fields say which query it is.
* `queries_unambiguous`: What was packed is what is unpacked, and nothing else is.
-/

namespace Yaaf

open Wire

section Bodies

variable {fs : List Field}

/-- What a constructor reads is what the value decodes to. -/
theorem packedMessage_eq_some (nd : Message) (args : Tuple fs) :
    packedMessage fs nd = some args ↔
      ∃ rest, (Tuple.codec fs).decode nd.value = some (args, rest) := by
  have hread : packedMessage fs nd = ((Tuple.codec fs).decode nd.value).map Prod.fst := by
    rw [packedMessage, BinaryIo.read, readArgs_eq fs (Nat.zero_le _), List.drop_zero,
      Option.map_map]
    rfl
  rw [hread, Option.map_eq_some_iff]
  constructor
  · rintro ⟨⟨args', rest⟩, hdecode, rfl⟩
    exact ⟨rest, hdecode⟩
  · rintro ⟨rest, hdecode⟩
    exact ⟨_, hdecode, rfl⟩

namespace Queries

/-- The body of `get_message` stays inside its message exactly if the size was not
    cut. -/
theorem message_isSome_iff (sizeT : Nat) (kind : Messagekinds) (args : Tuple fs) :
    (message sizeT kind fs args).isSome = true ↔ BinaryIo.capacity fs args < 2 ^ sizeT := by
  unfold message
  rw [Option.isSome_map, NetworkActorMessage.write_isSome_iff]
  exact NetworkActorMessage.le_mod_iff _ _

/-- What it leaves there. -/
theorem value_of_message {sizeT : Nat} {kind : Messagekinds} {args : Tuple fs} {nd : Message}
    (h : message sizeT kind fs args = some nd) :
    nd = ⟨kind.kind, (Tuple.codec fs).encode args⟩ := by
  have hfits := (message_isSome_iff sizeT kind args).mp (by rw [h]; rfl)
  unfold message at h
  rw [Nat.mod_eq_of_lt hfits] at h
  simp only [write_fresh List.length_replicate, Option.map_some, Option.some.injEq] at h
  exact h.symm

end Queries

end Bodies

namespace Queries

/-- Eight bytes are 64 bits. -/
theorem eight_bytes : 256 ^ 8 = 2 ^ 64 := by decide

/-- The memory of a `uint64_t` and its value. -/
theorem uint64Value_iff (v : (Field.pod 8).Value) (n : UInt64) :
    uint64Value v = n ↔ v = uint64Bytes n := by
  rcases v with ⟨bs, hlen⟩
  constructor
  · rintro rfl
    have hlt : leValue bs < 2 ^ 64 := by
      rw [← eight_bytes, ← hlen]
      exact leValue_lt bs
    have hround := leBytes_leValue bs
    rw [hlen] at hround
    refine Subtype.ext ?_
    simp only [uint64Bytes, uint64Value, UInt64.toNat_ofNat_of_lt' hlt, hround]
  · intro hv
    have hbs : bs = leBytes 8 n.toNat := congrArg Subtype.val hv
    have hlt : n.toNat < 256 ^ 8 := by
      rw [eight_bytes]
      exact n.toNat_lt
    simp only [uint64Value, hbs, leValue_leBytes hlt, UInt64.ofNat_toNat]

variable {T : Type}

/-- `unpack` undoes `pack`, and there is nothing in an object that `pack` leaves out. -/
structure ObjectPacker.Lossless (P : ObjectPacker T) : Prop where
  fill_fields : ∀ t, P.fill (P.fields t) = t
  fields_fill : ∀ args, P.fields (P.fill args) = args

theorem networkPacker_lossless : networkPacker.Lossless where
  fill_fields _ := rfl
  fields_fill _ := rfl

/-- The scheme of the struct that has a kind. -/
def schemeOf (P : ObjectPacker T) : Messagekinds → List Field
  | .ok => [.pod 8]
  | .login => [.string]
  | .loginConfirm => [.pod 8]
  | .loginFailed => [.pod 8]
  | .msg => P.scheme

/-- What a query writes. -/
def Query.fields (P : ObjectPacker T) : (q : Query T) → Tuple (schemeOf P q.kind)
  | .ok q => (uint64Bytes q.id, ())
  | .login q => (q.loginStr, ())
  | .loginConfirm q => (uint64Bytes q.id, ())
  | .loginFailed q => (uint64Bytes q.id, ())
  | .msg q => P.fields q.msg

/-- What becomes of what was read. -/
def fillOf (P : ObjectPacker T) : (k : Messagekinds) → Tuple (schemeOf P k) → Query T
  | .ok, (id, _) => .ok ⟨uint64Value id⟩
  | .login, (loginStr, _) => .login ⟨loginStr⟩
  | .loginConfirm, (id, _) => .loginConfirm ⟨uint64Value id⟩
  | .loginFailed, (id, _) => .loginFailed ⟨uint64Value id⟩
  | .msg, args => .msg ⟨P.fill args⟩

/-- The bytes a query needs. -/
def Query.capacity (P : ObjectPacker T) (q : Query T) : Nat :=
  BinaryIo.capacity (schemeOf P q.kind) (q.fields P)

/-- Every string and vector of a query fits its prefix. -/
def Query.Short (P : ObjectPacker T) (q : Query T) : Prop :=
  Tuple.Short (schemeOf P q.kind) (q.fields P)

variable {P : ObjectPacker T} {sizeT : Nat}

theorem getMessage_eq (q : Query T) :
    q.getMessage P sizeT = message sizeT q.kind (schemeOf P q.kind) (q.fields P) := by
  cases q <;> rfl

theorem ofMessage_eq (k : Messagekinds) (nd : Message) :
    Query.ofMessage P k nd = (packedMessage (schemeOf P k) nd).map (fillOf P k) := by
  cases k <;> exact Option.map_map ..

theorem kind_fill (k : Messagekinds) (args : Tuple (schemeOf P k)) :
    (fillOf P k args).kind = k := by
  cases k <;> rfl

/-- A tuple of one field. -/
theorem one_field {f : Field} (args : Tuple [f]) (v : f.Value) :
    args = (v, ()) ↔ args.1 = v :=
  ⟨fun h => congrArg Prod.fst h, fun h => Prod.ext h rfl⟩

/-- The fields say which query it is. -/
theorem fill_iff (hP : P.Lossless) (q : Query T) (args : Tuple (schemeOf P q.kind)) :
    fillOf P q.kind args = q ↔ args = q.fields P := by
  cases q with
  | ok q =>
      refine Iff.trans ?_ (one_field args (uint64Bytes q.id)).symm
      rw [← uint64Value_iff]
      exact ⟨fun h => congrArg Ok.id (Query.ok.inj h), fun h => congrArg (Query.ok ⟨·⟩) h⟩
  | login q =>
      refine Iff.trans ?_ (one_field args q.loginStr).symm
      exact ⟨fun h => congrArg Login.loginStr (Query.login.inj h),
        fun h => congrArg (Query.login ⟨·⟩) h⟩
  | loginConfirm q =>
      refine Iff.trans ?_ (one_field args (uint64Bytes q.id)).symm
      rw [← uint64Value_iff]
      exact ⟨fun h => congrArg LoginConfirm.id (Query.loginConfirm.inj h),
        fun h => congrArg (Query.loginConfirm ⟨·⟩) h⟩
  | loginFailed q =>
      refine Iff.trans ?_ (one_field args (uint64Bytes q.id)).symm
      rw [← uint64Value_iff]
      exact ⟨fun h => congrArg LoginFailed.id (Query.loginFailed.inj h),
        fun h => congrArg (Query.loginFailed ⟨·⟩) h⟩
  | msg q =>
      refine ⟨fun h => ?_, fun h => ?_⟩
      · have hfill : P.fill args = q.msg := congrArg PackedMessage.msg (Query.msg.inj h)
        exact (hP.fields_fill args).symm.trans (congrArg P.fields hfill)
      · rw [h]
        exact congrArg (Query.msg ⟨·⟩) (hP.fill_fields q.msg)

/-- A query comes back out of its own message exactly if it is short. -/
theorem ofMessage_getMessage (hP : P.Lossless) {q : Query T} {nd : Message}
    (h : q.getMessage P sizeT = some nd) : Query.ofMessage P q.kind nd = some q ↔ q.Short P := by
  rw [getMessage_eq] at h
  rw [value_of_message h, ofMessage_eq, Option.map_eq_some_iff]
  constructor
  · rintro ⟨args, hread, hfill⟩
    rcases (packedMessage_eq_some _ args).mp hread with ⟨rest, hdecode⟩
    rw [(fill_iff hP q args).mp hfill] at hdecode
    exact (valid_iff_short _ _).mp ((Tuple.codec _).encode_of_decode _ _ _ hdecode).1
  · intro hshort
    refine ⟨q.fields P, (packedMessage_eq_some _ _).mpr ⟨[], ?_⟩, (fill_iff hP q _).mpr rfl⟩
    have hround := (Tuple.codec _).decode_encode (q.fields P) [] ((valid_iff_short _ _).mpr hshort)
    rw [List.append_nil] at hround
    exact hround

/-- What comes out of a message is short, and is what its value begins with. -/
theorem getMessage_ofMessage (hP : P.Lossless) {k : Messagekinds} {q : Query T} {nd : Message}
    (h : Query.ofMessage P k nd = some q) : q.kind = k ∧ q.Short P ∧
      (q.capacity P < 2 ^ sizeT →
        q.getMessage P sizeT = some ⟨k.kind, nd.value.take (q.capacity P)⟩) := by
  rw [ofMessage_eq, Option.map_eq_some_iff] at h
  rcases h with ⟨args, hread, hfill⟩
  have hkind : q.kind = k := by rw [← hfill, kind_fill]
  subst hkind
  rcases (packedMessage_eq_some _ args).mp hread with ⟨rest, hdecode⟩
  rw [(fill_iff hP q args).mp hfill] at hdecode
  rcases (Tuple.codec _).encode_of_decode _ _ _ hdecode with ⟨hvalid, hvalue⟩
  refine ⟨rfl, (valid_iff_short _ _).mp hvalid, fun hfits => ?_⟩
  rcases Option.isSome_iff_exists.mp
    ((message_isSome_iff sizeT q.kind (q.fields P)).mpr hfits) with ⟨nd', hnd'⟩
  rw [getMessage_eq, hnd', value_of_message hnd', hvalue]
  unfold Query.capacity
  rw [capacity_eq, List.take_left]

/-- The kinds of a header are different. -/
theorem kind_injective {k k' : Messagekinds} (h : k.kind = k'.kind) : k = k' := by
  cases k <;> cases k' <;> first | rfl | exact absurd h (by decide)

/-- What was packed is what is unpacked, and nothing else is. Packing stays inside the
    message exactly if the size was not cut; a query comes back exactly if its lengths
    were not cut; what is read from a message is what would have been written there,
    whoever wrote it; no message was packed from two queries; and of all messages a
    network actor looks into those alone that were packed as `MSG`. -/
theorem queries_unambiguous {T : Type} {P : ObjectPacker T} (hP : P.Lossless) (sizeT : Nat) :
    (∀ q : Query T, (q.getMessage P sizeT).isSome = true ↔ q.capacity P < 2 ^ sizeT) ∧
    (∀ (q : Query T) (nd : Message), q.getMessage P sizeT = some nd →
      (Query.ofMessage P q.kind nd = some q ↔ q.Short P) ∧
      (unpackReceived nd = some none ↔ q.kind ≠ .msg)) ∧
    (∀ (k : Messagekinds) (nd : Message) (q : Query T), Query.ofMessage P k nd = some q →
      q.kind = k ∧ q.Short P ∧ (q.capacity P < 2 ^ sizeT →
        q.getMessage P sizeT = some ⟨k.kind, nd.value.take (q.capacity P)⟩)) ∧
    ∀ (q q' : Query T) (nd : Message), q.getMessage P sizeT = some nd →
      q'.getMessage P sizeT = some nd → q.Short P → q'.Short P → q = q' := by
  have hheader : ∀ {q : Query T} {nd : Message}, q.getMessage P sizeT = some nd →
      nd.kind = q.kind.kind := fun h => by
    rw [getMessage_eq] at h
    rw [value_of_message h]
  refine ⟨fun q => ?_, fun q nd h => ⟨ofMessage_getMessage hP h, ?_⟩,
    fun k nd q h => getMessage_ofMessage hP h, fun q q' nd h h' hshort hshort' => ?_⟩
  · rw [getMessage_eq]
    exact message_isSome_iff sizeT q.kind (q.fields P)
  · unfold unpackReceived
    rw [hheader h]
    by_cases hkind : q.kind = .msg
    · rw [if_pos (by rw [hkind])]
      refine ⟨fun hnone => absurd hnone ?_, fun hne => absurd hkind hne⟩
      rw [Option.map_eq_some_iff]
      rintro ⟨m, _, hm⟩
      exact absurd hm (by simp only [reduceCtorEq, not_false_eq_true])
    · rw [if_neg fun hsame => hkind (kind_injective hsame)]
      exact ⟨fun _ => hkind, fun _ => rfl⟩
  · have hkind : q.kind = q'.kind := kind_injective ((hheader h).symm.trans (hheader h'))
    have hread := (ofMessage_getMessage hP h).mpr hshort
    rw [hkind, (ofMessage_getMessage hP h').mpr hshort', Option.some.injEq] at hread
    exact hread.symm

/-- Three letters to log in with, and an empty message for nobody. -/
theorem queries_unambiguous_login :
    Query.ofMessage networkPacker .login ⟨1, [3, 0, 0, 0, 97, 98, 99]⟩ =
        some (.login ⟨[97, 98, 99]⟩) ∧
      unpackReceived ⟨1, [3, 0, 0, 0, 97, 98, 99]⟩ = some none ∧
      unpackReceived ⟨4, [0, 0, 0, 0, 0, 0, 0, 0]⟩ ≠ some none := by
  have hall := queries_unambiguous networkPacker_lossless 16
  rcases hall.2.1 (.login ⟨[97, 98, 99]⟩) ⟨1, [3, 0, 0, 0, 97, 98, 99]⟩ rfl with ⟨hback, hdropped⟩
  have hempty := (hall.2.1 (.msg ⟨⟨[], []⟩⟩) ⟨4, [0, 0, 0, 0, 0, 0, 0, 0]⟩ rfl).2
  refine ⟨hback.mpr ⟨show 3 < 2 ^ 32 by decide, trivial⟩, hdropped.mpr (by decide), fun h => ?_⟩
  exact hempty.mp h rfl

example : (LoginConfirm.getMessage 16 ⟨5⟩).map Message.value = (LoginFailed.getMessage 16 ⟨5⟩).map
    Message.value ∧ LoginConfirm.getMessage 16 ⟨5⟩ ≠ LoginFailed.getMessage 16 ⟨5⟩ := by decide

end Queries

end Yaaf
