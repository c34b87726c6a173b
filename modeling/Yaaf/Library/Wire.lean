import Mathlib.Algebra.Group.Nat.Defs
import Mathlib.Data.List.Basic

/-!
# Codecs of a Wire Format

A codec turns values into symbols of an alphabet and takes values off the
front of a list of symbols. Its two laws make it a bijection between the
values it is meant for and the prefixes it accepts: decoding what was encoded
gives the value back and leaves what follows alone, and what was decoded
encodes to exactly what was consumed.

The laws are fields, so a codec that does not round trip cannot be built, and
the combinators here are all a format needs: a block of fixed length, a number
of fixed width, a list behind its length, nothing, and one after another.
Which values a codec is meant for is a field too. A length that does not fit
its width is encoded all the same, and comes back as another one.

## Main definitions

* `Codec`: An encoder and a decoder with their laws.
* `block`, `number`, `counted`, `nothing`, `pair`: The combinators.
* `leBytes`, `leValue`: Numbers in base 256, least significant digit first.

## Theorems

* `decode_isSome_iff`: What a decoder accepts are the encodings.
* `drop_of_decode`: Where a decoder is after it.
* `leValue_leBytes`, `leBytes_leValue`: Numbers round trip.
* `leBytes_mod`: The width cuts a number.
-/

namespace Wire

variable {α β γ : Type}

/-- An encoder and a decoder that undo each other on the values they are meant
    for. -/
structure Codec (β α : Type) where
  Valid : α → Prop
  encode : α → List β
  decode : List β → Option (α × List β)
  decode_encode : ∀ a rest, Valid a → decode (encode a ++ rest) = some (a, rest)
  encode_of_decode : ∀ l a rest, decode l = some (a, rest) → Valid a ∧ l = encode a ++ rest

/-- The decoder accepts the encodings, whatever follows them, and nothing
    else. -/
theorem decode_isSome_iff (c : Codec β α) (l : List β) :
    (c.decode l).isSome = true ↔ ∃ a rest, c.Valid a ∧ l = c.encode a ++ rest := by
  rw [Option.isSome_iff_exists]
  constructor
  · rintro ⟨⟨a, rest⟩, h⟩
    exact ⟨a, rest, c.encode_of_decode l a rest h⟩
  · rintro ⟨a, rest, ha, rfl⟩
    exact ⟨(a, rest), c.decode_encode a rest ha⟩

/-- Decoding at an offset stays inside the list and leaves what is behind the
    encoding. -/
theorem drop_of_decode (c : Codec β α) {l rest : List β} {i : Nat} {a : α} (hi : i ≤ l.length)
    (h : c.decode (l.drop i) = some (a, rest)) :
    i + (c.encode a).length ≤ l.length ∧ l.drop (i + (c.encode a).length) = rest := by
  have hdrop := (c.encode_of_decode _ _ _ h).2
  refine ⟨?_, ?_⟩
  · have hlen := congrArg List.length hdrop
    rw [List.length_drop, List.length_append] at hlen
    omega
  · rw [← List.drop_drop, hdrop]
    exact List.drop_left

section Combinators

/-- A block of `n` symbols. -/
def block (β : Type) (n : Nat) : Codec β { l : List β // l.length = n } where
  Valid _ := True
  encode a := a.val
  decode l := if h : n ≤ l.length then
    some (⟨l.take n, by rw [List.length_take, Nat.min_eq_left h]⟩, l.drop n) else none
  decode_encode a rest _ := by
    rcases a with ⟨l, rfl⟩
    have h : l.length ≤ (l ++ rest).length := by
      rw [List.length_append]
      omega
    rw [dif_pos h]
    simp only [List.take_left', List.drop_left']
  encode_of_decode l a rest h := by
    split at h
    · simp only [Option.some.injEq, Prod.mk.injEq] at h
      rw [← h.1, ← h.2]
      exact ⟨trivial, (List.take_append_drop n l).symm⟩
    · exact absurd h (by simp only [reduceCtorEq, not_false_eq_true])

/-- Nothing at all. -/
def nothing (β : Type) : Codec β Unit where
  Valid _ := True
  encode _ := []
  decode l := some ((), l)
  decode_encode _ rest _ := rfl
  encode_of_decode l a rest h := by
    simp only [Option.some.injEq, Prod.mk.injEq, true_and] at h
    exact ⟨trivial, h⟩

/-- One value after another. -/
def pair (c : Codec β α) (d : Codec β γ) : Codec β (α × γ) where
  Valid p := c.Valid p.1 ∧ d.Valid p.2
  encode p := c.encode p.1 ++ d.encode p.2
  decode l := (c.decode l).bind fun p => (d.decode p.2).map fun q => ((p.1, q.1), q.2)
  decode_encode p rest hp := by
    rw [List.append_assoc, c.decode_encode _ _ hp.1, Option.bind_some, d.decode_encode _ _ hp.2,
      Option.map_some]
  encode_of_decode l p rest h := by
    rcases Option.bind_eq_some_iff.mp h with ⟨⟨a, l'⟩, ha, hmap⟩
    rcases Option.map_eq_some_iff.mp hmap with ⟨⟨b, l''⟩, hb, heq⟩
    simp only [Prod.mk.injEq] at heq
    rcases c.encode_of_decode _ _ _ ha with ⟨hva, hl⟩
    rcases d.encode_of_decode _ _ _ hb with ⟨hvb, hl'⟩
    simp only at hl'
    rw [hl, hl', ← heq.1, ← heq.2]
    exact ⟨⟨hva, hvb⟩, (List.append_assoc _ _ _).symm⟩

/-- A list behind its length. -/
def counted (c : Codec β Nat) : Codec β (List β) where
  Valid l := c.Valid l.length
  encode l := c.encode l.length ++ l
  decode l := (c.decode l).bind fun p => ((block β p.1).decode p.2).map fun q => (q.1.val, q.2)
  decode_encode a rest ha := by
    have h := (block β a.length).decode_encode ⟨a, rfl⟩ rest trivial
    rw [List.append_assoc, c.decode_encode _ _ ha, Option.bind_some]
    exact congrArg (Option.map fun q => (q.1.val, q.2)) h
  encode_of_decode l a rest h := by
    rcases Option.bind_eq_some_iff.mp h with ⟨⟨n, l'⟩, hn, hmap⟩
    rcases Option.map_eq_some_iff.mp hmap with ⟨⟨⟨b, hlen⟩, l''⟩, hb, heq⟩
    simp only [Prod.mk.injEq] at heq
    rcases c.encode_of_decode _ _ _ hn with ⟨hvn, hl⟩
    rcases (block β n).encode_of_decode _ _ _ hb with ⟨_, hl'⟩
    simp only at hl' hlen
    rw [hl, hl', ← heq.1, ← heq.2, hlen]
    exact ⟨hvn, (List.append_assoc _ _ _).symm⟩

end Combinators

section Numbers

/-- The `k` lowest digits of `n` in base 256, least significant first. -/
def leBytes : Nat → Nat → List UInt8
  | 0, _ => []
  | k + 1, n => UInt8.ofNat (n % 256) :: leBytes k (n / 256)

/-- The number some digits in base 256 spell. -/
def leValue : List UInt8 → Nat
  | [] => 0
  | b :: bs => b.toNat + 256 * leValue bs

theorem leBytes_length (k n : Nat) : (leBytes k n).length = k := by
  induction k generalizing n with
  | zero => rfl
  | succ k ih => rw [leBytes, List.length_cons, ih]

/-- The digits of a number that was cut to its width. -/
theorem leBytes_mod (k n : Nat) : leBytes k (n % 256 ^ k) = leBytes k n := by
  induction k generalizing n with
  | zero => rfl
  | succ k ih =>
      have hlow : n % 256 ^ (k + 1) % 256 = n % 256 :=
        Nat.mod_mod_of_dvd n ⟨256 ^ k, by rw [Nat.pow_succ, Nat.mul_comm]⟩
      have hhigh : n % 256 ^ (k + 1) / 256 = n / 256 % 256 ^ k := by
        rw [Nat.pow_succ, Nat.mul_comm, Nat.mod_mul_right_div_self]
      rw [leBytes, leBytes, hlow, hhigh, ih]

theorem leValue_leBytes {k n : Nat} (h : n < 256 ^ k) : leValue (leBytes k n) = n := by
  induction k generalizing n with
  | zero =>
      rw [Nat.pow_zero, Nat.lt_one_iff] at h
      rw [h]
      rfl
  | succ k ih =>
      have hdiv : n / 256 < 256 ^ k := by
        rw [Nat.pow_succ] at h
        exact Nat.div_lt_of_lt_mul (by rw [Nat.mul_comm]; exact h)
      have hbyte : (UInt8.ofNat (n % 256)).toNat = n % 256 :=
        UInt8.toNat_ofNat_of_lt (Nat.mod_lt n (by omega))
      rw [leBytes, leValue, ih hdiv, hbyte]
      omega

theorem leValue_lt (bs : List UInt8) : leValue bs < 256 ^ bs.length := by
  induction bs with
  | nil => exact Nat.one_pos
  | cons b bs ih =>
      have hb := b.toNat_lt
      rw [leValue, List.length_cons, Nat.pow_succ]
      omega

theorem leBytes_leValue (bs : List UInt8) : leBytes bs.length (leValue bs) = bs := by
  induction bs with
  | nil => rfl
  | cons b bs ih =>
      have hb := b.toNat_lt
      have hmod : (b.toNat + 256 * leValue bs) % 256 = b.toNat := by omega
      have hdiv : (b.toNat + 256 * leValue bs) / 256 = leValue bs := by omega
      rw [List.length_cons, leValue, leBytes, hmod, hdiv, ih, UInt8.ofNat_toNat]

/-- A number of `k` digits in base 256. -/
def number (k : Nat) : Codec UInt8 Nat where
  Valid n := n < 256 ^ k
  encode n := leBytes k n
  decode l := ((block UInt8 k).decode l).map fun p => (leValue p.1.val, p.2)
  decode_encode n rest hn := by
    have h := (block UInt8 k).decode_encode ⟨leBytes k n, leBytes_length k n⟩ rest trivial
    refine (congrArg (Option.map fun p => (leValue p.1.val, p.2)) h).trans ?_
    rw [Option.map_some, leValue_leBytes hn]
  encode_of_decode l n rest h := by
    rcases Option.map_eq_some_iff.mp h with ⟨⟨⟨b, hlen⟩, l'⟩, hb, heq⟩
    simp only [Prod.mk.injEq] at heq
    rcases (block UInt8 k).encode_of_decode _ _ _ hb with ⟨_, hl⟩
    rw [hl, ← heq.1, ← heq.2]
    refine ⟨?_, ?_⟩
    · rw [← hlen]
      exact leValue_lt b
    · have hround := leBytes_leValue b
      rw [hlen] at hround
      rw [hround]
      rfl

end Numbers

end Wire
