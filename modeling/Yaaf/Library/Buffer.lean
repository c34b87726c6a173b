import Mathlib.Data.List.Basic

/-!
# A Bounded Buffer

Copying blocks out of a buffer and into it, at an offset, where a copy that
would leave the buffer answers `none`. A buffer keeps its length, so a block
that was stored says where it is and what it left alone.

## Main definitions

* `load`, `store`: Copying a block out of a buffer and into it.

## Theorems

* `store_length`: Storing keeps the length of the buffer.
* `store_self`, `store_whole`: Two blocks whose effect is known.
* `store_store`: Storing one block behind another stores both.
-/

namespace Buffer

variable {β : Type}

/-- The `n` symbols at offset `i`, `none` if they are not all there. -/
def load (buf : List β) (i n : Nat) : Option { l : List β // l.length = n } :=
  if h : i + n ≤ buf.length then
    some ⟨(buf.drop i).take n, by rw [List.length_take, List.length_drop]; omega⟩
  else none

/-- The buffer with a block put at offset `i`, `none` if it does not fit. -/
def store (buf : List β) (i : Nat) (l : List β) : Option (List β) :=
  if i + l.length ≤ buf.length then some (buf.take i ++ l ++ buf.drop (i + l.length)) else none

/-- A block was stored inside the buffer, which has the length it had. -/
theorem store_length {buf b : List β} {i : Nat} {l : List β} (h : store buf i l = some b) :
    i + l.length ≤ b.length ∧ b.length = buf.length := by
  unfold store at h
  by_cases hfit : i + l.length ≤ buf.length
  · rw [if_pos hfit] at h
    simp only [Option.some.injEq] at h
    have hlen : b.length = buf.length := by
      rw [← h, List.length_append, List.length_append, List.length_take, List.length_drop]
      omega
    exact ⟨hlen ▸ hfit, hlen⟩
  · rw [if_neg hfit] at h
    exact absurd h (by simp only [reduceCtorEq, not_false_eq_true])

/-- Storing what a buffer holds already changes nothing. -/
theorem store_self {buf l rest : List β} {i : Nat} (hi : i ≤ buf.length)
    (h : buf.drop i = l ++ rest) : store buf i l = some buf := by
  have hlen := congrArg List.length h
  rw [List.length_drop, List.length_append] at hlen
  have hfit : i + l.length ≤ buf.length := by omega
  have hrest : buf.drop (i + l.length) = rest := by
    rw [← List.drop_drop, h]
    exact List.drop_left
  unfold store
  rw [if_pos hfit, hrest, List.append_assoc, ← h, List.take_append_drop]

/-- A block of the length of the whole buffer replaces it. -/
theorem store_whole {buf l : List β} (h : l.length = buf.length) : store buf 0 l = some l := by
  unfold store
  rw [if_pos (by omega), List.take_zero, List.nil_append, Nat.zero_add, h, List.drop_length,
    List.append_nil]

theorem store_store (buf : List β) (i : Nat) (l l' : List β) :
    ((store buf i l).bind fun b => store b (i + l.length) l') = store buf i (l ++ l') := by
  unfold store
  rw [List.length_append]
  by_cases h : i + l.length ≤ buf.length
  · rw [if_pos h, Option.bind_some]
    have htake : (buf.take i).length = i := by
      rw [List.length_take]
      omega
    have hlen : (buf.take i ++ l).length = i + l.length := by
      rw [List.length_append, htake]
    have hwhole : (buf.take i ++ l ++ buf.drop (i + l.length)).length = buf.length := by
      rw [List.length_append, hlen, List.length_drop]
      omega
    rw [hwhole, List.take_left' hlen]
    by_cases h' : i + l.length + l'.length ≤ buf.length
    · have hdrop : (buf.take i ++ l ++ buf.drop (i + l.length)).drop (i + l.length + l'.length) =
          buf.drop (i + (l.length + l'.length)) := by
        rw [← List.drop_drop, List.drop_left' hlen, List.drop_drop, Nat.add_assoc]
      rw [if_pos h', if_pos (by omega), hdrop, List.append_assoc (buf.take i)]
    · rw [if_neg h', if_neg (by omega)]
  · rw [if_neg h, if_neg (by omega), Option.bind_none]

end Buffer
