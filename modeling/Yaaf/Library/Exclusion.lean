import Mathlib.Data.List.Basic
import Yaaf.Library.Slots

/-!
# One at a Time

A flag that says whether some thread is inside, over a table of threads. It guards the
inside if the number of threads in it is the flag, as a number. A thread that raises a
flag that is down may go in, the one that is inside may lower it and leave, and everybody
else may do what they like as long as they stay where they are.

## Main definitions

* `Guards`: A flag counts the threads inside.

## Theorems

* `guards_enter`, `guards_leave`, `guards_stay`: The three kinds of step.
* `sole_inside`: Nobody else is inside.
* `flatMap_set`, `flatMap_sole`: What the only thread inside contributes.
-/

namespace Exclusion

open Slots

variable {τ β : Type} {flag : Bool} {inside : τ → Bool} {threads : List τ} {i j : Nat} {x y : τ}

/-- The flag is up while one thread is inside, and down while none is. -/
def Guards (flag : Bool) (inside : τ → Bool) (threads : List τ) : Prop :=
  threads.countP inside = flag.toNat

theorem guards_enter (h : Guards false inside threads) (hi : threads[i]? = some x)
    (hx : inside x = false) (hy : inside y = true) : Guards true inside (threads.set i y) := by
  have hcount := countP_set hi inside y
  rw [hx, hy, h] at hcount
  exact hcount

theorem guards_leave (h : Guards flag inside threads) (hi : threads[i]? = some x)
    (hx : inside x = true) (hy : inside y = false) : Guards false inside (threads.set i y) := by
  have hcount := countP_set hi inside y
  rw [hx, hy, h] at hcount
  unfold Guards
  cases flag <;> simp only [Bool.toNat_false, Bool.toNat_true] at hcount ⊢ <;> omega

theorem guards_stay (h : Guards flag inside threads) (hi : threads[i]? = some x)
    (hxy : inside y = inside x) : Guards flag inside (threads.set i y) := by
  have hcount := countP_set hi inside y
  rw [hxy, h] at hcount
  exact Nat.add_right_cancel hcount

/-- Two threads are not inside together. -/
theorem sole_inside (h : Guards flag inside threads) (hi : threads[i]? = some x)
    (hj : threads[j]? = some y) (hx : inside x = true) (hy : inside y = true) : i = j := by
  by_contra hne
  have htwo := two_le_countP hi hj (Ne.symm hne) hx hy
  rw [h] at htwo
  cases flag <;> simp only [Bool.toNat_false, Bool.toNat_true] at htwo <;> omega

/-- A slot that contributes the same leaves the whole as it was. -/
theorem flatMap_set (hi : threads[i]? = some x) {f : τ → List β} (hxy : f y = f x) :
    (threads.set i y).flatMap f = threads.flatMap f := by
  rcases slot_split hi with ⟨pre, post, hl, hset, _⟩
  rw [hset, hl, List.flatMap_append, List.flatMap_append, List.flatMap_cons, List.flatMap_cons,
    hxy]

/-- Where nobody else contributes anything, the whole is what the one slot contributes. -/
theorem flatMap_sole (hi : threads[i]? = some x) {f : τ → List β}
    (hothers : ∀ j z, threads[j]? = some z → j ≠ i → f z = []) (y : τ) :
    threads.flatMap f = f x ∧ (threads.set i y).flatMap f = f y := by
  rcases slot_split hi with ⟨pre, post, hl, hset, herase⟩
  have hnone : ∀ z ∈ pre ++ post, f z = [] := by
    intro z hz
    rw [← herase] at hz
    rcases List.mem_eraseIdx_iff_getElem?.mp hz with ⟨j, hne, hj⟩
    exact hothers j z hj hne
  have hpre : pre.flatMap f = [] :=
    List.flatMap_eq_nil_iff.mpr fun z hz => hnone z (List.mem_append_left _ hz)
  have hpost : post.flatMap f = [] :=
    List.flatMap_eq_nil_iff.mpr fun z hz => hnone z (List.mem_append_right _ hz)
  constructor
  · rw [hl, List.flatMap_append, List.flatMap_cons, hpre, hpost, List.append_nil,
      List.nil_append]
  · rw [hset, List.flatMap_append, List.flatMap_cons, hpre, hpost, List.append_nil,
      List.nil_append]

end Exclusion
