import Mathlib.Algebra.GroupWithZero.Nat
import Mathlib.Algebra.Order.BigOperators.Group.Finset
import Mathlib.Data.List.AList
import Yaaf.Library.Machine

/-!
# Potentials

What is left to do as a number. It is a sum over the parts of a state, and a step
changes few of them: one summand of a range, one value of a map. So what becomes of
the sum is what becomes of that part.

A potential that no step adds to bounds a run from above (`Machine.work_bounded`).
One that can always be made smaller, be it by a single step or by a long detour, brings
a run to its end.

## Main definitions

* `valueSum`: A sum over the values of a map.

## Theorems

* `sum_range_moves`: A sum over a range in which one summand changes.
* `valueSum_insert`, `valueSum_erase`: A sum over a map in which one value changes, or goes.
* `path_reaches`: What can always be made smaller comes to an end.
-/

namespace Potential

open Finset

/-- Where no summand grows but one, the sum grows by no more than that one. -/
theorem sum_range_moves {f g : Nat → Nat} {N m a b : Nat} (hN : m < N)
    (hother : ∀ n, n ≠ m → g n ≤ f n) (hm : g m + a ≤ f m + b) :
    ∑ n ∈ range N, g n + a ≤ ∑ n ∈ range N, f n + b := by
  have hmem : m ∈ range N := mem_range.mpr hN
  have hrest : ∑ n ∈ (range N).erase m, g n ≤ ∑ n ∈ (range N).erase m, f n :=
    sum_le_sum fun n hn => hother n (ne_of_mem_erase hn)
  rw [← add_sum_erase _ g hmem, ← add_sum_erase _ f hmem]
  omega

section Map

variable {κ ν : Type} [DecidableEq κ]

/-- A sum over the values of a map. -/
def valueSum (f : ν → Nat) (m : AList fun _ : κ => ν) : Nat :=
  (m.entries.map fun kv => f kv.2).sum

/-- One value of the map is taken out, and the sum is what it adds and what is left. -/
theorem valueSum_lookup (f : ν → Nat) {m : AList fun _ : κ => ν} {k : κ} {v : ν}
    (h : m.lookup k = some v) :
    valueSum f m = f v + ((List.kerase k m.entries).map fun kv => f kv.2).sum := by
  have hkey : k ∈ m.entries.keys := AList.lookup_isSome.mp (by rw [h]; rfl)
  rcases List.exists_of_kerase hkey with ⟨w, pre, post, _, hsplit, herase⟩
  have hmem : ⟨k, w⟩ ∈ m.entries := by
    rw [hsplit]
    exact List.mem_append_right _ List.mem_cons_self
  have hw : w = v := Option.some.inj ((AList.mem_lookup_iff.mpr hmem).symm.trans h)
  rw [valueSum, herase, hsplit, hw]
  simp only [List.map_append, List.map_cons, List.sum_append, List.sum_cons]
  omega

/-- A value of the map is replaced. -/
theorem valueSum_insert (f : ν → Nat) {m : AList fun _ : κ => ν} {k : κ} {v : ν}
    (h : m.lookup k = some v) (w : ν) :
    valueSum f (m.insert k w) + f v = valueSum f m + f w := by
  rw [valueSum_lookup f h, valueSum, AList.entries_insert, List.map_cons, List.sum_cons]
  change f w + _ + f v = _
  omega

/-- A value of the map goes. -/
theorem valueSum_erase (f : ν → Nat) (m : AList fun _ : κ => ν) (k : κ) :
    valueSum f (m.erase k) ≤ valueSum f m :=
  ((List.kerase_sublist k m.entries).map fun kv : (_ : κ) × ν => f kv.2).sum_le_sum
    fun _ _ => Nat.zero_le _

theorem valueSum_erases (f : ν → Nat) (ks : List κ) (m : AList fun _ : κ => ν) :
    valueSum f (ks.foldl (fun m k => m.erase k) m) ≤ valueSum f m := by
  induction ks generalizing m with
  | nil => exact Nat.le_refl _
  | cons k ks ih => exact Nat.le_trans (ih (m.erase k)) (valueSum_erase f m k)

end Map

end Potential

namespace Machine

variable {σ α : Type} {M : Machine σ α} {C : σ → α → Prop}

/-- What can always be made smaller until something holds, by however many steps,
    gets there. -/
theorem path_reaches (I E : σ → Prop) (μ : σ → Nat)
    (hgo : ∀ s, I s → ¬ E s → ∃ t, Path M C s t ∧ I t ∧ μ t < μ s) {s : σ} (hs : I s) :
    ∃ t, Path M C s t ∧ I t ∧ E t := by
  induction hn : μ s using Nat.strongRecOn generalizing s with
  | ind n ih =>
      by_cases hend : E s
      · exact ⟨s, Path.refl s, hs, hend⟩
      · rcases hgo s hs hend with ⟨t, hfirst, ht, hlt⟩
        rcases ih (μ t) (hn ▸ hlt) ht rfl with ⟨u, hrest, hu, hE⟩
        exact ⟨u, path_trans hfirst hrest, hu, hE⟩

end Machine
