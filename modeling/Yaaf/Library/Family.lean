import Yaaf.Library.Pruning
import Yaaf.Library.Slots
import Mathlib.Data.List.Count
import Mathlib.Logic.Basic

/-!
# Families

A forest kept in a map, when parents and child lists agree: whoever names a
parent is on its list, and whoever is on a list and in the map names the owner of
the list. A list may go on naming what is gone. Nobody is below a child of its
own.

In such a forest the two ways down are one. What the lists of a node lead to is,
as far as it is there, what is below the node along parents. A child's lists never
lead back, so along them the number of nodes that are still to come goes down, and
a recursion over them ends on any finite map.

## Main definitions

* `Family`: A forest whose parents and child lists agree.
* `weight`: How many keys of a list are under a node.
* `Ascends`: The ancestors of a node.

## Theorems

* `family_of_prunes`: Pruning leaves a family.
* `below_antisymm`: No two nodes are below one another.
* `under_of_below`, `below_of_under`: The two ways down.
* `not_under_kid`: Lists do not lead back.
* `weight_lt`, `weight_of_prunes`: What a recursion descends on.
* `ascends_total`: The way up ends at a root.
-/

namespace Pruning

variable {κ ν : Type} {kids : ν → κ → Prop} {parent : ν → Option κ} {f g : κ → Option ν}

/-- A forest whose parents and child lists agree, but for what is gone. -/
structure Family (parent : ν → Option κ) (kids : ν → κ → Prop) (f : κ → Option ν) : Prop where
  rooted : Rooted parent kids f
  own : ∀ k v c w, f k = some v → kids v c → f c = some w → parent w = some k
  acyclic : ∀ k v p, f k = some v → parent v = some p → ¬ Below parent f k p

theorem below_of_prunes (hfg : Prunes kids f g) {a k : κ} (h : Below parent g a k) :
    Below parent f a k := by
  induction h with
  | self => exact Below.self
  | child hk hp _ ih => exact Below.child (prunes_some hfg hk) hp ih

/-- What is still there has all it was below along that way. -/
theorem below_of_live (hr : Rooted parent kids g) (hfg : Prunes kids f g) {a k : κ} {v : ν}
    (hk : g k = some v) (h : Below parent f a k) : Below parent g a k := by
  induction h generalizing v with
  | self => exact Below.self
  | child hf hp _ ih =>
      rw [prunes_some hfg hk, Option.some.injEq] at hf
      rcases hr _ _ _ hk (hf ▸ hp) with ⟨w, hw, _⟩
      exact Below.child hk (hf ▸ hp) (ih hw)

theorem below_trans {a b k : κ} (hab : Below parent f a b) (hbk : Below parent f b k) :
    Below parent f a k := by
  induction hbk with
  | self => exact hab
  | child hk hp _ ih => exact Below.child hk hp ih

/-- Whoever has somebody below it is there. -/
theorem root_of_below (hr : Rooted parent kids f) {a k : κ} {v : ν} (hk : f k = some v)
    (h : Below parent f a k) : ∃ w, f a = some w := by
  induction h generalizing v with
  | self => exact ⟨v, hk⟩
  | child hf hp _ ih =>
      rcases hr _ _ _ hf hp with ⟨w, hw, _⟩
      exact ih hw

/-- No two nodes are below one another. -/
theorem below_antisymm (hfam : Family parent kids f) {a b : κ} (hab : Below parent f a b)
    (hba : Below parent f b a) : a = b := by
  cases hab with
  | self => rfl
  | child hb hp hap => exact absurd (below_trans hba hap) (hfam.acyclic _ _ _ hb hp)

/-- Pruning leaves a family. -/
theorem family_of_prunes (hfam : Family parent kids f) (hfg : Prunes kids f g) :
    Family parent kids g where
  rooted := rooted_of_prunes hfam.rooted hfg
  own k v c w hk hc hw := hfam.own k v c w (prunes_some hfg hk) hc (prunes_some hfg hw)
  acyclic k v p hk hp hb :=
    hfam.acyclic k v p (prunes_some hfg hk) hp (below_of_prunes hfg hb)

/-- The lists of what is gone lead nowhere. -/
theorem under_absent {a k : κ} (ha : f a = none) (h : Under kids f a k) : k = a := by
  induction h with
  | self => rfl
  | child _ hk _ ih =>
      rw [ih, ha] at hk
      exact absurd hk (by simp only [reduceCtorEq, not_false_eq_true])

theorem under_of_below (hr : Rooted parent kids f) {a k : κ} (h : Below parent f a k) :
    Under kids f a k := by
  induction h with
  | self => exact Under.self
  | child hk hp _ ih =>
      rcases hr _ _ _ hk hp with ⟨w, hw, hkid⟩
      exact Under.child ih hw hkid

theorem below_of_under (hfam : Family parent kids f) {a k : κ} {v : ν} (hk : f k = some v)
    (h : Under kids f a k) : Below parent f a k := by
  induction h generalizing v with
  | self => exact Below.self
  | child _ hj hc ih => exact Below.child hk (hfam.own _ _ _ _ hj hc hk) (ih hj)

/-- The lists of a child do not lead back. -/
theorem not_under_kid (hfam : Family parent kids f) {k c : κ} {v : ν} (hk : f k = some v)
    (hc : kids v c) : ¬ Under kids f c k := by
  intro h
  cases hfc : f c with
  | none =>
      rw [under_absent hfc h, hfc] at hk
      exact absurd hk (by simp only [reduceCtorEq, not_false_eq_true])
  | some w => exact hfam.acyclic c w k hfc (hfam.own k v c w hk hc hfc) (below_of_under hfam hk h)

section Weight

open Classical

/-- How many of these keys are under a node and there. -/
noncomputable def weight (kids : ν → κ → Prop) (f : κ → Option ν) (ks : List κ) (k : κ) : Nat :=
  ks.countP fun j => decide (Under kids f k j ∧ (f j).isSome = true)

theorem weight_le (ks : List κ) (k : κ) : weight kids f ks k ≤ ks.length :=
  List.countP_le_length

theorem weight_of_prunes (hfg : Prunes kids f g) (ks : List κ) (k : κ) :
    weight kids g ks k ≤ weight kids f ks k := by
  refine List.countP_mono_left fun j _ hj => ?_
  rw [decide_eq_true_eq] at hj ⊢
  rcases Option.isSome_iff_exists.mp hj.2 with ⟨v, hv⟩
  exact ⟨under_of_prunes hfg hj.1, by rw [prunes_some hfg hv]; rfl⟩

/-- A child weighs less than its parent. -/
theorem weight_lt (hfam : Family parent kids f) {ks : List κ} {k c : κ} {v : ν} (hmem : k ∈ ks)
    (hk : f k = some v) (hc : kids v c) : weight kids f ks c < weight kids f ks k := by
  refine Slots.countP_lt_of_mem (fun j hj => ?_) hmem ?_ ?_
  · rw [decide_eq_true_eq] at hj ⊢
    exact ⟨under_trans (Under.child Under.self hk hc) hj.1, hj.2⟩
  · rw [decide_eq_false_iff_not]
    exact fun h => not_under_kid hfam hk hc h.1
  · rw [decide_eq_true_eq]
    exact ⟨Under.self, by rw [hk]; rfl⟩

end Weight

/-- The ancestors of a node, from its parent up to a root. -/
inductive Ascends (parent : ν → Option κ) (f : κ → Option ν) : ν → List ν → Prop
  | top {v : ν} (h : parent v = none) : Ascends parent f v []
  | up {v w : ν} {p : κ} {ws : List ν} (h : parent v = some p) (hw : f p = some w)
      (hws : Ascends parent f w ws) : Ascends parent f v (w :: ws)

/-- The way up depends on the parent alone. -/
theorem ascends_congr {v v' : ν} {ws : List ν} (hv : parent v' = parent v)
    (h : Ascends parent f v ws) : Ascends parent f v' ws := by
  cases h with
  | top h => exact Ascends.top (hv.trans h)
  | up h hw hws => exact Ascends.up (hv.trans h) hw hws

/-- The way up ends at a root, as parents weigh more than their children and the list of
    all keys can weigh no more than its length. -/
theorem ascends_total (hfam : Family parent kids f) {ks : List κ}
    (hks : ∀ k v, f k = some v → k ∈ ks) {k : κ} {v : ν} (hk : f k = some v) :
    ∃ ws, Ascends parent f v ws := by
  induction hn : ks.length - weight kids f ks k using Nat.strong_induction_on generalizing k v with
  | _ n ih =>
      cases hp : parent v with
      | none => exact ⟨[], Ascends.top hp⟩
      | some p =>
          rcases hfam.rooted k v p hk hp with ⟨w, hw, hkid⟩
          have hlt : weight kids f ks k < weight kids f ks p :=
            weight_lt hfam (hks p w hw) hw hkid
          have hle : weight kids f ks p ≤ ks.length := weight_le ks p
          rcases ih _ (by omega) hw rfl with ⟨ws, hws⟩
          exact ⟨w :: ws, Ascends.up hp hw hws⟩

end Pruning
