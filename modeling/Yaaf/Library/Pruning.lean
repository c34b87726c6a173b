import Mathlib.Data.Set.Basic

/-!
# Pruning a Forest Kept in a Map

A forest in which every node names its parent and lists its children, kept in
a partial map from keys to nodes. The two directions can disagree: a child
list may name nodes that are gone, and nothing in the map by itself stops a
node from naming a parent that is not there.

`Prunes` is what removing subtrees from the leaves up does to such a map.
Entries only disappear, and a node that disappears takes everything its child
list names with it. It says nothing about how the removal was done, and it
composes, so a recursion is shown to prune by showing that each of its calls
does.

`Rooted` is the half of agreement that removal can break: a node with a parent
finds it in the map and is in its child list. Pruning preserves it, and it
makes the removal of an ancestor reach every descendant.

## Main definitions

* `Prunes`: Removal closed under child lists.
* `Rooted`: Every parent is present and lists its child.
* `Below`: Descent along parents.
* `Under`: Descent along child lists.

## Theorems

* `prunes_refl`, `prunes_trans`: Pruning composes.
* `prunes_erase`: Removing a node whose children are gone prunes.
* `rooted_of_prunes`: Pruning leaves no orphan.
* `gone_of_below`, `gone_of_under`: Removing a node removes what is below it.
-/

namespace Pruning

variable {κ ν : Type} {kids : ν → κ → Prop} {parent : ν → Option κ} {f g h : κ → Option ν}

/-- Entries only disappear, and a node takes its listed children with it. -/
structure Prunes (kids : ν → κ → Prop) (f g : κ → Option ν) : Prop where
  only : ∀ k, g k = f k ∨ g k = none
  closed : ∀ k v, f k = some v → g k = none → ∀ c, kids v c → g c = none

/-- Every parent is present and lists its child. -/
def Rooted (parent : ν → Option κ) (kids : ν → κ → Prop) (f : κ → Option ν) : Prop :=
  ∀ k v p, f k = some v → parent v = some p → ∃ w, f p = some w ∧ kids w k

theorem prunes_refl : Prunes kids f f where
  only _ := Or.inl rfl
  closed k v hv hn := by
    rw [hv] at hn
    exact absurd hn (by simp only [reduceCtorEq, not_false_eq_true])

theorem prunes_some (hfg : Prunes kids f g) {k : κ} {v : ν} (hk : g k = some v) :
    f k = some v := by
  rcases hfg.only k with h | h
  · rw [← h, hk]
  · rw [hk] at h
    exact absurd h (by simp only [reduceCtorEq, not_false_eq_true])

theorem prunes_none (hfg : Prunes kids f g) {k : κ} (hk : f k = none) : g k = none := by
  rcases hfg.only k with h | h
  · rw [h, hk]
  · exact h

theorem prunes_trans (hfg : Prunes kids f g) (hgh : Prunes kids g h) : Prunes kids f h where
  only k := by
    rcases hgh.only k with hk | hk
    · rw [hk]
      exact hfg.only k
    · exact Or.inr hk
  closed k v hv hn c hc := by
    -- The node fell either before the middle or after it.
    cases hgk : g k with
    | none => exact prunes_none hgh (hfg.closed k v hv hgk c hc)
    | some w =>
        have hw : w = v := by
          have := prunes_some hfg hgk
          rw [hv, Option.some.injEq] at this
          exact this.symm
        exact hgh.closed k v (by rw [hgk, hw]) hn c hc

/-- Removing one node more, whose children are all gone. -/
theorem prunes_erase (hfg : Prunes kids f g) (k : κ)
    (hkids : ∀ v, f k = some v → ∀ c, kids v c → g c = none) (hk : h k = none)
    (hother : ∀ j, j ≠ k → h j = g j) : Prunes kids f h where
  only j := by
    by_cases hj : j = k
    · rw [hj, hk]
      exact Or.inr rfl
    · rw [hother j hj]
      exact hfg.only j
  closed j v hv hn c hc := by
    by_cases hck : c = k
    · rw [hck, hk]
    · rw [hother c hck]
      by_cases hj : j = k
      · rw [hj] at hv
        exact hkids v hv c hc
      · rw [hother j hj] at hn
        exact hfg.closed j v hv hn c hc

/-- Pruning leaves no orphan: a parent that fell took its child along. -/
theorem rooted_of_prunes (hr : Rooted parent kids f) (hfg : Prunes kids f g) :
    Rooted parent kids g := by
  intro k v p hk hp
  rcases hr k v p (prunes_some hfg hk) hp with ⟨w, hw, hkid⟩
  rcases hfg.only p with h | h
  · exact ⟨w, by rw [h, hw], hkid⟩
  · have := hfg.closed p w hw h k hkid
    rw [hk] at this
    exact absurd this (by simp only [reduceCtorEq, not_false_eq_true])

/-- Descent along parents, from an ancestor down to a node of the map. -/
inductive Below (parent : ν → Option κ) (f : κ → Option ν) (a : κ) : κ → Prop
  | self : Below parent f a a
  | child {k p : κ} {v : ν} : f k = some v → parent v = some p → Below parent f a p →
      Below parent f a k

/-- Removing a node removes everything below it. -/
theorem gone_of_below (hr : Rooted parent kids f) (hfg : Prunes kids f g) {a k : κ}
    (ha : g a = none) (hb : Below parent f a k) : g k = none := by
  induction hb with
  | self => exact ha
  | child hk hp _ ih =>
      rcases hr _ _ _ hk hp with ⟨w, hw, hkid⟩
      exact hfg.closed _ w hw ih _ hkid

/-- Descent along child lists, from a key down to what the lists name. -/
inductive Under (kids : ν → κ → Prop) (f : κ → Option ν) (a : κ) : κ → Prop
  | self : Under kids f a a
  | child {k c : κ} {v : ν} : Under kids f a k → f k = some v → kids v c → Under kids f a c

theorem under_trans {a b c : κ} (hab : Under kids f a b) (hbc : Under kids f b c) :
    Under kids f a c := by
  induction hbc with
  | self => exact hab
  | child _ hk hc ih => exact Under.child ih hk hc

/-- What can be reached after pruning could be reached before. -/
theorem under_of_prunes (hfg : Prunes kids f g) {a k : κ} (h : Under kids g a k) :
    Under kids f a k := by
  induction h with
  | self => exact Under.self
  | child _ hk hc ih => exact Under.child ih (prunes_some hfg hk) hc

/-- Removing a node removes everything its lists lead to. -/
theorem gone_of_under (hfg : Prunes kids f g) {a k : κ} (ha : g a = none)
    (h : Under kids f a k) : g k = none := by
  induction h with
  | self => exact ha
  | child _ hk hc ih => exact hfg.closed _ _ hk ih _ hc

end Pruning
