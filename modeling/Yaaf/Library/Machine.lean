import Mathlib.Logic.Relation

/-!
# Guarded Runs of a Labelled Machine

A machine here is a start state and a partial step function: a label names
one atomic step, and the step function answers `none` where that step is not
possible. Everything nondeterministic about a program sits in the labels, so
a run is fixed by its list of labels and can be computed.

`Path C` is reachability along steps that all satisfy a guard `C` on the
state and the label. The guard is what a conditional safety statement needs:
"in every run whose steps all meet the condition" is a statement about
`Reach C`, and an unconditional one is the same statement with the guard
that is always true.

`invariant` is the only induction on runs. Every safety property is one
invariant, one lemma about the start state and one about a step, and
`invariant_of` lets an invariant lean on another that is already known.

## Main definitions

* `Machine`: A start state and a partial, labelled step function.
* `Machine.run`, `Machine.onward`, `Machine.after`: Performing a list of labels.
* `Machine.meets`: Every step of a list of labels satisfies a guard.
* `Machine.Path`: Reachability along guarded steps.
* `Machine.Reach`: Guarded reachability from the start state.
* `Machine.track`: A machine that keeps a record of its run.

## Theorems

* `path_trans`: Guarded paths compose.
* `path_weaken`: A path under a guard is a path under a weaker one.
* `path_invariant`: What every guarded step preserves holds along a path.
* `path_ends`: What can go on, and comes closer to an end, gets there.
* `invariant`: What holds at the start and is preserved holds everywhere.
* `invariant_of`: The same, relative to an invariant already established.
* `path_onward`, `reach_after`: Where a computed run leads is reachable.
* `reach_next`: A computed run goes on by one guarded step.
* `path_track`, `track_path`: A run and a run with its record.
* `work_bounded`: What uses something up happens only so often.
* `path_meets`, `reach_meets`: The same under a guard, where the run was seen to meet it.
-/

/-- A start state and a step function that answers `none` where the labelled
    step is not possible. -/
structure Machine (σ α : Type) where
  start : σ
  step : σ → α → Option σ

namespace Machine

variable {σ α : Type} {M : Machine σ α} {C D : σ → α → Prop}

/-- Reachability along steps that all satisfy the guard. -/
inductive Path (M : Machine σ α) (C : σ → α → Prop) : σ → σ → Prop
  | refl (s : σ) : Path M C s s
  | tail {s t u : σ} (a : α) : Path M C s t → C t a → M.step t a = some u → Path M C s u

/-- The states a guarded run reaches from the start. -/
def Reach (M : Machine σ α) (C : σ → α → Prop) (s : σ) : Prop :=
  Path M C M.start s

/-- The guard that every step meets. -/
def free : σ → α → Prop := fun _ _ => True

theorem path_trans {s t u : σ} (h1 : Path M C s t) (h2 : Path M C t u) : Path M C s u := by
  induction h2 with
  | refl => exact h1
  | tail a _ hc hstep ih => exact Path.tail a ih hc hstep

theorem path_weaken (hCD : ∀ s a, C s a → D s a) {s t : σ} (h : Path M C s t) :
    Path M D s t := by
  induction h with
  | refl => exact Path.refl _
  | tail a _ hc hstep ih => exact Path.tail a ih (hCD _ _ hc) hstep

/-- What every guarded step preserves holds along a guarded path. -/
theorem path_invariant (I : σ → Prop)
    (hstep : ∀ s a s', C s a → M.step s a = some s' → I s → I s')
    {s t : σ} (h : Path M C s t) (hs : I s) : I t := by
  induction h with
  | refl => exact hs
  | tail a _ hc hst ih => exact hstep _ a _ hc hst ih

/-- What can always go on until something holds, and comes closer to an end
    with each step, gets there. -/
theorem path_ends (I E : σ → Prop) (μ : σ → Nat)
    (hgo : ∀ s, I s → ¬ E s → ∃ a s', C s a ∧ M.step s a = some s' ∧ I s' ∧ μ s' < μ s)
    {s : σ} (hs : I s) : ∃ t, Path M C s t ∧ E t := by
  induction hn : μ s using Nat.strongRecOn generalizing s with
  | ind n ih =>
      by_cases hend : E s
      · exact ⟨s, Path.refl s, hend⟩
      · rcases hgo s hs hend with ⟨a, s', hc, hstep, hs', hlt⟩
        rcases ih (μ s') (hn ▸ hlt) hs' rfl with ⟨t, hpath, ht⟩
        exact ⟨t, path_trans (Path.tail a (Path.refl s) hc hstep) hpath, ht⟩

/-- What holds at the start and is preserved by every guarded step holds in
    every state a guarded run reaches. -/
theorem invariant (I : σ → Prop) (h0 : I M.start)
    (hstep : ∀ s a s', C s a → M.step s a = some s' → I s → I s')
    {s : σ} (h : Reach M C s) : I s :=
  path_invariant I hstep h h0

/-- The same for an invariant whose step lemma needs another, `J`, that is
    already known to hold in every state reached. -/
theorem invariant_of (J I : σ → Prop) (hJ : ∀ s, Reach M C s → J s) (h0 : I M.start)
    (hstep : ∀ s a s', C s a → M.step s a = some s' → J s → J s' → I s → I s')
    {s : σ} (h : Reach M C s) : I s := by
  -- The path itself has to be carried: `J` is known of reached states only.
  have key : ∀ t, Path M C M.start t → I t := by
    intro t ht
    induction ht with
    | refl => exact h0
    | tail a hp hc hst ih =>
        exact hstep _ a _ hc hst (hJ _ hp) (hJ _ (Path.tail a hp hc hst)) ih
  exact key s h

/-- Performing a list of labels, `none` if one of them is not possible. -/
def run (M : Machine σ α) : σ → List α → Option σ
  | s, [] => some s
  | s, a :: as => match M.step s a with
    | none => none
    | some s' => run M s' as

/-- A run of several labels begins with a step. -/
theorem run_cons {s t : σ} {a : α} {as : List α} (h : M.run s (a :: as) = some t) :
    ∃ s', M.step s a = some s' ∧ M.run s' as = some t := by
  simp only [run] at h
  cases hstep : M.step s a with
  | none =>
      rw [hstep] at h
      exact absurd h (by simp only [reduceCtorEq, not_false_eq_true])
  | some s' =>
      rw [hstep] at h
      exact ⟨s', rfl, h⟩

theorem path_of_run : ∀ (as : List α) (s t : σ), M.run s as = some t → Path M free s t := by
  intro as
  induction as with
  | nil =>
      intro s t h
      simp only [run, Option.some.injEq] at h
      rw [h]
      exact Path.refl _
  | cons a as ih =>
      intro s t h
      rcases run_cons h with ⟨s', hstep, hrest⟩
      exact path_trans (Path.tail a (Path.refl s) trivial hstep) (ih s' t hrest)

/-- Where a list of labels leads from a state, or that state if one of them is
    not possible. -/
def onward (M : Machine σ α) (s : σ) (as : List α) : σ :=
  (M.run s as).getD s

/-- Where a list of labels leads from the start. -/
def after (M : Machine σ α) (as : List α) : σ :=
  M.onward M.start as

theorem path_onward (s : σ) (as : List α) : Path M free s (M.onward s as) := by
  unfold onward
  cases h : M.run s as with
  | none => exact Path.refl _
  | some t => exact path_of_run as s t h

theorem reach_after (as : List α) : Reach M free (M.after as) :=
  path_onward M.start as

theorem run_append (as bs : List α) (s : σ) :
    M.run s (as ++ bs) = (M.run s as).bind fun t => M.run t bs := by
  induction as generalizing s with
  | nil => rfl
  | cons a as ih =>
      simp only [List.cons_append, run]
      cases M.step s a with
      | none => rfl
      | some t => exact ih t

/-- A computed run goes on by one guarded step. -/
theorem reach_next {as : List α} {a : α} (hrun : (M.run M.start (as ++ [a])).isSome = true)
    (h : Reach M C (M.after as)) (hc : C (M.after as) a) : Reach M C (M.after (as ++ [a])) := by
  rcases Option.isSome_iff_exists.mp hrun with ⟨u, hu⟩
  have hafter : M.after (as ++ [a]) = u := by
    unfold after onward
    rw [hu, Option.getD_some]
  rw [run_append] at hu
  rcases Option.bind_eq_some_iff.mp hu with ⟨t, ht, htu⟩
  have hbefore : M.after as = t := by
    unfold after onward
    rw [ht, Option.getD_some]
  rw [hbefore] at h hc
  rw [hafter]
  simp only [run] at htu
  cases hstep : M.step t a with
  | none =>
      rw [hstep] at htu
      exact absurd htu (by simp only [reduceCtorEq, not_false_eq_true])
  | some v =>
      simp only [hstep, Option.some.injEq] at htu
      exact Path.tail a h hc (htu ▸ hstep)

/-- Performing a list of labels satisfies the guard at every step. -/
def meets (M : Machine σ α) (C : σ → α → Prop) [∀ s a, Decidable (C s a)] : σ → List α → Bool
  | _, [] => true
  | s, a :: as => decide (C s a) && match M.step s a with
    | none => true
    | some s' => meets M C s' as

theorem path_of_meets [∀ s a, Decidable (C s a)] : ∀ (as : List α) (s t : σ),
    M.meets C s as = true → M.run s as = some t → Path M C s t := by
  intro as
  induction as with
  | nil =>
      intro s t _ h
      simp only [run, Option.some.injEq] at h
      rw [h]
      exact Path.refl _
  | cons a as ih =>
      intro s t hm h
      simp only [run] at h
      simp only [meets, Bool.and_eq_true, decide_eq_true_eq] at hm
      cases hstep : M.step s a with
      | none =>
          rw [hstep] at h
          exact absurd h (by simp only [reduceCtorEq, not_false_eq_true])
      | some s' =>
          rw [hstep] at h hm
          exact path_trans (Path.tail a (Path.refl s) hm.1 hstep) (ih s' t hm.2 h)

theorem path_meets [∀ s a, Decidable (C s a)] (s : σ) (as : List α)
    (h : M.meets C s as = true) : Path M C s (M.onward s as) := by
  unfold onward
  cases hrun : M.run s as with
  | none => exact Path.refl _
  | some t => exact path_of_meets as s t h hrun

theorem reach_meets [∀ s a, Decidable (C s a)] (as : List α) (h : M.meets C M.start as = true) :
    Reach M C (M.after as) :=
  path_meets M.start as h

section Track

variable {γ : Type} {g0 : γ} {upd : σ → α → σ → γ → γ}

/-- The machine with a record of its run: what the record becomes is a function
    of the step, and no step reads it. -/
def track (M : Machine σ α) (g0 : γ) (upd : σ → α → σ → γ → γ) : Machine (σ × γ) α where
  start := (M.start, g0)
  step p a := (M.step p.1 a).map fun s' => (s', upd p.1 a s' p.2)

theorem track_step {p q : σ × γ} {a : α} :
    (M.track g0 upd).step p a = some q ↔ M.step p.1 a = some q.1 ∧ q.2 = upd p.1 a q.1 p.2 := by
  simp only [track, Option.map_eq_some_iff]
  constructor
  · rintro ⟨s', hs, rfl⟩
    exact ⟨hs, rfl⟩
  · rintro ⟨hs, hg⟩
    exact ⟨q.1, hs, by rw [← hg]⟩

/-- Without its record, a run is a run. -/
theorem path_track {D : σ × γ → α → Prop} {p q : σ × γ} (h : Path (M.track g0 upd) D p q) :
    Path M free p.1 q.1 := by
  induction h with
  | refl => exact Path.refl _
  | tail a _ _ hstep ih => exact Path.tail a ih trivial (track_step.mp hstep).1

/-- Every run has a record. -/
theorem track_path {s t : σ} (h : Path M free s t) (g : γ) :
    ∃ g', Path (M.track g0 upd) free (s, g) (t, g') := by
  induction h with
  | refl => exact ⟨g, Path.refl _⟩
  | @tail t u a _ _ hstep ih =>
      rcases ih with ⟨g', hpath⟩
      exact ⟨upd t a u g', Path.tail a hpath trivial (track_step.mpr ⟨hstep, rfl⟩)⟩

end Track

/-- Where no step adds to a quantity and the steps that count use some of it up, a run
    has no more of these than there was of it. -/
theorem work_bounded (W : σ → α → Bool) (μ : σ → Nat)
    (hstep : ∀ s a s', C s a → M.step s a = some s' → μ s' + (W s a).toNat ≤ μ s) {s t : σ} {n : Nat}
    (h : Path (M.track 0 fun s a _ n => n + (W s a).toNat) (fun q a => C q.1 a) (s, 0) (t, n)) :
    n + μ t ≤ μ s :=
  path_invariant (fun q => q.2 + μ q.1 ≤ μ s)
    (fun q a r hc hs hq => by
      rcases track_step.mp hs with ⟨hone, hcount⟩
      have hle := hstep q.1 a r.1 hc hone
      rw [hcount]
      omega)
    h (Nat.le_of_eq (Nat.zero_add _))

end Machine
