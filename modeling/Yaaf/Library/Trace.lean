import Mathlib.Data.List.Basic

/-!
# Growing Traces

A trace is a list of events that is only ever appended to. A history is a
projection of a trace: the events of one kind, in order, with what they
carry. `Grows p` says that a trace grew by events that all satisfy `p`, which
is how a step promises not to touch a history it has nothing to do with.

## Main definitions

* `Grows`: Appending events of a given kind.

## Theorems

* `grows_trans`, `grows_weaken`: Growth composes and weakens.
* `mem_of_grows`: What has happened stays happened.
* `split_of_append`: Where an event of a grown trace stands.
* `filterMap_of_grows`: A history that ignores the new events is unchanged.
-/

namespace Trace

variable {ε β : Type} {p q : ε → Prop} {l l' l'' : List ε}

/-- `l'` is `l` followed by events that satisfy `p`. -/
def Grows (p : ε → Prop) (l l' : List ε) : Prop :=
  ∃ evs, l' = l ++ evs ∧ ∀ ev ∈ evs, p ev

theorem grows_refl : Grows p l l :=
  ⟨[], by rw [List.append_nil], fun ev hev => absurd hev List.not_mem_nil⟩

theorem grows_one {ev : ε} (h : p ev) : Grows p l (l ++ [ev]) :=
  ⟨[ev], rfl, fun ev' hev => by rw [List.mem_singleton.mp hev]; exact h⟩

theorem grows_trans (h1 : Grows p l l') (h2 : Grows p l' l'') : Grows p l l'' := by
  rcases h1 with ⟨evs, rfl, hevs⟩
  rcases h2 with ⟨evs', rfl, hevs'⟩
  refine ⟨evs ++ evs', List.append_assoc _ _ _, fun ev hev => ?_⟩
  rcases List.mem_append.mp hev with h | h
  · exact hevs ev h
  · exact hevs' ev h

theorem grows_weaken (hpq : ∀ ev, p ev → q ev) (h : Grows p l l') : Grows q l l' := by
  rcases h with ⟨evs, hl, hevs⟩
  exact ⟨evs, hl, fun ev hev => hpq ev (hevs ev hev)⟩

theorem mem_of_grows (h : Grows p l l') {ev : ε} (hev : ev ∈ l) : ev ∈ l' := by
  rcases h with ⟨evs, rfl, _⟩
  exact List.mem_append_left evs hev

/-- An event of a grown trace is an old one or one of the new kind. -/
theorem mem_or_of_grows (h : Grows p l l') {ev : ε} (hev : ev ∈ l') : ev ∈ l ∨ p ev := by
  rcases h with ⟨evs, rfl, hevs⟩
  rcases List.mem_append.mp hev with h | h
  · exact Or.inl h
  · exact Or.inr (hevs ev h)

theorem filterMap_of_grows (f : ε → Option β) (hf : ∀ ev, p ev → f ev = none)
    (h : Grows p l l') : l'.filterMap f = l.filterMap f := by
  rcases h with ⟨evs, rfl, hevs⟩
  have hnil : evs.filterMap f = [] :=
    List.filterMap_eq_nil_iff.mpr fun ev hev => hf ev (hevs ev hev)
  rw [List.filterMap_append, hnil, List.append_nil]

/-- Where an event of a grown trace stands: among the old ones, with the
    growth behind it, or in the growth. -/
theorem split_of_append {evs pre post : List ε} {ev : ε} (h : l ++ evs = pre ++ ev :: post) :
    (∃ post', l = pre ++ ev :: post' ∧ post = post' ++ evs) ∨
      ∃ pre', pre = l ++ pre' ∧ evs = pre' ++ ev :: post := by
  rcases List.append_eq_append_iff.mp h with ⟨mid, hpre, hevs⟩ | ⟨mid, hl, hpost⟩
  · exact Or.inr ⟨mid, hpre, hevs⟩
  · cases mid with
    | nil =>
        refine Or.inr ⟨[], ?_, ?_⟩
        · rw [hl, List.append_nil, List.append_nil]
        · rw [List.nil_append] at hpost ⊢
          exact hpost.symm
    | cons x mid =>
        simp only [List.cons_append, List.cons.injEq] at hpost
        exact Or.inl ⟨mid, by rw [hl, hpost.1], hpost.2⟩

end Trace
