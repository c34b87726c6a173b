import Mathlib.Logic.Function.Basic
import Yaaf.Library.Machine
import Yaaf.Library.Pruning

/-!
# A Hierarchy With Its History

Keys that join one another and leave. A key joins alone or under one that is there,
and joins once. When a key leaves, everything that is below it leaves with it; when
the hierarchy is disbanded, everybody does. The state is who is there and under whom,
together with everything that has happened.

What has happened decides who is there, and needs no simulation to be read. The
history alone names the ancestors of a key, because each key joins once. A key is
there exactly if it joined, and since then neither it nor an ancestor of it was made
to leave and the hierarchy was not disbanded.

## Main definitions

* `HierarchyMove`: A key joins, a key leaves, all leave.
* `Hierarchy`, `Hierarchy.machine`: Who is there, and the history; the runs.
* `Hierarchy.Lineage`: A key and its ancestors, by the history.
* `Hierarchy.Spared`: Joined, and nothing since.
* `Hierarchy.Sound`: The map and the history agree.

## Theorems

* `run_join`: When a key can join.
* `lineage_snoc_join`, `lineage_snoc`: What a move does to the lineages.
* `below_iff_lineage`: For who is there, the map and the history tell the same ancestors.
* `spared_join_iff`, `spared_leave_iff`, `not_spared_disband`: What a move does to who is
  spared.
* `sound_of_reach`: The map and the history agree in every run.
-/

/-- What can happen to a hierarchy. -/
inductive HierarchyMove (κ : Type)
  | join (k : κ) (above : Option κ)
  | leave (k : κ)
  | disband
deriving DecidableEq

/-- Who is there, under whom, and what has happened. -/
@[ext]
structure Hierarchy (κ : Type) where
  up : κ → Option (Option κ)
  past : List (HierarchyMove κ)

namespace Hierarchy

open HierarchyMove Pruning

variable {κ : Type}

/-- The key has not joined before. -/
def Fresh (past : List (HierarchyMove κ)) (k : κ) : Prop :=
  ∀ above, join k above ∉ past

/-- Nobody is there and nothing has happened. -/
def empty : Hierarchy κ where
  up := fun _ => none
  past := []

section Step

variable [DecidableEq κ]

open Classical in
/-- One move. -/
noncomputable def step (h : Hierarchy κ) (x : HierarchyMove κ) : Option (Hierarchy κ) :=
  match x with
  | .join k above =>
      if Fresh h.past k ∧ ∀ p ∈ above, (h.up p).isSome = true then
        some ⟨Function.update h.up k (some above), h.past ++ [x]⟩
      else none
  | .leave k => some ⟨fun j => if Below id h.up k j then none else h.up j, h.past ++ [x]⟩
  | .disband => some ⟨fun _ => none, h.past ++ [x]⟩

/-- The runs of a hierarchy. -/
noncomputable def machine (κ : Type) [DecidableEq κ] : Machine (Hierarchy κ) (HierarchyMove κ) where
  start := empty
  step := step

/-- A first join under somebody who is there. -/
theorem run_join {h : Hierarchy κ} {k : κ} {above : Option κ} (hfresh : Fresh h.past k)
    (habove : ∀ p ∈ above, (h.up p).isSome = true) : (machine κ).run h [join k above] =
      some ⟨Function.update h.up k (some above), h.past ++ [join k above]⟩ := by
  simp only [Machine.run, machine, step, hfresh, true_and]
  rw [if_pos habove]

end Step

/-- A key, its parent, the parent of that, and so on, by what has happened. -/
inductive Lineage (past : List (HierarchyMove κ)) (a : κ) : κ → Prop
  | self : Lineage past a a
  | child {k p : κ} : join k (some p) ∈ past → Lineage past a p → Lineage past a k

/-- The key joined, and since then neither it nor an ancestor was made to leave and
    the hierarchy was not disbanded. -/
def Spared (past : List (HierarchyMove κ)) (k : κ) : Prop :=
  ∃ before above after, past = before ++ join k above :: after ∧ disband ∉ after ∧
    ∀ a, Lineage past a k → leave a ∉ after

section History

variable {past : List (HierarchyMove κ)} {x : HierarchyMove κ} {a k : κ}

theorem lineage_mono (past' : List (HierarchyMove κ)) (h : Lineage past a k) :
    Lineage (past ++ past') a k := by
  induction h with
  | self => exact Lineage.self
  | child hj _ ih => exact Lineage.child (List.mem_append_left _ hj) ih

/-- A move that is not a join changes no lineage. -/
theorem lineage_snoc (hx : ∀ k above, x ≠ join k above) :
    Lineage (past ++ [x]) a k ↔ Lineage past a k := by
  refine ⟨fun h => ?_, lineage_mono _⟩
  induction h with
  | self => exact Lineage.self
  | child hj _ ih =>
      rcases List.mem_append.mp hj with hj | hj
      · exact Lineage.child hj ih
      · exact absurd (List.mem_singleton.mp hj).symm (hx _ _)

/-- Parents joined before their children. -/
def Known (past : List (HierarchyMove κ)) : Prop :=
  ∀ k p, join k (some p) ∈ past → ¬ Fresh past p

/-- A first join changes no lineage of a key that joined before. -/
theorem lineage_snoc_join {b : κ} {above : Option κ} (hknown : Known past) (hb : Fresh past b)
    (hk : ¬ Fresh past k) : Lineage (past ++ [join b above]) a k ↔ Lineage past a k := by
  refine ⟨fun h => ?_, lineage_mono _⟩
  induction h with
  | self => exact Lineage.self
  | child hj _ ih =>
      rcases List.mem_append.mp hj with hj | hj
      · exact Lineage.child hj (ih (hknown _ _ hj))
      · have heq := List.mem_singleton.mp hj
        simp only [join.injEq] at heq
        exact absurd (heq.1 ▸ hb) hk

/-- Where a list that has grown by one can be taken apart. -/
theorem split_snoc {ls before after : List (HierarchyMove κ)} {y : HierarchyMove κ}
    (h : ls ++ [x] = before ++ y :: after) : (after = [] ∧ x = y ∧ ls = before) ∨
      ∃ after', after = after' ++ [x] ∧ ls = before ++ y :: after' := by
  rcases List.eq_nil_or_concat after with rfl | ⟨after', z, rfl⟩
  · rcases List.append_inj' h rfl with ⟨hls, hxy⟩
    exact Or.inl ⟨rfl, (List.cons.inj hxy).1, hls⟩
  · rw [List.concat_eq_append] at h ⊢
    rw [← List.cons_append, ← List.append_assoc] at h
    rcases List.append_inj' h rfl with ⟨hls, hxz⟩
    rw [(List.cons.inj hxz).1]
    exact Or.inr ⟨after', rfl, hls⟩

theorem not_fresh_of_spared (h : Spared past k) : ¬ Fresh past k := by
  rcases h with ⟨before, above, after, rfl, _⟩
  exact fun hf => hf above (List.mem_append_right _ List.mem_cons_self)

/-- Nobody outlives the end. -/
theorem not_spared_disband : ¬ Spared (past ++ [disband]) k := by
  rintro ⟨before, above, after, heq, hend, _⟩
  rcases split_snoc heq with ⟨_, hx, _⟩ | ⟨after', rfl, _⟩
  · exact absurd hx (by simp only [reduceCtorEq, not_false_eq_true])
  · exact hend (List.mem_append_right _ List.mem_cons_self)

/-- Who is spared when a key leaves: whoever was, and does not have it for an
    ancestor. -/
theorem spared_leave_iff {b : κ} :
    Spared (past ++ [leave b]) k ↔ Spared past k ∧ ¬ Lineage past b k := by
  have hline : ∀ {a j : κ}, Lineage (past ++ [leave b]) a j ↔ Lineage past a j :=
    lineage_snoc fun _ _ => by simp only [ne_eq, reduceCtorEq, not_false_eq_true]
  constructor
  · rintro ⟨before, above, after, heq, hend, hgone⟩
    rcases split_snoc heq with ⟨_, hx, _⟩ | ⟨after', rfl, rfl⟩
    · exact absurd hx (by simp only [reduceCtorEq, not_false_eq_true])
    · refine ⟨⟨before, above, after', rfl, fun h => hend (List.mem_append_left _ h),
        fun a ha h => hgone a (hline.mpr ha) (List.mem_append_left _ h)⟩, fun hb => ?_⟩
      exact hgone b (hline.mpr hb) (List.mem_append_right _ List.mem_cons_self)
  · rintro ⟨⟨before, above, after, rfl, hend, hgone⟩, hb⟩
    refine ⟨before, above, after ++ [leave b], by simp only [List.append_assoc, List.cons_append],
      fun h => ?_, fun a ha h => ?_⟩
    · rcases List.mem_append.mp h with h | h
      · exact hend h
      · exact absurd (List.mem_singleton.mp h) (by simp only [reduceCtorEq, not_false_eq_true])
    · rcases List.mem_append.mp h with h | h
      · exact hgone a (hline.mp ha) h
      · rw [leave.inj (List.mem_singleton.mp h)] at ha
        exact hb (hline.mp ha)

/-- Who is spared when a key joins: whoever was, and that key. -/
theorem spared_join_iff {b : κ} {above : Option κ} (hknown : Known past) (hb : Fresh past b) :
    Spared (past ++ [join b above]) k ↔ k = b ∨ Spared past k := by
  constructor
  · rintro ⟨before, above', after, heq, hend, hgone⟩
    rcases split_snoc heq with ⟨_, hx, _⟩ | ⟨after', rfl, rfl⟩
    · exact Or.inl (join.inj hx).1.symm
    · exact Or.inr ⟨before, above', after', rfl, fun h => hend (List.mem_append_left _ h),
        fun a ha h => hgone a (lineage_mono _ ha) (List.mem_append_left _ h)⟩
  · rintro (rfl | hspared)
    · exact ⟨past, above, [], rfl, List.not_mem_nil, fun _ _ => List.not_mem_nil⟩
    · have hk := not_fresh_of_spared hspared
      rcases hspared with ⟨before, above', after, heq, hend, hgone⟩
      refine ⟨before, above', after ++ [join b above], ?_, fun h => ?_, fun a ha h => ?_⟩
      · simp only [heq, List.append_assoc, List.cons_append]
      · rcases List.mem_append.mp h with h | h
        · exact hend h
        · exact absurd (List.mem_singleton.mp h) (by simp only [reduceCtorEq, not_false_eq_true])
      · rcases List.mem_append.mp h with h | h
        · exact hgone a ((lineage_snoc_join hknown hb hk).mp ha) h
        · exact absurd (List.mem_singleton.mp h) (by simp only [reduceCtorEq, not_false_eq_true])

end History

/-- The map and the history agree. -/
structure Sound (h : Hierarchy κ) : Prop where
  joined : ∀ k above, h.up k = some above → join k above ∈ h.past
  once : ∀ k above above', join k above ∈ h.past → join k above' ∈ h.past → above = above'
  known : Known h.past
  closed : ∀ k p, h.up k = some (some p) → (h.up p).isSome = true
  spared : ∀ k, (h.up k).isSome = true ↔ Spared h.past k

section Runs

variable {h h' : Hierarchy κ} {x : HierarchyMove κ}

/-- For who is there, the map and the history tell the same ancestors. -/
theorem below_iff_lineage (hs : Sound h) {a k : κ} (hk : (h.up k).isSome = true) :
    Below id h.up a k ↔ Lineage h.past a k := by
  constructor
  · intro hb
    induction hb with
    | self => exact Lineage.self
    | child hj hp _ ih =>
        simp only [id_eq] at hp
        rw [hp] at hj
        exact Lineage.child (hs.joined _ _ hj) (ih (hs.closed _ _ hj))
  · intro hl
    induction hl with
    | self => exact Below.self
    | child hj _ ih =>
        rcases Option.isSome_iff_exists.mp hk with ⟨above, hup⟩
        rw [hs.once _ _ _ (hs.joined _ _ hup) hj] at hup
        exact Below.child hup rfl (ih (hs.closed _ _ hup))

theorem sound_empty : Sound (empty (κ := κ)) where
  joined _ _ h := absurd h (by simp only [empty, reduceCtorEq, not_false_eq_true])
  once _ _ _ h := absurd h List.not_mem_nil
  known _ _ h := absurd h List.not_mem_nil
  closed _ _ h := absurd h (by simp only [empty, reduceCtorEq, not_false_eq_true])
  spared k := by
    refine ⟨fun h => absurd h Bool.false_ne_true, fun hspared => ?_⟩
    exact absurd (fun _ => List.not_mem_nil) (not_fresh_of_spared hspared)

theorem not_fresh_mono (past' : List (HierarchyMove κ)) {past : List (HierarchyMove κ)} {k : κ}
    (hk : ¬ Fresh past k) : ¬ Fresh (past ++ past') k :=
  fun hf => hk fun above hmem => hf above (List.mem_append_left _ hmem)

/-- A move that is not a join leaves what is known of the joins. -/
theorem joins_snoc {past : List (HierarchyMove κ)} {k : κ} {above : Option κ}
    (hx : ∀ k above, x ≠ join k above) (hj : join k above ∈ past ++ [x]) :
    join k above ∈ past := by
  rcases List.mem_append.mp hj with hj | hj
  · exact hj
  · exact absurd (List.mem_singleton.mp hj).symm (hx _ _)

/-- Where nobody joins and who is there was there under the same parent, only the last
    two points are to be seen. -/
theorem sound_of_fewer (hx : ∀ k above, x ≠ join k above) (hpast : h'.past = h.past ++ [x])
    (hup : ∀ k above, h'.up k = some above → h.up k = some above)
    (hclosed : ∀ k p, h'.up k = some (some p) → (h'.up p).isSome = true)
    (hspared : ∀ k, (h'.up k).isSome = true ↔ Spared h'.past k) (hs : Sound h) : Sound h' where
  joined k above hk := hpast ▸ List.mem_append_left _ (hs.joined k above (hup k above hk))
  once k above above' hj hj' :=
    hs.once k above above' (joins_snoc hx (hpast ▸ hj)) (joins_snoc hx (hpast ▸ hj'))
  known k p hj := hpast ▸ not_fresh_mono _ (hs.known k p (joins_snoc hx (hpast ▸ hj)))
  closed := hclosed
  spared := hspared

variable [DecidableEq κ]

theorem sound_of_join {k : κ} {above : Option κ} (hfresh : Fresh h.past k)
    (habove : ∀ p ∈ above, (h.up p).isSome = true) (hs : Sound h) :
    Sound ⟨Function.update h.up k (some above), h.past ++ [join k above]⟩ := by
  have hthere : ∀ j, (h.up j).isSome = true →
      (Function.update h.up k (some above) j).isSome = true := by
    intro j hj
    by_cases hjk : j = k
    · rw [hjk, Function.update_self]
      rfl
    · rwa [Function.update_of_ne hjk]
  have hjoin : ∀ {j : κ} {q : Option κ}, join j q ∈ h.past ++ [join k above] →
      join j q ∈ h.past ∨ j = k ∧ q = above := by
    intro j q hj
    rcases List.mem_append.mp hj with hj | hj
    · exact Or.inl hj
    · exact Or.inr (join.inj (List.mem_singleton.mp hj))
  refine ⟨fun j q hj => ?_, fun j q q' hj hj' => ?_, fun j p hj => ?_, fun j p hj => ?_,
    fun j => ?_⟩
  · by_cases hjk : j = k
    · simp only [hjk, Function.update_self, Option.some.injEq] at hj
      rw [hjk, hj]
      exact List.mem_append_right _ List.mem_cons_self
    · simp only [Function.update_of_ne hjk] at hj
      exact List.mem_append_left _ (hs.joined j q hj)
  · -- The new key was not in the history, so two joins of it are both the new one.
    rcases hjoin hj with hold | ⟨rfl, rfl⟩
    · rcases hjoin hj' with hold' | ⟨rfl, rfl⟩
      · exact hs.once j q q' hold hold'
      · exact absurd hold (hfresh q)
    · rcases hjoin hj' with hold' | ⟨_, rfl⟩
      · exact absurd hold' (hfresh q')
      · rfl
  · refine not_fresh_mono _ ?_
    rcases hjoin hj with hj | ⟨rfl, rfl⟩
    · exact hs.known j p hj
    · exact not_fresh_of_spared ((hs.spared p).mp (habove p rfl))
  · by_cases hjk : j = k
    · simp only [hjk, Function.update_self, Option.some.injEq] at hj
      exact hthere p (habove p hj)
    · simp only [Function.update_of_ne hjk] at hj
      exact hthere p (hs.closed j p hj)
  · rw [spared_join_iff hs.known hfresh, ← hs.spared j]
    by_cases hjk : j = k
    · simp only [hjk, Function.update_self, Option.isSome_some, true_or]
    · simp only [Function.update_of_ne hjk, hjk, false_or]

theorem sound_of_step (hstep : h.step x = some h') (hs : Sound h) : Sound h' := by
  cases x with
  | join k above =>
      simp only [step, Option.ite_none_right_eq_some, Option.some.injEq] at hstep
      rcases hstep with ⟨⟨hfresh, habove⟩, rfl⟩
      exact sound_of_join hfresh habove hs
  | leave k =>
      simp only [step, Option.some.injEq] at hstep
      rw [← hstep]
      refine sound_of_fewer (fun _ _ => by simp only [ne_eq, reduceCtorEq, not_false_eq_true]) rfl
        (fun j q hj => ?_) (fun j p hj => ?_) (fun j => ?_) hs
      · simp only [Option.ite_none_left_eq_some] at hj
        exact hj.2
      · -- A parent that leaves takes its child along.
        simp only [Option.ite_none_left_eq_some] at hj
        have hp : ¬ Below id h.up k p := fun hb => hj.1 (Below.child hj.2 rfl hb)
        simp only [if_neg hp]
        exact hs.closed j p hj.2
      · rw [spared_leave_iff, ← hs.spared j]
        by_cases hj : (h.up j).isSome = true
        · rw [← below_iff_lineage hs hj]
          by_cases hb : Below id h.up k j
          · simp only [if_pos hb]
            exact ⟨fun hn => absurd hn Bool.false_ne_true, fun hn => absurd hb hn.2⟩
          · simp only [if_neg hb]
            exact ⟨fun hj => ⟨hj, hb⟩, fun hn => hn.1⟩
        · simp only [hj, Bool.false_eq_true, false_and, iff_false, Bool.not_eq_true]
          rw [Option.not_isSome_iff_eq_none] at hj
          simp only [hj, ite_self, Option.isSome_none]
  | disband =>
      simp only [step, Option.some.injEq] at hstep
      rw [← hstep]
      refine sound_of_fewer (fun _ _ => by simp only [ne_eq, reduceCtorEq, not_false_eq_true]) rfl
        (fun j q hj => ?_) (fun j p hj => ?_) (fun j => ?_) hs
      · exact absurd hj (by simp only [reduceCtorEq, not_false_eq_true])
      · exact absurd hj (by simp only [reduceCtorEq, not_false_eq_true])
      · exact ⟨fun hj => absurd hj Bool.false_ne_true, fun hj => absurd hj not_spared_disband⟩

/-- The map and the history agree in every run. -/
theorem sound_of_reach (hr : (machine κ).Reach Machine.free h) : Sound h :=
  Machine.invariant Sound sound_empty (fun _ _ _ _ hstep hs => sound_of_step hstep hs) hr

end Runs

end Hierarchy
