import Yaaf.Theory.Population
import Yaaf.Theory.Subtree
import Yaaf.Theory.Threads

/-!
# Standing

A task carries a description and a parent, both captured when it was posted. The actor
stands if they are still right: it is registered with that description, and the parent
is the actor its entry names. Only a stop can change that. Insertions change nothing
of an entry but its child list.

## Main definitions

* `Description.bare`: A description without its child list.
* `Persists`: Nobody has left.
* `Stands`: What a task knows of its actor is right.
* `Retains`: A step that stops nobody, and replaces nobody.
* `Undisturbed`: A step that stops nobody, and orphans nobody.
* `Upright`: Every task stands.

## Theorems

* `stands_of_reach`: In a run without stops everybody stands.

* `retains_of_path`: Where nobody is stopped, nobody leaves.
* `stands_of_path`: Whoever stood stands.
* `forest_of_path`: A forest stays one.
-/

namespace Yaaf

open Machine

variable {π : Type}

/-- A description without its child list. -/
def Description.bare (d : Description) : Description :=
  { d with children := [] }

theorem bare_actor {d e : Description} (h : d.bare = e.bare) : d.actor = e.actor := by
  have hfield : d.bare.actor = e.bare.actor := by rw [h]
  exact hfield

theorem bare_address {d e : Description} (h : d.bare = e.bare) : d.address = e.address := by
  have hfield : d.bare.address = e.bare.address := by rw [h]
  exact hfield

theorem bare_parent {d e : Description} (h : d.bare = e.bare) : d.parent = e.parent := by
  have hfield : d.bare.parent = e.bare.parent := by rw [h]
  exact hfield

theorem bare_above {d e : Description} (h : d.bare = e.bare) : d.above = e.above := by
  unfold Description.above
  rw [bare_parent h]

/-- Whoever was registered is, and is what it was, but for its child list. -/
def Persists (s s' : System π) : Prop :=
  ∀ k d, s.live k = some d → ∃ d', s'.live k = some d' ∧ d'.bare = d.bare

/-- The target of a task is registered with the description that the task has, and
    the parent of the task is the one that is registered. -/
structure Stands (s : System π) (t : ApplyTask) : Prop where
  live : ∃ d, s.live t.target.address.id = some d ∧ d.bare = t.target.bare
  parent : t.parent = (t.target.above.bind s.live).map Description.actor

/-- The step stops nobody, and registers nobody in the place of another. The second can
    only happen where ids come around. -/
structure Retains (s : System π) (a : Action π) : Prop where
  fresh : ∀ x ∈ s.inserting a, s.live x.1 = none
  noStop : s.stopTarget a = none

instance (s : System π) (a : Action π) : Decidable (Retains s a) :=
  decidable_of_iff ((∀ x ∈ s.inserting a, s.live x.1 = none) ∧ s.stopTarget a = none)
    ⟨fun h => ⟨h.1, h.2⟩, fun h => ⟨h.fresh, h.noStop⟩⟩

/-- The step stops nobody, and what it inserts has its parent. -/
structure Undisturbed (s : System π) (a : Action π) : Prop where
  adopts : Adopts s a
  noStop : s.stopTarget a = none

instance (s : System π) (a : Action π) : Decidable (Undisturbed s a) :=
  decidable_of_iff (Adopts s a ∧ s.stopTarget a = none)
    ⟨fun h => ⟨h.1, h.2⟩, fun h => ⟨h.adopts, h.noStop⟩⟩

theorem retains_of_undisturbed {s : System π} {a : Action π} (h : Undisturbed s a) :
    Retains s a where
  fresh x hx := (h.adopts x hx).1
  noStop := h.noStop

section Standing

variable {cfg : Config} {name : String} {s s' s'' : System π}

theorem persists_refl : Persists s s :=
  fun _ d hd => ⟨d, hd, rfl⟩

theorem persists_trans (h : Persists s s') (h' : Persists s' s'') : Persists s s'' := by
  intro k d hd
  rcases h k d hd with ⟨d', hd', heq⟩
  rcases h' k d' hd' with ⟨d'', hd'', heq'⟩
  exact ⟨d'', hd'', heq'.trans heq⟩

/-- Until the threads are joined, only a stop removes anybody. -/
theorem persists_of_step {a : Action π} (hs : step cfg s a = some s') (hreg : Registered s)
    (hopen : s.shutdown.joined = false) (hc : Retains s a) : Persists s s' := by
  intro k d hd
  cases populationRule_of_step hs hreg with
  | kept hsame => exact ⟨d, by rw [samePopulation_live hsame, hd], rfl⟩
  | insert id e n hx ha he hsame =>
      have hne : k ≠ id := by
        rintro rfl
        rw [hc.fresh _ ha] at hd
        exact absurd hd (by simp only [reduceCtorEq, not_false_eq_true])
      rw [samePopulation_live hsame, insertActor_live, if_neg hne, hd]
      refine ⟨_, rfl, ?_⟩
      split <;> rfl
  | stop addr r u hx ha hu hsame =>
      rw [hc.noStop] at ha
      exact absurd ha (by simp only [reduceCtorEq, not_false_eq_true])
  | clear hx hjoined hsame =>
      rw [hopen] at hjoined
      exact absurd hjoined Bool.noConfusion

/-- A parent that was right is right where nobody has left. -/
theorem stands_of_persists {t : ApplyTask} (hp : Persists s s')
    (hroot : ∀ k, t.target.above = some k → ∃ w, s.live k = some w) (h : Stands s t) :
    Stands s' t where
  live := by
    rcases h.live with ⟨d, hd, hbare⟩
    rcases hp _ d hd with ⟨d', hd', hbare'⟩
    exact ⟨d', hd', hbare'.trans hbare⟩
  parent := by
    rw [h.parent]
    cases habove : t.target.above with
    | none => rfl
    | some k =>
        rcases hroot k habove with ⟨w, hw⟩
        rcases hp k w hw with ⟨w', hw', hbare⟩
        simp only [Option.bind_some, hw, hw', Option.map_some, bare_actor hbare]

/-- The parent of whoever stands in a forest is registered. -/
theorem parent_of_stands {t : ApplyTask} (hroot : NoOrphans s) (h : Stands s t) :
    ∀ k, t.target.above = some k → ∃ w, s.live k = some w := by
  intro k hk
  rcases h.live with ⟨d, hd, hbare⟩
  rcases hroot _ d k hd (by rw [bare_above hbare, hk]) with ⟨w, hw, _⟩
  exact ⟨w, hw⟩

variable {i : Nat} {x : Running π} {p : Focus (System π) TaskStep}

theorem hasTask_userPost {t t' : Task} (h : (s.userPost t').HasTask t) :
    s.HasTask t ∨ t = t' := by
  have hrun : (s.userPost t').running = s.running := by rw [userPost_rest]
  unfold System.HasTask at h ⊢
  rw [hrun] at h
  rcases userPost_queue s t' with ⟨hq, hd, _⟩ | ⟨hq, hd⟩ <;> rw [hq, hd] at h
  · rcases h with h | h
    · rcases List.mem_append.mp h with h | h
      · exact Or.inl (Or.inl h)
      · exact Or.inr (List.mem_singleton.mp h)
    · exact Or.inl (Or.inr h)
  · rcases h with h | h | h
    · exact Or.inl (Or.inl h)
    · rcases List.mem_append.mp h with h | h
      · exact Or.inl (Or.inr (Or.inl h))
      · exact Or.inr (List.mem_singleton.mp h)
    · exact Or.inl (Or.inr (Or.inr h))

/-- A task that is posted stands: the worker has just looked the actor and its parent up,
    under the shared lock. -/
theorem stands_of_posts {a : Action π} (hs : step cfg s a = some s') (hreg : Registered s)
    {t : ApplyTask} (hpost : Posts s a (.apply t)) (ht : s'.HasTask (.apply t)) :
    s.HasTask (.apply t) ∨ Stands s t := by
  cases hpost with
  | apply st todo rm m d p hw =>
      have hs : workerStep s st = some s' := (workerStep_of_step hs).2
      rcases visit_entry hreg hw rfl with ⟨k, _, hd, _, _⟩
      have hlive : s.live d.address.id = some d := by rw [live_address hreg.toFiled hd, hd]
      -- The task is there already, or it is the one that is posted.
      have hstands : ∀ {parent : Option ActorPtr},
          parent = (d.above.bind s.live).map Description.actor →
            (s.userPost (.apply ⟨d, parent, m⟩)).HasTask (.apply ⟨d, p, m⟩) →
              s.HasTask (.apply ⟨d, p, m⟩) ∨ Stands s ⟨d, p, m⟩ := by
        intro parent hparent h
        rcases hasTask_userPost h with h | heq
        · exact Or.inl h
        · rw [Task.apply.injEq, ApplyTask.mk.injEq] at heq
          exact Or.inr ⟨⟨d, hlive, rfl⟩, heq.2.1.trans hparent⟩
      cases st <;> simp only [workerStep, hw, visitStep, reduceCtorEq] at hs
      rw [live_of_above] at hstands
      unfold System.live at hstands
      split at hs
      · rename_i hempty
        rw [Option.some.injEq] at hs
        refine hstands (by rw [if_pos hempty, Option.map_none]) ?_
        rw [← hs] at ht
        exact ht
      · rename_i hempty
        split at hs <;> rw [Option.some.injEq] at hs <;> rw [← hs] at ht
        · exact Or.inl ht
        · rename_i up hup
          exact hstands (by rw [if_neg hempty, hup, Option.map_some]) ht

/-- Until the threads are joined, every task stands. -/
def Upright (s : System π) : Prop :=
  s.shutdown.joined = false → ∀ t, s.HasTask (.apply t) → Stands s t

theorem step_upright {a : Action π} (hs : step cfg s a = some s') (hc : Undisturbed s a)
    (hreg : Registered s) (hroot : NoOrphans s) (h : Upright s) : Upright s' := by
  intro hopen' t ht
  have hopen : s.shutdown.joined = false := by
    cases hjoined : s.shutdown.joined with
    | false => rfl
    | true =>
        have hjoined' : s'.shutdown.joined = true := by
          rcases step_shutdown hs with hsame | ⟨hmono, _⟩
          · rw [hsame, hjoined]
          · exact hmono hjoined
        rw [hjoined'] at hopen'
        exact absurd hopen' Bool.noConfusion
  have hpers : Persists s s' := persists_of_step hs hreg hopen (retains_of_undisturbed hc)
  have hstands : Stands s t := by
    rcases poolRule_hasTask (poolRule_of_stepRule (stepRule_of_step hs).2) ht with hold | hpost
    · exact h hopen t hold
    · rcases stands_of_posts hs hreg hpost ht with hold | hnew
      · exact h hopen t hold
      · exact hnew
  exact stands_of_persists hpers (parent_of_stands hroot hstands) hstands

/-- A context begins without mail to deliver. -/
theorem makeContext_tasks (t : ApplyTask) :
    ¬ (makeContext (π := π) cfg name).HasTask (.apply t) := by
  rintro (ht | ht | ⟨r, hr, _⟩)
  · exact makeContext_queue t ht
  · have hnone : (makeContext (π := π) cfg name).dropped = [] := makeContext_dropped
    exact absurd (hnone ▸ ht) List.not_mem_nil
  · have hnone : (makeContext (π := π) cfg name).running = [] := makeContext_running
    exact absurd (hnone ▸ hr) List.not_mem_nil

/-- In a run in which nobody was stopped or orphaned, the target of every thread stands. -/
theorem stands_of_reach {t : ApplyTask} {pc : ApplyPc π}
    (h : (context cfg name).Reach Undisturbed s) (hi : s.running[i]? = some (.applying t pc)) :
    Stands s t := by
  have hup : Upright s := by
    have hknown : ∀ s, (context cfg name).Reach Undisturbed s →
        Registered s ∧ NoOrphans (π := π) s := fun s h =>
      ⟨reach_registered h, reach_noOrphans (path_weaken (fun _ _ hc => hc.adopts) h)⟩
    exact invariant_of (fun s => Registered s ∧ NoOrphans s) Upright hknown
      (fun _ t ht => absurd ht (makeContext_tasks t))
      (fun s a s' hc hs hJ _ h => step_upright hs hc hJ.1 hJ.2 h) h
  exact hup (joined_of_running (reach_joined h) hi) t
    (Or.inr (Or.inr ⟨_, List.mem_of_getElem? hi, rfl⟩))

/-- Nor does anybody while a thread is followed. -/
theorem persists_of_followed {a : Action π} {q : Focus (System π) TaskStep}
    (h : (context cfg name).Reach free p.state) (hs : (followed cfg name).step p a = some q)
    (hx : userPool.slot p = some x) (hc : Retains p.state a) : Persists p.state q.state := by
  have hst : step cfg p.state a = some q.state := (focus_step.mp hs).1
  refine persists_of_step hst (reach_registered h) ?_ hc
  exact joined_of_running (reach_joined h) hx

/-- Where nobody is stopped while a thread is followed, nobody leaves. -/
theorem retains_of_path (h : (context cfg name).Reach free s) (hi : s.running[i]? = some x)
    (hp : (followed cfg name).Path (fun p a => Retains p.state a) ⟨s, i, []⟩ p) :
    Persists s p.state := by
  have hstep : ∀ p a q y, Retains p.state a → (followed cfg name).step p a = some q →
      userPool.slot p = some y → (context cfg name).Reach free p.state ∧ Persists s p.state →
        (context cfg name).Reach free q.state ∧ Persists s q.state := by
    rintro p a q y hc hs hy ⟨hr, hpers⟩
    exact ⟨Machine.Path.tail a hr trivial (focus_step.mp hs).1,
      persists_trans hpers (persists_of_followed hr hs hy hc)⟩
  have hrule : ∃ y, userPool.slot p = some y ∧ (context cfg name).Reach free p.state ∧
      Persists s p.state :=
    followed_rule (fun p _ => (context cfg name).Reach free p.state ∧ Persists s p.state)
      (fun p a q x _ _ hc hs _ hx _ hJ => hstep p a q x hc hs hx hJ)
      (fun p a q x hc hs _ hx _ hJ => hstep p a q x hc hs hx hJ) hp hi ⟨h, persists_refl⟩
  rcases hrule with ⟨_, _, _, hpers⟩
  exact hpers

/-- Where nobody is orphaned either, everybody's parent stays. -/
theorem persists_of_path (h : (context cfg name).Reach free s) (hi : s.running[i]? = some x)
    (hp : (followed cfg name).Path (fun p a => Undisturbed p.state a) ⟨s, i, []⟩ p)
    (hroot : NoOrphans s) : Persists s p.state ∧ NoOrphans p.state := by
  refine ⟨retains_of_path h hi (path_weaken (fun _ _ => retains_of_undisturbed) hp), ?_⟩
  have hpath : (context cfg name).Path Undisturbed s p.state := by
    refine focus_path ?_ hp
    exact fun _ _ hc => hc
  have hall : Registered p.state ∧ NoOrphans p.state := by
    refine path_invariant (fun u => Registered u ∧ NoOrphans u) ?_ hpath ⟨reach_registered h, hroot⟩
    rintro u a v hc hs ⟨hreg, hno⟩
    exact ⟨step_registered hs hreg, step_noOrphans hs hc.adopts hreg hno⟩
  exact hall.2

/-- A forest stays one, as long as ids do not come around. -/
theorem forest_of_path (h : (context cfg name).Reach free s) (hi : s.running[i]? = some x)
    (hp : (followed cfg name).Path (fun p a => Undisturbed p.state a) ⟨s, i, []⟩ p)
    (hforest : Forest s) (hfew : p.state.fewCalls) : Forest p.state :=
  forest_of_noOrphans (reach_of_followed h hp) (persists_of_path h hi hp hforest.rooted).2 hfew

end Standing

end Yaaf
