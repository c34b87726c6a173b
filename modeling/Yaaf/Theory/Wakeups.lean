import Yaaf.Core.TaskResult

/-!
# Whom a Notification Misses

A thread in `wait` tests the flag and goes to sleep as two steps, and it holds
the mutex in between. A write of the flag under that mutex could not fall
between the two. `unlock` does not take it, so its write and its notification
both fit there: the thread has seen the old flag, the notification finds nobody
asleep, and then the thread goes to sleep, for good unless it is woken for no
reason.

That is the only way. Once the flag is down nobody commits to sleep any more,
so after the notification a thread is asleep only if it was already past its
test when the notification came, and the notification is the one step the
condition has to be about.

## Main definitions

* `Lost`: The notification is over and a thread is asleep.
* `Clear`: Nobody is between the test and the sleep when the notification comes.
* `Settling`: What a cleared notification leaves.

## Theorems

* `settling_step`: What the other steps keep of it.
* `no_lost_wakeup`: When no wake-up is lost.
-/

namespace Yaaf.Async

open Machine

/-- `unlock` has completed, and a thread sleeps that no notification is left for. -/
def Lost (s : TaskResult) : Prop :=
  s.unlocking = .completed ∧ .asleep ∈ s.waiting

/-- When the notification comes, no thread has seen the old flag and is not
    asleep yet. -/
def Clear (s : TaskResult) (a : ResultStep) : Prop :=
  a = .notify → .committed ∉ s.waiting

instance (s : TaskResult) (a : ResultStep) : Decidable (Clear s a) :=
  inferInstanceAs (Decidable (a = .notify → .committed ∉ s.waiting))

/-- The flag is down and no thread sleeps or is about to. -/
structure Settling (s : TaskResult) : Prop where
  down : s.runned = false
  awake : .asleep ∉ s.waiting
  uncommitted : .committed ∉ s.waiting

/-- What a thread in `wait` does: it moves, commits only to a flag that is up,
    and falls asleep only when it had committed. -/
theorem wait_cases {s s' : TaskResult} {i : Nat} {pc : Waiting}
    (hget : s.waiting[i]? = some pc) (hstep : s.wait i pc = some s') :
    ∃ pc', s' = s.setWaiting i pc' ∧ (pc' = .committed → s.runned = true) ∧
      (pc' = .asleep → .committed ∈ s.waiting) := by
  cases pc with
  | entering | woken =>
      unfold TaskResult.wait at hstep
      by_cases hfree : s.mutexFree = true
      · rw [if_pos hfree, Option.some.injEq] at hstep
        exact ⟨.testing, hstep.symm, nofun, nofun⟩
      · rw [if_neg hfree] at hstep
        simp only [reduceCtorEq] at hstep
  | testing =>
      rw [TaskResult.wait, Option.some.injEq] at hstep
      by_cases hup : s.runned = true
      · exact ⟨.committed, by rw [← hstep, if_pos hup], fun _ => hup, nofun⟩
      · exact ⟨.checking, by rw [← hstep, if_neg hup], nofun, nofun⟩
  | committed =>
      rw [TaskResult.wait, Option.some.injEq] at hstep
      exact ⟨.asleep, hstep.symm, nofun, fun _ => List.mem_of_getElem? hget⟩
  | checking =>
      rw [TaskResult.wait, Option.some.injEq] at hstep
      by_cases hup : s.runned = true
      · exact ⟨.testing, by rw [← hstep, if_pos hup], nofun, nofun⟩
      · exact ⟨.returned, by rw [← hstep, if_neg hup], nofun, nofun⟩
  | asleep | returned => simp only [TaskResult.wait, reduceCtorEq] at hstep

/-- What `notify_all` does, when `unlock` has come to it. -/
def notified (s : TaskResult) : TaskResult :=
  { s with waiting := s.waiting.map Waiting.notified, unlocking := .completed }

/-- The notification is a step of its own. -/
theorem notify_step {s s' : TaskResult} (hstep : resultStep s .notify = some s') :
    s.unlocking = .written ∧ s' = notified s := by
  simp only [resultStep] at hstep
  split at hstep
  · rename_i hwritten
    exact ⟨hwritten, (Option.some.inj hstep).symm⟩
  · simp only [reduceCtorEq] at hstep

theorem notified_settling {s : TaskResult} (hdown : s.runned = false)
    (hcommitted : .committed ∉ s.waiting) :
    Settling (notified s) := by
  have hcases : ∀ pc : Waiting,
      pc.notified ≠ .asleep ∧ (pc.notified = .committed → pc = .committed) := by
    intro pc
    cases pc <;> simp only [Waiting.notified, ne_eq, reduceCtorEq, not_false_eq_true, implies_true,
      imp_self, and_self]
  refine ⟨hdown, fun hm => ?_, fun hm => ?_⟩
  · rcases List.mem_map.mp hm with ⟨pc, _, heq⟩
    exact (hcases pc).1 heq
  · rcases List.mem_map.mp hm with ⟨pc, hpc, heq⟩
    exact hcommitted ((hcases pc).2 heq ▸ hpc)

/-- What a step does. -/
theorem resultStep_cases {s s' : TaskResult} {a : ResultStep} (hstep : resultStep s a = some s') :
    (a = .write ∧ s' = { s with runned := false, unlocking := .written }) ∨
    (a = .notify ∧ s.unlocking = .written ∧ s' = notified s) ∨
    ∃ i pc, s' = s.setWaiting i pc ∧ (pc = .committed → s.runned = true) ∧
      (pc = .asleep → .committed ∈ s.waiting) := by
  cases a with
  | wait i =>
      unfold resultStep at hstep
      cases hget : s.waiting[i]? with
      | none => simp only [hget, reduceCtorEq] at hstep
      | some pc =>
          simp only [hget] at hstep
          exact Or.inr (Or.inr ⟨i, wait_cases hget hstep⟩)
  | spurious i =>
      simp only [resultStep] at hstep
      split at hstep
      · exact Or.inr (Or.inr ⟨i, .woken, (Option.some.inj hstep).symm, nofun, nofun⟩)
      · simp only [reduceCtorEq] at hstep
  | write =>
      simp only [resultStep] at hstep
      split at hstep
      · exact Or.inl ⟨rfl, (Option.some.inj hstep).symm⟩
      · simp only [reduceCtorEq] at hstep
  | notify => exact Or.inr (Or.inl ⟨rfl, notify_step hstep⟩)

theorem settling_step {s s' : TaskResult} {a : ResultStep} (hstep : resultStep s a = some s')
    (h : Settling s) : Settling s' := by
  rcases resultStep_cases hstep with ⟨_, rfl⟩ | ⟨_, _, rfl⟩ | ⟨i, pc, rfl, hcommit, hsleep⟩
  · exact ⟨rfl, h.awake, h.uncommitted⟩
  · exact notified_settling h.down h.uncommitted
  · -- The thread that moved saw the flag down.
    have hcommitted : pc ≠ .committed := by
      intro hpc
      exact Bool.false_ne_true (h.down.symm.trans (hcommit hpc))
    have hasleep : pc ≠ .asleep := fun hpc => h.uncommitted (hsleep hpc)
    refine ⟨h.down, fun hm => ?_, fun hm => ?_⟩
    · rcases List.mem_or_eq_of_mem_set hm with hold | heq
      · exact h.awake hold
      · exact hasleep heq.symm
    · rcases List.mem_or_eq_of_mem_set hm with hold | heq
      · exact h.uncommitted hold
      · exact hcommitted heq.symm

/-- Once `unlock` has written the flag, it is down. -/
theorem down_of_reach {n : Nat} {s : TaskResult} (h : Reach (taskResultMachine n) free s) :
    s.unlocking ≠ .called → s.runned = false := by
  refine invariant (fun s => s.unlocking ≠ .called → s.runned = false) (absurd rfl) ?_ h
  intro s a s' _ hstep ih
  rcases resultStep_cases hstep with ⟨_, rfl⟩ | ⟨_, hwritten, rfl⟩ | ⟨i, pc, rfl, _, _⟩
  · exact fun _ => rfl
  · exact fun _ => ih (hwritten ▸ nofun)
  · exact ih

/-- In a run whose notification was clear, what comes after it is settling. -/
theorem settling_of_reach {n : Nat} {s : TaskResult} (h : Reach (taskResultMachine n) Clear s) :
    s.unlocking = .completed → Settling s := by
  refine invariant_of (fun s => s.unlocking ≠ .called → s.runned = false)
    (fun s => s.unlocking = .completed → Settling s)
    (fun s hs => down_of_reach (path_weaken (fun _ _ _ => trivial) hs)) nofun ?_ h
  intro s a s' hclear hstep hdown _ ih hcompleted
  have hkeep := settling_step hstep
  rcases resultStep_cases hstep with ⟨_, rfl⟩ | ⟨ha, hwritten, rfl⟩ | ⟨i, pc, rfl, _, _⟩
  · simp only [reduceCtorEq] at hcompleted
  · exact notified_settling (hdown (hwritten ▸ nofun)) (hclear ha)
  · exact hkeep (ih hcompleted)

/-- A thread that had committed to sleep when the notification came can go to
    sleep after it. -/
theorem lost_of_committed {n : Nat} {s : TaskResult} (h : .committed ∈ s.waiting) :
    ∃ t, (taskResultMachine n).Path free (notified s) t ∧ Lost t := by
  rcases List.getElem?_of_mem h with ⟨i, hi⟩
  have hget : (notified s).waiting[i]? = some .committed := by
    simp only [notified, List.getElem?_map, hi]
    rfl
  have hlt : i < (notified s).waiting.length := (List.getElem?_eq_some_iff.mp hget).1
  have hwait : resultStep (notified s) (.wait i) = some ((notified s).setWaiting i .asleep) := by
    simp only [resultStep, hget]
    rfl
  exact ⟨_, Machine.Path.tail (.wait i) (Machine.Path.refl _) trivial hwait, rfl,
    List.mem_set hlt _⟩

/-- No wake-up is lost in a run whose notification comes while no thread is
    between its test of the flag and its sleep. Where the notification comes,
    that is exactly what keeps it from losing one later. -/
theorem no_lost_wakeup (n : Nat) :
    (∀ s, Reach (taskResultMachine n) Clear s → ¬ Lost s) ∧
    ∀ s s', Reach (taskResultMachine n) free s → resultStep s .notify = some s' →
      ((∀ t, (taskResultMachine n).Path free s' t → ¬ Lost t) ↔ .committed ∉ s.waiting) := by
  refine ⟨fun s h hlost => (settling_of_reach h hlost.1).awake hlost.2, ?_⟩
  intro s s' hreach hstep
  rcases notify_step hstep with ⟨hwritten, rfl⟩
  refine ⟨fun hnone hmem => ?_, fun hclear t hpath hlost => ?_⟩
  · rcases lost_of_committed hmem with ⟨t, hpath, hlost⟩
    exact hnone t hpath hlost
  · have hdown := down_of_reach hreach (hwritten ▸ nofun)
    have hsettling : Settling t :=
      path_invariant Settling (fun _ _ _ _ hst => settling_step hst) hpath
        (notified_settling hdown hclear)
    exact hsettling.awake hlost.2

/-- A thread that tests the flag, sleeps, is notified and returns. -/
def wokenRun : List ResultStep :=
  [.wait 0, .wait 0, .wait 0, .write, .notify, .wait 0, .wait 0, .wait 0]

/-- The thread of that run is not left asleep. -/
theorem no_lost_wakeup_woken :
    ((taskResultMachine 1).after wokenRun).waiting = [.returned] ∧
      ¬ Lost ((taskResultMachine 1).after wokenRun) :=
  ⟨by decide, (no_lost_wakeup 1).1 _ (reach_meets wokenRun (by decide))⟩

/-- A thread that tests the flag just before it is written, and sleeps after
    the notification. -/
theorem no_lost_wakeup_missed :
    ¬ ∀ (n : Nat) (s : TaskResult), Reach (taskResultMachine n) free s → ¬ Lost s := by
  intro h
  refine h 1 _ (reach_after [.wait 0, .wait 0, .write, .notify, .wait 0]) ?_
  exact ⟨by decide, by decide⟩

end Yaaf.Async
