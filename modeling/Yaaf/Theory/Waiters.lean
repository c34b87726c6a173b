import Yaaf.Theory.Workers

/-!
# Who Stop Leaves Waiting

A call of `post` hands out a `task_result`, and `wait` on it returns once the
task has run. `stop` runs nothing: a worker thread that sees `_stop_flag` leaves
with the queue as it is, and nobody releases the results of what is left there.
`post` would have a way to say that a task will not be run, a null result, but it
asks `_is_stoped`, which is set after the joins. Between the two flags it accepts
tasks for threads that are gone.

So a waiter is left behind by two steps only: by the one that sets the flag, for
a task that is queued then, and by the push of a `post` that comes after it. What
a thread was running at that moment is finished before the joins are over.

## Main definitions

* `returnsSingle`: The tasks called `SINGLE` return `SINGLE`.
* `Settled`: A task that has finished or is being run.
* `strands`: What a step leaves to nobody.
* `Releases`: A step strands no `SINGLE` task that is not settled.

## Theorems

* `queued_or_settled`: Where a `SINGLE` task is while the pool is not stopping.
* `stop_releases_waiters`: When every result is released by the end of `stop`.
-/

namespace Yaaf.Async

open Slots Trace Machine ThreadsPool

/-- The tasks called `SINGLE` return `SINGLE`. -/
def returnsSingle (single : TaskWrapper → Bool) (s : ThreadsPool) : PoolStep → Prop
  | .logic i (.applied (some .again)) => ∀ t, s.threads[i]? = some (.running t) → single t = false
  | _ => True

instance (single : TaskWrapper → Bool) (s : ThreadsPool) (a : PoolStep) :
    Decidable (returnsSingle single s a) := by
  unfold returnsSingle
  split
  · exact decidable_of_iff (∀ pc ∈ s.threads[_]?, ∀ t ∈ pc.held, pc = .running t → single t = false)
      ⟨fun h t ht => h _ ht t rfl rfl, fun h pc hpc t _ hrun => h t (hrun ▸ hpc)⟩
  · exact .isTrue trivial

/-- A task that has finished, so that its result is released, or that a thread
    is running. -/
def Settled (s : ThreadsPool) (t : TaskWrapper) : Prop :=
  s.runned t = false ∨ .running t ∈ s.threads

/-- What a step leaves to nobody: the queue when the stop flag is set, and what
    is pushed to it later. -/
def strands (s : ThreadsPool) (a : PoolStep) (t : TaskWrapper) : Prop :=
  match a with
  | .stopBegin => t ∈ s.inQueue
  | .postPush j => s.stopFlag = true ∧ s.posting[j]? = some t
  | _ => False

/-- Every `SINGLE` task that a step leaves to nobody is settled. -/
structure Releases (single : TaskWrapper → Bool) (s : ThreadsPool) (a : PoolStep) : Prop where
  returns : returnsSingle single s a
  settled : ∀ t, single t = true → strands s a t → Settled s t

/-- A step, as far as somebody who waits for a task can tell. -/
inductive WaitRule (p : PoolParams) (s : ThreadsPool) : PoolStep → ThreadsPool → Prop
  /-- No thread moves, nothing is pushed and no flag is set. -/
  | still {a : PoolStep} (s' : ThreadsPool) (hthreads : s'.threads = s.threads)
      (hrunned : s'.runned = s.runned) (hflag : s'.stopFlag = s.stopFlag)
      (hposted : ∀ t, .posted t ∈ s'.trace → .posted t ∈ s.trace)
      (hstoped : s'.isStoped = true → s.isStoped = true)
      (hstrands : ∀ t, ¬ strands s a t) : WaitRule p s a s'
  | push (j : Nat) (u : TaskWrapper) (hj : s.posting[j]? = some u) : WaitRule p s (.postPush j)
      ((pushTask { s with posting := s.posting.eraseIdx j } u).addEvent (.posted u))
  | stopBegin : WaitRule p s .stopBegin { s with stopFlag := true }
  | stopEnd (hflag : s.stopFlag = true) (hall : ∀ pc ∈ s.threads, pc = .exited) :
      WaitRule p s .stopEnd { s with isStoped := true }
  | logic (i : Nat) (st : LogicStep) (pc : PoolLogic) (s' : ThreadsPool)
      (hi : s.threads[i]? = some pc) (h : poolLogic p s i st pc = some s') :
      WaitRule p s (.logic i st) s'

/-- What a step of a worker thread does to the thread and to the results. -/
structure Turns (s s' : ThreadsPool) (i : Nat) (st : LogicStep) (pc pc' : PoolLogic) : Prop where
  threads : s'.threads = s.threads.set i pc'
  flag : s'.stopFlag = s.stopFlag
  stoped : s'.isStoped = s.isStoped
  posted : ∀ t, .posted t ∈ s'.trace → .posted t ∈ s.trace
  alive : pc ≠ .exited
  /-- A stopping pool hands out nothing. -/
  held : s.stopFlag = true → pc'.held = none ∨ pc'.held = pc.held
  /-- Only a return of `SINGLE` releases a result. -/
  runned : ∀ t, s'.runned t = false ↔
    s.runned t = false ∨ pc = .running t ∧ st = .applied (some .single)
  /-- A thread stays with a task until it returns. -/
  returned : ∀ t, pc = .running t →
    pc' = pc ∨ st = .applied (some .single) ∨ st = .applied (some .again)
  /-- What is held beyond a run has returned `REPEAT`. -/
  again : ∀ t, pc'.held = some t → pc' ≠ .running t →
    pc = .running t ∧ st = .applied (some .again) ∨ pc.held = some t ∧ pc ≠ .running t

section Waiters

variable {p : PoolParams} {single : TaskWrapper → Bool} {s s' : ThreadsPool} {a : PoolStep}

/-- An event that is no post adds none. -/
theorem posted_of_append {ev : PoolEvent} {evs : List PoolEvent} (hev : ∀ t, ev ≠ .posted t)
    {t : TaskWrapper} (h : .posted t ∈ evs ++ [ev]) : .posted t ∈ evs := by
  rcases List.mem_append.mp h with hold | hnew
  · exact hold
  · exact absurd (List.mem_singleton.mp hnew).symm (hev t)

theorem waitRule_of_step (hs : poolStep p s a = some s') : WaitRule p s a s' := by
  unfold poolStep at hs
  rw [Option.ite_none_left_eq_some] at hs
  have hs := hs.2
  cases a with
  | logic i st =>
      cases hi : s.threads[i]? with
      | none => simp only [hi, reduceCtorEq] at hs
      | some pc =>
          simp only [hi] at hs
          exact .logic i st pc s' hi hs
  | postBegin t =>
      simp only at hs
      split at hs <;> rw [Option.some.injEq] at hs <;> rw [← hs] <;>
        exact .still _ rfl rfl rfl (fun _ => id) id fun _ => id
  | postPush j =>
      cases hj : s.posting[j]? with
      | none => simp only [hj, reduceCtorEq] at hs
      | some u =>
          simp only [hj, Option.ite_none_right_eq_some, Option.some.injEq] at hs
          rw [← hs.2]
          exact .push j u hj
  | stopBegin =>
      simp only [Option.ite_none_right_eq_some, Option.some.injEq] at hs
      rw [← hs.2]
      exact .stopBegin
  | stopEnd =>
      simp only [Option.ite_none_right_eq_some, Option.some.injEq] at hs
      rw [← hs.2]
      exact .stopEnd hs.1.1 fun pc hpc => beq_iff_eq.mp (List.all_eq_true.mp hs.1.2 pc hpc)
  | flushBegin =>
      simp only [Option.some.injEq] at hs
      rw [← hs]
      refine .still _ rfl rfl rfl (fun t ht => ?_) id fun _ => id
      exact posted_of_append (fun _ => PoolEvent.noConfusion) ht
  | flushTest j =>
      simp only at hs
      split at hs
      · rw [Option.ite_none_right_eq_some] at hs
        rcases hs with ⟨_, hs⟩
        split at hs <;> rw [Option.some.injEq] at hs <;> rw [← hs] <;>
          exact .still _ rfl rfl rfl (fun _ => id) id fun _ => id
      · exact absurd hs (by simp only [reduceCtorEq, not_false_eq_true])
  | flushLoad j =>
      simp only at hs
      split at hs
      · split at hs <;> rw [Option.some.injEq] at hs <;> rw [← hs]
        · refine .still _ rfl rfl rfl (fun t ht => ?_) id fun _ => id
          exact posted_of_append (fun _ => PoolEvent.noConfusion) ht
        · exact .still _ rfl rfl rfl (fun _ => id) id fun _ => id
      · exact absurd hs (by simp only [reduceCtorEq, not_false_eq_true])

theorem turns_of_logic {i : Nat} {st : LogicStep} {pc : PoolLogic} (hi : s.threads[i]? = some pc)
    (hs : poolLogic p s i st pc = some s') : ∃ pc', Turns s s' i st pc pc' := by
  -- A step outside of a run, which releases nothing.
  have hmove : ∀ {u : ThreadsPool} pc', u.threads = s.threads.set i pc' →
      u.stopFlag = s.stopFlag → u.isStoped = s.isStoped →
      (∀ t, .posted t ∈ u.trace → .posted t ∈ s.trace) → u.runned = s.runned →
      pc ≠ .exited → (∀ t, pc ≠ .running t) →
      (pc'.held = pc.held ∨ pc'.held = none ∨ s.stopFlag = false ∧ ∃ v, pc' = .running v) →
      ∃ pc', Turns s u i st pc pc' := by
    intro u pc' hthreads hflag hstoped hposted hrunned halive hrun hheld
    refine ⟨pc', hthreads, hflag, hstoped, hposted, halive, fun hstop => ?_, fun t => ?_,
      fun t ht => absurd ht (hrun t), fun t ht hne => ?_⟩
    · rcases hheld with h | h | ⟨h, _⟩
      · exact Or.inr h
      · exact Or.inl h
      · exact absurd (hstop.symm.trans h) Bool.noConfusion
    · rw [hrunned]
      exact ⟨Or.inl, fun h => h.resolve_right fun hc => hrun t hc.1⟩
    · rcases hheld with h | h | ⟨_, v, rfl⟩
      · exact Or.inr ⟨h ▸ ht, hrun t⟩
      · exact absurd (h.symm.trans ht) (by simp only [reduceCtorEq, not_false_eq_true])
      · exact absurd (congrArg PoolLogic.running (Option.some.inj ht)) hne
  cases st with
  | loop =>
      cases pc <;> simp only [poolLogic, reduceCtorEq, Option.some.injEq] at hs
      rw [← hs]
      refine hmove _ rfl rfl rfl (fun _ => id) rfl PoolLogic.noConfusion
        (fun _ => PoolLogic.noConfusion) (Or.inr (Or.inl ?_))
      split <;> rfl
  | pick =>
      cases pc <;> simp only [poolLogic, reduceCtorEq, Option.ite_none_right_eq_some] at hs
      rcases hs with ⟨_, hs⟩
      split at hs
      · rw [Option.some.injEq] at hs
        rw [← hs]
        exact hmove .exited rfl rfl rfl (fun _ => id) rfl PoolLogic.noConfusion
          (fun _ => PoolLogic.noConfusion) (Or.inr (Or.inl rfl))
      · rename_i hflag
        rw [Option.map_eq_some_iff] at hs
        rcases hs with ⟨t, _, rfl⟩
        exact hmove (.running t) rfl rfl rfl
          (fun _ => posted_of_append fun _ => PoolEvent.noConfusion) rfl PoolLogic.noConfusion
          (fun _ => PoolLogic.noConfusion)
          (Or.inr (Or.inr ⟨Bool.eq_false_iff.mpr hflag, t, rfl⟩))
  | applied result =>
      cases pc <;> rcases result with _ | _ | _ <;>
        simp only [poolLogic, reduceCtorEq, Option.some.injEq] at hs
      case running.none t =>
          rw [← hs]
          refine ⟨.running t, ?_, rfl, rfl, fun _ => id, PoolLogic.noConfusion,
            fun _ => Or.inr rfl, fun u => ⟨Or.inl, fun h => h.resolve_right fun hc => ?_⟩,
            fun _ _ => Or.inl rfl, fun u hu hne => ?_⟩
          · rcases List.getElem?_eq_some_iff.mp hi with ⟨hlt, heq⟩
            exact (heq ▸ List.set_getElem_self hlt).symm
          · exact absurd hc.2 (by simp only [LogicStep.applied.injEq, reduceCtorEq,
              not_false_eq_true])
          · exact absurd (congrArg PoolLogic.running (Option.some.inj hu)) hne
      case running.some.single t =>
          rw [← hs]
          refine ⟨.leaving, rfl, rfl, rfl, fun _ => posted_of_append fun _ => PoolEvent.noConfusion,
            PoolLogic.noConfusion, fun _ => Or.inl rfl, fun u => ?_,
            fun _ _ => Or.inr (Or.inl rfl), fun u hu _ => absurd hu (by
              simp only [PoolLogic.held, reduceCtorEq, not_false_eq_true])⟩
          change (if u = t then false else s.runned u) = false ↔ _
          by_cases hut : u = t
          · rw [if_pos hut, hut]
            exact ⟨fun _ => Or.inr ⟨rfl, rfl⟩, fun _ => rfl⟩
          · rw [if_neg hut]
            refine ⟨Or.inl, fun h => h.resolve_right fun hc => hut ?_⟩
            exact (PoolLogic.running.inj hc.1).symm
      case running.some.again t =>
          rw [← hs]
          refine ⟨.checking t, rfl, rfl, rfl,
            fun _ => posted_of_append fun _ => PoolEvent.noConfusion, PoolLogic.noConfusion,
            fun _ => Or.inr rfl, fun u => ⟨Or.inl, fun h => h.resolve_right fun hc => ?_⟩,
            fun _ _ => Or.inr (Or.inr rfl), fun u hu _ => Or.inl ⟨?_, rfl⟩⟩
          · exact absurd hc.2 (by simp only [LogicStep.applied.injEq, Option.some.injEq,
              reduceCtorEq, not_false_eq_true])
          · rw [Option.some.inj hu]
  | check =>
      cases pc <;> simp only [poolLogic, reduceCtorEq, Option.ite_none_right_eq_some] at hs
      rcases hs with ⟨_, hs⟩
      split at hs <;> rw [Option.some.injEq] at hs <;> rw [← hs]
      · exact hmove _ rfl rfl rfl (fun _ => id) rfl PoolLogic.noConfusion
          (fun _ => PoolLogic.noConfusion) (Or.inl rfl)
      · exact hmove _ rfl rfl rfl (fun _ => posted_of_append fun _ => PoolEvent.noConfusion) rfl
          PoolLogic.noConfusion (fun _ => PoolLogic.noConfusion) (Or.inl rfl)
  | requeue =>
      cases pc <;> simp only [poolLogic, reduceCtorEq, Option.ite_none_right_eq_some,
        Option.some.injEq] at hs
      rw [← hs.2]
      exact hmove .leaving rfl rfl rfl (fun _ => id) rfl PoolLogic.noConfusion
        (fun _ => PoolLogic.noConfusion) (Or.inr (Or.inl rfl))
  | decrement =>
      cases pc <;> simp only [poolLogic, reduceCtorEq, Option.some.injEq] at hs
      rw [← hs]
      exact hmove .top rfl rfl rfl (fun _ => id) rfl PoolLogic.noConfusion
        (fun _ => PoolLogic.noConfusion) (Or.inr (Or.inl rfl))

/-- A `SINGLE` task is held by its run only. -/
def HeldRunning (single : TaskWrapper → Bool) (s : ThreadsPool) : Prop :=
  ∀ pc ∈ s.threads, ∀ t, single t = true → pc.held = some t → pc = .running t

theorem heldRunning_step (hs : poolStep p s a = some s') (hc : returnsSingle single s a)
    (h : HeldRunning single s) : HeldRunning single s' := by
  cases waitRule_of_step hs with
  | still s' hthreads =>
      intro pc hpc
      exact h pc (hthreads ▸ hpc)
  | logic i st pc s' hi hlogic =>
      rcases turns_of_logic hi hlogic with ⟨pc', hturn⟩
      intro q hq t ht hheld
      rw [hturn.threads] at hq
      rcases List.mem_or_eq_of_mem_set hq with hold | rfl
      · exact h q hold t ht hheld
      · by_contra hne
        rcases hturn.again t hheld hne with ⟨hrun, rfl⟩ | ⟨hheld', hne'⟩
        · exact absurd ht (by rw [hc t (hrun ▸ hi)]; exact Bool.false_ne_true)
        · exact hne' (h pc (List.mem_of_getElem? hi) t ht hheld')
  | _ => exact h

theorem heldRunning_of_reach (h : (poolMachine p).Reach (returnsSingle single) s) :
    HeldRunning single s := by
  refine invariant (HeldRunning single) (fun pc hpc t _ hheld => ?_)
    (fun u a u' hc hstep hu => heldRunning_step hstep hc hu) h
  rw [List.eq_of_mem_replicate hpc] at hheld
  exact absurd hheld (by simp only [PoolLogic.held, reduceCtorEq, not_false_eq_true])

/-- The results of finished tasks are released. -/
def Released (s : ThreadsPool) : Prop :=
  ∀ t, 0 < s.ended t .single → s.runned t = false

/-- Whoever is settled stays settled. -/
theorem settled_step (hs : poolStep p s a = some s') (hc : returnsSingle single s a)
    {t : TaskWrapper} (ht : single t = true) (h : Settled s t) : Settled s' t := by
  cases waitRule_of_step hs with
  | still s' hthreads hrunned =>
      unfold Settled
      rw [hthreads, hrunned]
      exact h
  | logic i st pc s' hi hlogic =>
      rcases turns_of_logic hi hlogic with ⟨pc', hturn⟩
      rcases h with h | h
      · exact Or.inl ((hturn.runned t).mpr (Or.inl h))
      · rcases List.getElem_of_mem h with ⟨j, hj, hjt⟩
        have hj' : s.threads[j]? = some (.running t) := List.getElem?_eq_some_iff.mpr ⟨hj, hjt⟩
        by_cases hij : i = j
        · rw [← hij, hi, Option.some.injEq] at hj'
          rcases hturn.returned t hj' with hsame | rfl | rfl
          · refine Or.inr ?_
            rw [hturn.threads, hsame, hj']
            exact List.mem_of_getElem? (List.getElem?_set_self (hij ▸ hj))
          · exact Or.inl ((hturn.runned t).mpr (Or.inr ⟨hj', rfl⟩))
          · exact absurd ht (by rw [hc t (hj' ▸ hi)]; exact Bool.false_ne_true)
        · refine Or.inr (List.mem_of_getElem? (i := j) ?_)
          rw [hturn.threads, List.getElem?_set_ne hij]
          exact hj'
  | _ => exact h

theorem released_step (hr : PoolRule p s a s') (h : Released s) : Released s' := by
  intro t ht
  -- An event that ends nothing leaves the count.
  have hquiet : ∀ ev : PoolEvent, ev.ends t .single = false →
      0 < (s.addEvent ev).ended t .single → s.runned t = false := by
    intro ev hev hpos
    rw [ended_quiet s hev] at hpos
    exact h t hpos
  cases hr with
  | single i u hi =>
      change (if t = u then false else s.runned t) = false
      by_cases htu : t = u
      · rw [if_pos htu]
      · rw [if_neg htu]
        change 0 < (s.addEvent (.runEnd _ u .single)).ended t .single at ht
        rw [ended_runEnd, beq_eq_false_iff_ne.mpr (Ne.symm htu)] at ht
        exact h t ht
  | take i u hi hfree hu => exact hquiet (.runBegin _ u) rfl ht
  | again i u hi =>
      refine hquiet (.runEnd _ u .again) ?_ ht
      change (u == t && _) = false
      exact Bool.and_false _
  | goesOn i u hi => exact hquiet (.runBegin _ u) rfl ht
  | push j u hj hfree => exact hquiet (.posted u) rfl ht
  | call => exact hquiet .flushCalled rfl ht
  | done j called hj hz => exact hquiet (.flushReturned called) rfl ht
  | _ => exact h t ht

theorem released_of_reach {C : ThreadsPool → PoolStep → Prop} (h : (poolMachine p).Reach C s) :
    Released s := by
  refine invariant Released (fun t ht => ?_)
    (fun _ _ _ _ hstep hu => released_step (poolRule_of_step hstep) hu) h
  change 0 < 0 at ht
  exact absurd ht (Nat.lt_irrefl 0)

/-- A `SINGLE` task that was posted is in the queue, or is settled. -/
theorem queued_or_settled (h : (poolMachine p).Reach (returnsSingle single) s)
    {t : TaskWrapper} (ht : single t = true) (hposted : .posted t ∈ s.trace) :
    t ∈ s.inQueue ∨ Settled s t := by
  have hbalance := conserves_of_reach h t
  have hposts : 0 < s.posts t := List.count_pos_iff.mpr hposted
  by_cases hqueue : t ∈ s.inQueue
  · exact Or.inl hqueue
  · have hnone : s.queued t = 0 := List.count_eq_zero.mpr hqueue
    by_cases hended : 0 < s.ended t .single
    · exact Or.inr (Or.inl (released_of_reach h t hended))
    · have hhold : 0 < s.holders t := by omega
      rcases List.countP_pos_iff.mp hhold with ⟨pc, hmem, hpc⟩
      have hrun := heldRunning_of_reach h pc hmem t ht (beq_iff_eq.mp hpc)
      exact Or.inr (Or.inr (hrun ▸ hmem))

/-- Once the stop flag is set, every `SINGLE` task that was posted is settled. -/
def AllSettled (single : TaskWrapper → Bool) (s : ThreadsPool) : Prop :=
  s.stopFlag = true → ∀ t, single t = true → .posted t ∈ s.trace → Settled s t

theorem allSettled_step (hs : poolStep p s a = some s') (hc : Releases single s a)
    (hreach : (poolMachine p).Reach (returnsSingle single) s) (h : AllSettled single s) :
    AllSettled single s' := by
  intro hstop t ht hposted
  -- Whoever was settled before still is.
  have hkept : Settled s t → Settled s' t := settled_step hs hc.returns ht
  cases waitRule_of_step hs with
  | still s' hthreads hrunned hflag hold => exact hkept (h (hflag ▸ hstop) t ht (hold t hposted))
  | push j u hj =>
      rcases List.mem_append.mp hposted with hold | hnew
      · exact hkept (h hstop t ht hold)
      · rw [List.mem_singleton, PoolEvent.posted.injEq] at hnew
        exact hkept (hc.settled t ht ⟨hstop, hnew ▸ hj⟩)
  | stopBegin =>
      rcases queued_or_settled hreach ht hposted with hqueue | hsettled
      · exact hkept (hc.settled t ht hqueue)
      · exact hkept hsettled
  | stopEnd hflag => exact hkept (h hflag t ht hposted)
  | logic i st pc s' hi hlogic =>
      rcases turns_of_logic hi hlogic with ⟨pc', hturn⟩
      exact hkept (h (hturn.flag ▸ hstop) t ht (hturn.posted t hposted))

theorem allSettled_of_reach (h : (poolMachine p).Reach (Releases single) s) :
    AllSettled single s := by
  refine invariant_of (fun u => (poolMachine p).Reach (returnsSingle single) u) (AllSettled single)
    (fun u hu => path_weaken (fun _ _ hc => hc.returns) hu)
    (fun hstop => absurd hstop Bool.false_ne_true)
    (fun u a u' hc hstep hreach _ hu => allSettled_step hstep hc hreach hu) h

/-- When `stop` has returned, the threads are gone for good. -/
def AllExited (s : ThreadsPool) : Prop :=
  s.isStoped = true → s.stopFlag = true ∧ ∀ pc ∈ s.threads, pc = .exited

theorem allExited_step (hs : poolStep p s a = some s') (h : AllExited s) : AllExited s' := by
  intro hstoped
  cases waitRule_of_step hs with
  | still s' hthreads hrunned hflag hposted hback =>
      rw [hthreads, hflag]
      exact h (hback hstoped)
  | push => exact h hstoped
  | stopBegin => exact ⟨rfl, (h hstoped).2⟩
  | stopEnd hflag hall => exact ⟨hflag, hall⟩
  | logic i st pc s' hi hlogic =>
      rcases turns_of_logic hi hlogic with ⟨pc', hturn⟩
      have hexited := (h (hturn.stoped ▸ hstoped)).2 pc (List.mem_of_getElem? hi)
      exact absurd hexited hturn.alive

theorem allExited_of_reach {C : ThreadsPool → PoolStep → Prop} (h : (poolMachine p).Reach C s) :
    AllExited s :=
  invariant AllExited (fun hstoped => absurd hstoped Bool.false_ne_true)
    (fun _ _ _ _ hstep hu => allExited_step hstep hu) h

/-- A task that nobody will run: the pool is stopping, no thread holds it and
    its result is not released. -/
structure Stranded (s : ThreadsPool) (t : TaskWrapper) : Prop where
  stopping : s.stopFlag = true
  unheld : ∀ pc ∈ s.threads, pc.held ≠ some t
  waiting : s.runned t = true

theorem stranded_step (hs : poolStep p s a = some s') {t : TaskWrapper} (h : Stranded s t) :
    Stranded s' t := by
  cases waitRule_of_step hs with
  | still s' hthreads hrunned hflag =>
      exact ⟨by rw [hflag, h.stopping], by rw [hthreads]; exact h.unheld,
        by rw [hrunned, h.waiting]⟩
  | push => exact ⟨h.stopping, h.unheld, h.waiting⟩
  | stopBegin => exact ⟨rfl, h.unheld, h.waiting⟩
  | stopEnd => exact ⟨h.stopping, h.unheld, h.waiting⟩
  | logic i st pc s' hi hlogic =>
      rcases turns_of_logic hi hlogic with ⟨pc', hturn⟩
      have hpc := h.unheld pc (List.mem_of_getElem? hi)
      refine ⟨by rw [hturn.flag, h.stopping], fun q hq => ?_, ?_⟩
      · rw [hturn.threads] at hq
        rcases List.mem_or_eq_of_mem_set hq with hold | rfl
        · exact h.unheld q hold
        · rcases hturn.held h.stopping with hnone | hsame
          · rw [hnone]
            simp only [ne_eq, reduceCtorEq, not_false_eq_true]
          · rw [hsame]
            exact hpc
      · rw [← Bool.not_eq_false, hturn.runned t]
        rintro (hr | ⟨hrun, _⟩)
        · exact absurd (h.waiting.symm.trans hr) Bool.noConfusion
        · exact hpc (by rw [hrun]; rfl)

/-- A step that strands a task that is not settled leaves it stranded. -/
theorem stranded_of_strands (hs : poolStep p s a = some s')
    (hreach : (poolMachine p).Reach (returnsSingle single) s) {t : TaskWrapper}
    (ht : single t = true) (hstrands : strands s a t) (hno : ¬ Settled s t) :
    .posted t ∈ s'.trace ∧ Stranded s' t := by
  have hwaiting : s.runned t = true := by
    by_contra hrun
    exact hno (Or.inl (Bool.eq_false_iff.mpr hrun))
  have hunheld : ∀ pc ∈ s.threads, pc.held ≠ some t := fun pc hpc hheld =>
    hno (Or.inr (heldRunning_of_reach hreach pc hpc t ht hheld ▸ hpc))
  cases waitRule_of_step hs with
  | push j u hj =>
      rcases hstrands with ⟨hstop, hjt⟩
      rw [hj, Option.some.injEq] at hjt
      exact ⟨List.mem_append_right _ (hjt ▸ List.mem_singleton.mpr rfl), hstop, hunheld, hwaiting⟩
  | stopBegin =>
      have hbalance := conserves_of_reach hreach t
      have hqueued : 0 < s.queued t := List.count_pos_iff.mpr hstrands
      have hposts : 0 < s.posts t := by omega
      exact ⟨List.count_pos_iff.mp hposts, rfl, hunheld, hwaiting⟩
  | still s' hthreads hrunned hflag hposted hstoped hnone => exact absurd hstrands (hnone t)
  | stopEnd => exact absurd hstrands (fun h => h)
  | logic => exact absurd hstrands (fun h => h)

end Waiters

/-- `stop` releases the waiters exactly if no step strands a task: in every run
    whose steps strand no `SINGLE` task, the result of every `SINGLE` task that
    was posted is released once `stop` has returned. A step that does strand one
    leaves a result that nothing will ever release. -/
theorem stop_releases_waiters (p : PoolParams) (single : TaskWrapper → Bool) {s : ThreadsPool}
    (h : (poolMachine p).Reach (Releases single) s) :
    (s.isStoped = true → ∀ t, single t = true → .posted t ∈ s.trace → s.runned t = false) ∧
      ∀ a s', poolStep p s a = some s' → returnsSingle single s a → ¬ Releases single s a →
        ∃ t, single t = true ∧ .posted t ∈ s'.trace ∧
          ∀ u, (poolMachine p).Path free s' u → u.runned t = true := by
  have hreach : (poolMachine p).Reach (returnsSingle single) s :=
    path_weaken (fun _ _ hc => hc.returns) h
  refine ⟨fun hstoped t ht hposted => ?_, fun a s' hs hret hno => ?_⟩
  · rcases allExited_of_reach h hstoped with ⟨hstop, hall⟩
    rcases allSettled_of_reach h hstop t ht hposted with hrun | hmem
    · exact hrun
    · exact absurd (hall _ hmem) PoolLogic.noConfusion
  · have hbad : ∃ t, single t = true ∧ strands s a t ∧ ¬ Settled s t := by
      by_contra hall
      push Not at hall
      exact hno ⟨hret, hall⟩
    rcases hbad with ⟨t, ht, hstrands, hunsettled⟩
    rcases stranded_of_strands hs hreach ht hstrands hunsettled with ⟨hposted, hleft⟩
    refine ⟨t, ht, hposted, fun u hpath => ?_⟩
    exact (path_invariant (fun v => Stranded v t)
      (fun v b v' _ hstep hv => stranded_step hstep hv) hpath hleft).waiting

/-- A task is posted and run, and then the pool is stopped. -/
def stoppedIdle : ThreadsPool :=
  (poolMachine twoThreads).after
    [.postBegin 0, .postPush 0, .logic 0 .loop, .logic 0 .pick, .stopBegin,
      .logic 0 (.applied (some .single)), .logic 0 .decrement, .logic 0 .loop, .logic 1 .loop,
      .stopEnd]

/-- Nothing is queued when the stop flag is set, and nothing is pushed after. -/
def Calm (single : TaskWrapper → Bool) (s : ThreadsPool) (a : PoolStep) : Prop :=
  returnsSingle single s a ∧ match a with
    | .stopBegin => s.inQueue = []
    | .postPush _ => s.stopFlag = false
    | _ => True

instance (single : TaskWrapper → Bool) (s : ThreadsPool) (a : PoolStep) :
    Decidable (Calm single s a) := by
  unfold Calm
  cases a <;> exact inferInstance

theorem releases_of_calm {single : TaskWrapper → Bool} {s : ThreadsPool} {a : PoolStep}
    (h : Calm single s a) : Releases single s a := by
  refine ⟨h.1, fun t _ hstrands => ?_⟩
  cases a with
  | stopBegin => exact absurd hstrands (by rw [strands, h.2]; exact List.not_mem_nil)
  | postPush j => exact absurd (hstrands.1.symm.trans h.2) Bool.noConfusion
  | _ => exact absurd hstrands id

theorem stop_releases_waiters_idle : (stoppedIdle.isStoped = true ∧
    .posted 0 ∈ stoppedIdle.trace) ∧ stoppedIdle.runned 0 = false :=
  ⟨by decide, (stop_releases_waiters twoThreads (fun _ => true) (path_weaken
    (fun _ _ => releases_of_calm) (reach_meets _ (by decide)))).1 (by decide) 0 rfl (by decide)⟩

/-- Task 0 is queued when the flag is set, and task 1 is posted before the joins
    are over. -/
def stoppedBusy : ThreadsPool :=
  (poolMachine twoThreads).after
    [.postBegin 0, .postPush 0, .stopBegin, .postBegin 1, .postPush 0, .logic 0 .loop,
      .logic 1 .loop, .stopEnd]

theorem stop_releases_waiters_stranded :
    (poolMachine twoThreads).Reach (returnsSingle fun _ => true) stoppedBusy ∧
      stoppedBusy.isStoped = true ∧
        ∀ t ∈ [0, 1], .posted t ∈ stoppedBusy.trace ∧ stoppedBusy.runned t = true :=
  ⟨reach_meets _ (by decide), by decide, by decide⟩

end Yaaf.Async
